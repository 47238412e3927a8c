import TextPipeline.Proofs.Program.Grammar

/-!
What a derivation consumes. The tokens after a construct matter to its derivation only where a name
could take the next one as an argument. So the same tokens spell the same construct before any
others that are no further argument for it (`termAt_consumes` and its companions).
-/

namespace TextPipeline.Grammar

/-- Wherever a name up to this line has an argument in the new tokens, it had one in the old. -/
def Allows (line : Nat) (old new : List Token) : Prop :=
  ∀ l ≤ line, StartsArgument l new → StartsArgument l old

lemma allows_of_not_starts {line : Nat} {old new : List Token} (h : ¬ StartsArgument line new) :
    Allows line old new := fun _ hl hnew => absurd (hnew.mono hl) h

lemma allows_append (line : Nat) {ts : List Token} (h : ts ≠ []) (old new : List Token) :
    Allows line (ts ++ old) (ts ++ new) := by
  cases ts with
  | nil => exact absurd rfl h
  | cons t ts => exact fun _ _ h => h

/-- The construct consists of the first tokens of the list, and consists of them before any other
tokens too that are allowed there. -/
def Consumes (spells : List Token → List Token → Prop) (ts rest : List Token) : Prop :=
  ∃ consumed, ts = consumed ++ rest ∧ (∀ t ∈ consumed, t.kind ≠ .theEnd) ∧
    ∀ line new, (∀ t ∈ consumed, t.line ≤ line) → Allows line rest new →
      spells (consumed ++ new) new

namespace Consumes

variable {P Q R : List Token → List Token → Prop} {ts mid rest : List Token} {t : Token}

lemma nil (h : ∀ ts, P ts ts) : Consumes P ts ts :=
  ⟨[], rfl, by simp, fun _ new _ _ => h new⟩

lemma cons (ht : t.kind ≠ .theEnd) (hc : Consumes P ts rest)
    (h : ∀ {ts new line}, t.line ≤ line → Allows line rest new → P ts new → Q (t :: ts) new) :
    Consumes Q (t :: ts) rest := by
  obtain ⟨consumed, rfl, hkinds, hspells⟩ := hc
  refine ⟨t :: consumed, rfl, List.forall_mem_cons.mpr ⟨ht, hkinds⟩, fun line new hlines hnew => ?_⟩
  obtain ⟨htline, hlines⟩ := List.forall_mem_cons.mp hlines
  exact h htline hnew (hspells line new hlines hnew)

lemma snoc (ht : t.kind ≠ .theEnd) (hc : Consumes P ts (t :: rest)) :
    Consumes (fun ts new => P ts (t :: new)) ts rest := by
  obtain ⟨consumed, rfl, hkinds, hspells⟩ := hc
  refine ⟨consumed ++ [t], by simp, by simpa [or_imp, forall_and] using ⟨hkinds, ht⟩, ?_⟩
  intro line new hlines _
  rw [List.append_assoc]
  exact hspells line (t :: new) (fun t ht => hlines t (List.mem_append_left _ ht))
    (allows_append line (List.cons_ne_nil t []) rest new)

lemma append (hp : Consumes P ts mid) (hq : Consumes Q mid rest)
    (h : ∀ {ts mid new}, P ts mid → Q mid new → R ts new) : Consumes R ts rest := by
  obtain ⟨first, rfl, hfirst, hspells⟩ := hp
  obtain ⟨second, rfl, hsecond, hspells'⟩ := hq
  refine ⟨first ++ second, by simp, ?_, fun line new hlines hnew => ?_⟩
  · exact fun t ht => (List.mem_append.mp ht).elim (hfirst t) (hsecond t)
  · have hallows : Allows line (second ++ rest) (second ++ new) := by
      cases second with
      | nil => exact hnew
      | cons t second => exact allows_append line (List.cons_ne_nil _ _) _ _
    rw [List.append_assoc]
    exact h (hspells line _ (fun t ht => hlines t (List.mem_append_left _ ht)) hallows)
      (hspells' line new (fun t ht => hlines t (List.mem_append_right _ ht)) hnew)

lemma and_starts {depth line : Nat} {arg : Term} (hc : Consumes (TermAt depth · arg ·) ts rest)
    (hterm : TermAt depth ts arg rest) (hs : StartsArgument line ts) :
    Consumes (fun ts new => StartsArgument line ts ∧ TermAt depth ts arg new) ts rest := by
  obtain ⟨_ | ⟨t, consumed⟩, rfl, hkinds, hspells⟩ := hc
  · exact absurd hterm.length_lt (Nat.lt_irrefl _)
  · exact ⟨t :: consumed, rfl, hkinds, fun line new hlines hnew =>
      ⟨hs, hspells line new hlines hnew⟩⟩

end Consumes

mutual

lemma termAt_consumes : ∀ {depth : Nat} {ts rest : List Token} {t : Term},
    TermAt depth ts t rest → Consumes (TermAt depth · t ·) ts rest
  | _, _, _, _, .literal hdepth hkind =>
    .cons (P := Eq) (by simp [hkind]) (.nil fun _ => rfl) fun _ _ h => h ▸ .literal hdepth hkind
  | _, _, _, _, .group hdepth hkind hmembers hclosing =>
    .cons (by simp [hkind]) ((membersAt_consumes hmembers).snoc (by simp [hclosing]))
      fun _ _ h => .group hdepth hkind h hclosing
  | _, _, _, _, .identifier hdepth hkind hmax =>
    .cons (P := Eq) (by simp [hkind]) (.nil fun _ => rfl) fun hline hallows h =>
      h ▸ .identifier hdepth hkind fun hs => hmax (hallows _ hline (h ▸ hs))
  | _, _, _, _, .call hdepth hkind hargs hmax =>
    .cons (by simp [hkind]) (argumentsAt_consumes hargs) fun hline hallows h =>
      .call hdepth hkind h fun hs => hmax (hallows _ hline hs)

lemma argumentsAt_consumes : ∀ {depth line : Nat} {ts rest : List Token} {args : List Term},
    ArgumentsAt depth line ts args rest → Consumes (ArgumentsAt depth line · args ·) ts rest
  | _, _, _, _, _, .nil => .nil fun _ => .nil
  | _, _, _, _, _, .cons hstarts harg hargs =>
    ((termAt_consumes harg).and_starts harg hstarts).append (argumentsAt_consumes hargs)
      fun h hrest => .cons h.1 h.2 hrest

lemma expressionAt_consumes : ∀ {depth : Nat} {ts rest : List Token} {e : Expression},
    ExpressionAt depth ts e rest → Consumes (ExpressionAt depth · e ·) ts rest
  | _, _, _, _, .pipeline hfirst hmore =>
    (termAt_consumes hfirst).append (stepsAt_consumes hmore) fun h hrest => by
      obtain ⟨_, _, hts, hline, -⟩ := hfirst.head
      obtain ⟨first, tail, rfl, hline', -⟩ := h.head
      rw [← (List.cons.inj hts).1] at hline
      rw [← hline, hline']
      exact .pipeline h hrest

lemma stepsAt_consumes : ∀ {depth : Nat} {ts rest : List Token} {more : List Term},
    StepsAt depth ts more rest → Consumes (StepsAt depth · more ·) ts rest
  | _, _, _, _, .nil => .nil fun _ => .nil
  | _, _, _, _, .cons hpipe hterm hmore =>
    .cons (by simp [hpipe]) ((termAt_consumes hterm).append (stepsAt_consumes hmore)
      fun h hrest => StepsAt.cons hpipe h hrest) fun _ _ h => h

lemma membersAt_consumes : ∀ {depth : Nat} {ts rest : List Token} {es : List Expression},
    MembersAt depth ts es rest → Consumes (MembersAt depth · es ·) ts rest
  | _, _, _, _, .none => .nil fun _ => .none
  | _, _, _, _, .some he hes =>
    (expressionAt_consumes he).append (furtherAt_consumes hes) fun h hrest => .some h hrest

lemma furtherAt_consumes : ∀ {depth : Nat} {ts rest : List Token} {es : List Expression},
    FurtherAt depth ts es rest → Consumes (FurtherAt depth · es ·) ts rest
  | _, _, _, _, .nil => .nil fun _ => .nil
  | _, _, _, _, .cons hsemicolon he hes =>
    .cons (by simp [hsemicolon]) ((expressionAt_consumes he).append (furtherAt_consumes hes)
      fun h hrest => FurtherAt.cons hsemicolon h hrest) fun _ _ h => h

end

lemma definitionAt_consumes {ts rest : List Token} {d : Definition} (h : DefinitionAt ts d rest) :
    Consumes (DefinitionAt · d ·) ts rest := by
  obtain ⟨hdefine, hname, hopening, hparameter, hclosing, hequals, hbody⟩ := h
  obtain ⟨consumed, rfl, hkinds, hspells⟩ := expressionAt_consumes hbody
  refine ⟨_ :: _ :: _ :: _ :: _ :: _ :: consumed, rfl, ?_, fun line new hlines hnew => ?_⟩
  · simpa [hdefine, hname, hopening, hparameter, hclosing, hequals] using hkinds
  · refine .mk hdefine hname hopening hparameter hclosing hequals (hspells line new ?_ hnew)
    exact fun t ht => hlines t (by simp [ht])

lemma definitionsAt_consumes {ts rest : List Token} {ds : List Definition}
    (h : DefinitionsAt ts ds rest) : Consumes (DefinitionsAt · ds ·) ts rest := by
  induction h with
  | nil => exact .nil fun _ => .nil
  | cons hd _ ih => exact (definitionAt_consumes hd).append ih .cons

end TextPipeline.Grammar
