import Mathlib.Data.List.Basic
import TextPipeline.Proofs.Program.Nodes
import TextPipeline.Proofs.Program.Unlimited

/-!
The limit on nesting. The parser does what the parser without a limit does, up to the first term at
the depth that is too deep (`CutShort`), which goes through all lists of terms by one rule for two
computations one after the other. So where no term is too deep both give the same, and otherwise the
first such term is the error (`ofTokens_unlimited_up_to_limit`).
-/

namespace TextPipeline

namespace Traced

variable {α β : Type}

lemma bind_of_done_ok {x : Traced α} {a : α} (h : x.outcome = .done (.ok a)) (f : α → Traced β) :
    x >>= f = ⟨x.starts ++ (f a).starts, (f a).outcome⟩ := by
  change bind x f = _
  rw [bind, h]

lemma bind_of_done_error {x : Traced α} {e : Error} (h : x.outcome = .done (.error e))
    (f : α → Traced β) : x >>= f = ⟨x.starts, .done (.error e)⟩ := by
  change bind x f = _
  rw [bind, h]

lemma cut_of_deep {limit : Nat} {x : Traced α} {s : Start}
    (h : x.starts.find? (·.depth = limit) = some s) :
    x.cut limit = .done (.error (s.token.fault .tooDeep)) := by
  rw [cut, h]

lemma cut_of_shallow {limit : Nat} {x : Traced α} (h : x.starts.find? (·.depth = limit) = none) :
    x.cut limit = x.outcome := by
  rw [cut, h]

section Bind

variable {limit : Nat} {x : Traced α} {y : Except Error α} {f : α → Traced β}
  {g : α → Except Error β}

lemma cut_bind_of_error {e : Error} (h : x.outcome = .done (.error e))
    (hcut : x.cut limit = .done y) : (x >>= f).cut limit = .done (y >>= g) := by
  rw [bind_of_done_error h]
  cases hfind : x.starts.find? (·.depth = limit) with
  | none =>
    rw [cut_of_shallow hfind, h] at hcut
    cases hcut
    exact cut_of_shallow hfind
  | some s =>
    rw [cut_of_deep hfind] at hcut
    cases hcut
    exact cut_of_deep hfind

lemma cut_bind_of_ok {a : α} (h : x.outcome = .done (.ok a)) (hcut : x.cut limit = .done y)
    (hnext : (f a).cut limit = .done (g a)) : (x >>= f).cut limit = .done (y >>= g) := by
  rw [bind_of_done_ok h]
  cases hfind : x.starts.find? (·.depth = limit) with
  | none =>
    rw [cut_of_shallow hfind, h] at hcut
    cases hcut
    rw [cut, List.find?_append, hfind]
    exact hnext
  | some s =>
    rw [cut_of_deep hfind] at hcut
    cases hcut
    exact cut_of_deep (by rw [List.find?_append, hfind]; rfl)

end Bind

end Traced

namespace Parser

open Traced (ofExcept start)

/-- On these tokens the computation `x` comes to its end, with what `left` says is left of them, and
starts terms from left to right only. Ended by the first term at the limit, it is `y`. -/
structure CutShort {α : Type} (limit : Nat) (left : α → List Token → Prop) (ts : List Token)
    (x : Traced α) (y : Except Error α) : Prop where
  finished : ∃ r, x.outcome = .done r
  passes : ∀ a, x.outcome = .done (.ok a) →
    ∃ rest, left a rest ∧ Ended rest ∧ rest <:+ ts ∧ ∀ s ∈ x.starts, rest.length ≤ s.rest.length
  within : ∀ s ∈ x.starts, s.token :: s.rest <:+ ts
  ordered : x.starts.Pairwise fun s later => later.rest.length < s.rest.length
  cut : x.cut limit = .done y

namespace CutShort

variable {α β : Type} {limit : Nat} {left : α → List Token → Prop} {left' : β → List Token → Prop}
  {ts : List Token} {x : Traced α} {y : Except Error α}

lemma pure {a : α} (h : left a ts) (hts : Ended ts) :
    CutShort limit left ts (Pure.pure a) (.ok a) where
  finished := ⟨_, rfl⟩
  passes := by
    rintro _ ⟨⟩
    exact ⟨ts, h, hts, List.suffix_refl ts, fun s hs => nomatch hs⟩
  within := fun s hs => nomatch hs
  ordered := .nil
  cut := rfl

lemma ofExcept (h : ∀ a, y = .ok a → ∃ rest, left a rest ∧ Ended rest ∧ rest <:+ ts) :
    CutShort limit left ts (ofExcept y) y where
  finished := ⟨_, rfl⟩
  passes := by
    rintro a ⟨⟩
    obtain ⟨rest, hrest, hended, hsuffix⟩ := h a rfl
    exact ⟨rest, hrest, hended, hsuffix, fun s hs => nomatch hs⟩
  within := fun s hs => nomatch hs
  ordered := .nil
  cut := rfl

lemma error (e : Error) : CutShort limit left ts (Traced.ofExcept (.error e)) (.error e) :=
  .ofExcept fun a ha => by cases ha

lemma mono {more : List Token} (h : CutShort limit left ts x y) (hts : ts <:+ more) :
    CutShort limit left more x y where
  finished := h.finished
  passes := fun a ha => by
    obtain ⟨rest, hrest, hended, hsuffix, hstarts⟩ := h.passes a ha
    exact ⟨rest, hrest, hended, hsuffix.trans hts, hstarts⟩
  within := fun s hs => (h.within s hs).trans hts
  ordered := h.ordered
  cut := h.cut

lemma bind {f : α → Traced β} {g : α → Except Error β} (h : CutShort limit left ts x y)
    (hf : ∀ a rest, left a rest → Ended rest → rest <:+ ts →
      CutShort limit left' rest (f a) (g a)) :
    CutShort limit left' ts (x >>= f) (y >>= g) := by
  obtain ⟨r, hr⟩ := h.finished
  cases r with
  | error e =>
    -- an error of the first computation ends both
    have hcut := Traced.cut_bind_of_error (f := f) (g := g) hr h.cut
    rw [Traced.bind_of_done_error hr f] at hcut ⊢
    exact ⟨⟨_, rfl⟩, fun a ha => (nomatch ha), h.within, h.ordered, hcut⟩
  | ok a =>
    obtain ⟨rest, hleft, hended, hsuffix, hstarts⟩ := h.passes a hr
    have hnext := hf a rest hleft hended hsuffix
    have hcut := Traced.cut_bind_of_ok hr h.cut hnext.cut
    rw [Traced.bind_of_done_ok hr f] at hcut ⊢
    refine ⟨hnext.finished, fun b hb => ?_, fun s hs => ?_, ?_, hcut⟩
    · -- what is left after both computations
      obtain ⟨rest', hleft', hended', hsuffix', hstarts'⟩ := hnext.passes b hb
      refine ⟨rest', hleft', hended', hsuffix'.trans hsuffix, fun s hs => ?_⟩
      rcases List.mem_append.mp hs with hs | hs
      · exact Nat.le_trans hsuffix'.length_le (hstarts s hs)
      · exact hstarts' s hs
    · -- the terms of both are on the tokens
      rcases List.mem_append.mp hs with hs | hs
      · exact h.within s hs
      · exact (hnext.within s hs).trans hsuffix
    · -- those of the second start after those of the first
      refine List.pairwise_append.mpr ⟨h.ordered, hnext.ordered, fun s hs later hlater => ?_⟩
      have hfirst := hstarts s hs
      have hsecond := (hnext.within later hlater).length_le
      rw [List.length_cons] at hsecond
      omega

lemma recut {other : Nat} {y' : Except Error α} (h : CutShort other left ts x y)
    (hcut : x.cut limit = .done y') : CutShort limit left ts x y' :=
  ⟨h.finished, h.passes, h.within, h.ordered, hcut⟩

lemma start_shallow {depth : Nat} {t : Token} (h : CutShort limit left ts x y)
    (hdepth : depth ≠ limit) :
    CutShort limit left (t :: ts) (start depth t ts >>= fun _ => x) y where
  finished := h.finished
  passes := fun a ha => by
    obtain ⟨rest, hleft, hended, hsuffix, hstarts⟩ := h.passes a ha
    exact ⟨rest, hleft, hended, hsuffix.trans (List.suffix_cons t ts),
      List.forall_mem_cons.mpr ⟨hsuffix.length_le, hstarts⟩⟩
  within := List.forall_mem_cons.mpr
    ⟨List.suffix_refl _, fun s hs => (h.within s hs).trans (List.suffix_cons t ts)⟩
  ordered := List.pairwise_cons.mpr ⟨fun s hs => (h.within s hs).length_le, h.ordered⟩
  cut := by
    have hfind : (⟨depth, t, ts⟩ :: x.starts).find? (·.depth = limit) =
        x.starts.find? (·.depth = limit) := List.find?_cons_of_neg (by simpa using hdepth)
    rw [← h.cut, Traced.cut, Traced.cut, ← hfind]
    rfl

end CutShort

/-- The cursor is before these tokens. -/
def Leaves {α : Type} (last : Option Token) (a : α × Cursor) (rest : List Token) : Prop :=
  a.2 = ⟨rest, last⟩

lemma expect_cutShort {limit : Nat} {ts : List Token} {last : Option Token} {kind : TokenKind}
    {wanted : GrammarFault} (hts : Ended ts) (hkind : kind ≠ .theEnd) :
    CutShort limit (Leaves last) ts (ofExcept ((⟨ts, last⟩ : Cursor).expect kind wanted))
      ((⟨ts, last⟩ : Cursor).expect kind wanted) := by
  refine .ofExcept fun a ha => ?_
  obtain ⟨rest, rfl, -, hc, hrest⟩ := expect_ok hts hkind ha
  exact ⟨rest, hc, hrest, List.suffix_cons _ _⟩

lemma CutShort.cons {α : Type} {limit : Nat} {ts : List Token} {last : Option Token}
    {x : Traced (α × Cursor)} {y : Except Error (α × Cursor)}
    {more : Cursor → Traced (List α × Cursor)} {more' : Cursor → Except Error (List α × Cursor)}
    (h : CutShort limit (Leaves last) ts x y)
    (hmore : ∀ rest, Ended rest → rest <:+ ts →
      CutShort limit (Leaves last) rest (more ⟨rest, last⟩) (more' ⟨rest, last⟩)) :
    CutShort limit (Leaves last) ts
      (x >>= fun a => more a.2 >>= fun as => Pure.pure (a.1 :: as.1, as.2))
      (y >>= fun a => more' a.2 >>= fun as => .ok (a.1 :: as.1, as.2)) := by
  refine h.bind ?_
  rintro ⟨a, _⟩ mid rfl hmid hsuffix
  refine (hmore mid hmid hsuffix).bind ?_
  rintro ⟨as, _⟩ rest rfl hrest -
  exact .pure rfl hrest

/-- Up to a number of tokens, one reader is the other cut short. -/
def ReadsAlike (limit bound : Nat) (read : Unlimited.TermReader) (read' : TermReader) : Prop :=
  ∀ {ts last}, Ended ts → ts.length ≤ bound →
    CutShort limit (Leaves last) ts (read ⟨ts, last⟩) (read' ⟨ts, last⟩)

section Readers

variable {limit bound : Nat} {read : Unlimited.TermReader} {read' : TermReader}
  (hread : ReadsAlike limit bound read read') {ts : List Token} {last : Option Token}
include hread

lemma steps_cutShort (rounds : Nat) (hts : Ended ts) (hbound : ts.length ≤ bound) :
    CutShort limit (Leaves last) ts (Unlimited.steps read rounds ⟨ts, last⟩)
      (steps read' rounds ⟨ts, last⟩) := by
  induction rounds generalizing ts with
  | zero => exact .pure rfl hts
  | succ rounds ih =>
    rw [Unlimited.steps, steps]
    split
    · rename_i hsees
      obtain ⟨pipe, tail, rfl, hpipe⟩ := exists_of_sees hsees
      have htail := hts.tail (by simp [hpipe])
      have hbound := Nat.le_of_succ_le hbound
      refine CutShort.mono ?_ (List.suffix_cons pipe tail)
      exact (hread htail hbound).cons fun rest hrest hsuffix =>
        ih hrest (Nat.le_trans hsuffix.length_le hbound)
    · exact .pure rfl hts

lemma expression_cutShort (hts : Ended ts) (hbound : ts.length ≤ bound) :
    CutShort limit (Leaves last) ts (Unlimited.expression read ⟨ts, last⟩)
      (expression read' ⟨ts, last⟩) := by
  refine (hread hts hbound).bind ?_
  rintro ⟨first, _⟩ mid rfl hmid hsuffix
  refine (steps_cutShort hread _ hmid (Nat.le_trans hsuffix.length_le hbound)).bind ?_
  rintro ⟨more, _⟩ rest rfl hrest -
  exact .pure rfl hrest

lemma furtherMembers_cutShort (rounds : Nat) (hts : Ended ts) (hbound : ts.length ≤ bound) :
    CutShort limit (Leaves last) ts (Unlimited.furtherMembers read rounds ⟨ts, last⟩)
      (furtherMembers read' rounds ⟨ts, last⟩) := by
  induction rounds generalizing ts with
  | zero => exact .pure rfl hts
  | succ rounds ih =>
    rw [Unlimited.furtherMembers, furtherMembers]
    split
    · rename_i hsees
      obtain ⟨semicolon, tail, rfl, hsemicolon⟩ := exists_of_sees hsees
      have htail := hts.tail (by simp [hsemicolon])
      have hbound := Nat.le_of_succ_le hbound
      refine CutShort.mono ?_ (List.suffix_cons semicolon tail)
      exact (expression_cutShort hread htail hbound).cons fun rest hrest hsuffix =>
        ih hrest (Nat.le_trans hsuffix.length_le hbound)
    · exact .pure rfl hts

lemma members_cutShort (hts : Ended ts) (hbound : ts.length ≤ bound) :
    CutShort limit (Leaves last) ts (Unlimited.members read ⟨ts, last⟩)
      (members read' ⟨ts, last⟩) := by
  rw [Unlimited.members, members]
  split
  · exact .pure rfl hts
  · refine (expression_cutShort hread hts hbound).bind ?_
    rintro ⟨e, _⟩ mid rfl hmid hsuffix
    refine (furtherMembers_cutShort hread _ hmid (Nat.le_trans hsuffix.length_le hbound)).bind ?_
    rintro ⟨es, _⟩ rest rfl hrest -
    exact .pure rfl hrest

lemma arguments_cutShort (line rounds : Nat) (hts : Ended ts) (hbound : ts.length ≤ bound) :
    CutShort limit (Leaves last) ts (Unlimited.arguments read line rounds ⟨ts, last⟩)
      (arguments read' line rounds ⟨ts, last⟩) := by
  induction rounds generalizing ts with
  | zero => exact .pure rfl hts
  | succ rounds ih =>
    rw [Unlimited.arguments, arguments]
    split
    · exact (hread hts hbound).cons fun rest hrest hsuffix =>
        ih hrest (Nat.le_trans hsuffix.length_le hbound)
    · exact .pure rfl hts

end Readers

lemma term_cutShort_of_lt {limit bound depth levels : Nat} {t : Token} {rest : List Token}
    {last : Option Token}
    (hread : ReadsAlike limit bound (Unlimited.term bound (depth + 1)) (term levels))
    (hdepth : depth ≠ limit) (hts : Ended (t :: rest)) (hbound : rest.length ≤ bound) :
    CutShort limit (Leaves last) (t :: rest) (Unlimited.term (bound + 1) depth ⟨t :: rest, last⟩)
      (term (levels + 1) ⟨t :: rest, last⟩) := by
  rw [term, bind_of_ok (peek_cons t rest last)]
  refine CutShort.start_shallow ?_ hdepth
  cases hkind : t.kind <;> simp only
  case openBrace =>
    have hrest := hts.tail (by simp [hkind])
    refine (members_cutShort hread hrest hbound).bind ?_
    rintro ⟨es, _⟩ mid rfl hmid -
    refine (expect_cutShort hmid (by decide)).bind ?_
    rintro ⟨closing, _⟩ rest rfl hrest -
    exact .pure rfl hrest
  case ident =>
    have hrest := hts.tail (by simp [hkind])
    refine (arguments_cutShort hread _ _ hrest hbound).bind ?_
    rintro ⟨args, _⟩ rest rfl hrest -
    exact .pure rfl hrest
  case literal => exact .pure rfl (hts.tail (by simp [hkind]))
  all_goals exact .error _

lemma term_cutShort (bound : Nat) {limit depth levels : Nat} (hlevels : depth + levels = limit) :
    ReadsAlike limit bound (Unlimited.term bound depth) (term levels) := by
  induction bound generalizing limit depth levels with
  | zero =>
    intro ts last hts hbound
    cases List.length_eq_zero_iff.mp (Nat.le_zero.mp hbound)
    cases hts
  | succ bound ih =>
    intro ts last hts hbound
    obtain ⟨t, rest, rfl⟩ : ∃ t rest, ts = t :: rest := by cases hts <;> exact ⟨_, _, rfl⟩
    have hbound : rest.length ≤ bound := Nat.le_of_succ_le_succ hbound
    cases levels with
    | succ levels =>
      exact term_cutShort_of_lt (ih (by omega)) (by omega) hts hbound
    | zero =>
      -- this term is too deep; that it comes to an end is known from a limit one level down
      have hread : ReadsAlike (depth + 1) bound (Unlimited.term bound (depth + 1)) (term 0) :=
        ih (Nat.add_zero (depth + 1))
      refine (term_cutShort_of_lt hread (Nat.succ_ne_self depth).symm hts hbound).recut ?_
      have hdeep : decide (depth = limit) = true := by simpa using hlevels
      exact Traced.cut_of_deep (s := ⟨depth, t, rest⟩) (List.find?_cons_of_pos hdeep)

/-! ### Programs -/

section Program

variable {bound : Nat} {ts : List Token} {last : Option Token}

lemma topExpression_cutShort (hts : Ended ts) (hbound : ts.length ≤ bound) :
    CutShort maxNesting (Leaves last) ts (Unlimited.expression (Unlimited.term bound 0) ⟨ts, last⟩)
      (expression (term maxNesting) ⟨ts, last⟩) :=
  expression_cutShort (term_cutShort bound (Nat.zero_add maxNesting)) hts hbound

lemma expect_bind_cutShort {α : Type} {kind : TokenKind} {wanted : GrammarFault}
    {left : α → List Token → Prop} {f : Token × Cursor → Traced α}
    {g : Token × Cursor → Except Error α} (hkind : kind ≠ .theEnd) (hts : Ended ts)
    (hbound : ts.length ≤ bound)
    (h : ∀ t rest, Ended rest → rest.length ≤ bound →
      CutShort maxNesting left rest (f (t, ⟨rest, last⟩)) (g (t, ⟨rest, last⟩))) :
    CutShort maxNesting left ts (ofExcept ((⟨ts, last⟩ : Cursor).expect kind wanted) >>= f)
      ((⟨ts, last⟩ : Cursor).expect kind wanted >>= g) := by
  refine (expect_cutShort hts hkind).bind ?_
  rintro ⟨t, _⟩ rest rfl hrest hsuffix
  exact h t rest hrest (Nat.le_trans hsuffix.length_le hbound)

lemma definition_cutShort (hts : Ended ts) (hbound : ts.length ≤ bound) :
    CutShort maxNesting (Leaves last) ts (Unlimited.definition bound ⟨ts, last⟩)
      (definition ⟨ts, last⟩) := by
  refine expect_bind_cutShort (by decide) hts hbound fun name ts hts hbound => ?_
  refine expect_bind_cutShort (by decide) hts hbound fun _ ts hts hbound => ?_
  refine expect_bind_cutShort (by decide) hts hbound fun parameter ts hts hbound => ?_
  refine expect_bind_cutShort (by decide) hts hbound fun _ ts hts hbound => ?_
  refine expect_bind_cutShort (by decide) hts hbound fun equals ts hts hbound => ?_
  refine (topExpression_cutShort hts hbound).bind ?_
  rintro ⟨body, _⟩ rest rfl hrest -
  exact .pure rfl hrest

lemma definitions_cutShort (rounds : Nat) (hts : Ended ts) (hbound : ts.length ≤ bound) :
    CutShort maxNesting (Leaves last) ts (Unlimited.definitions bound rounds ⟨ts, last⟩)
      (definitions rounds ⟨ts, last⟩) := by
  induction rounds generalizing ts with
  | zero => exact .pure rfl hts
  | succ rounds ih =>
    rw [Unlimited.definitions, definitions]
    split
    · rename_i hsees
      obtain ⟨define, tail, rfl, hdefine⟩ := exists_of_sees hsees
      have htail := hts.tail (by simp [hdefine])
      have hbound := Nat.le_of_succ_le hbound
      refine CutShort.mono ?_ (List.suffix_cons define tail)
      exact (definition_cutShort htail hbound).cons fun rest hrest hsuffix =>
        ih hrest (Nat.le_trans hsuffix.length_le hbound)
    · exact .pure rfl hts

lemma ofTokens_cutShort (hts : Ended ts) (hbound : ts.length ≤ bound) :
    CutShort maxNesting (fun _ rest => ∃ theEnd, rest = [theEnd]) ts (Unlimited.ofTokens bound ts)
      (Program.ofTokens ts) := by
  refine (definitions_cutShort _ hts hbound).bind ?_
  rintro ⟨ds, _⟩ mid rfl hmid hsuffix
  refine (topExpression_cutShort hmid (Nat.le_trans hsuffix.length_le hbound)).bind ?_
  rintro ⟨e, _⟩ rest rfl hrest -
  have hend : CutShort maxNesting (fun _ rest => ∃ theEnd, rest = [theEnd]) rest
      (ofExcept ((⟨rest, ts.getLast?⟩ : Cursor).expect .theEnd .endOfInput))
      ((⟨rest, ts.getLast?⟩ : Cursor).expect .theEnd .endOfInput) := by
    refine .ofExcept fun found hfound => ⟨rest, ?_, hrest, List.suffix_refl rest⟩
    obtain ⟨theEnd, hone, -⟩ := expect_theEnd hrest hfound
    exact ⟨theEnd, hone⟩
  exact hend.bind fun _ rest hone hrest _ => .pure hone hrest

end Program

/-! ### Nested braces -/

section Braces

open Grammar

variable {opening closing : List Token} (hopening : ∀ t ∈ opening, t.kind = .openBrace)
  (hclosing : ∀ t ∈ closing, t.kind = .closeBrace)
include hopening hclosing

lemma exists_termAt_of_braces {depth : Nat} (hlength : closing.length = opening.length)
    (hne : opening ≠ []) (hdepth : depth + opening.length ≤ maxNesting) (rest : List Token) :
    ∃ t, TermAt depth (opening ++ (closing ++ rest)) t rest := by
  induction opening generalizing closing depth rest with
  | nil => exact absurd rfl hne
  | cons first opening ih =>
    obtain ⟨hfirst, hopening⟩ := List.forall_mem_cons.mp hopening
    rcases List.eq_nil_or_concat' closing with rfl | ⟨closing, last, rfl⟩
    · cases hlength
    obtain ⟨hclosing, hlast⟩ := List.forall_mem_append.mp hclosing
    have hlast : last.kind = .closeBrace := hlast last List.mem_cons_self
    have hlevel : depth ≤ maxDepth := by
      rw [maxNesting, List.length_cons] at hdepth
      rw [maxDepth]
      omega
    have hlength : closing.length = opening.length := by simpa using hlength
    have hdepth : depth + 1 + opening.length ≤ maxNesting := by
      rw [List.length_cons] at hdepth
      omega
    rw [List.append_assoc, List.singleton_append]
    cases opening with
    | nil =>
      cases List.length_eq_zero_iff.mp hlength
      exact ⟨_, .group hlevel hfirst .none hlast⟩
    | cons second opening =>
      obtain ⟨inner, hinner⟩ :=
        ih hopening hclosing hlength (List.cons_ne_nil _ _) hdepth (last :: rest)
      exact ⟨_, .group hlevel hfirst (.some (.pipeline hinner .nil) .nil) hlast⟩

lemma exists_ofTokens_of_braces {theEnd : Token} (hend : theEnd.kind = .theEnd)
    (hlength : closing.length = opening.length) (hne : opening ≠ [])
    (hdepth : opening.length ≤ maxNesting) :
    ∃ p, Program.ofTokens (opening ++ closing ++ [theEnd]) = .ok p := by
  obtain ⟨t, ht⟩ := exists_termAt_of_braces hopening hclosing hlength hne
    (Nat.zero_add opening.length ▸ hdepth) [theEnd]
  obtain ⟨first, opening, rfl⟩ := List.exists_cons_of_ne_nil hne
  have hfirst : first.kind = .openBrace := hopening first List.mem_cons_self
  rw [List.append_assoc]
  refine ⟨⟨[], .pipeline [t] first.line⟩, ofTokens_of_spells ⟨_, theEnd, .nil, ?_, ?_, hend⟩⟩
  · simp [hfirst]
  · exact .pipeline ht .nil

end Braces

/-- **The limit on nesting changes nothing but the limit.** The parser without a limit comes to an
end, and starts terms from left to right only. If it starts none at depth 256, the parser gives what
it gives, a program or an error. Otherwise the parser refuses the first token at which it starts
one. So the terms of a program are at depths up to 255, and 256 braces around nothing are a
program. -/
theorem ofTokens_unlimited_up_to_limit {ts : List Token} {theEnd : Token} {levels : Nat}
    (hts : ∀ t ∈ ts, t.kind ≠ .theEnd) (hend : theEnd.kind = .theEnd)
    (hlevels : (ts ++ [theEnd]).length ≤ levels) :
    ∃ starts result, Unlimited.ofTokens levels (ts ++ [theEnd]) = ⟨starts, .done result⟩ ∧
      (∀ s ∈ starts, s.token :: s.rest <:+ ts ++ [theEnd]) ∧
      starts.Pairwise (fun s later => later.rest.length < s.rest.length) ∧
      ((∀ s ∈ starts, s.depth ≠ 256) → Program.ofTokens (ts ++ [theEnd]) = result) ∧
      (∀ s, starts.find? (·.depth = 256) = some s →
        ∃ e, Program.ofTokens (ts ++ [theEnd]) = .error e ∧ e = s.token.fault .tooDeep ∧
          e.diagnostic = .grammar s.token.line ("Error at " ++
            (if s.token.kind = .theEnd then "end" else "'" ++ s.token.lexeme ++ "'") ++ ": " ++
              "Expression nested too deeply")) ∧
      (∀ p, Program.ofTokens (ts ++ [theEnd]) = .ok p →
        ∀ depth t, .term depth t ∈ p.nodes → depth ≤ 255) ∧
      ∀ opening closing : List Token, (∀ t ∈ opening, t.kind = .openBrace) →
        (∀ t ∈ closing, t.kind = .closeBrace) → opening.length = 256 → closing.length = 256 →
        ∃ p, Program.ofTokens (opening ++ closing ++ [theEnd]) = .ok p := by
  have hended := ended_append hts hend
  have hcut := ofTokens_cutShort hended hlevels
  generalize Unlimited.ofTokens levels (ts ++ [theEnd]) = run at hcut ⊢
  obtain ⟨starts, outcome⟩ := run
  obtain ⟨⟨result, rfl⟩, -, hwithin, hordered, hcut⟩ := hcut
  refine ⟨starts, result, rfl, hwithin, hordered, fun hshallow => ?_, fun s hs => ?_,
    fun p hp depth t ht => (spells_of_ofTokens hended hp).depth_le ht, ?_⟩
  · -- no term is started at the limit, so nothing is cut off
    have hnone : starts.find? (·.depth = maxNesting) = none :=
      List.find?_eq_none.mpr fun s hs hdeep => hshallow s hs (of_decide_eq_true hdeep)
    exact (Outcome.done.inj ((Traced.cut_of_shallow hnone).symm.trans hcut)).symm
  · -- the first term at the limit is where the computation is cut off
    have hdeep : Program.ofTokens (ts ++ [theEnd]) = .error (s.token.fault .tooDeep) :=
      (Outcome.done.inj ((Traced.cut_of_deep hs).symm.trans hcut)).symm
    exact ⟨_, hdeep, rfl, diagnostic_fault s.token .tooDeep⟩
  · -- braces around nothing, as many as there are levels
    intro opening closing hopening hclosing hlength hlength'
    exact exists_ofTokens_of_braces hopening hclosing hend (hlength'.trans hlength.symm)
      (List.ne_nil_of_length_pos (by omega)) (Nat.le_of_eq hlength)

/-- Braces that open, one on each line, and do not close. -/
def openBraces : List Token := (List.range 257).map fun i => ⟨.openBrace, "\x7b", i + 1⟩

/-- Without the limit the last of them and the end would start terms as well. -/
theorem openBraces_too_deep :
    (∀ t ∈ openBraces, t.kind ≠ .theEnd) ∧
    (Unlimited.ofTokens 258 (openBraces ++ [⟨.theEnd, "", 258⟩])).starts.map (·.depth) =
      List.range 258 ∧
    Program.ofTokens (openBraces ++ [⟨.theEnd, "", 258⟩]) =
      .error (.grammar 257 (.token "\x7b") .tooDeep) := by
  have hts : ∀ t ∈ openBraces, t.kind ≠ .theEnd := by simp [openBraces]
  obtain ⟨starts, result, hrun, -, -, -, hdeep, -⟩ :=
    @ofTokens_unlimited_up_to_limit openBraces ⟨.theEnd, "", 258⟩ 258 hts rfl (by simp [openBraces])
  have hstarts : (Unlimited.ofTokens 258 (openBraces ++ [⟨.theEnd, "", 258⟩])).starts = starts :=
    congrArg Traced.starts hrun
  have hfirst : starts.find? (·.depth = 256) =
      some ⟨256, ⟨.openBrace, "\x7b", 257⟩, [⟨.theEnd, "", 258⟩]⟩ := by
    rw [← hstarts]
    decide +kernel
  obtain ⟨e, he, rfl, -⟩ := hdeep _ hfirst
  exact ⟨hts, by decide +kernel, he⟩

end Parser

end TextPipeline
