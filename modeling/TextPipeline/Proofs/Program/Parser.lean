import TextPipeline.Program.Parser
import TextPipeline.Proofs.Outcome
import TextPipeline.Proofs.Program.Grammar

/-!
The parser follows the grammar: it accepts what the rules derive and nothing else
(`ofTokens_ok_iff_spells`). Both directions go by the number of levels left; at each level the
lists of terms are read with a reader of which the same is known one level down.
-/

namespace TextPipeline.Parser

open Grammar

inductive Ended : List Token → Prop
  | last {t} : t.kind = .theEnd → Ended [t]
  | cons {t ts} : t.kind ≠ .theEnd → Ended ts → Ended (t :: ts)

lemma Ended.tail {t : Token} {ts : List Token} (h : Ended (t :: ts)) (ht : t.kind ≠ .theEnd) :
    Ended ts := by
  cases h with
  | last hend => exact absurd hend ht
  | cons _ h => exact h

lemma Ended.of_passes {ts rest : List Token} (h : Ended ts) (hp : Passes ts rest) :
    Ended rest := by
  obtain ⟨passed, hpassed, rfl⟩ := hp
  induction passed with
  | nil => exact h
  | cons t passed ih =>
    have htail : Ended (passed ++ rest) := h.tail (hpassed t List.mem_cons_self)
    exact ih (fun t ht => hpassed t (List.mem_cons_of_mem _ ht)) htail

lemma ended_append {ts : List Token} {theEnd : Token} (hts : ∀ t ∈ ts, t.kind ≠ .theEnd)
    (hend : theEnd.kind = .theEnd) : Ended (ts ++ [theEnd]) := by
  induction ts with
  | nil => exact .last hend
  | cons t ts ih =>
    exact .cons (hts t List.mem_cons_self) (ih fun t ht => hts t (List.mem_cons_of_mem _ ht))

lemma diagnostic_fault (t : Token) (fault : GrammarFault) :
    (t.fault fault).diagnostic = .grammar t.line
      ("Error at " ++ (if t.kind = .theEnd then "end" else "'" ++ t.lexeme ++ "'") ++ ": " ++
        fault.message) := by
  rw [Token.fault, Error.diagnostic]
  split <;> rfl

/-! ### The cursor -/

section Cursor

variable {ts : List Token} {last : Option Token} {t : Token} {kind : TokenKind}

lemma peek_cons (t : Token) (ts : List Token) (last : Option Token) :
    (⟨t :: ts, last⟩ : Cursor).peek = .ok t := rfl

lemma sees_iff : (⟨ts, last⟩ : Cursor).sees kind = true ↔ kindAhead ts = some kind := by
  cases ts <;> simp [Cursor.sees, kindAhead]

lemma sees_of_kind (h : t.kind = kind) : (⟨t :: ts, last⟩ : Cursor).sees kind = true :=
  sees_iff.mpr (congrArg some h)

lemma exists_of_sees (h : (⟨ts, last⟩ : Cursor).sees kind = true) :
    ∃ t tail, ts = t :: tail ∧ t.kind = kind := by
  cases ts with
  | nil => cases h
  | cons t tail => exact ⟨t, tail, rfl, by simpa [sees_iff] using h⟩

lemma not_kindAhead_of_sees (h : ¬ (⟨ts, last⟩ : Cursor).sees kind = true) :
    kindAhead ts ≠ some kind := fun hk => h (sees_iff.mpr hk)

lemma startsArgument_iff {line : Nat} :
    startsArgument line ⟨ts, last⟩ = true ↔ StartsArgument line ts := by
  cases ts <;> simp [startsArgument, StartsArgument, StartsTerm, or_assoc]

lemma expect_ok {wanted : GrammarFault} {found : Token} {c : Cursor} (hts : Ended ts)
    (hkind : kind ≠ .theEnd) (h : (⟨ts, last⟩ : Cursor).expect kind wanted = .ok (found, c)) :
    ∃ rest, ts = found :: rest ∧ found.kind = kind ∧ c = ⟨rest, last⟩ ∧ Ended rest := by
  cases ts with
  | nil => cases hts
  | cons t rest =>
    obtain ⟨_, hpeek, h⟩ := ok_of_bind h
    cases hpeek
    rw [if_neg hkind] at h
    split at h
    · -- another token stands there, and the error is thrown
      cases h
    · rename_i hk
      cases h
      have hk := not_not.mp hk
      exact ⟨rest, rfl, hk, rfl, hts.tail (hk ▸ hkind)⟩

lemma expect_of_kind {wanted : GrammarFault} (h : t.kind = kind) (hkind : kind ≠ .theEnd) :
    (⟨t :: ts, last⟩ : Cursor).expect kind wanted = .ok (t, ⟨ts, last⟩) := by
  change (if t.kind ≠ kind then _ else if kind = .theEnd then _ else _) = _
  rw [if_neg (not_not.mpr h), if_neg hkind]
  rfl

lemma expect_of_kind_ne {wanted : GrammarFault} (h : t.kind ≠ kind) :
    (⟨t :: ts, last⟩ : Cursor).expect kind wanted = .error (t.fault wanted) := if_pos h

lemma expect_error {wanted : GrammarFault} {e : Error} (hts : Ended ts)
    (h : (⟨ts, last⟩ : Cursor).expect kind wanted = .error e) :
    ∃ t rest, ts = t :: rest ∧ t.kind ≠ kind ∧ e = t.fault wanted := by
  cases ts with
  | nil => cases hts
  | cons t rest =>
    by_cases hkind : t.kind = kind
    · change (if t.kind ≠ kind then _ else if kind = .theEnd then _ else _) = _ at h
      rw [if_neg (not_not.mpr hkind)] at h
      split at h <;> cases h
    · cases h.symm.trans (expect_of_kind_ne hkind)
      exact ⟨t, rest, rfl, hkind, rfl⟩

end Cursor

/-! ### Soundness -/

/-- Whatever the reader reads is a term at this depth. -/
def Sound (read : TermReader) (depth : Nat) : Prop :=
  ∀ {ts last t c}, Ended ts → read ⟨ts, last⟩ = .ok (t, c) →
    ∃ rest, c = ⟨rest, last⟩ ∧ TermAt depth ts t rest

section Sound

variable {read : TermReader} {depth : Nat} (hread : Sound read depth) {ts : List Token}
  {last : Option Token} {c : Cursor}
include hread

lemma steps_sound {rounds : Nat} {more : List Term} (hts : Ended ts)
    (h : steps read rounds ⟨ts, last⟩ = .ok (more, c)) :
    ∃ rest, c = ⟨rest, last⟩ ∧ StepsAt depth ts more rest := by
  induction rounds generalizing ts more with
  | zero =>
    cases h
    exact ⟨ts, rfl, .nil⟩
  | succ rounds ih =>
    rw [steps] at h
    split at h
    · -- a pipe, and a step after it
      rename_i hsees
      obtain ⟨pipe, tail, rfl, hpipe⟩ := exists_of_sees hsees
      obtain ⟨⟨t, _⟩, hr₁, h⟩ := ok_of_bind h
      obtain ⟨⟨more', _⟩, hr₂, h⟩ := ok_of_bind h
      cases h
      have htail := hts.tail (by simp [hpipe])
      obtain ⟨mid, rfl, hterm⟩ := hread htail hr₁
      obtain ⟨rest, rfl, hmore⟩ := ih (htail.of_passes hterm.passes) hr₂
      exact ⟨rest, rfl, .cons hpipe hterm hmore⟩
    · cases h
      exact ⟨ts, rfl, .nil⟩

lemma expression_sound {e : Expression} (hts : Ended ts)
    (h : expression read ⟨ts, last⟩ = .ok (e, c)) :
    ∃ rest, c = ⟨rest, last⟩ ∧ ExpressionAt depth ts e rest := by
  obtain ⟨⟨first, _⟩, hr₁, h⟩ := ok_of_bind h
  obtain ⟨⟨more, _⟩, hr₂, h⟩ := ok_of_bind h
  cases h
  obtain ⟨mid, rfl, hfirst⟩ := hread hts hr₁
  obtain ⟨rest, rfl, hmore⟩ := steps_sound hread (hts.of_passes hfirst.passes) hr₂
  obtain ⟨t, tail, rfl, hline, -⟩ := hfirst.head
  exact ⟨rest, rfl, hline ▸ .pipeline hfirst hmore⟩

lemma steps_maximal {rounds : Nat} {more : List Term} {rest : List Token} (hts : Ended ts)
    (hrounds : ts.length ≤ rounds)
    (h : steps read rounds ⟨ts, last⟩ = .ok (more, ⟨rest, last⟩)) :
    kindAhead rest ≠ some .pipe := by
  induction rounds generalizing ts more with
  | zero =>
    cases List.length_eq_zero_iff.mp (Nat.le_zero.mp hrounds)
    cases hts
  | succ rounds ih =>
    rw [steps] at h
    split at h
    · -- a pipe was passed, so there is a round for every token of the rest
      rename_i hsees
      obtain ⟨pipe, tail, rfl, hpipe⟩ := exists_of_sees hsees
      obtain ⟨⟨t, _⟩, hr₁, h⟩ := ok_of_bind h
      obtain ⟨⟨more', _⟩, hr₂, h⟩ := ok_of_bind h
      cases h
      have htail := hts.tail (by simp [hpipe])
      obtain ⟨mid, rfl, hterm⟩ := hread htail hr₁
      have hlength := hterm.length_lt
      rw [List.length_cons] at hrounds
      exact ih (htail.of_passes hterm.passes) (by omega) hr₂
    · rename_i hsees
      cases h
      exact not_kindAhead_of_sees hsees

lemma expression_maximal {e : Expression} {rest : List Token} (hts : Ended ts)
    (h : expression read ⟨ts, last⟩ = .ok (e, ⟨rest, last⟩)) : kindAhead rest ≠ some .pipe := by
  obtain ⟨⟨first, _⟩, hr₁, h⟩ := ok_of_bind h
  obtain ⟨⟨more, _⟩, hr₂, h⟩ := ok_of_bind h
  cases h
  obtain ⟨mid, rfl, hfirst⟩ := hread hts hr₁
  exact steps_maximal hread (hts.of_passes hfirst.passes) (Nat.le_refl _) hr₂

lemma furtherMembers_sound {rounds : Nat} {es : List Expression} (hts : Ended ts)
    (h : furtherMembers read rounds ⟨ts, last⟩ = .ok (es, c)) :
    ∃ rest, c = ⟨rest, last⟩ ∧ FurtherAt depth ts es rest := by
  induction rounds generalizing ts es with
  | zero =>
    cases h
    exact ⟨ts, rfl, .nil⟩
  | succ rounds ih =>
    rw [furtherMembers] at h
    split at h
    · -- a semicolon, and a member after it
      rename_i hsees
      obtain ⟨semicolon, tail, rfl, hsemicolon⟩ := exists_of_sees hsees
      obtain ⟨⟨e, _⟩, hr₁, h⟩ := ok_of_bind h
      obtain ⟨⟨es', _⟩, hr₂, h⟩ := ok_of_bind h
      cases h
      have htail := hts.tail (by simp [hsemicolon])
      obtain ⟨mid, rfl, he⟩ := expression_sound hread htail hr₁
      obtain ⟨rest, rfl, hes⟩ := ih (htail.of_passes (expressionAt_passes he)) hr₂
      exact ⟨rest, rfl, .cons hsemicolon he hes⟩
    · cases h
      exact ⟨ts, rfl, .nil⟩

lemma members_sound {es : List Expression} (hts : Ended ts)
    (h : members read ⟨ts, last⟩ = .ok (es, c)) :
    ∃ rest, c = ⟨rest, last⟩ ∧ MembersAt depth ts es rest := by
  unfold members at h
  split at h
  · -- nothing stands between the braces
    cases h
    exact ⟨ts, rfl, .none⟩
  · obtain ⟨⟨e, _⟩, hr₁, h⟩ := ok_of_bind h
    obtain ⟨⟨es', _⟩, hr₂, h⟩ := ok_of_bind h
    cases h
    obtain ⟨mid, rfl, he⟩ := expression_sound hread hts hr₁
    have hmid := hts.of_passes (expressionAt_passes he)
    obtain ⟨rest, rfl, hes⟩ := furtherMembers_sound hread hmid hr₂
    exact ⟨rest, rfl, .some he hes⟩

lemma arguments_sound {line rounds : Nat} {args : List Term} (hts : Ended ts)
    (hrounds : ts.length ≤ rounds)
    (h : arguments read line rounds ⟨ts, last⟩ = .ok (args, c)) :
    ∃ rest, c = ⟨rest, last⟩ ∧ ArgumentsAt depth line ts args rest ∧
      ¬ StartsArgument line rest := by
  induction rounds generalizing ts args with
  | zero =>
    -- there is at least the end, and a round for it
    cases List.length_eq_zero_iff.mp (Nat.le_zero.mp hrounds)
    cases hts
  | succ rounds ih =>
    rw [arguments] at h
    split at h
    · rename_i hstarts
      obtain ⟨⟨t, _⟩, hr₁, h⟩ := ok_of_bind h
      obtain ⟨⟨args', _⟩, hr₂, h⟩ := ok_of_bind h
      cases h
      obtain ⟨mid, rfl, hterm⟩ := hread hts hr₁
      have hlength := hterm.length_lt
      obtain ⟨rest, rfl, hargs, hmax⟩ := ih (hts.of_passes hterm.passes) (by omega) hr₂
      exact ⟨rest, rfl, .cons (startsArgument_iff.mp hstarts) hterm hargs, hmax⟩
    · rename_i hstarts
      cases h
      exact ⟨ts, rfl, .nil, fun hs => hstarts (startsArgument_iff.mpr hs)⟩

end Sound

lemma termAt_nameOrCall {depth : Nat} {t : Token} {ts rest : List Token} {args : List Term}
    (hdepth : depth ≤ maxDepth) (hkind : t.kind = .ident)
    (hargs : ArgumentsAt (depth + 1) t.line ts args rest) (hmax : ¬ StartsArgument t.line rest) :
    TermAt depth (t :: ts) (nameOrCall t.lexeme t.line args) rest := by
  cases hargs with
  | nil => exact .identifier hdepth hkind hmax
  | cons hstarts harg hargs => exact .call hdepth hkind (.cons hstarts harg hargs) hmax

lemma term_sound {levels depth : Nat} (hlevels : depth + levels = maxNesting) :
    Sound (term levels) depth := by
  induction levels generalizing depth with
  | zero =>
    -- at the level after the last there are no terms, so that none is too deep
    intro ts last t c hts h
    obtain ⟨_, -, h⟩ := ok_of_bind h
    cases h
  | succ levels ih =>
    intro ts last t c hts h
    have hdepth : depth ≤ maxDepth := by
      unfold maxNesting at hlevels
      unfold maxDepth
      omega
    have hread : Sound (term levels) (depth + 1) := ih (by omega)
    rcases ts with _ | ⟨first, tail⟩
    · cases hts
    rw [term] at h
    obtain ⟨_, hpeek, h⟩ := ok_of_bind h
    cases hpeek
    split at h
    · -- a group
      rename_i hkind
      obtain ⟨⟨es, _⟩, hr₁, h⟩ := ok_of_bind h
      obtain ⟨⟨closing, _⟩, hr₂, h⟩ := ok_of_bind h
      cases h
      have htail := hts.tail (by simp [hkind])
      obtain ⟨mid, rfl, hes⟩ := members_sound hread htail hr₁
      obtain ⟨rest, rfl, hclosing, rfl, -⟩ :=
        expect_ok (htail.of_passes (membersAt_passes hes)) (by decide) hr₂
      exact ⟨rest, rfl, .group hdepth hkind hes hclosing⟩
    · -- a name, with arguments or without
      rename_i hkind
      obtain ⟨⟨args, _⟩, hr₁, h⟩ := ok_of_bind h
      cases h
      have htail := hts.tail (by simp [hkind])
      obtain ⟨rest, rfl, hargs, hmax⟩ := arguments_sound hread htail (Nat.le_refl _) hr₁
      exact ⟨rest, rfl, termAt_nameOrCall hdepth hkind hargs hmax⟩
    · -- a literal
      rename_i hkind
      cases h
      exact ⟨tail, rfl, .literal hdepth hkind⟩
    all_goals cases h

/-! ### Completeness -/

/-- The reader reads every term at this depth. -/
def Complete (read : TermReader) (depth : Nat) : Prop :=
  ∀ {ts last t rest}, TermAt depth ts t rest → read ⟨ts, last⟩ = .ok (t, ⟨rest, last⟩)

section Complete

variable {read : TermReader} {depth : Nat} (hread : Complete read depth) {ts rest : List Token}
  {last : Option Token}
include hread

lemma steps_complete {rounds : Nat} {more : List Term} (h : StepsAt depth ts more rest)
    (hrest : kindAhead rest ≠ some .pipe) (hrounds : ts.length ≤ rounds) :
    steps read rounds ⟨ts, last⟩ = .ok (more, ⟨rest, last⟩) := by
  induction more generalizing ts rounds with
  | nil =>
    cases h
    cases rounds with
    | zero => rfl
    | succ rounds => rw [steps, if_neg fun hsees => hrest (sees_iff.mp hsees)]
  | cons t more ih =>
    rcases h with _ | @⟨_, pipe, tail, _, mid, _, _, hpipe, hterm, hmore⟩
    cases rounds with
    | zero => cases hrounds
    | succ rounds =>
      have hlength := hterm.length_lt
      rw [List.length_cons] at hrounds
      have hsteps : steps read rounds ⟨mid, last⟩ = _ := ih hmore (by omega)
      rw [steps, if_pos (sees_of_kind hpipe)]
      exact (bind_of_ok (hread hterm) _).trans (bind_of_ok hsteps _)

lemma expression_complete {e : Expression} (h : ExpressionAt depth ts e rest)
    (hrest : kindAhead rest ≠ some .pipe) :
    expression read ⟨ts, last⟩ = .ok (e, ⟨rest, last⟩) := by
  obtain ⟨hfirst, hmore⟩ := h
  obtain ⟨_, _, hts, hline, -⟩ := hfirst.head
  cases hts
  have hsteps : steps read _ ⟨_, last⟩ = _ := steps_complete hread hmore hrest (Nat.le_refl _)
  rw [← hline]
  exact (bind_of_ok (hread hfirst) _).trans (bind_of_ok hsteps _)

omit hread in
lemma kindAhead_of_furtherAt {es : List Expression} (h : FurtherAt depth ts es rest)
    (hrest : kindAhead rest ≠ some .pipe) : kindAhead ts ≠ some .pipe := by
  cases h with
  | nil => exact hrest
  | cons hsemicolon _ _ => simp [hsemicolon]

lemma furtherMembers_complete {rounds : Nat} {es : List Expression}
    (h : FurtherAt depth ts es rest) (hpipe : kindAhead rest ≠ some .pipe)
    (hsemicolon : kindAhead rest ≠ some .semicolon) (hrounds : ts.length ≤ rounds) :
    furtherMembers read rounds ⟨ts, last⟩ = .ok (es, ⟨rest, last⟩) := by
  induction es generalizing ts rounds with
  | nil =>
    cases h
    cases rounds with
    | zero => rfl
    | succ rounds => rw [furtherMembers, if_neg fun hsees => hsemicolon (sees_iff.mp hsees)]
  | cons e es ih =>
    rcases h with _ | @⟨_, semicolon, tail, _, mid, _, _, hkind, he, hes⟩
    cases rounds with
    | zero => cases hrounds
    | succ rounds =>
      have hlength := (expressionAt_passes he).length_le
      rw [List.length_cons] at hrounds
      have hmid := kindAhead_of_furtherAt hes hpipe
      have hfurther : furtherMembers read rounds ⟨mid, last⟩ = _ := ih hes (by omega)
      rw [furtherMembers, if_pos (sees_of_kind hkind)]
      exact (bind_of_ok (expression_complete hread he hmid) _).trans (bind_of_ok hfurther _)

lemma members_complete_some {e : Expression} {es : List Expression}
    (h : MembersAt depth ts (e :: es) rest) (hpipe : kindAhead rest ≠ some .pipe)
    (hsemicolon : kindAhead rest ≠ some .semicolon) :
    members read ⟨ts, last⟩ = .ok (e :: es, ⟨rest, last⟩) := by
  rcases h with _ | @⟨_, _, e, mid, es, _, he, hes⟩
  have hts : kindAhead ts ≠ some .closeBrace := he.kindAhead_ne (by decide)
  have hfurther : furtherMembers read _ ⟨_, last⟩ = _ :=
    furtherMembers_complete hread hes hpipe hsemicolon (Nat.le_refl _)
  rw [members, if_neg fun hsees => hts (sees_iff.mp hsees)]
  exact (bind_of_ok (expression_complete hread he (kindAhead_of_furtherAt hes hpipe)) _).trans
    (bind_of_ok hfurther _)

lemma members_complete {es : List Expression} {closing : Token}
    (h : MembersAt depth ts es (closing :: rest)) (hclosing : closing.kind = .closeBrace) :
    members read ⟨ts, last⟩ = .ok (es, ⟨closing :: rest, last⟩) := by
  cases es with
  | nil =>
    cases h
    rw [members, if_pos (sees_of_kind hclosing)]
  | cons e es => exact members_complete_some hread h (by simp [hclosing]) (by simp [hclosing])

lemma arguments_complete {line rounds : Nat} {args : List Term}
    (h : ArgumentsAt depth line ts args rest) (hmax : ¬ StartsArgument line rest)
    (hrounds : ts.length ≤ rounds) :
    arguments read line rounds ⟨ts, last⟩ = .ok (args, ⟨rest, last⟩) := by
  induction args generalizing ts rounds with
  | nil =>
    cases h
    cases rounds with
    | zero => rfl
    | succ rounds =>
      rw [arguments, if_neg fun hstarts => hmax (startsArgument_iff.mp hstarts)]
  | cons t args ih =>
    rcases h with _ | @⟨_, _, _, _, mid, _, _, hstarts, hterm, hargs⟩
    have hlength := hterm.length_lt
    cases rounds with
    | zero => omega
    | succ rounds =>
      have hrun : arguments read line rounds ⟨mid, last⟩ = _ := ih hargs (by omega)
      rw [arguments, if_pos (startsArgument_iff.mpr hstarts)]
      exact (bind_of_ok (hread hterm) _).trans (bind_of_ok hrun _)

end Complete

lemma term_complete {levels depth : Nat} (hlevels : depth + levels = maxNesting) :
    Complete (term levels) depth := by
  induction levels generalizing depth with
  | zero =>
    intro ts last t rest h
    have hdepth := h.depth_le
    unfold maxNesting at hlevels
    unfold maxDepth at hdepth
    omega
  | succ levels ih =>
    intro ts last t rest h
    have hread : Complete (term levels) (depth + 1) := ih (by omega)
    rw [term]
    cases h with
    | literal _ hkind =>
      refine (bind_of_ok rfl _).trans ?_
      simp only [hkind]
      rfl
    | group _ hkind hes hclosing =>
      refine (bind_of_ok rfl _).trans ?_
      simp only [hkind]
      exact (bind_of_ok (members_complete hread hes hclosing) _).trans
        (bind_of_ok (expect_of_kind hclosing (by decide)) _)
    | identifier _ hkind hmax =>
      refine (bind_of_ok rfl _).trans ?_
      simp only [hkind]
      exact bind_of_ok (arguments_complete hread .nil hmax (Nat.le_refl _)) _
    | call _ hkind hargs hmax =>
      refine (bind_of_ok rfl _).trans ?_
      simp only [hkind]
      exact bind_of_ok (arguments_complete hread hargs hmax (Nat.le_refl _)) _

/-! ### Definitions and programs -/

section Program

variable {ts rest : List Token} {last : Option Token}

lemma definition_sound {define : Token} {d : Definition} {c : Cursor}
    (hdefine : define.kind = .define) (hts : Ended ts)
    (h : definition ⟨ts, last⟩ = .ok (d, c)) :
    ∃ rest, c = ⟨rest, last⟩ ∧ DefinitionAt (define :: ts) d rest ∧ Ended rest ∧
      kindAhead rest ≠ some .pipe := by
  obtain ⟨⟨name, _⟩, hr₁, h⟩ := ok_of_bind h
  obtain ⟨⟨opening, _⟩, hr₂, h⟩ := ok_of_bind h
  obtain ⟨⟨parameter, _⟩, hr₃, h⟩ := ok_of_bind h
  obtain ⟨⟨closing, _⟩, hr₄, h⟩ := ok_of_bind h
  obtain ⟨⟨equals, _⟩, hr₅, h⟩ := ok_of_bind h
  obtain ⟨⟨body, _⟩, hr₆, h⟩ := ok_of_bind h
  cases h
  obtain ⟨_, rfl, hname, rfl, hts⟩ := expect_ok hts (by decide) hr₁
  obtain ⟨_, rfl, hopening, rfl, hts⟩ := expect_ok hts (by decide) hr₂
  obtain ⟨_, rfl, hparameter, rfl, hts⟩ := expect_ok hts (by decide) hr₃
  obtain ⟨_, rfl, hclosing, rfl, hts⟩ := expect_ok hts (by decide) hr₄
  obtain ⟨_, rfl, hequals, rfl, hts⟩ := expect_ok hts (by decide) hr₅
  obtain ⟨rest, rfl, hbody⟩ := expression_sound (term_sound (Nat.zero_add _)) hts hr₆
  exact ⟨rest, rfl, .mk hdefine hname hopening hparameter hclosing hequals hbody,
    hts.of_passes (expressionAt_passes hbody),
    expression_maximal (term_sound (Nat.zero_add _)) hts hr₆⟩

lemma definitions_sound {rounds : Nat} {ds : List Definition} {c : Cursor} (hts : Ended ts)
    (h : definitions rounds ⟨ts, last⟩ = .ok (ds, c)) :
    ∃ rest, c = ⟨rest, last⟩ ∧ DefinitionsAt ts ds rest ∧ Ended rest := by
  induction rounds generalizing ts ds with
  | zero =>
    cases h
    exact ⟨ts, rfl, .nil, hts⟩
  | succ rounds ih =>
    rw [definitions] at h
    split at h
    · -- another definition
      rename_i hsees
      obtain ⟨define, tail, rfl, hdefine⟩ := exists_of_sees hsees
      obtain ⟨⟨d, _⟩, hr₁, h⟩ := ok_of_bind h
      obtain ⟨⟨ds', _⟩, hr₂, h⟩ := ok_of_bind h
      cases h
      obtain ⟨mid, rfl, hd, hmid, -⟩ :=
        definition_sound hdefine (hts.tail (by simp [hdefine])) hr₁
      obtain ⟨rest, rfl, hds, hrest⟩ := ih hmid hr₂
      exact ⟨rest, rfl, .cons hd hds, hrest⟩
    · cases h
      exact ⟨ts, rfl, .nil, hts⟩

lemma definition_complete {define : Token} {d : Definition}
    (h : DefinitionAt (define :: ts) d rest) (hrest : kindAhead rest ≠ some .pipe) :
    definition ⟨ts, last⟩ = .ok (d, ⟨rest, last⟩) := by
  obtain ⟨-, hname, hopening, hparameter, hclosing, hequals, hbody⟩ := h
  have hread : expression (term maxNesting) ⟨_, last⟩ = _ :=
    expression_complete (term_complete (Nat.zero_add _)) hbody hrest
  exact (bind_of_ok (expect_of_kind hname (by decide)) _).trans <|
    (bind_of_ok (expect_of_kind hopening (by decide)) _).trans <|
    (bind_of_ok (expect_of_kind hparameter (by decide)) _).trans <|
    (bind_of_ok (expect_of_kind hclosing (by decide)) _).trans <|
    (bind_of_ok (expect_of_kind hequals (by decide)) _).trans (bind_of_ok hread _)

lemma kindAhead_of_definitionsAt {ds : List Definition} (h : DefinitionsAt ts ds rest)
    (hrest : kindAhead rest ≠ some .pipe) : kindAhead ts ≠ some .pipe := by
  rcases h with _ | ⟨hd, _⟩
  · exact hrest
  · obtain ⟨define, tail, rfl, hdefine, -⟩ := hd.head
    simp [hdefine]

lemma definitions_complete {rounds : Nat} {ds : List Definition} (h : DefinitionsAt ts ds rest)
    (hpipe : ds ≠ [] → kindAhead rest ≠ some .pipe) (hdefine : kindAhead rest ≠ some .define)
    (hrounds : ts.length ≤ rounds) :
    definitions rounds ⟨ts, last⟩ = .ok (ds, ⟨rest, last⟩) := by
  induction ds generalizing ts rounds with
  | nil =>
    cases h
    cases rounds with
    | zero => rfl
    | succ rounds => rw [definitions, if_neg fun hsees => hdefine (sees_iff.mp hsees)]
  | cons d ds ih =>
    rcases h with _ | @⟨_, _, mid, _, _, hd, hds⟩
    obtain ⟨define, tail, rfl, hkind, hlength⟩ := hd.head
    cases rounds with
    | zero => cases hrounds
    | succ rounds =>
      rw [List.length_cons] at hrounds
      have hpipe := hpipe (List.cons_ne_nil _ _)
      have hmid := kindAhead_of_definitionsAt hds hpipe
      have hrun : definitions rounds ⟨mid, last⟩ = _ := ih hds (fun _ => hpipe) (by omega)
      rw [definitions, if_pos (sees_of_kind hkind)]
      exact (bind_of_ok (definition_complete hd hmid) _).trans (bind_of_ok hrun _)

lemma expect_theEnd {found : Token} {c : Cursor} {wanted : GrammarFault} (hts : Ended ts)
    (h : (⟨ts, last⟩ : Cursor).expect .theEnd wanted = .ok (found, c)) :
    ∃ theEnd, ts = [theEnd] ∧ theEnd.kind = .theEnd := by
  cases hts with
  | last hend => exact ⟨_, rfl, hend⟩
  | cons hne _ =>
    obtain ⟨_, hpeek, h⟩ := ok_of_bind h
    cases hpeek
    rw [if_pos hne] at h
    cases h

lemma spells_of_ofTokens {tokens : List Token} {p : Program} (htokens : Ended tokens)
    (h : Program.ofTokens tokens = .ok p) : Spells tokens p := by
  obtain ⟨⟨ds, _⟩, hr₁, h⟩ := ok_of_bind h
  obtain ⟨⟨e, _⟩, hr₂, h⟩ := ok_of_bind h
  obtain ⟨⟨found, _⟩, hr₃, h⟩ := ok_of_bind h
  cases h
  obtain ⟨ts, rfl, hds, hts⟩ := definitions_sound htokens hr₁
  obtain ⟨rest, rfl, he⟩ := expression_sound (term_sound (Nat.zero_add _)) hts hr₂
  obtain ⟨theEnd, rfl, hend⟩ := expect_theEnd (hts.of_passes (expressionAt_passes he)) hr₃
  exact ⟨ts, theEnd, hds, he.kindAhead_ne (by decide), he, hend⟩

lemma ofTokens_of_spells {tokens : List Token} {p : Program} (h : Spells tokens p) :
    Program.ofTokens tokens = .ok p := by
  obtain ⟨ts, theEnd, hds, hdefine, he, hend⟩ := h
  have hpipe : kindAhead ts ≠ some .pipe := he.kindAhead_ne (by decide)
  have hdefinitions : definitions tokens.length ⟨tokens, tokens.getLast?⟩ = _ :=
    definitions_complete hds (fun _ => hpipe) hdefine (Nat.le_refl _)
  have hexpression : expression (term maxNesting) ⟨ts, tokens.getLast?⟩ = _ :=
    expression_complete (term_complete (Nat.zero_add _)) he (by simp [hend])
  have hlast (last : Option Token) (wanted : GrammarFault) :
      (⟨[theEnd], last⟩ : Cursor).expect .theEnd wanted = .ok (theEnd, ⟨[theEnd], last⟩) :=
    if_neg (not_not.mpr hend)
  exact (bind_of_ok hdefinitions _).trans <|
    (bind_of_ok hexpression _).trans (bind_of_ok (hlast _ _) _)

end Program

/-- On tokens of which the last is the end and no other, the parser returns the program that the
tokens spell, and nothing if they spell none; they never spell two. -/
theorem ofTokens_ok_iff_spells {ts : List Token} {theEnd : Token}
    (hts : ∀ t ∈ ts, t.kind ≠ .theEnd) (hend : theEnd.kind = .theEnd) :
    (∀ p, Program.ofTokens (ts ++ [theEnd]) = .ok p ↔ Spells (ts ++ [theEnd]) p) ∧
      ∀ p q, Spells (ts ++ [theEnd]) p → Spells (ts ++ [theEnd]) q → p = q := by
  refine ⟨fun p => ⟨spells_of_ofTokens (ended_append hts hend), ofTokens_of_spells⟩, ?_⟩
  intro p q hp hq
  cases (ofTokens_of_spells hp).symm.trans (ofTokens_of_spells hq)
  rfl

/-- A definition and a pipeline. Nothing but the end of the line ends the body of the definition. -/
def layoutTokens : List Token :=
  [⟨.define, "def", 1⟩, ⟨.ident, "f", 1⟩, ⟨.openParen, "(", 1⟩, ⟨.ident, "x", 1⟩,
    ⟨.closeParen, ")", 1⟩, ⟨.equals, "=", 1⟩, ⟨.ident, "trim", 1⟩, ⟨.ident, "x", 1⟩,
    ⟨.ident, "f", 2⟩, ⟨.openBrace, "\x7b", 2⟩, ⟨.ident, "a", 2⟩, ⟨.ident, "b", 2⟩,
    ⟨.semicolon, ";", 2⟩, ⟨.ident, "c", 3⟩, ⟨.closeBrace, "\x7d", 3⟩, ⟨.pipe, "|", 3⟩,
    ⟨.literal, "d", 3⟩]

theorem layoutTokens_spell :
    (∀ t ∈ layoutTokens, t.kind ≠ .theEnd) ∧
    Spells (layoutTokens ++ [⟨.theEnd, "", 4⟩])
      ⟨[⟨"f", "x", .pipeline [.call "trim" [.identifier "x" 1] 1] 1, 1⟩],
        .pipeline [.call "f" [.group [.pipeline [.call "a" [.identifier "b" 2] 2] 2,
          .pipeline [.identifier "c" 3] 3] 2] 2, .literal "d" 3] 2⟩ := by
  have hts : ∀ t ∈ layoutTokens, t.kind ≠ .theEnd := by decide
  exact ⟨hts, ((ofTokens_ok_iff_spells hts rfl).1 _).mp rfl⟩

end TextPipeline.Parser
