import TextPipeline.Proofs.Program.Consumption
import TextPipeline.Proofs.Program.Parser

/-!
Where the readers of terms and expressions stop. A reader that fails has read some constructs to
their end, which it would read again before other tokens (`Consumes`), and stands at a token that it
refuses without looking further; what it has read can be completed (`term_stops`).
-/

namespace TextPipeline.Parser

open Grammar

/-! ### Reading as far as possible -/

section Maximal

variable {read : TermReader} {depth : Nat} (hread : Sound read depth) {ts rest : List Token}
  {last : Option Token}

include hread

lemma furtherMembers_maximal {rounds : Nat} {es : List Expression} (hts : Ended ts)
    (hrounds : ts.length ≤ rounds) (hpipe : kindAhead ts ≠ some .pipe)
    (h : furtherMembers read rounds ⟨ts, last⟩ = .ok (es, ⟨rest, last⟩)) :
    kindAhead rest ≠ some .pipe ∧ kindAhead rest ≠ some .semicolon := by
  induction rounds generalizing ts es with
  | zero =>
    cases List.length_eq_zero_iff.mp (Nat.le_zero.mp hrounds)
    cases hts
  | succ rounds ih =>
    rw [furtherMembers] at h
    split at h
    · -- a semicolon was passed, so there is a round for every token of the rest
      rename_i hsees
      obtain ⟨semicolon, tail, rfl, hsemicolon⟩ := exists_of_sees hsees
      obtain ⟨⟨e, _⟩, hr₁, h⟩ := ok_of_bind h
      obtain ⟨⟨es', _⟩, hr₂, h⟩ := ok_of_bind h
      cases h
      have htail := hts.tail (by simp [hsemicolon])
      obtain ⟨mid, rfl, he⟩ := expression_sound hread htail hr₁
      have hlength := (expressionAt_passes he).length_le
      rw [List.length_cons] at hrounds
      exact ih (htail.of_passes (expressionAt_passes he)) (by omega)
        (expression_maximal hread htail hr₁) hr₂
    · rename_i hsees
      cases h
      exact ⟨hpipe, not_kindAhead_of_sees hsees⟩

lemma members_maximal {es : List Expression} (hts : Ended ts)
    (h : members read ⟨ts, last⟩ = .ok (es, ⟨rest, last⟩))
    (hrest : kindAhead rest ≠ some .closeBrace) :
    es ≠ [] ∧ kindAhead rest ≠ some .pipe ∧ kindAhead rest ≠ some .semicolon := by
  unfold members at h
  split at h
  · -- no member is read only before a closing brace
    rename_i hsees
    cases h
    exact absurd (sees_iff.mp hsees) hrest
  · obtain ⟨⟨e, _⟩, hr₁, h⟩ := ok_of_bind h
    obtain ⟨⟨es', _⟩, hr₂, h⟩ := ok_of_bind h
    cases h
    obtain ⟨mid, rfl, he⟩ := expression_sound hread hts hr₁
    exact ⟨List.cons_ne_nil _ _, furtherMembers_maximal hread
      (hts.of_passes (expressionAt_passes he)) (Nat.le_refl _)
      (expression_maximal hread hts hr₁) hr₂⟩

end Maximal

/-! ### Completing what was read -/

section Completion

variable {α : Type} (spells : List Token → α → List Token → Prop)

/-- These further tokens on a line complete the given ones to a construct, if no argument
follows. -/
structure Completion (line : Nat) (ts more : List Token) (a : α) : Prop where
  lines : ∀ t ∈ more, t.line = line
  spells : ∀ after, ¬ StartsArgument line after → spells (ts ++ (more ++ after)) a after

/-- On every line that is not before one of theirs the tokens can be completed. -/
def Completable (ts : List Token) : Prop :=
  ∀ line, (∀ t ∈ ts, t.line ≤ line) → ∃ more a, Completion spells line ts more a

end Completion

def literalToken (line : Nat) : Token := ⟨.literal, "", line⟩

lemma completable_term {depth : Nat} (hdepth : depth ≤ maxDepth) : Completable (TermAt depth) [] :=
  fun line _ => ⟨[literalToken line], .literal "" line, by simp [literalToken],
    fun _ _ => .literal hdepth rfl⟩

lemma completable_expression {depth : Nat} (hdepth : depth ≤ maxDepth) :
    Completable (ExpressionAt depth) [] :=
  fun line _ => ⟨[literalToken line], .pipeline [.literal "" line] line, by simp [literalToken],
    fun _ _ => .pipeline (.literal hdepth rfl) .nil⟩

/-! ### Stopping at a token -/

/-- The reader stops at a token, for a fault of it. Whatever it has read before can be completed,
and it stops there with the same error whatever comes after the token. -/
def Stops {α : Type} (read : Nat → Cursor → Except Error (α × Cursor))
    (spells : List Token → α → List Token → Prop) (ts : List Token) (e : Error) : Prop :=
  ∃ before t rest fault, ts = before ++ t :: rest ∧ e = t.fault fault ∧
    (before ≠ [] → Completable spells before) ∧
    ∀ rest' last rounds, (before ++ t :: rest').length ≤ rounds →
      read rounds ⟨before ++ t :: rest', last⟩ = .error e

lemma head?_append {ts : List Token} (h : ts ≠ []) (old new : List Token) :
    (ts ++ new).head? = (ts ++ old).head? := by
  cases ts with
  | nil => exact absurd rfl h
  | cons t ts => rfl

lemma head?_append_cons (ts : List Token) (t : Token) (old new : List Token) :
    (ts ++ t :: new).head? = (ts ++ t :: old).head? := by
  cases ts <;> rfl

lemma startsArgument_of_head? {line : Nat} {ts ts' : List Token} (h : StartsArgument line ts)
    (hhead : ts'.head? = ts.head?) : StartsArgument line ts' := by
  cases ts with
  | nil => exact h.elim
  | cons t ts =>
    cases ts' with
    | nil => cases hhead
    | cons t' ts' => cases hhead; exact h

lemma allows_of_head? {line : Nat} {old new : List Token} (h : new.head? = old.head?) :
    Allows line old new := fun _ _ hs => startsArgument_of_head? hs h.symm

lemma exists_line (ts : List Token) : ∃ line, ∀ t ∈ ts, t.line ≤ line := by
  induction ts with
  | nil => exact ⟨0, by simp⟩
  | cons t ts ih =>
    obtain ⟨line, hlines⟩ := ih
    refine ⟨max t.line line, List.forall_mem_cons.mpr ⟨Nat.le_max_left _ _, fun u hu => ?_⟩⟩
    exact Nat.le_trans (hlines u hu) (Nat.le_max_right _ _)

namespace Stops

variable {α β : Type} {read : Nat → Cursor → Except Error (α × Cursor)}
  {read' : Nat → Cursor → Except Error (β × Cursor)} {spells : List Token → α → List Token → Prop}
  {spells' : List Token → β → List Token → Prop} {ts : List Token} {e : Error}

lemma first {t : Token} {fault : GrammarFault}
    (h : ∀ rest last rounds, read rounds ⟨t :: rest, last⟩ = .error (t.fault fault)) :
    Stops read spells (t :: ts) (t.fault fault) :=
  ⟨[], t, ts, fault, rfl, rfl, fun hne => absurd rfl hne, fun rest last rounds _ =>
    h rest last rounds⟩

lemma map (h : Stops read spells ts e) (f : α → β)
    (hspells : ∀ {ts' a after}, ts'.head? = ts.head? → spells ts' a after →
      spells' ts' (f a) after)
    (hread : ∀ {ts' last rounds}, ts'.head? = ts.head? → ts'.length ≤ rounds →
      (∀ r, ts'.length ≤ r → read r ⟨ts', last⟩ = .error e) →
        read' rounds ⟨ts', last⟩ = .error e) : Stops read' spells' ts e := by
  obtain ⟨before, t, rest, fault, rfl, he, hviable, hstuck⟩ := h
  refine ⟨before, t, rest, fault, rfl, he, fun hne line hlines => ?_,
    fun rest' last rounds hr => ?_⟩
  · obtain ⟨more, a, hmore⟩ := hviable hne line hlines
    exact ⟨more, f a, hmore.lines, fun after hafter =>
      hspells (head?_append hne _ _) (hmore.spells after hafter)⟩
  · exact hread (head?_append_cons _ _ _ _) hr (hstuck rest' last)

lemma cons {t : Token} (h : Stops read spells ts e) (hnil : Completable spells []) (f : α → β)
    (hspells : ∀ {line ts a after}, t.line ≤ line → ¬ StartsArgument line after →
      spells ts a after → spells' (t :: ts) (f a) after)
    (hread : ∀ {ts last rounds}, ts.length < rounds →
      (∀ r, ts.length ≤ r → read r ⟨ts, last⟩ = .error e) →
        read' rounds ⟨t :: ts, last⟩ = .error e) : Stops read' spells' (t :: ts) e := by
  obtain ⟨before, u, rest, fault, rfl, he, hviable, hstuck⟩ := h
  have hbefore : Completable spells before := by
    by_cases hne : before = []
    · exact hne ▸ hnil
    · exact hviable hne
  refine ⟨t :: before, u, rest, fault, rfl, he, fun _ line hlines => ?_,
    fun rest' last rounds hr => ?_⟩
  · -- what completes the construct also completes it with the token before
    obtain ⟨ht, hlines⟩ := List.forall_mem_cons.mp hlines
    obtain ⟨more, a, hmore⟩ := hbefore line hlines
    exact ⟨more, f a, hmore.lines, fun after hafter =>
      hspells ht hafter (hmore.spells after hafter)⟩
  · exact hread hr (hstuck rest' last)

lemma append {first : List Token → List Token → Prop} {mid : List Token}
    (hfirst : Consumes first ts mid) (h : Stops read spells mid e) {none : α}
    (hnone : ∀ ts, spells ts none ts) (f : α → β)
    (hspells : ∀ {ts mid a after}, first ts mid → spells mid a after → spells' ts (f a) after)
    (hread : ∀ {ts mid' last rounds}, first ts mid' → mid'.head? = mid.head? →
      ts.length ≤ rounds → (∀ r, mid'.length ≤ r → read r ⟨mid', last⟩ = .error e) →
        read' rounds ⟨ts, last⟩ = .error e) : Stops read' spells' ts e := by
  obtain ⟨consumed, rfl, -, hswap⟩ := hfirst
  obtain ⟨before, t, rest, fault, rfl, he, hviable, hstuck⟩ := h
  refine ⟨consumed ++ before, t, rest, fault, by simp, he, fun _ line hlines => ?_,
    fun rest' last rounds hr => ?_⟩
  · have hconsumed (t : Token) (ht : t ∈ consumed) : t.line ≤ line :=
      hlines t (List.mem_append_left _ ht)
    -- With nothing read of the list, it is complete as it is.
    by_cases hne : before = []
    · subst hne
      refine ⟨[], f none, by simp, fun after hafter => ?_⟩
      simpa using hspells (hswap line after hconsumed (allows_of_not_starts hafter)) (hnone after)
    · obtain ⟨more, a, hmore⟩ := hviable hne line fun t ht => hlines t (List.mem_append_right _ ht)
      refine ⟨more, f a, hmore.lines, fun after hafter => ?_⟩
      rw [List.append_assoc]
      exact hspells (hswap line _ hconsumed (allows_append line hne _ _))
        (hmore.spells after hafter)
  · rw [List.append_assoc] at hr ⊢
    obtain ⟨line, hlines⟩ := exists_line consumed
    have hhead := head?_append_cons before t rest rest'
    exact hread (hswap _ _ hlines (allows_of_head? hhead)) hhead hr (hstuck rest' last)

end Stops

/-! ### The readers -/

/-- A token of this kind and then the construct. -/
def After (kind : TokenKind) (spells : List Token → List Token → Prop) (ts rest : List Token) :
    Prop :=
  ∃ t tail, ts = t :: tail ∧ t.kind = kind ∧ spells tail rest

lemma consumes_after {kind : TokenKind} {spells : List Token → List Token → Prop} {t : Token}
    {ts rest : List Token} (h : Consumes spells ts rest) (ht : t.kind = kind)
    (hkind : kind ≠ .theEnd) : Consumes (After kind spells) (t :: ts) rest :=
  .cons (ht ▸ hkind) h fun _ _ h => ⟨_, _, rfl, ht, h⟩

/-- Wherever the reader fails, it stops at a token. -/
def StopsOnError (read : TermReader) (depth : Nat) : Prop :=
  ∀ {ts last e}, Ended ts → read ⟨ts, last⟩ = .error e →
    Stops (fun _ => read) (TermAt depth) ts e

section Readers

variable {read : TermReader} {depth : Nat} {ts : List Token} {last : Option Token} {e : Error}
  (hsound : Sound read depth) (hcomplete : Complete read depth) (hstops : StopsOnError read depth)
include hsound hcomplete hstops

lemma steps_stops {rounds : Nat} (hdepth : depth ≤ maxDepth) (hts : Ended ts)
    (h : steps read rounds ⟨ts, last⟩ = .error e) :
    Stops (steps read) (StepsAt depth) ts e := by
  induction rounds generalizing ts with
  | zero => cases h
  | succ rounds ih =>
    rw [steps] at h
    split at h
    · rename_i hsees
      obtain ⟨pipe, tail, rfl, hpipe⟩ := exists_of_sees hsees
      have htail := hts.tail (by simp [hpipe])
      -- Either the term after this pipe is at fault, or one after a later pipe.
      obtain hr | ⟨⟨t, _⟩, hr, h⟩ := error_of_bind h
      · refine (hstops htail hr).cons (completable_term hdepth) ([·])
          (fun _ _ h => .cons hpipe h .nil) ?_
        intro ts last rounds hrounds hr
        cases rounds with
        | zero => cases hrounds
        | succ rounds =>
          rw [steps, if_pos (sees_of_kind hpipe)]
          exact bind_of_error (hr _ (Nat.le_refl _)) _
      · obtain hr' | ⟨_, -, ⟨⟩⟩ := error_of_bind h
        obtain ⟨mid, rfl, hterm⟩ := hsound htail hr
        have hmid := htail.of_passes hterm.passes
        refine (ih hmid hr').append (consumes_after (termAt_consumes hterm) hpipe (by decide))
          (fun _ => .nil) (t :: ·) ?_ ?_
        · rintro _ mid more after ⟨pipe, tail, rfl, hpipe, hterm⟩ hmore
          exact .cons hpipe hterm hmore
        · rintro _ mid' last rounds ⟨pipe, tail, rfl, hpipe, hterm⟩ - hrounds hr
          have hlength := hterm.length_lt
          rw [List.length_cons] at hrounds
          cases rounds with
          | zero => cases hrounds
          | succ rounds =>
            rw [steps, if_pos (sees_of_kind hpipe)]
            exact (bind_of_ok (hcomplete hterm) _).trans (bind_of_error (hr _ (by omega)) _)
    · cases h

lemma expression_stops (hts : Ended ts) (h : expression read ⟨ts, last⟩ = .error e) :
    Stops (fun _ => expression read) (ExpressionAt depth) ts e := by
  obtain hr | ⟨⟨first, _⟩, hr, h⟩ := error_of_bind h
  · -- the first term is at fault
    refine (hstops hts hr).map (fun t => .pipeline [t] t.line) ?_ ?_
    · intro ts t after _ hterm
      obtain ⟨first, tail, rfl, hline, -⟩ := hterm.head
      rw [hline]
      exact .pipeline hterm .nil
    · exact fun _ _ hr => bind_of_error (hr _ (Nat.le_refl _)) _
  · -- the first term is right, and a later one is at fault
    obtain ⟨mid, rfl, hterm⟩ := hsound hts hr
    have hmid := hts.of_passes hterm.passes
    rcases error_of_bind h with h | ⟨_, -, h⟩
    · refine (steps_stops hsound hcomplete hstops hterm.depth_le hmid h).append
        (termAt_consumes hterm) (fun _ => .nil) (fun more => .pipeline (first :: more) first.line)
        ?_ ?_
      · intro ts mid more after hfirst hmore
        obtain ⟨t, tail, rfl, hline, -⟩ := hfirst.head
        rw [hline]
        exact .pipeline hfirst hmore
      · intro ts mid' last rounds hfirst _ _ hr
        exact (bind_of_ok (hcomplete hfirst) _).trans (bind_of_error (hr _ (Nat.le_refl _)) _)
    · cases h

lemma furtherMembers_stops {rounds : Nat} (hdepth : depth ≤ maxDepth) (hts : Ended ts)
    (h : furtherMembers read rounds ⟨ts, last⟩ = .error e) :
    Stops (furtherMembers read) (FurtherAt depth) ts e := by
  induction rounds generalizing ts with
  | zero => cases h
  | succ rounds ih =>
    rw [furtherMembers] at h
    split at h
    · rename_i hsees
      obtain ⟨semicolon, tail, rfl, hsemicolon⟩ := exists_of_sees hsees
      have htail := hts.tail (by simp [hsemicolon])
      obtain hr | ⟨⟨e', _⟩, hr, h⟩ := error_of_bind h
      · -- the member after this semicolon is at fault
        refine (expression_stops hsound hcomplete hstops htail hr).cons
          (completable_expression hdepth) ([·]) (fun _ _ h => .cons hsemicolon h .nil) ?_
        intro ts last rounds hrounds hr
        cases rounds with
        | zero => cases hrounds
        | succ rounds =>
          rw [furtherMembers, if_pos (sees_of_kind hsemicolon)]
          exact bind_of_error (hr _ (Nat.le_refl _)) _
      · -- the fault lies in a member further on
        obtain ⟨mid, rfl, he⟩ := expression_sound hsound htail hr
        have hpipe := expression_maximal hsound htail hr
        have hmid := htail.of_passes (expressionAt_passes he)
        obtain hr | ⟨_, -, h⟩ := error_of_bind h
        · refine (ih hmid hr).append
            (consumes_after (expressionAt_consumes he) hsemicolon (by decide))
            (fun _ => .nil) (e' :: ·) ?_ ?_
          · rintro _ mid es after ⟨semicolon, tail, rfl, hsemicolon, he⟩ hes
            exact .cons hsemicolon he hes
          · rintro _ mid' last rounds ⟨semicolon, tail, rfl, hsemicolon, he⟩ hhead hrounds hr
            have hlength := (expressionAt_passes he).length_le
            rw [List.length_cons] at hrounds
            cases rounds with
            | zero => cases hrounds
            | succ rounds =>
              rw [furtherMembers, if_pos (sees_of_kind hsemicolon)]
              rw [kindAhead, ← hhead] at hpipe
              exact (bind_of_ok (expression_complete hcomplete he hpipe) _).trans
                (bind_of_error (hr _ (by omega)) _)
        · cases h
    · cases h

lemma members_stops (hts : Ended ts) (h : members read ⟨ts, last⟩ = .error e) :
    Stops (fun _ => members read) (MembersAt depth) ts e := by
  unfold members at h
  split at h
  · cases h
  · rename_i hsees
    have hopen := not_kindAhead_of_sees hsees
    obtain hr | ⟨⟨first, _⟩, hr, h⟩ := error_of_bind h
    · -- the first member is at fault
      refine (expression_stops hsound hcomplete hstops hts hr).map ([·])
        (fun _ h => .some h .nil) ?_
      intro ts' last rounds hhead _ hr
      rw [kindAhead, ← hhead] at hopen
      rw [members, if_neg fun hsees => hopen (sees_iff.mp hsees)]
      exact bind_of_error (hr _ (Nat.le_refl _)) _
    · -- the first member is right, and it cannot go on
      obtain hr' | ⟨_, -, ⟨⟩⟩ := error_of_bind h
      obtain ⟨mid, rfl, he⟩ := expression_sound hsound hts hr
      have hpipe := expression_maximal hsound hts hr
      have hmid := hts.of_passes (expressionAt_passes he)
      refine (furtherMembers_stops hsound hcomplete hstops he.depth_le hmid hr').append
        (expressionAt_consumes he) (fun _ => .nil) (first :: ·) .some ?_
      intro ts mid' last rounds he hhead _ hr
      rw [kindAhead, ← hhead] at hpipe
      rw [members, if_neg fun hsees => he.kindAhead_ne (by decide) (sees_iff.mp hsees)]
      exact (bind_of_ok (expression_complete hcomplete he hpipe) _).trans
        (bind_of_error (hr _ (Nat.le_refl _)) _)

lemma arguments_stops {line rounds : Nat} (hts : Ended ts)
    (h : arguments read line rounds ⟨ts, last⟩ = .error e) :
    Stops (arguments read line) (ArgumentsAt depth line) ts e := by
  induction rounds generalizing ts with
  | zero => cases h
  | succ rounds ih =>
    rw [arguments] at h
    split at h
    · rename_i hsees
      have hstarts := startsArgument_iff.mp hsees
      obtain hr | ⟨⟨arg, _⟩, hr, h⟩ := error_of_bind h
      · -- this argument is at fault
        refine (hstops hts hr).map ([·])
          (fun hhead h => .cons (startsArgument_of_head? hstarts hhead) h .nil) ?_
        intro ts' last rounds hhead hrounds hr
        have hstarts' := startsArgument_of_head? hstarts hhead
        cases rounds with
        | zero => cases List.length_eq_zero_iff.mp (Nat.le_zero.mp hrounds); cases hstarts'
        | succ rounds =>
          rw [arguments, if_pos (startsArgument_iff.mpr hstarts')]
          exact bind_of_error (hr _ (Nat.le_refl _)) _
      · -- the fault lies in an argument further on
        obtain hr' | ⟨_, -, ⟨⟩⟩ := error_of_bind h
        obtain ⟨mid, rfl, harg⟩ := hsound hts hr
        have hmid := hts.of_passes harg.passes
        refine (ih hmid hr').append ((termAt_consumes harg).and_starts harg hstarts)
          (fun _ => .nil) (arg :: ·) (fun h hargs => .cons h.1 h.2 hargs) ?_
        rintro ts mid' last rounds ⟨hstarts, harg⟩ - hrounds hr
        have hlength := harg.length_lt
        cases rounds with
        | zero => omega
        | succ rounds =>
          rw [arguments, if_pos (startsArgument_iff.mpr hstarts)]
          exact (bind_of_ok (hcomplete harg) _).trans (bind_of_error (hr _ (by omega)) _)
    · cases h

end Readers

def closingToken (line : Nat) : Token := ⟨.closeBrace, "\x7d", line⟩

lemma not_startsArgument_closing (line line' : Nat) (ts : List Token) :
    ¬ StartsArgument line (closingToken line' :: ts) := by
  simp [StartsArgument, StartsTerm, closingToken]

/-- The members of a group with the brace after them. -/
def ClosedAt (depth : Nat) (ts : List Token) (es : List Expression) (rest : List Token) : Prop :=
  ∃ closing, closing.kind = .closeBrace ∧ MembersAt depth ts es (closing :: rest)

lemma completable_closed {depth : Nat} {ts : List Token} (h : Completable (MembersAt depth) ts) :
    Completable (ClosedAt depth) ts := by
  intro line hlines
  obtain ⟨more, es, hmore⟩ := h line hlines
  refine ⟨more ++ [closingToken line], es, ?_, fun after _ => ⟨closingToken line, rfl, ?_⟩⟩
  · simpa [or_imp, forall_and, closingToken] using hmore.lines
  · simpa using hmore.spells _ (not_startsArgument_closing line line after)

lemma Stops.closed {depth : Nat} {read : Nat → Cursor → Except Error (List Expression × Cursor)}
    {ts : List Token} {e : Error} (h : Stops read (MembersAt depth) ts e) :
    Stops read (ClosedAt depth) ts e := by
  obtain ⟨before, t, rest, fault, hts, he, hviable, hstuck⟩ := h
  exact ⟨before, t, rest, fault, hts, he, fun hne => completable_closed (hviable hne), hstuck⟩

lemma completable_members (depth : Nat) : Completable (MembersAt depth) [] :=
  fun _ _ => ⟨[], [], by simp, fun _ _ => .none⟩

lemma completable_arguments (depth line : Nat) : Completable (ArgumentsAt depth line) [] :=
  fun _ _ => ⟨[], [], by simp, fun _ _ => .nil⟩

lemma stops_unclosed {levels depth : Nat} {opening : Token} {ts : List Token}
    {last : Option Token} {es : List Expression} {c : Cursor} {e : Error}
    (hsound : Sound (term levels) (depth + 1)) (hcomplete : Complete (term levels) (depth + 1))
    (hdepth : depth ≤ maxDepth) (hkind : opening.kind = .openBrace) (hts : Ended ts)
    (hr : members (term levels) ⟨ts, last⟩ = .ok (es, c))
    (h : c.expect .closeBrace .closeBrace = .error e) :
    Stops (fun _ => term (levels + 1)) (TermAt depth) (opening :: ts) e := by
  obtain ⟨mid, rfl, hes⟩ := members_sound hsound hts hr
  obtain ⟨t, rest, rfl, ht, rfl⟩ := expect_error (hts.of_passes (membersAt_passes hes)) h
  have hahead (kind : TokenKind) (rest' : List Token)
      (h : kindAhead (t :: rest) ≠ some kind) : kindAhead (t :: rest') ≠ some kind := h
  obtain ⟨hne, hpipe, hsemicolon⟩ := members_maximal hsound hts hr (by simpa using ht)
  obtain ⟨first, es, rfl⟩ := List.exists_cons_of_ne_nil hne
  obtain ⟨consumed, rfl, -, hswap⟩ := membersAt_consumes hes
  refine ⟨opening :: consumed, t, rest, .closeBrace, rfl, rfl, fun _ line hlines => ?_, ?_⟩
  · -- a closing brace in place of the token would complete the group
    refine ⟨[closingToken line], .group (first :: es) opening.line, by simp [closingToken], ?_⟩
    intro after _
    have hclosing := not_startsArgument_closing line line after
    exact .group hdepth hkind (hswap line _ (List.forall_mem_cons.mp hlines).2
      (allows_of_not_starts hclosing)) rfl
  · -- with the token there, the members end before it and no brace is found
    intro rest' last _ _
    obtain ⟨line, hlines⟩ := exists_line consumed
    have hes := hswap line (t :: rest') hlines (allows_append line (List.cons_ne_nil t []) _ _)
    have hread : members (term levels) ⟨_, last⟩ = _ := members_complete_some hcomplete hes
      (hahead .pipe rest' hpipe) (hahead .semicolon rest' hsemicolon)
    change term (levels + 1) ⟨opening :: (consumed ++ t :: rest'), last⟩ = _
    simp only [term, bind_of_ok (peek_cons _ _ _), hkind]
    exact (bind_of_ok hread _).trans (bind_of_error (expect_of_kind_ne ht) _)

lemma term_stops {levels depth : Nat} (hlevels : depth + levels = maxNesting) :
    StopsOnError (term levels) depth := by
  induction levels generalizing depth with
  | zero =>
    -- No term stands this deep, so that nothing was read and nothing has to be completed.
    intro ts last e hts h
    obtain ⟨t, rest, rfl⟩ : ∃ t rest, ts = t :: rest := by cases hts <;> exact ⟨_, _, rfl⟩
    cases h
    exact .first fun _ _ _ => rfl
  | succ levels ih =>
    intro ts last e hts h
    have hdepth : depth ≤ maxDepth := by
      unfold maxNesting at hlevels
      unfold maxDepth
      omega
    have hnext : depth + 1 + levels = maxNesting := by omega
    have hsound : Sound (term levels) (depth + 1) := term_sound hnext
    have hcomplete : Complete (term levels) (depth + 1) := term_complete hnext
    have hstops : StopsOnError (term levels) (depth + 1) := ih hnext
    obtain ⟨t, rest, rfl⟩ : ∃ t rest, ts = t :: rest := by cases hts <;> exact ⟨_, _, rfl⟩
    rw [term, bind_of_ok (peek_cons t rest last)] at h
    cases hkind : t.kind <;> simp only [hkind] at h
    case openBrace =>
      have hrest := hts.tail (by simp [hkind])
      obtain hr | ⟨⟨es, _⟩, hr, h⟩ := error_of_bind h
      · have hmembers := (members_stops hsound hcomplete hstops hrest hr).closed
        refine hmembers.cons (completable_closed (completable_members _)) (.group · t.line) ?_ ?_
        · rintro line ts es after - - ⟨closing, hclosing, hes⟩
          exact .group hdepth hkind hes hclosing
        · intro ts last rounds _ hr
          simp only [term, bind_of_ok (peek_cons _ _ _), hkind]
          exact bind_of_error (hr _ (Nat.le_refl _)) _
      · obtain hr' | ⟨_, -, ⟨⟩⟩ := error_of_bind h
        exact stops_unclosed hsound hcomplete hdepth hkind hrest hr hr'
    case ident =>
      have hrest := hts.tail (by simp [hkind])
      obtain hr | ⟨_, -, ⟨⟩⟩ := error_of_bind h
      refine (arguments_stops hsound hcomplete hstops hrest hr).cons (completable_arguments _ _)
        (nameOrCall t.lexeme t.line) ?_ ?_
      · intro line ts args after hline hafter hargs
        exact termAt_nameOrCall hdepth hkind hargs fun hs => hafter (hs.mono hline)
      · intro ts last rounds _ hr
        simp only [term, bind_of_ok (peek_cons _ _ _), hkind]
        exact bind_of_error (hr _ (Nat.le_refl _)) _
    case literal => cases h
    all_goals
      cases h
      refine .first fun rest last _ => ?_
      simp only [term, bind_of_ok (peek_cons _ _ _), hkind]

lemma topExpression_stops {ts : List Token} {last : Option Token} {e : Error} (hts : Ended ts)
    (h : expression (term maxNesting) ⟨ts, last⟩ = .error e) :
    Stops (fun _ => expression (term maxNesting)) (ExpressionAt 0) ts e :=
  have hlevels := Nat.zero_add maxNesting
  expression_stops (term_sound hlevels) (term_complete hlevels) (term_stops hlevels) hts h

end TextPipeline.Parser
