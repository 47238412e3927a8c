import TextPipeline.Proofs.Token.Order

/-!
Stretches of a text. The first tokens of a text come from a stretch of its items that starts and
ends with a token, after items that have none (`exists_stretch`).
-/

namespace TextPipeline.Item

open Text

/-- The items start and end with one that has a token. -/
def Framed (items : List Item) : Prop :=
  (∃ first ∈ items.head?, first.meaning?.isSome) ∧ ∃ last ∈ items.getLast?, last.meaning?.isSome

/-- The line on which a text goes on after these items. -/
def lineAfter (items : List Item) : Nat := 1 + lineFeeds (items.flatMap text)

lemma lineAfter_append (items more : List Item) :
    lineAfter (items ++ more) = lineAfter items + lineFeeds (more.flatMap text) := by
  rw [lineAfter, List.flatMap_append, lineFeeds_append, ← Nat.add_assoc, ← lineAfter]

lemma lineAfter_snoc (items : List Item) (item : Item) :
    lineAfter (items ++ [item]) = lineAfter items + lineFeeds item.text := by
  rw [lineAfter_append, List.flatMap_singleton]

section Tokens

variable {before items : List Item} {item : Item}

lemma tokens_of_silent (h : item.meaning? = none) :
    tokens (lineAfter before) (item :: items) = tokens (lineAfter (before ++ [item])) items := by
  rw [tokens, h, lineAfter_snoc]
  rfl

lemma tokens_of_meaning {kind : TokenKind} {lexeme : List Char}
    (h : item.meaning? = some (kind, lexeme)) :
    tokens (lineAfter before) (item :: items) = ⟨kind, String.ofList lexeme, lineAfter before⟩ ::
      tokens (lineAfter (before ++ [item])) items := by
  rw [tokens, h, lineAfter_snoc]
  rfl

lemma length_tokens (line : Nat) (items : List Item) :
    (tokens line items).length = items.countP (·.meaning?.isSome) + 1 := by
  induction items generalizing line with
  | nil => rfl
  | cons item items ih =>
    rw [tokens, List.length_append, ih, List.countP_cons]
    cases item.meaning? <;> simp; omega

lemma length_tokens_lt (line line' : Nat) {passed : List Item}
    (h : ∃ item ∈ passed, item.meaning?.isSome) :
    (tokens line' items).length < (tokens line (passed ++ items)).length := by
  have hpos : 0 < passed.countP (·.meaning?.isSome) := List.countP_pos_iff.mpr h
  rw [length_tokens, length_tokens, List.countP_append]
  omega

lemma exists_theEnd_mem_tokens (line : Nat) (items : List Item) :
    ∃ t ∈ tokens line items, t.kind = .theEnd := by
  induction items generalizing line with
  | nil => exact ⟨_, List.mem_cons_self, rfl⟩
  | cons item items ih =>
    obtain ⟨t, ht, hkind⟩ := ih (line + lineFeeds item.text)
    exact ⟨t, List.mem_append_right _ ht, hkind⟩

lemma exists_gap {t : Token} {ts : List Token} (h : tokens (lineAfter before) items = t :: ts)
    (ht : t.kind ≠ .theEnd) :
    ∃ gap first later, items = gap ++ first :: later ∧ (∀ i ∈ gap, i.meaning? = none) ∧
      first.meaning?.isSome ∧ tokens (lineAfter (before ++ gap)) (first :: later) = t :: ts := by
  induction items generalizing before with
  | nil =>
    cases h
    exact absurd rfl ht
  | cons item items ih =>
    cases hm : item.meaning? with
    | none =>
      rw [tokens_of_silent hm] at h
      obtain ⟨gap, first, later, rfl, hgap, hfirst, htokens⟩ := ih h
      rw [List.append_assoc, List.singleton_append] at htokens
      exact ⟨item :: gap, first, later, rfl, List.forall_mem_cons.mpr ⟨hm, hgap⟩, hfirst, htokens⟩
    | some meaning =>
      refine ⟨[], item, items, rfl, fun i hi => (nomatch hi), by simp [hm], ?_⟩
      rwa [List.append_nil]

lemma exists_last {passed rest : List Token}
    (h : tokens (lineAfter before) items = passed ++ rest) (hpassed : passed ≠ [])
    (hrest : rest ≠ []) :
    ∃ init last later, items = init ++ last :: later ∧ last.meaning?.isSome ∧
      tokens (lineAfter (before ++ (init ++ [last]))) later = rest := by
  induction items generalizing before passed with
  | nil =>
    have hlength := congrArg List.length h
    rw [tokens, List.length_append, List.length_singleton] at hlength
    have := List.length_pos_iff.mpr hpassed
    have := List.length_pos_iff.mpr hrest
    omega
  | cons item items ih =>
    cases hm : item.meaning? with
    | none =>
      rw [tokens_of_silent hm] at h
      obtain ⟨init, last, later, rfl, hlast, htokens⟩ := ih h hpassed
      exact ⟨item :: init, last, later, rfl, hlast, by simpa using htokens⟩
    | some meaning =>
      obtain ⟨t, passed, rfl⟩ := List.exists_cons_of_ne_nil hpassed
      rw [tokens_of_meaning hm] at h
      have h := (List.cons.inj h).2
      cases passed with
      | nil => exact ⟨[], item, items, rfl, by simp [hm], h⟩
      | cons u passed =>
        obtain ⟨init, last, later, rfl, hlast, htokens⟩ := ih h (List.cons_ne_nil _ _)
        exact ⟨item :: init, last, later, rfl, hlast, by simpa using htokens⟩

lemma exists_stretch {passed rest : List Token}
    (h : tokens (lineAfter before) items = passed ++ rest) (hpassed : passed ≠ [])
    (hkinds : ∀ t ∈ passed, t.kind ≠ .theEnd) :
    ∃ gap within after, items = gap ++ (within ++ after) ∧ (∀ i ∈ gap, i.meaning? = none) ∧
      Framed within ∧ tokens (lineAfter (before ++ gap)) (within ++ after) = passed ++ rest ∧
      tokens (lineAfter (before ++ gap ++ within)) after = rest := by
  have hrest : rest ≠ [] := by
    rintro rfl
    obtain ⟨t, ht, hkind⟩ := exists_theEnd_mem_tokens (lineAfter before) items
    rw [h, List.append_nil] at ht
    exact hkinds t ht hkind
  obtain ⟨t, passed, rfl⟩ := List.exists_cons_of_ne_nil hpassed
  obtain ⟨gap, first, later, rfl, hgap, hfirst, htokens⟩ :=
    exists_gap h (hkinds t List.mem_cons_self)
  obtain ⟨init, last, after, hsplit, hlast, hafter⟩ := exists_last htokens hpassed hrest
  have hwithin : first :: later = init ++ [last] ++ after := by simpa using hsplit
  rw [hwithin] at htokens
  refine ⟨gap, init ++ [last], after, by rw [hwithin], hgap,
    ⟨⟨first, ?_, hfirst⟩, last, by simp, hlast⟩, htokens, hafter⟩
  cases init <;> cases hsplit <;> rfl

end Tokens

lemma exists_items_of_suffix {before items : List Item} {passed rest : List Token}
    (h : tokens (lineAfter before) items = passed ++ rest)
    (hkinds : ∀ t ∈ passed, t.kind ≠ .theEnd) :
    ∃ front back, items = front ++ back ∧ tokens (lineAfter (before ++ front)) back = rest := by
  cases passed with
  | nil => exact ⟨[], items, rfl, by rwa [List.append_nil]⟩
  | cons t passed =>
    obtain ⟨gap, within, after, rfl, -, -, -, hafter⟩ :=
      exists_stretch h (List.cons_ne_nil _ _) hkinds
    exact ⟨gap ++ within, after, (List.append_assoc _ _ _).symm, by rwa [← List.append_assoc]⟩

end TextPipeline.Item
