import Mathlib.Data.List.Basic
import TextPipeline.Proofs.Builtin

/-!
On plain texts every builtin succeeds (`Builtin.exists_apply`). An edit makes up no characters:
those of its result come from its arguments, are a change of case, or are line feeds between the
lines that it puts together. With a number of texts that is not its own no builtin succeeds.
-/

namespace TextPipeline

namespace Text

/-! ### Where the characters of an edit come from -/

section Characters

variable {c : Char} {s : List Char}

lemma mem_of_mem_dropEnds {α : Type} {p : α → Bool} {x : α} {xs : List α}
    (h : x ∈ ((xs.dropWhile p).reverse.dropWhile p).reverse) : x ∈ xs := by
  have hback := (List.dropWhile_sublist p).subset (List.mem_reverse.mp h)
  exact (List.dropWhile_sublist p).subset (List.mem_reverse.mp hback)

lemma mem_of_mem_replaceEach {target new : List Char} {covered : Nat}
    (h : c ∈ replaceEach target new covered s) : c ∈ new ∨ c ∈ s := by
  induction s generalizing covered with
  | nil => simp [replaceEach] at h
  | cons first s ih =>
    cases covered with
    | succ covered => exact (ih h).imp_right (List.mem_cons_of_mem _)
    | zero =>
      rw [replaceEach] at h
      split at h
      · -- an occurrence starts here
        rcases List.mem_append.mp h with h | h
        · exact .inl h
        · exact (ih h).imp_right (List.mem_cons_of_mem _)
      · -- the character is kept
        rcases List.mem_cons.mp h with rfl | h
        · exact .inr List.mem_cons_self
        · exact (ih h).imp_right (List.mem_cons_of_mem _)

lemma mem_of_mem_insertEverywhere {new : List Char} (h : c ∈ insertEverywhere new s) :
    c ∈ new ∨ c ∈ s := by
  rcases List.mem_append.mp h with h | h
  · exact .inl h
  · obtain ⟨d, hd, h⟩ := List.mem_flatMap.mp h
    rcases List.mem_cons.mp h with rfl | h
    · exact .inr hd
    · exact .inl h

lemma mem_of_mem_replace {target new : List Char} (h : c ∈ replace target new s) :
    c ∈ new ∨ c ∈ s := by
  unfold replace at h
  split at h
  · exact mem_of_mem_insertEverywhere h
  · exact mem_of_mem_replaceEach h

lemma mem_unlines {ls : List (List Char)} (h : c ∈ unlines ls) : c = '\n' ∨ ∃ l ∈ ls, c ∈ l := by
  induction ls with
  | nil => cases h
  | cons l ls ih =>
    cases ls with
    | nil => exact .inr ⟨l, List.mem_cons_self, h⟩
    | cons m ms =>
      rcases List.mem_append.mp h with h | h
      · exact .inr ⟨l, List.mem_cons_self, h⟩
      · rcases List.mem_cons.mp h with h | h
        · exact .inl h
        · obtain h | ⟨l, hl, h⟩ := ih h
          · exact .inl h
          · exact .inr ⟨l, List.mem_cons_of_mem _ hl, h⟩

lemma mem_of_mem_line {l : List Char} (hl : l ∈ lines s) (h : c ∈ l) : c ∈ s := by
  rw [← unlines_lines s]
  generalize lines s = ls at hl
  induction ls with
  | nil => cases hl
  | cons m ls ih =>
    cases ls with
    | nil =>
      rw [List.mem_singleton.mp hl] at h
      exact h
    | cons n ns =>
      rcases List.mem_cons.mp hl with rfl | hl
      · exact List.mem_append_left _ h
      · exact List.mem_append_right _ (List.mem_cons_of_mem _ (ih hl))

lemma mem_of_mem_indent {margin : List Char} (h : c ∈ indent margin s) :
    c = '\n' ∨ c ∈ margin ∨ c ∈ s := by
  obtain h | ⟨line, hline, h⟩ := mem_unlines h
  · exact .inl h
  · obtain ⟨l, hl, rfl⟩ := List.mem_map.mp hline
    exact .inr ((List.mem_append.mp h).imp_right (mem_of_mem_line hl))

lemma mem_of_mem_trimIndent (h : c ∈ trimIndent s) : c = '\n' ∨ c ∈ s := by
  obtain h | ⟨line, hline, h⟩ := mem_unlines h
  · exact .inl h
  · obtain ⟨l, hl, rfl⟩ := List.mem_map.mp hline
    exact .inr (mem_of_mem_line (mem_of_mem_dropEnds hl) (List.mem_of_mem_drop h))

lemma toNat_lt_of_isPlain (h : isPlain c) : c.toNat < 128 := by
  have hle (a b : Char) : a ≤ b ↔ a.toNat ≤ b.toNat := Iff.rfl
  simp only [isPlain, Bool.or_eq_true, Bool.and_eq_true, decide_eq_true_eq, hle] at h
  obtain ((rfl | rfl) | rfl) | ⟨-, h⟩ := h
  · decide
  · decide
  · decide
  · exact Nat.lt_of_le_of_lt h (by decide)

lemma isPlain_case (h : isPlain c) : isPlain c.toUpper ∧ isPlain c.toLower := by
  have hall : ∀ n : Fin 128, isPlain (Char.ofNat n) →
      isPlain (Char.ofNat n).toUpper ∧ isPlain (Char.ofNat n).toLower := by decide
  have hc := hall ⟨c.toNat, toNat_lt_of_isPlain h⟩
  rw [Char.ofNat_toNat] at hc
  exact hc h

end Characters

lemma isPlain_of_lineFeed {c : Char} (h : c = '\n') : isPlain c := by
  rw [h]
  decide

lemma plain_onChars {edit : List Char → List Char} {s : String}
    (h : ∀ c ∈ edit s.toList, isPlain c) : Plain (onChars edit s) := by
  intro c hc
  rw [onChars, String.toList_ofList] at hc
  exact h c hc

lemma plain_map {s : String} (hs : Plain s) {f : Char → Char}
    (h : ∀ c, isPlain c → isPlain (f c)) : Plain (onChars (·.map f) s) := by
  refine plain_onChars fun c hc => ?_
  obtain ⟨d, hd, rfl⟩ := List.mem_map.mp hc
  exact h d (hs d hd)

end Text

open Text

namespace Builtin

lemma exists_apply {b : Builtin} {args : List String} (hcount : args.length = b.operandCount)
    (hargs : ∀ s ∈ args, Plain s) : ∃ t, b.apply args = .ok t := by
  have hedited {result : String} (hresult : Plain result) : ∃ t, edited args result = .ok t :=
    ⟨result, edited_of_plain hargs hresult⟩
  cases b with
  | id =>
    obtain ⟨s, rfl⟩ := List.length_eq_one_iff.mp hcount
    exact ⟨s, checked_of_plain (hargs s (by simp))⟩
  | upper =>
    obtain ⟨s, rfl⟩ := List.length_eq_one_iff.mp hcount
    exact hedited (plain_map (hargs s (by simp)) fun c hc => (isPlain_case hc).1)
  | lower =>
    obtain ⟨s, rfl⟩ := List.length_eq_one_iff.mp hcount
    exact hedited (plain_map (hargs s (by simp)) fun c hc => (isPlain_case hc).2)
  | trim =>
    obtain ⟨s, rfl⟩ := List.length_eq_one_iff.mp hcount
    exact hedited (plain_onChars fun c hc => hargs s (by simp) c (mem_of_mem_dropEnds hc))
  | trimIndent =>
    obtain ⟨s, rfl⟩ := List.length_eq_one_iff.mp hcount
    refine hedited (plain_onChars fun c hc => ?_)
    exact (mem_of_mem_trimIndent hc).elim isPlain_of_lineFeed (hargs s (by simp) c)
  | append =>
    obtain ⟨s, tail, rfl⟩ := List.length_eq_two.mp hcount
    exact hedited ((hargs s (by simp)).append (hargs tail (by simp)))
  | prepend =>
    obtain ⟨s, head, rfl⟩ := List.length_eq_two.mp hcount
    exact hedited ((hargs head (by simp)).append (hargs s (by simp)))
  | indent =>
    obtain ⟨s, margin, rfl⟩ := List.length_eq_two.mp hcount
    refine hedited (plain_onChars fun c hc => ?_)
    obtain h | h | h := mem_of_mem_indent hc
    · exact isPlain_of_lineFeed h
    · exact hargs margin (by simp) c h
    · exact hargs s (by simp) c h
  | const =>
    obtain ⟨s, value, rfl⟩ := List.length_eq_two.mp hcount
    -- only the subject is checked as an argument, the value as the result
    exact ⟨value, edited_of_plain (by simpa using hargs s (by simp)) (hargs value (by simp))⟩
  | replace =>
    obtain ⟨s, target, new, rfl⟩ := List.length_eq_three.mp hcount
    refine hedited (plain_onChars fun c hc => ?_)
    exact (mem_of_mem_replace hc).elim (hargs new (by simp) c) (hargs s (by simp) c)
  | wrap =>
    obtain ⟨s, head, tail, rfl⟩ := List.length_eq_three.mp hcount
    exact hedited (((hargs head (by simp)).append (hargs s (by simp))).append
      (hargs tail (by simp)))

lemma apply_of_edited {b : Builtin} {args : List String} {result : String}
    (h : b.apply args = edited args result) (hcount : args.length = b.operandCount)
    (hargs : ∀ s ∈ args, Plain s) : b.apply args = .ok result := by
  obtain ⟨t, ht⟩ := exists_apply hcount hargs
  rw [ht, eq_of_edited (h.symm.trans ht)]

lemma apply_of_length_ne {b : Builtin} {args : List String} (h : args.length ≠ b.operandCount) :
    b.apply args = .error (.execution (.operandCount b args.length)) := by
  unfold apply
  split
  case h_12 => rfl
  all_goals exact absurd rfl h

end Builtin

end TextPipeline
