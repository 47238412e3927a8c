import Mathlib.Data.List.Forall2
import Mathlib.Data.List.Nodup
import Mathlib.Tactic.Common
import TextPipeline.Names

/-!
Lists: where they come apart, how two of them that are related member by member are searched, and
lists without repetitions.
-/

namespace TextPipeline

variable {α β γ δ : Type}

lemma append_cons_inj {P : α → Prop} {xs ys s t : List α} {c d : α}
    (hxs : ∀ x ∈ xs, P x) (hys : ∀ y ∈ ys, P y) (hc : ¬ P c) (hd : ¬ P d)
    (h : xs ++ c :: s = ys ++ d :: t) : xs = ys ∧ c = d ∧ s = t := by
  induction xs generalizing ys with
  | nil =>
    cases ys with
    | nil => exact ⟨rfl, List.cons.inj h⟩
    | cons y ys =>
      -- the first list is at its mark where the second still has an element of the kind
      cases h
      exact absurd (hys c List.mem_cons_self) hc
  | cons x xs ih =>
    cases ys with
    | nil =>
      cases h
      exact absurd (hxs d List.mem_cons_self) hd
    | cons y ys =>
      obtain ⟨hxy, hmore⟩ := List.cons.inj h
      obtain ⟨hsame, hrest⟩ :=
        ih (List.forall_mem_cons.mp hxs).2 (List.forall_mem_cons.mp hys).2 hmore
      exact ⟨by rw [hxy, hsame], hrest⟩

lemma mapM_map_of_some {f : α → Option β} {g : β → α} {xs : List β}
    (h : ∀ x ∈ xs, f (g x) = some x) : (xs.map g).mapM f = some xs := by
  induction xs with
  | nil => rfl
  | cons x xs ih =>
    obtain ⟨hx, hxs⟩ := List.forall_mem_cons.mp h
    rw [List.map_cons, List.mapM_cons, hx, ih hxs]
    rfl

/-! ### Related lists -/

section Forall₂

variable {R : α → β → Prop} {xs : List α} {ys : List β}

lemma forall₂_getElem? (h : List.Forall₂ R xs ys) {i : Nat} {x : α} (hx : xs[i]? = some x) :
    ∃ y, ys[i]? = some y ∧ R x y := by
  induction h generalizing i with
  | nil => cases hx
  | @cons x₁ y₁ _ _ hR _ ih =>
    cases i with
    | zero =>
      cases hx
      exact ⟨y₁, rfl, hR⟩
    | succ i => exact ih hx

lemma exists_of_forall₂ (h : List.Forall₂ R xs ys) {x : α} (hx : x ∈ xs) : ∃ y ∈ ys, R x y := by
  obtain ⟨i, hi⟩ := List.mem_iff_getElem?.mp hx
  obtain ⟨y, hy, hR⟩ := forall₂_getElem? h hi
  exact ⟨y, List.mem_of_getElem? hy, hR⟩

lemma map_eq_of_forall₂ {f : α → γ} {g : β → γ} (h : List.Forall₂ R xs ys)
    (hR : ∀ x y, R x y → f x = g y) : xs.map f = ys.map g := by
  rw [← List.forall₂_eq_eq_eq, List.forall₂_map_left_iff, List.forall₂_map_right_iff]
  exact h.imp hR

lemma find?_of_forall₂ {f : α → Bool} {g : β → Bool} (h : List.Forall₂ R xs ys)
    (hfg : ∀ x y, R x y → f x = g y) :
    (xs.find? f = none ∧ ys.find? g = none) ∨
      ∃ x y, xs.find? f = some x ∧ ys.find? g = some y ∧ R x y := by
  induction h with
  | nil => exact .inl ⟨rfl, rfl⟩
  | @cons x y xs ys hxy _ ih =>
    have hsame := hfg x y hxy
    cases hf : f x with
    | true =>
      rw [List.find?_cons_of_pos hf, List.find?_cons_of_pos (hsame ▸ hf)]
      exact .inr ⟨x, y, rfl, rfl, hxy⟩
    | false =>
      rw [List.find?_cons_of_neg (by simp [hf]), List.find?_cons_of_neg (by simp [← hsame, hf])]
      exact ih

lemma forall₂_square {S : α → γ → Prop} {T : β → δ → Prop} {U : γ → δ → Prop} {us : List γ}
    {vs : List δ} (hR : List.Forall₂ R xs ys) (hS : List.Forall₂ S xs us)
    (hT : List.Forall₂ T ys vs) (h : ∀ x y u v, R x y → S x u → T y v → U u v) :
    List.Forall₂ U us vs := by
  induction hR generalizing us vs with
  | nil =>
    cases hS
    cases hT
    exact .nil
  | cons hxy _ ih =>
    cases hS with
    | cons hxu hus =>
      cases hT with
      | cons hyv hvs => exact .cons (h _ _ _ _ hxy hxu hyv) (ih hus hvs)

end Forall₂

/-! ### Lists without repetitions -/

lemma find?_of_nodup {name : α → String} {xs : List α} (h : (xs.map name).Nodup) {x : α}
    (hx : x ∈ xs) : xs.find? (fun y => name y = name x) = some x := by
  obtain ⟨y, hy⟩ := Option.isSome_iff_exists.mp
    (List.find?_isSome.mpr ⟨x, hx, by simp⟩ : (xs.find? fun y => name y = name x).isSome)
  have hname : name y = name x := by simpa using List.find?_some hy
  rw [hy, List.inj_on_of_nodup_map h (List.mem_of_find?_eq_some hy) hx hname]

lemma nodup_eraseDups [DecidableEq α] : ∀ xs : List α, xs.eraseDups.Nodup
  | [] => List.nodup_nil
  | x :: xs => by
    -- the recursion is on the rest without the element, so not on a part of the list
    have hfirst : x ∉ (xs.filter fun y => !y == x).eraseDups := by simp
    rw [List.eraseDups_cons]
    exact List.nodup_cons.mpr ⟨hfirst, nodup_eraseDups _⟩
termination_by xs => xs.length
decreasing_by exact Nat.lt_succ_of_le (List.length_filter_le _ _)

lemma firstRepeated_eq_none {name : α → String} {seen : List String} {xs : List α} :
    firstRepeated name seen xs = none ↔
      (xs.map name).Nodup ∧ ∀ x ∈ xs, name x ∉ seen := by
  induction xs generalizing seen with
  | nil => simp [firstRepeated]
  | cons x xs ih =>
    rw [firstRepeated]
    split
    · rename_i hseen
      simp [hseen]
    · rename_i hseen
      rw [ih]
      simp only [List.map_cons, List.nodup_cons, List.mem_map, List.mem_cons, not_or]
      grind

lemma firstRepeated_eq_some {name : α → String} {seen : List String} {xs : List α}
    {x : α} : firstRepeated name seen xs = some x ↔
      ∃ before after, xs = before ++ x :: after ∧ (before.map name).Nodup ∧
        (∀ y ∈ before, name y ∉ seen) ∧ name x ∈ before.map name ++ seen := by
  induction xs generalizing seen with
  | nil => simp [firstRepeated]
  | cons first xs ih =>
    rw [firstRepeated]
    split
    · -- the first element repeats one that was seen
      rename_i hseen
      constructor
      · rintro ⟨⟩
        exact ⟨[], xs, rfl, List.nodup_nil, by simp, by simpa using hseen⟩
      · rintro ⟨_ | ⟨y, before⟩, after, hxs, -, hbefore, -⟩
        · rw [(List.cons.inj hxs).1]
        · exact absurd ((List.cons.inj hxs).1 ▸ hseen) (hbefore y List.mem_cons_self)
    · -- the first element is new, and is seen from here on
      rename_i hseen
      rw [ih]
      constructor
      · rintro ⟨before, after, rfl, hnodup, hbefore, hmem⟩
        refine ⟨first :: before, after, rfl, ?_, ?_, ?_⟩
        · refine List.nodup_cons.mpr ⟨fun hin => ?_, hnodup⟩
          obtain ⟨y, hy, hname⟩ := List.mem_map.mp hin
          exact hbefore y hy (hname ▸ List.mem_cons_self)
        · exact List.forall_mem_cons.mpr ⟨hseen, fun y hy hin =>
            hbefore y hy (List.mem_cons_of_mem _ hin)⟩
        · simpa [or_left_comm] using hmem
      · rintro ⟨_ | ⟨y, before⟩, after, hxs, hnodup, hbefore, hmem⟩
        · cases hxs
          exact absurd hmem hseen
        · cases hxs
          obtain ⟨hnew, hnodup⟩ := List.nodup_cons.mp hnodup
          obtain ⟨-, hbefore⟩ := List.forall_mem_cons.mp hbefore
          refine ⟨before, after, rfl, hnodup, fun z hz => ?_, ?_⟩
          · rw [List.mem_cons, not_or]
            exact ⟨fun hname => hnew (hname ▸ List.mem_map_of_mem hz), hbefore z hz⟩
          · simpa [or_left_comm] using hmem

end TextPipeline
