import Mathlib.Data.List.TakeWhile
import Mathlib.Data.Nat.Find
import Mathlib.Order.Bounds.Basic
import TextPipeline.Proofs.Text.Recovery

/-!
Removing the common margin. What is left of a text depends on two things only: its lines from the
first to the last that is not blank (`IsSpan`) and the least margin of those of them that are not
blank (`margins`). An edit of lines after which the same lines are blank and every margin has moved
by one width takes both along (`IsSpan.map`, `isLeast_margins_map`). Putting a margin before every
line is such an edit, and so is removing the least one.
-/

namespace TextPipeline.Text

variable {ls kept : List (List Char)} {l s margin : List Char} {width : Nat}

/-! ### Lines and their margins -/

lemma isBlank_append_of_margin (hmargin : ∀ c ∈ margin, c = ' ' ∨ c = '\t') (l : List Char) :
    isBlank (margin ++ l) = isBlank l := by
  have hfiller : margin.all isFiller = true := by
    refine List.all_eq_true.mpr fun c hc => ?_
    rcases hmargin c hc with rfl | rfl
    · decide
    · decide
  rw [isBlank, List.all_append, hfiller, Bool.true_and]
  rfl

lemma marginWidth_append (hmargin : ∀ c ∈ margin, c = ' ' ∨ c = '\t') (l : List Char) :
    marginWidth (margin ++ l) = margin.length + marginWidth l := by
  rw [marginWidth, List.takeWhile_append_of_pos (by simpa using hmargin), List.length_append]
  rfl

lemma marginWidth_le_length (l : List Char) : marginWidth l ≤ l.length :=
  (List.takeWhile_prefix _).length_le

lemma margin_of_mem_take {c : Char} (h : width ≤ marginWidth l) (hc : c ∈ l.take width) :
    c = ' ' ∨ c = '\t' := by
  rw [← List.takeWhile_append_dropWhile (p := fun c => c = ' ' || c = '\t') (l := l),
    List.take_append_of_le_length h] at hc
  simpa using List.mem_takeWhile_imp (List.mem_of_mem_take hc)

lemma isBlank_drop (h : ¬ isBlank l → width ≤ marginWidth l) :
    isBlank (l.drop width) = isBlank l := by
  by_cases hl : isBlank l
  · rw [hl]
    exact List.all_eq_true.mpr fun c hc => List.all_eq_true.mp hl c (List.mem_of_mem_drop hc)
  · have happend := isBlank_append_of_margin (fun c => margin_of_mem_take (h hl)) (l.drop width)
    rw [List.take_append_drop] at happend
    exact happend.symm

lemma marginWidth_drop (h : width ≤ marginWidth l) :
    marginWidth (l.drop width) + width = marginWidth l := by
  have happend := marginWidth_append (fun c => margin_of_mem_take h) (l.drop width)
  rw [List.take_append_drop, List.length_take_of_le (h.trans (marginWidth_le_length l))] at happend
  omega

/-! ### The lines that are kept -/

structure IsSpan (ls kept : List (List Char)) : Prop where
  between : ∃ before after, ls = before ++ kept ++ after ∧ (∀ l ∈ before, isBlank l) ∧
    ∀ l ∈ after, isBlank l
  first : ∃ l, kept.head? = some l ∧ ¬ isBlank l
  last : ∃ l, kept.getLast? = some l ∧ ¬ isBlank l

lemma IsSpan.exists_notBlank (h : IsSpan ls kept) : ∃ l ∈ kept, ¬ isBlank l := by
  obtain ⟨l, hl, hblank⟩ := h.first
  exact ⟨l, List.mem_of_mem_head? hl, hblank⟩

lemma IsSpan.subset (h : IsSpan ls kept) : kept ⊆ ls := by
  obtain ⟨before, after, rfl, -, -⟩ := h.between
  intro l hl
  exact List.mem_append_left _ (List.mem_append_right _ hl)

lemma IsSpan.self (h : IsSpan ls kept) : IsSpan kept kept :=
  ⟨⟨[], [], by simp, by simp, by simp⟩, h.first, h.last⟩

lemma blank_map {f : List Char → List Char} (hf : ∀ l ∈ ls, isBlank (f l) = isBlank l)
    (h : ∀ l ∈ ls, isBlank l) : ∀ m ∈ ls.map f, isBlank m := by
  intro m hm
  obtain ⟨l, hl, rfl⟩ := List.mem_map.mp hm
  rw [hf l hl]
  exact h l hl

lemma IsSpan.map (h : IsSpan ls kept) {f : List Char → List Char}
    (hf : ∀ l ∈ ls, isBlank (f l) = isBlank l) : IsSpan (ls.map f) (kept.map f) := by
  have hkept : ∀ l ∈ kept, isBlank (f l) = isBlank l := fun l hl => hf l (h.subset hl)
  obtain ⟨before, after, rfl, hbefore, hafter⟩ := h.between
  refine ⟨⟨before.map f, after.map f, by simp, ?_, ?_⟩, ?_, ?_⟩
  · exact blank_map (fun l hl => hf l (by simp [hl])) hbefore
  · exact blank_map (fun l hl => hf l (by simp [hl])) hafter
  · obtain ⟨l, hl, hblank⟩ := h.first
    refine ⟨f l, by rw [List.head?_map, hl]; rfl, ?_⟩
    rwa [hkept l (List.mem_of_mem_head? hl)]
  · obtain ⟨l, hl, hblank⟩ := h.last
    refine ⟨f l, by rw [List.getLast?_map, hl]; rfl, ?_⟩
    rwa [hkept l (List.mem_of_getLast? hl)]

lemma dropWhile_append_of_head {α : Type} {p : α → Bool} {xs ys : List α} (hxs : ∀ x ∈ xs, p x)
    (hys : ∃ y, ys.head? = some y ∧ ¬ p y) : (xs ++ ys).dropWhile p = ys := by
  obtain ⟨y, hy, hp⟩ := hys
  obtain ⟨ys, rfl⟩ := List.head?_eq_some_iff.mp hy
  rw [List.dropWhile_append_of_pos hxs, List.dropWhile_cons_of_neg hp]

lemma dropBlankEnds_of_isSpan (h : IsSpan ls kept) : dropBlankEnds ls = kept := by
  obtain ⟨before, after, rfl, hbefore, hafter⟩ := h.between
  obtain ⟨l, hl, hblank⟩ := h.first
  have hfront : (kept ++ after).head? = some l := by rw [List.head?_append, hl]; rfl
  have hback : kept.reverse.head? = kept.getLast? := List.head?_reverse
  rw [dropBlankEnds, List.append_assoc, dropWhile_append_of_head hbefore ⟨l, hfront, hblank⟩,
    List.reverse_append, dropWhile_append_of_head (by simpa using hafter) (hback ▸ h.last),
    List.reverse_reverse]

lemma exists_first_notBlank (h : ∃ l ∈ ls, ¬ isBlank l) :
    ∃ before l after, ls = before ++ l :: after ∧ (∀ m ∈ before, isBlank m) ∧ ¬ isBlank l := by
  obtain ⟨l, hl⟩ : ∃ l, ls.find? (fun l => !isBlank l) = some l := by
    rw [← Option.isSome_iff_exists, List.find?_isSome]
    simpa using h
  obtain ⟨hblank, before, after, hls, hbefore⟩ := List.find?_eq_some_iff_append.mp hl
  exact ⟨before, l, after, hls, by simpa using hbefore, by simpa using hblank⟩

lemma exists_isSpan (h : ∃ l ∈ ls, ¬ isBlank l) : ∃ kept, IsSpan ls kept := by
  obtain ⟨before, first, rest, rfl, hbefore, hfirst⟩ := exists_first_notBlank h
  -- the last line that is not blank is the first one from behind
  obtain ⟨after, last, inner, hback, hafter, hlast⟩ :=
    exists_first_notBlank ⟨first, List.mem_reverse.mpr List.mem_cons_self, hfirst⟩
  have hrest : first :: rest = inner.reverse ++ [last] ++ after.reverse := by
    rw [← List.reverse_reverse (first :: rest), hback]
    simp
  have hhead : (inner.reverse ++ [last]).head? = some first := by
    have h := congrArg List.head? hrest
    rw [List.head?_append_of_ne_nil _ (by simp)] at h
    exact h.symm
  refine ⟨inner.reverse ++ [last], ⟨before, after.reverse, ?_, hbefore, by simpa using hafter⟩,
    ⟨first, hhead, hfirst⟩, ⟨last, by simp, hlast⟩⟩
  rw [hrest, List.append_assoc, List.append_assoc, List.append_assoc]

/-! ### The least margin -/

/-- The margins of the lines that are not blank. -/
def margins (ls : List (List Char)) : Set Nat := {n | ∃ l ∈ ls, ¬ isBlank l ∧ marginWidth l = n}

lemma exists_isLeast_margins (h : ∃ l ∈ ls, ¬ isBlank l) : ∃ width, IsLeast (margins ls) width := by
  classical
  obtain ⟨l, hl, hblank⟩ := h
  have hsome : ∃ n, n ∈ margins ls := ⟨marginWidth l, l, hl, hblank, rfl⟩
  exact ⟨Nat.find hsome, Nat.find_spec hsome, fun n hn => Nat.find_min' hsome hn⟩

lemma commonMargin_of_isLeast (h : IsLeast (margins ls) width) : commonMargin ls = width := by
  obtain ⟨⟨l, hl, hblank, hwidth⟩, hleast⟩ := h
  have hmin : ((ls.filter fun l => !isBlank l).map marginWidth).min? = some width := by
    refine List.min?_eq_some_iff.mpr ⟨List.mem_map.mpr ⟨l, ?_, hwidth⟩, fun n hn => ?_⟩
    · exact List.mem_filter.mpr ⟨hl, by simpa using hblank⟩
    · obtain ⟨m, hm, rfl⟩ := List.mem_map.mp hn
      obtain ⟨hm, hblank⟩ := List.mem_filter.mp hm
      exact hleast ⟨m, hm, by simpa using hblank, rfl⟩
  rw [commonMargin, hmin]
  rfl

lemma le_marginWidth_of_isLeast (h : IsLeast (margins ls) width) (hl : l ∈ ls)
    (hblank : ¬ isBlank l) : width ≤ marginWidth l :=
  h.2 ⟨l, hl, hblank, rfl⟩

lemma isLeast_margins_map {f : List Char → List Char} {width' : Nat} (less more : Nat)
    (hf : ∀ l ∈ ls, isBlank (f l) = isBlank l)
    (hmargin : ∀ l ∈ ls, ¬ isBlank l → marginWidth (f l) + less = marginWidth l + more)
    (h : IsLeast (margins ls) width) (hwidth : width' + less = width + more) :
    IsLeast (margins (ls.map f)) width' := by
  obtain ⟨l, hl, hblank, hreached⟩ := h.1
  constructor
  · -- the line with the least margin still has the least
    refine ⟨f l, List.mem_map_of_mem hl, by rwa [hf l hl], ?_⟩
    have hl' := hmargin l hl hblank
    omega
  · -- no other line has a smaller one
    rintro n ⟨m, hm, hblank, rfl⟩
    obtain ⟨l, hl, rfl⟩ := List.mem_map.mp hm
    rw [hf l hl] at hblank
    have hle := le_marginWidth_of_isLeast h hl hblank
    have hl' := hmargin l hl hblank
    omega

/-! ### Texts without their common margin -/

lemma blank_or_isSpan (s : List Char) : (∀ l ∈ lines s, isBlank l) ∨
    ∃ kept width, IsSpan (lines s) kept ∧ IsLeast (margins kept) width := by
  by_cases h : ∀ l ∈ lines s, isBlank l
  · exact .inl h
  · obtain ⟨kept, hspan⟩ := exists_isSpan (by simpa using h)
    obtain ⟨width, hleast⟩ := exists_isLeast_margins hspan.exists_notBlank
    exact .inr ⟨kept, width, hspan, hleast⟩

lemma trimIndent_of_isSpan (hspan : IsSpan (lines s) kept) (hleast : IsLeast (margins kept) width) :
    trimIndent s = unlines (kept.map (·.drop width)) := by
  rw [trimIndent, dropBlankEnds_of_isSpan hspan, commonMargin_of_isLeast hleast]

lemma trimIndent_of_blank (h : ∀ l ∈ lines s, isBlank l) : trimIndent s = [] := by
  have hnone : (lines s).dropWhile isBlank = [] := List.dropWhile_eq_nil_iff.mpr h
  simp [trimIndent, dropBlankEnds, hnone, unlines]

lemma lines_trimIndent (hspan : IsSpan (lines s) kept) (hleast : IsLeast (margins kept) width) :
    lines (trimIndent s) = kept.map (·.drop width) := by
  rw [trimIndent_of_isSpan hspan hleast]
  refine lines_unlines ?_ fun m hm c hc => ?_
  · obtain ⟨l, hl, -⟩ := hspan.exists_notBlank
    exact List.ne_nil_of_mem (List.mem_map_of_mem hl)
  · obtain ⟨l, hl, rfl⟩ := List.mem_map.mp hm
    exact ne_lineFeed_of_mem_lines (hspan.subset hl) (List.mem_of_mem_drop hc)

lemma isSpan_trimIndent (hspan : IsSpan (lines s) kept) (hleast : IsLeast (margins kept) width) :
    IsSpan (lines (trimIndent s)) (lines (trimIndent s)) ∧
      IsLeast (margins (lines (trimIndent s))) 0 := by
  have hblank : ∀ l ∈ kept, isBlank (l.drop width) = isBlank l := fun l hl =>
    isBlank_drop fun hblank => le_marginWidth_of_isLeast hleast hl hblank
  rw [lines_trimIndent hspan hleast]
  refine ⟨hspan.self.map hblank, ?_⟩
  refine isLeast_margins_map width 0 hblank (fun l hl hl' => ?_) hleast (Nat.zero_add width)
  exact marginWidth_drop (le_marginWidth_of_isLeast hleast hl hl')

lemma lines_indent (hmargin : ∀ c ∈ margin, c ≠ '\n') (s : List Char) :
    lines (indent margin s) = (lines s).map (margin ++ ·) := by
  refine lines_unlines (by simpa using lines_ne_nil s) fun m hm c hc => ?_
  obtain ⟨l, hl, rfl⟩ := List.mem_map.mp hm
  rcases List.mem_append.mp hc with hc | hc
  · exact hmargin c hc
  · exact ne_lineFeed_of_mem_lines hl hc

lemma indent_join (margin s t : List Char) :
    indent margin (s ++ '\n' :: t) = indent margin s ++ '\n' :: indent margin t := by
  have hlines (u : List Char) : (lines u).map (margin ++ ·) ≠ [] := by simpa using lines_ne_nil u
  rw [indent, lines_join, List.map_append, unlines_append (hlines s) (hlines t)]
  rfl

lemma indent_indent (hmargin : ∀ c ∈ margin, c ≠ '\n') (outer s : List Char) :
    indent outer (indent margin s) = indent (outer ++ margin) s := by
  rw [indent, lines_indent hmargin, List.map_map, indent]
  congr 1
  refine List.map_congr_left fun l _ => ?_
  simp

lemma trimIndent_indent (hmargin : ∀ c ∈ margin, c = ' ' ∨ c = '\t') (s : List Char) :
    trimIndent (indent margin s) = trimIndent s := by
  have hfeed : ∀ c ∈ margin, c ≠ '\n' := by
    intro c hc
    rcases hmargin c hc with rfl | rfl
    · decide
    · decide
  have hblank (l : List Char) : isBlank (margin ++ l) = isBlank l :=
    isBlank_append_of_margin hmargin l
  rcases blank_or_isSpan s with h | ⟨kept, width, hspan, hleast⟩
  · -- a blank text stays blank
    have h' : ∀ l ∈ lines (indent margin s), isBlank l := by
      rw [lines_indent hfeed]
      exact blank_map (fun l _ => hblank l) h
    rw [trimIndent_of_blank h, trimIndent_of_blank h']
  · -- every margin is wider by as much
    have hspan' : IsSpan (lines (indent margin s)) (kept.map (margin ++ ·)) := by
      rw [lines_indent hfeed]
      exact hspan.map fun l _ => hblank l
    have hleast' : IsLeast (margins (kept.map (margin ++ ·))) (width + margin.length) := by
      refine isLeast_margins_map 0 margin.length (fun l _ => hblank l) (fun l _ _ => ?_) hleast rfl
      rw [marginWidth_append hmargin]
      omega
    rw [trimIndent_of_isSpan hspan' hleast', trimIndent_of_isSpan hspan hleast, List.map_map]
    congr 1
    refine List.map_congr_left fun l _ => ?_
    simp [List.drop_append]

lemma trimIndent_trimIndent (s : List Char) : trimIndent (trimIndent s) = trimIndent s := by
  rcases blank_or_isSpan s with h | ⟨kept, width, hspan, hleast⟩
  · rw [trimIndent_of_blank h]
    decide
  · obtain ⟨hspan', hleast'⟩ := isSpan_trimIndent hspan hleast
    rw [trimIndent_of_isSpan hspan' hleast']
    simp [unlines_lines]

end TextPipeline.Text
