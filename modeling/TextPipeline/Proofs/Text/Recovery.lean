import TextPipeline.Proofs.Builtin.Plain
import TextPipeline.Proofs.Lists
import TextPipeline.Text.Quoted

/-!
Taking texts apart again. A part that ends where characters of another kind begin can be found
again (`append_cons_inj`), and so can the lines of a text, the pieces between separators, and a
plain text from its quoted form (`quoted_injective`).
-/

namespace TextPipeline.Text

/-! ### Lines -/

/-- The lines, each with its line feed. -/
def ended (ls : List (List Char)) : List Char := ls.flatMap (· ++ ['\n'])

@[simp] lemma ended_nil : ended [] = [] := rfl
@[simp] lemma ended_cons (l : List Char) (ls : List (List Char)) :
    ended (l :: ls) = l ++ '\n' :: ended ls := by simp [ended]
@[simp] lemma ended_append (ls ms : List (List Char)) : ended (ls ++ ms) = ended ls ++ ended ms :=
  List.flatMap_append

lemma ended_injective {ls ms : List (List Char)} (hls : ∀ l ∈ ls, ∀ c ∈ l, c ≠ '\n')
    (hms : ∀ m ∈ ms, ∀ c ∈ m, c ≠ '\n') (h : ended ls = ended ms) : ls = ms := by
  induction ls generalizing ms with
  | nil =>
    cases ms with
    | nil => rfl
    | cons m ms => simp at h
  | cons l ls ih =>
    cases ms with
    | nil => simp at h
    | cons m ms =>
      obtain ⟨hl, hls⟩ := List.forall_mem_cons.mp hls
      obtain ⟨hm, hms⟩ := List.forall_mem_cons.mp hms
      rw [ended_cons, ended_cons] at h
      obtain ⟨hfirst, -, hrest⟩ := append_cons_inj hl hm (by simp) (by simp) h
      rw [hfirst, ih hls hms hrest]

lemma exists_ended (s : List Char) :
    ∃ ls, (∀ l ∈ ls, ∀ c ∈ l, c ≠ '\n') ∧ s ++ ['\n'] = ended ls := by
  induction s with
  | nil => exact ⟨[[]], by simp, rfl⟩
  | cons c s ih =>
    obtain ⟨ls, hls, hs⟩ := ih
    by_cases hc : c = '\n'
    · -- a line of its own, which is empty
      exact ⟨[] :: ls, by simpa using hls, by rw [List.cons_append, hs, hc]; rfl⟩
    · cases ls with
      | nil => simp at hs
      | cons l ls =>
        obtain ⟨hl, hls⟩ := List.forall_mem_cons.mp hls
        -- the character stands in front of the first line
        refine ⟨(c :: l) :: ls, List.forall_mem_cons.mpr ⟨?_, hls⟩, ?_⟩
        · exact List.forall_mem_cons.mpr ⟨hc, hl⟩
        · rw [List.cons_append, hs]
          simp

lemma ne_of_mem_pieces {separator c : Char} {s l : List Char} (hl : l ∈ pieces separator s)
    (hc : c ∈ l) : c ≠ separator := by
  induction s generalizing l with
  | nil =>
    have hempty : l = [] := by simpa [pieces] using hl
    rw [hempty] at hc
    cases hc
  | cons d s ih =>
    rw [pieces_cons] at hl
    split at hl
    · rcases List.mem_cons.mp hl with rfl | hl
      · cases hc
      · exact ih hl hc
    · rename_i hd
      -- the character joins the first piece
      obtain ⟨first, others, hpieces⟩ := List.exists_cons_of_ne_nil (pieces_ne_nil separator s)
      rw [hpieces] at hl ih
      rcases List.mem_cons.mp hl with rfl | hl
      · rcases List.mem_cons.mp hc with rfl | hc
        · exact hd
        · exact ih List.mem_cons_self hc
      · exact ih (List.mem_cons_of_mem _ hl) hc

lemma ne_lineFeed_of_mem_lines {c : Char} {s l : List Char} (hl : l ∈ lines s) (hc : c ∈ l) :
    c ≠ '\n' :=
  ne_of_mem_pieces hl hc

lemma lines_ne_nil (s : List Char) : lines s ≠ [] := pieces_ne_nil '\n' s

lemma ended_eq_unlines {ls : List (List Char)} (h : ls ≠ []) : ended ls = unlines ls ++ ['\n'] := by
  induction ls with
  | nil => exact absurd rfl h
  | cons l ls ih =>
    cases ls with
    | nil => simp [unlines]
    | cons m ms =>
      rw [ended_cons, ih (List.cons_ne_nil m ms), unlines_cons_of_ne_nil l (List.cons_ne_nil m ms)]
      simp

lemma lines_unlines {ls : List (List Char)} (h : ls ≠ []) (hls : ∀ l ∈ ls, ∀ c ∈ l, c ≠ '\n') :
    lines (unlines ls) = ls := by
  refine ended_injective (fun l hl c hc => ne_lineFeed_of_mem_lines hl hc) hls ?_
  rw [ended_eq_unlines (lines_ne_nil _), unlines_lines, ended_eq_unlines h]

lemma unlines_append {ls ms : List (List Char)} (hls : ls ≠ []) (hms : ms ≠ []) :
    unlines (ls ++ ms) = unlines ls ++ '\n' :: unlines ms := by
  induction ls with
  | nil => exact absurd rfl hls
  | cons l ls ih =>
    rw [List.cons_append, unlines_cons_of_ne_nil l (List.append_ne_nil_of_right_ne_nil ls hms)]
    cases ls with
    | nil => rfl
    | cons k ks =>
      rw [ih (List.cons_ne_nil k ks), unlines_cons_of_ne_nil l (List.cons_ne_nil k ks)]
      simp

lemma lines_join (s t : List Char) : lines (s ++ '\n' :: t) = lines s ++ lines t := by
  have happend : unlines (lines s ++ lines t) = s ++ '\n' :: t := by
    rw [unlines_append (lines_ne_nil s) (lines_ne_nil t), unlines_lines, unlines_lines]
  rw [← happend]
  refine lines_unlines (List.append_ne_nil_of_left_ne_nil (lines_ne_nil s) _) fun l hl c hc => ?_
  rcases List.mem_append.mp hl with hl | hl
  · exact ne_lineFeed_of_mem_lines hl hc
  · exact ne_lineFeed_of_mem_lines hl hc

/-! ### Pieces between separators -/

lemma mem_intercalate {sep : List Char} {ls : List (List Char)} {c : Char}
    (h : c ∈ sep.intercalate ls) : c ∈ sep ∨ ∃ l ∈ ls, c ∈ l := by
  induction ls with
  | nil => simp at h
  | cons l ls ih =>
    cases ls with
    | nil => exact .inr ⟨l, List.mem_cons_self, by simpa using h⟩
    | cons m ms =>
      rw [List.intercalate_cons_cons, List.append_assoc, List.mem_append, List.mem_append] at h
      rcases h with h | h | h
      · exact .inr ⟨l, List.mem_cons_self, h⟩
      · exact .inl h
      · exact (ih h).imp_right fun ⟨k, hk, hc⟩ => ⟨k, List.mem_cons_of_mem _ hk, hc⟩

lemma intercalate_injective {sep : Char} {more : List Char} {ls ms : List (List Char)}
    (hls : ∀ l ∈ ls, l ≠ [] ∧ ∀ c ∈ l, c ≠ sep) (hms : ∀ m ∈ ms, m ≠ [] ∧ ∀ c ∈ m, c ≠ sep)
    (h : (sep :: more).intercalate ls = (sep :: more).intercalate ms) : ls = ms := by
  induction ls generalizing ms with
  | nil =>
    rcases ms with _ | ⟨m, _ | ⟨n, ns⟩⟩
    · rfl
    · simp [(hms m List.mem_cons_self).1.symm] at h
    · simp [List.intercalate_cons_cons] at h
  | cons l ls ih =>
    obtain ⟨hl, hls⟩ := List.forall_mem_cons.mp hls
    cases ls with
    | nil =>
      rcases ms with _ | ⟨m, _ | ⟨n, ns⟩⟩
      · simp [hl.1] at h
      · simpa using h
      · -- the separator would stand in the only piece
        rw [List.intercalate_cons_cons] at h
        refine absurd rfl (hl.2 sep ?_)
        have hmem : sep ∈ m ++ sep :: more ++ (sep :: more).intercalate (n :: ns) := by simp
        rw [← h] at hmem
        simpa using hmem
    | cons k ks =>
      rcases ms with _ | ⟨m, _ | ⟨n, ns⟩⟩
      · simp [List.intercalate_cons_cons] at h
      · -- the separator would stand in the only piece of the others
        rw [List.intercalate_cons_cons] at h
        refine absurd rfl ((hms m List.mem_cons_self).2 sep ?_)
        have hmem : sep ∈ l ++ sep :: more ++ (sep :: more).intercalate (k :: ks) := by simp
        rw [h] at hmem
        simpa using hmem
      · -- both have a first piece, which ends where the separator first stands
        obtain ⟨hm, hms⟩ := List.forall_mem_cons.mp hms
        simp only [List.intercalate_cons_cons, List.append_assoc, List.cons_append] at h
        obtain ⟨hfirst, -, hrest⟩ := append_cons_inj hl.2 hm.2 (by simp) (by simp) h
        rw [hfirst, ih hls hms (List.append_cancel_left hrest)]

/-! ### Quoted texts -/

lemma isHidden_of_isPlain {c : Char} (h : isPlain c) (htab : c ≠ '\t') (hfeed : c ≠ '\n')
    (hreturn : c ≠ '\r') : isHidden c = false := by
  have hall : ∀ n : Fin 128, isPlain (Char.ofNat n) → Char.ofNat n ≠ '\t' →
      Char.ofNat n ≠ '\n' → Char.ofNat n ≠ '\r' → isHidden (Char.ofNat n) = false := by decide
  have hc := hall ⟨c.toNat, toNat_lt_of_isPlain h⟩
  rw [Char.ofNat_toNat] at hc
  exact hc h htab hfeed hreturn

/-- The first character of a text between double quotes, and the rest. -/
def unescape : List Char → Option (Char × List Char)
  | [] => none
  | '\\' :: c :: s =>
    some (if c = 't' then '\t' else if c = 'n' then '\n' else if c = 'r' then '\r' else c, s)
  | c :: s => some (c, s)

lemma unescape_escape {c : Char} (h : isPlain c) (s : List Char) :
    unescape (escape '"' c ++ s) = some (c, s) := by
  have hzero : c ≠ '\x00' := by
    rintro rfl
    simp [isPlain] at h
  unfold escape
  rw [if_neg hzero]
  split_ifs with htab hfeed hreturn hquote hhidden
  · simp [unescape, htab]
  · simp [unescape, hfeed]
  · simp [unescape, hreturn]
  · -- a quote or a backslash, which none of the letters is
    have hc : c ≠ 't' ∧ c ≠ 'n' ∧ c ≠ 'r' := by
      simp only [Bool.or_eq_true, decide_eq_true_eq] at hquote
      rcases hquote with rfl | rfl <;> decide
    simp [unescape, hc]
  · -- no other plain character is hidden
    rw [isHidden_of_isPlain h htab hfeed hreturn] at hhidden
    cases hhidden
  · -- a character that stands for itself
    have hc : c ≠ '\\' := by
      rintro rfl
      simp at hquote
    simp [unescape, hc]

lemma ne_lineFeed_of_mem_escape {c d : Char} (h : isPlain c) (hd : d ∈ escape '"' c) :
    d ≠ '\n' := by
  rintro rfl
  unfold escape at hd
  split_ifs at hd with hzero htab hfeed hreturn hquote hhidden
  · simp at hd
  · simp at hd
  · simp at hd
  · simp at hd
  · -- a quote or a backslash after a backslash
    simp at hd
    exact hfeed hd.symm
  · rw [isHidden_of_isPlain h htab hfeed hreturn] at hhidden
    cases hhidden
  · simp at hd
    exact hfeed hd.symm

lemma escape_injective {cs ds : List Char} (hcs : ∀ c ∈ cs, isPlain c) (hds : ∀ d ∈ ds, isPlain d)
    (h : cs.flatMap (escape '"') = ds.flatMap (escape '"')) : cs = ds := by
  induction cs generalizing ds with
  | nil =>
    cases ds with
    | nil => rfl
    | cons d ds =>
      have hd := unescape_escape (hds d List.mem_cons_self) (ds.flatMap (escape '"'))
      rw [← List.flatMap_cons, ← h] at hd
      cases hd
  | cons c cs ih =>
    obtain ⟨hc, hcs⟩ := List.forall_mem_cons.mp hcs
    have hfirst := unescape_escape hc (cs.flatMap (escape '"'))
    rw [← List.flatMap_cons, h] at hfirst
    cases ds with
    | nil => cases hfirst
    | cons d ds =>
      obtain ⟨hd, hds⟩ := List.forall_mem_cons.mp hds
      rw [List.flatMap_cons, unescape_escape hd] at hfirst
      obtain ⟨hsame, hrest⟩ := Prod.mk.inj (Option.some.inj hfirst)
      rw [hsame, ih hcs hds hrest.symm]

lemma quoted_injective {s t : String} (hs : Plain s) (ht : Plain t) (h : quoted s = quoted t) :
    s = t := by
  have hchars := List.append_cancel_right (List.cons.inj (String.ofList_injective h)).2
  exact String.toList_inj.mp (escape_injective hs ht hchars)

lemma ne_lineFeed_of_mem_quoted {s : String} (hs : Plain s) :
    ∀ c ∈ (quoted s).toList, c ≠ '\n' := by
  intro c hc
  simp only [quoted, String.toList_ofList, List.cons_append, List.mem_cons, List.mem_append,
    List.mem_flatMap, List.not_mem_nil, or_false] at hc
  obtain rfl | ⟨d, hd, hc⟩ | rfl := hc
  · decide
  · exact ne_lineFeed_of_mem_escape (hs d hd) hc
  · decide

end TextPipeline.Text
