/-!
Texts as lists of lines. A line feed separates two lines, so a text has one line more than it
has line feeds (`unlines_lines`: and nothing else is lost).
-/

namespace TextPipeline.Text

/-- Puts a character in front: it joins the first piece, or separates an empty one from it. -/
def pushFront (separator c : Char) :
    List Char × List (List Char) → List Char × List (List Char)
  | (first, rest) => if c = separator then ([], first :: rest) else (c :: first, rest)

/-- The pieces between the separators, in order. There is one more of them. -/
def pieces (separator : Char) (s : List Char) : List (List Char) :=
  let (first, rest) := s.foldr (pushFront separator) ([], [])
  first :: rest

/-- The lines of a text, without their line feeds. -/
def lines (s : List Char) : List (List Char) := pieces '\n' s

/-- The text with these lines: a line feed between any two of them. -/
def unlines : List (List Char) → List Char
  | [] => []
  | [l] => l
  | l :: ls => l ++ '\n' :: unlines ls

theorem pieces_cons (separator c : Char) (s : List Char) :
    pieces separator (c :: s) = if c = separator then [] :: pieces separator s
      else (c :: (pieces separator s).headD []) :: (pieces separator s).tail := by
  by_cases h : c = separator <;> simp [pieces, pushFront, h]

theorem pieces_ne_nil (separator : Char) (s : List Char) : pieces separator s ≠ [] := by
  simp [pieces]

theorem unlines_cons_of_ne_nil (l : List Char) {ls : List (List Char)} (h : ls ≠ []) :
    unlines (l :: ls) = l ++ '\n' :: unlines ls := by
  cases ls with
  | nil => exact absurd rfl h
  | cons _ _ => rfl

/-- Splitting into lines loses nothing. -/
theorem unlines_lines (s : List Char) : unlines (lines s) = s := by
  induction s with
  | nil => rfl
  | cons c s ih =>
    unfold lines at ih ⊢
    rw [pieces_cons]
    split
    · rename_i h
      rw [unlines_cons_of_ne_nil _ (pieces_ne_nil _ s), ih, h]
      rfl
    · -- the character joins the first line, whatever follows that line
      obtain ⟨l, ls, hl⟩ := List.exists_cons_of_ne_nil (pieces_ne_nil '\n' s)
      rw [hl] at ih ⊢
      cases ls with
      | nil => simpa [unlines] using ih
      | cons m ms => simpa [unlines] using ih

end TextPipeline.Text
