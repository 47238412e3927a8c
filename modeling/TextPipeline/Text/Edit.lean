import TextPipeline.Text.Lines

/-!
The edits that need more than concatenation, on lists of characters: trimming, literal
replacement, indenting and removing the common indentation.
-/

namespace TextPipeline.Text

/-- A character up to the space: the ones that trimming strips and that leave a line blank. -/
def isFiller (c : Char) : Bool := c ≤ ' '

/-- Drops the filler at both ends. -/
def trim (s : List Char) : List Char :=
  ((s.dropWhile isFiller).reverse.dropWhile isFiller).reverse

/-! ### Replacement -/

/-- Replaces the occurrences of a non-empty target, leftmost first and without overlap.
`covered` counts the characters that still belong to the occurrence replaced last. -/
def replaceEach (target new : List Char) : (covered : Nat) → List Char → List Char
  | _, [] => []
  | covered + 1, _ :: s => replaceEach target new covered s
  | 0, c :: s =>
    if target.isPrefixOf (c :: s) then new ++ replaceEach target new (target.length - 1) s
    else c :: replaceEach target new 0 s

/-- Puts `new` before every character and at the end. -/
def insertEverywhere (new : List Char) (s : List Char) : List Char :=
  new ++ s.flatMap fun c => c :: new

/-- Replaces every occurrence of the target; the empty target occurs at every boundary. -/
def replace (target new s : List Char) : List Char :=
  if target.isEmpty then insertEverywhere new s else replaceEach target new 0 s

/-! ### Indentation -/

/-- Puts `margin` before every line, the empty ones included. -/
def indent (margin s : List Char) : List Char :=
  unlines ((lines s).map (margin ++ ·))

def isBlank (line : List Char) : Bool := line.all isFiller

/-- The number of spaces and tabs a line starts with. -/
def marginWidth (line : List Char) : Nat :=
  (line.takeWhile fun c => c = ' ' || c = '\t').length

/-- The lines from the first to the last that is not blank. -/
def dropBlankEnds (ls : List (List Char)) : List (List Char) :=
  ((ls.dropWhile isBlank).reverse.dropWhile isBlank).reverse

/-- The least margin of the lines that are not blank, and zero if all are. -/
def commonMargin (ls : List (List Char)) : Nat :=
  (((ls.filter fun l => !isBlank l).map marginWidth).min?).getD 0

/-- Drops the blank lines at both ends and removes the common margin from every line left. -/
def trimIndent (s : List Char) : List Char :=
  let kept := dropBlankEnds (lines s)
  let margin := commonMargin kept
  unlines (kept.map (·.drop margin))

end TextPipeline.Text
