import TextPipeline.Text.Lines

/-!
Paths as written: segments between slashes. A path with an empty first segment starts at the
root; later segments that are empty or a single dot stand for nothing.
-/

namespace TextPipeline.Command.Path

/-- The segments between the slashes of a path. -/
def segments (path : String) : List String :=
  (Text.pieces '/' path.toList).map String.ofList

/-- The path with these segments, the last first. -/
def ofReversed : List String → String
  | [""] => "/"
  | segments => "/".intercalate segments.reverse

/-- Drops the segments at the end that stand for nothing, up to the first of the path. -/
def trimEnd : List String → List String
  | [] => []
  | [first] => [first]
  | s :: rest => if s = "" ∨ s = "." then trimEnd rest else s :: rest

/-- The path is a single dash, whatever stands for nothing after it. -/
def isDash (path : String) : Bool := trimEnd (segments path).reverse = ["-"]

/-- The paths above the one with these segments, the nearest first. The segments are given
from the last to the first, and the empty path above a single name is left out. -/
def above : List String → List String
  | [] => []
  | s :: rest =>
    if (s = "" ∨ s = ".") ∧ rest ≠ [] then above rest
    else
      match trimEnd rest with
      | [] => []
      | parent => ofReversed parent :: above rest

/-- The directories that a path names, the nearest first. -/
def directories (path : String) : List String := above (segments path).reverse

end TextPipeline.Command.Path
