/-!
Names that must differ: the first of a list of named things whose name was used before.
-/

namespace TextPipeline

/-- The first element whose name is among `seen` or is that of an element before it. -/
def firstRepeated {α : Type} (name : α → String) (seen : List String) : List α → Option α
  | [] => none
  | x :: xs => if name x ∈ seen then some x else firstRepeated name (name x :: seen) xs

/-- The elements before that one, or all of them. -/
def beforeRepeated {α : Type} (name : α → String) (seen : List String) : List α → List α
  | [] => []
  | x :: xs => if name x ∈ seen then [] else x :: beforeRepeated name (name x :: seen) xs

end TextPipeline
