import TextPipeline.Error
import TextPipeline.Text.Policy

/-!
Texts held to the character policy: the check, and edits whose arguments and result are
checked.
-/

namespace TextPipeline.Text

/-- Refuses a text with a character outside the policy, naming the first one. -/
def ensurePlain (s : String) : Except Error Unit :=
  match firstViolation s with
  | some c => .error (.violation c)
  | none => .ok ()

/-- The text itself, once it has passed the policy. -/
def checked (s : String) : Except Error String := do
  ensurePlain s
  return s

/-- The result of an edit on these arguments: they are checked first, then the result. -/
def edited (args : List String) (result : String) : Except Error String := do
  args.forM ensurePlain
  checked result

/-- An edit of lists of characters as one of texts. -/
def onChars (edit : List Char → List Char) (s : String) : String :=
  String.ofList (edit s.toList)

end TextPipeline.Text
