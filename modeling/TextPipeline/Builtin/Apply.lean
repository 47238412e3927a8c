import TextPipeline.Text.Checked
import TextPipeline.Text.Edit

/-!
What the builtins compute. Every argument is held to the character policy, in order, and so
is the result.
-/

namespace TextPipeline.Builtin

open Text

/-- A literal, or the value of `const`. -/
def ofLiteral (s : String) : Except Error String := checked s

/-- Two texts on lines of their own. -/
def joinLines (first second : String) : Except Error String :=
  edited [first, second] (first ++ "\n" ++ second)

/-- The builtin on its operands, the subject first. -/
def apply : Builtin → List String → Except Error String
  | id, [s] => checked s
  | upper, [s] => edited [s] (onChars (·.map Char.toUpper) s)
  | lower, [s] => edited [s] (onChars (·.map Char.toLower) s)
  | trim, [s] => edited [s] (onChars Text.trim s)
  | trimIndent, [s] => edited [s] (onChars Text.trimIndent s)
  | append, [s, tail] => edited [s, tail] (s ++ tail)
  | prepend, [s, head] => edited [s, head] (head ++ s)
  | indent, [s, margin] => edited [s, margin] (onChars (Text.indent margin.toList) s)
  | const, [s, value] => edited [s] value
  | replace, [s, target, new] =>
    edited [s, target, new] (onChars (Text.replace target.toList new.toList) s)
  | wrap, [s, head, tail] => edited [s, head, tail] (head ++ s ++ tail)
  | b, args => .error (.execution (.operandCount b args.length))

end TextPipeline.Builtin
