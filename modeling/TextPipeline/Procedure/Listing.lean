import TextPipeline.Procedure
import TextPipeline.Text.Quoted

/-!
The listing of an assembly: each procedure in braces with one binding a line, and an empty
line after every procedure but the entry.
-/

namespace TextPipeline

def tempName (index : Nat) : String := "tmp" ++ toString index

/-- The operand in a procedure whose parameter has this name. -/
def Operand.shown (parameter : String) : Operand → String
  | param => parameter
  | temp index => tempName index

def Operand.shownAll (parameter : String) (operands : List Operand) : String :=
  ", ".intercalate (operands.map (shown parameter))

def Operation.shown (parameter : String) : Operation → String
  | literal text => "literal " ++ Text.quoted text
  | builtin b operands => b.name ++ "(" ++ Operand.shownAll parameter operands ++ ")"
  | invoke callee argument => "call " ++ callee ++ "(" ++ argument.shown parameter ++ ")"
  | join parts => "join_lines(" ++ Operand.shownAll parameter parts ++ ")"

def Binding.line (parameter : String) (b : Binding) : String :=
  "    " ++ tempName b.temp ++ " = " ++ b.operation.shown parameter ++ "\n"

def Procedure.listing (p : Procedure) : String :=
  "proc " ++ p.name ++ "(" ++ p.parameter ++ ") \x7b\n"
    ++ String.join (p.bindings.map (Binding.line p.parameter))
    ++ "    return " ++ p.result.shown p.parameter ++ "\n\x7d\n"

def Assembly.listing (a : Assembly) : String :=
  String.join (a.functions.map fun p => p.listing ++ "\n") ++ a.entry.listing

end TextPipeline
