import TextPipeline.Builtin

/-!
Straight-line procedures. A procedure takes one text and returns one text; its body is a
list of bindings, each of which computes a numbered temporary from the parameter and other
temporaries.
-/

namespace TextPipeline

inductive Operand
  | param
  | temp (index : Nat)
  deriving DecidableEq, Repr

inductive Operation
  | literal (text : String)
  /-- A builtin on its operands, the subject first. -/
  | builtin (builtin : Builtin) (operands : List Operand)
  /-- Another procedure of the assembly, by name. -/
  | invoke (callee : String) (argument : Operand)
  /-- The operands one below the other. -/
  | join (parts : List Operand)
  deriving DecidableEq, Repr

structure Binding where
  temp : Nat
  operation : Operation
  deriving DecidableEq, Repr

structure Procedure where
  name : String
  parameter : String
  bindings : List Binding
  result : Operand
  deriving DecidableEq, Repr

/-- A whole program as procedures: one for each definition, and the entry. -/
structure Assembly where
  functions : List Procedure
  entry : Procedure
  deriving DecidableEq, Repr

namespace Assembly

/-- All procedures, the entry last. -/
def procedures (a : Assembly) : List Procedure := a.functions ++ [a.entry]

/-- The builtin of every binding that calls one, in order. -/
def builtinCalls (a : Assembly) : List Builtin :=
  a.procedures.flatMap fun p => p.bindings.filterMap fun b =>
    match b.operation with
    | .builtin builtin _ => some builtin
    | _ => none

/-- The builtins called, each where it first occurs. -/
def usedBuiltins (a : Assembly) : List Builtin := a.builtinCalls.eraseDups

end Assembly

end TextPipeline
