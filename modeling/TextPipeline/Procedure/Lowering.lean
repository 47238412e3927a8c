import TextPipeline.Error
import TextPipeline.Names
import TextPipeline.Procedure
import TextPipeline.Program

/-!
From programs to procedures.

In value context a term stands for itself: a name must be the parameter, a call lists every
operand. In step context it works on the value of the pipeline so far, which is then its
first operand. A group collects its members one below the other; as a step it passes the
value so far to them under the name of the parameter. Arguments are always values, in the
scope of the pipeline they stand in.

Each of the functions below returns the operand that holds the value and the bindings that
compute it, numbered from `next` on.
-/

namespace TextPipeline

/-- The name that denotes the input in the expression that is run. -/
def inputName : String := "it"

/-- The parameter of the entry procedure. -/
def entryParameter : String := "input"

/-- The procedure of a definition. -/
def functionName (name : String) : String := "fn_" ++ name

namespace Lowering

/-- The names that a call can refer to. -/
structure Names where
  catalog : Catalog
  functions : List String

/-- What a called name refers to. -/
inductive Callee
  | builtin (d : Descriptor)
  | function (name : String)

/-- Builtins come before definitions. -/
def Names.resolve (names : Names) (name : String) (line : Nat) : Except Error Callee :=
  match names.catalog.find? name with
  | some d => .ok (.builtin d)
  | none =>
    if name ∈ names.functions then .ok (.function name)
    else .error (.resolution line (.unknownFunction name))

/-- The one name in scope and the operand it stands for. -/
structure Scope where
  parameter : String
  current : Operand

/-- Adds the operation to the code before it. -/
def emit (next : Nat) (code : List Binding) (operation : Operation) : Operand × List Binding :=
  let index := next + code.length
  (.temp index, code ++ [⟨index, operation⟩])

mutual

/-- A term in value context. -/
def value (names : Names) (scope : Scope) (next : Nat) :
    Term → Except Error (Operand × List Binding)
  | .identifier name line =>
    if name = scope.parameter then .ok (scope.current, [])
    else .error (.resolution line (.unknownIdentifier name))
  | .literal text _ => .ok (emit next [] (.literal text))
  | .call target arguments line => do
    match ← names.resolve target line with
    | .builtin d =>
      if arguments.length ≠ d.operandCount then
        .error (.resolution line (.valueArguments target d.operandCount))
      else do
        let (operands, code) ← values names scope next arguments
        return emit next code (.builtin d.builtin operands)
    | .function name =>
      match arguments with
      | [argument] => do
        let (operand, code) ← value names scope next argument
        return emit next code (.invoke (functionName name) operand)
      | _ => .error (.resolution line (.oneArgument target))
  | .group es _ => do
    let (parts, code) ← members names scope next es
    return emit next code (if parts.isEmpty then .literal "" else .join parts)

/-- A term in step context, on the value that `current` holds. -/
def step (names : Names) (scope : Scope) (next : Nat) (current : Operand) :
    Term → Except Error (Operand × List Binding)
  | .identifier name line =>
    if name = scope.parameter then .error (.resolution line (.parameterCalled name))
    else do
      match ← names.resolve name line with
      | .builtin d =>
        if d.arity = 0 then return emit next [] (.builtin d.builtin [current])
        else .error (.resolution line (.missingArguments name d.arity))
      | .function name => return emit next [] (.invoke (functionName name) current)
  | .literal text _ => .ok (emit next [] (.literal text))
  | .call target arguments line => do
    match ← names.resolve target line with
    | .builtin d =>
      if arguments.length ≠ d.arity then
        .error (.resolution line (.stepArguments target d.arity))
      else do
        let (operands, code) ← values names scope next arguments
        return emit next code (.builtin d.builtin (current :: operands))
    | .function _ => .error (.resolution line (.functionArguments target))
  | .group es _ => do
    let (parts, code) ← members names { scope with current } next es
    return emit next code (if parts.isEmpty then .literal "" else .join parts)

/-- Arguments, from left to right. -/
def values (names : Names) (scope : Scope) (next : Nat) :
    List Term → Except Error (List Operand × List Binding)
  | [] => .ok ([], [])
  | t :: ts => do
    let (operand, code) ← value names scope next t
    let (operands, more) ← values names scope (next + code.length) ts
    return (operand :: operands, code ++ more)

/-- The rest of a pipeline. -/
def steps (names : Names) (scope : Scope) (next : Nat) (current : Operand) :
    List Term → Except Error (Operand × List Binding)
  | [] => .ok (current, [])
  | t :: ts => do
    let (operand, code) ← step names scope next current t
    let (result, more) ← steps names scope (next + code.length) operand ts
    return (result, code ++ more)

def expression (names : Names) (scope : Scope) (next : Nat) :
    Expression → Except Error (Operand × List Binding)
  | .pipeline [] line => .error (.resolution line .emptyPipeline)
  | .pipeline (t :: ts) _ => do
    let (operand, code) ← value names scope next t
    let (result, more) ← steps names scope (next + code.length) operand ts
    return (result, code ++ more)

/-- The members of a group, in order. -/
def members (names : Names) (scope : Scope) (next : Nat) :
    List Expression → Except Error (List Operand × List Binding)
  | [] => .ok ([], [])
  | e :: es => do
    let (part, code) ← expression names scope next e
    let (parts, more) ← members names scope (next + code.length) es
    return (part :: parts, code ++ more)

end

/-- The procedure of a body in which `scopeName` denotes the parameter. -/
def procedure (names : Names) (name parameter scopeName : String) (body : Expression) :
    Except Error Procedure := do
  let (result, bindings) ← expression names ⟨scopeName, .param⟩ 0 body
  return { name, parameter, bindings, result }

def function (names : Names) (d : Definition) : Except Error Procedure :=
  procedure names (functionName d.name) d.parameter d.parameter d.body

end Lowering

/-- The procedures of a program: repeated definitions are refused first, then each definition
is lowered, then the expression. -/
def Program.lower (catalog : Catalog) (entry : String) (p : Program) : Except Error Assembly :=
  match firstRepeated Definition.name [] p.definitions with
  | some d => .error (.resolution d.line (.alreadyDefined d.name))
  | none => do
    let names : Lowering.Names := ⟨catalog, p.definitions.map (·.name)⟩
    let functions ← p.definitions.mapM (Lowering.function names)
    let entry ← Lowering.procedure names entry entryParameter inputName p.expression
    return { functions, entry }

end TextPipeline
