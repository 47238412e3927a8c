import TextPipeline.Names
import TextPipeline.Procedure
import TextPipeline.Wasm.LiteralPool

/-!
From procedures to a module. The host functions come first in the numbering, then one
function for each procedure. The parameter of a procedure is local 0 and temporary `n` is
local `n + 1`.
-/

namespace TextPipeline.Wasm

/-- What the numbering of functions rests on: the builtins that are imported and the names of
the procedures, both in order. -/
structure Layout where
  imported : List Descriptor
  names : List String
  deriving DecidableEq, Repr

namespace Layout

/-- The index of the import for literals, which comes first. -/
def literalIndex : Nat := 0

/-- The index of the import for joins, which comes second. -/
def joinIndex : Nat := 1

/-- The number of imports, those of builtins and the two before them. -/
def importCount (l : Layout) : Nat := l.imported.length + 2

/-- The index of the import for a builtin. -/
def builtinIndex? (l : Layout) (b : Builtin) : Option Nat :=
  (l.imported.findIdx? fun d => d.builtin = b).map (· + 2)

/-- The index of the function of a procedure. -/
def procedureIndex? (l : Layout) (name : String) : Option Nat :=
  (l.names.idxOf? name).map (l.importCount + ·)

/-- The function types, each where it is first needed: by the imports, then by procedures. -/
def types (l : Layout) : List Nat :=
  (2 :: 2 :: l.imported.map Descriptor.operandCount ++ [1]).eraseDups

def typeIndex (l : Layout) (parameters : Nat) : Nat := l.types.idxOf parameters

def imports (l : Layout) : List Import :=
  ⟨hostModule, literalName, l.typeIndex 2⟩ :: ⟨hostModule, joinName, l.typeIndex 2⟩ ::
    l.imported.map fun d => ⟨hostModule, d.name, l.typeIndex d.operandCount⟩

/-- The entry of a builtin in the table. -/
def describe (b : Builtin) : Except Error Descriptor :=
  match Catalog.standard.entry? b with
  | some d => .ok d
  | none => .error (.generation (.noDescriptor b))

/-- The numbering for an assembly: the imports first, then the procedures, whose names must
differ. -/
def ofAssembly (a : Assembly) : Except Error Layout := do
  let imported ← a.usedBuiltins.mapM describe
  match firstRepeated Procedure.name [] a.procedures with
  | some p => .error (.generation (.emittedTwice p.name))
  | none => return ⟨imported, a.procedures.map (·.name)⟩

end Layout

/-- The local that holds an operand. -/
def localOf : Operand → Nat
  | .param => 0
  | .temp index => index + 1

def getOperand (o : Operand) : Instruction := .localGet (localOf o)

/-- The code that leaves the value of an operation on the stack, and the literals with those
of the operation added. -/
def operationCode (l : Layout) (pool : LiteralPool) :
    Operation → Except Error (List Instruction × LiteralPool)
  | .literal text =>
    match pool.intern text with
    | (.ok location, pool) =>
      .ok ([.const location.offset, .const location.length, .call Layout.literalIndex], pool)
    | (.error e, _) => .error e
  | .builtin b operands =>
    match l.builtinIndex? b with
    | some index => .ok (operands.map getOperand ++ [.call index], pool)
    | none => .error (.generation (.notImported b))
  | .invoke callee argument =>
    match l.procedureIndex? callee with
    | some index => .ok ([getOperand argument, .call index], pool)
    | none => .error (.generation (.unknownProcedure callee))
  | .join [] => .error (.generation .emptyJoin)
  | .join (first :: rest) =>
    let joined := rest.flatMap fun part => [getOperand part, .call Layout.joinIndex]
    .ok (getOperand first :: joined, pool)

def bindingsCode (l : Layout) (pool : LiteralPool) :
    List Binding → Except Error (List Instruction × LiteralPool)
  | [] => .ok ([], pool)
  | b :: bs => do
    let (code, pool) ← operationCode l pool b.operation
    let (more, pool) ← bindingsCode l pool bs
    return (code ++ .localSet (b.temp + 1) :: more, pool)

def procedureBody (l : Layout) (pool : LiteralPool) (p : Procedure) :
    Except Error (Body × LiteralPool) := do
  let (code, pool) ← bindingsCode l pool p.bindings
  return (⟨p.bindings.length, code ++ [getOperand p.result]⟩, pool)

def procedureBodies (l : Layout) (pool : LiteralPool) :
    List Procedure → Except Error (List Body × LiteralPool)
  | [] => .ok ([], pool)
  | p :: ps => do
    let (body, pool) ← procedureBody l pool p
    let (bodies, pool) ← procedureBodies l pool ps
    return (body :: bodies, pool)

/-- The module of an assembly. The functions are numbered before any code is made, and the
entry is looked up after all of it. -/
def Module.ofAssembly (a : Assembly) : Except Error Module := do
  let l ← Layout.ofAssembly a
  let (bodies, pool) ← procedureBodies l .empty a.procedures
  match l.procedureIndex? a.entry.name with
  | none => .error (.generation .entryNotEmitted)
  | some entry => return {
      types := l.types
      imports := l.imports
      functions := a.procedures.map fun _ => l.typeIndex 1
      pages := pool.pages
      exports := [.function a.entry.name entry, .memory memoryName]
      bodies
      data := pool.data }

end TextPipeline.Wasm
