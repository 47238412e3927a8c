import TextPipeline.Error
import TextPipeline.Wasm.Module

/-!
How a module gets the functions it imports. The host offers each of its functions under a name,
and a module asks for them by name when it is instantiated.
-/

namespace TextPipeline.Wasm

/-- A function that modules can import, by the names under which it is offered. -/
structure Link where
  origin : String
  name : String
  parameters : Nat
  function : HostFunction
  deriving DecidableEq, Repr

abbrev Linker := List Link

namespace Linker

/-- The function that is offered under these names. -/
def find? (linker : Linker) (origin name : String) : Option Link :=
  List.find? (fun l => l.origin = origin ∧ l.name = name) linker

/-- Offers one more function. Its names must not be taken. -/
def define (linker : Linker) (l : Link) : Except Error Linker :=
  match linker.find? l.origin l.name with
  | some _ => .error (.execution (.notLinked l.name))
  | none => .ok (linker ++ [l])

/-- Offers a builtin, which must have one, two or three operands. -/
def defineBuiltin (linker : Linker) (d : Descriptor) : Except Error Linker :=
  match d.operandCount with
  | 1 | 2 | 3 => linker.define ⟨hostModule, d.name, d.operandCount, .builtin d.builtin⟩
  | count => .error (.execution (.unsupportedOperands d.name count))

/-- All that the host offers. -/
def host : Except Error Linker := do
  let linker ← define [] ⟨hostModule, literalName, 2, .literal⟩
  let linker ← linker.define ⟨hostModule, joinName, 2, .joinLines⟩
  Catalog.standard.foldlM defineBuiltin linker

/-- The function that an import of the module stands for. Its parameters must be those of the
type of the import. -/
def resolve? (linker : Linker) (m : Module) (i : Import) : Option HostFunction :=
  match linker.find? i.origin i.name with
  | some l => if m.types[i.type]? = some l.parameters then some l.function else none
  | none => none

end Linker

/-- A module with the functions that its imports stand for. -/
structure Instance where
  wasm : Module
  hosts : List HostFunction
  deriving DecidableEq, Repr

/-- Links the imports of a module and puts its data into its memory. -/
def Module.instantiate (m : Module) (linker : Linker) : Except Error Instance :=
  match m.imports.mapM (linker.resolve? m) with
  | none => .error (.execution .notInstantiated)
  | some hosts =>
    if m.data.length ≤ m.pages * pageSize then .ok ⟨m, hosts⟩
    else .error (.execution .notInstantiated)

end TextPipeline.Wasm
