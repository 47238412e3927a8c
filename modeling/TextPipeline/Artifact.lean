import TextPipeline.Procedure.Listing
import TextPipeline.Procedure.Lowering
import TextPipeline.Program.Parser
import TextPipeline.Wasm.Generation
import TextPipeline.Wasm.Machine

/-!
From a program text to a result: lowering, the listing, the compiled artifact, and running it
on an input.
-/

namespace TextPipeline

/-- The entry point of a program unless another is asked for. -/
def defaultEntry : String := "run"

/-- Why the entry procedure of an assembly cannot have its name. -/
def Assembly.entryFault? (a : Assembly) : Option EntryFault :=
  if a.entry.name = "" then some .empty
  else if a.entry.name = Wasm.memoryName then some .reserved
  else if a.functions.any (·.name = a.entry.name) then some .collides
  else none

/-- The procedures of a program text. The name of the entry point is checked last. -/
def lowerSource (source entry : String) : Except Error Assembly := do
  let program ← Program.parse source
  let assembly ← program.lower Catalog.standard entry
  match assembly.entryFault? with
  | some fault => .error (.entryPoint entry fault)
  | none => return assembly

/-- The listing of a program text. -/
def listSource (source entry : String) : Except Error String := do
  return (← lowerSource source entry).listing

/-- A compiled program: its module, the function to call, and the builtins it imports. -/
structure Artifact where
  wasm : Wasm.Module
  entryPoint : String
  builtins : List Descriptor

namespace Artifact

open Wasm

def ofAssembly (a : Assembly) : Except Error Artifact := do
  let wasm ← Module.ofAssembly a
  return ⟨wasm, a.entry.name, a.usedBuiltins.filterMap Catalog.standard.entry?⟩

def compile (source entry : String) : Except Error Artifact := do
  ofAssembly (← lowerSource source entry)

/-- The instance and its function to call on this input: the input is checked, then the module,
then it is linked, and then the entry point is looked up. -/
def start [Engine] (a : Artifact) (input : String) : Except Error (Instance × Nat) := do
  Text.ensurePlain input
  if a.wasm.isAccepted then
    let linked ← a.wasm.instantiate (← Linker.host)
    match a.wasm.entry? a.entryPoint with
    | some index => return (linked, index)
    | none => .error (.execution (.noEntry a.entryPoint))
  else .error (.execution .invalidModule)

/-- Runs the program and returns the handle of the result with the host that holds it. -/
def finish [Engine] (a : Artifact) (input : String) : Except Error (Int × Host) := do
  let (linked, index) ← a.start input
  linked.call index input

/-- The result of the program on an input. -/
def execute [Engine] (a : Artifact) (input : String) : Except Error String := do
  let (handle, host) ← a.finish input
  host.get handle

end Artifact

/-- Compiles a program and runs it. The input is checked before the program is looked at. -/
def run [Wasm.Engine] (source input : String) : Except Error String := do
  Text.ensurePlain input
  (← Artifact.compile source defaultEntry).execute input

end TextPipeline
