import TextPipeline.Host
import TextPipeline.Wasm.Linker
import TextPipeline.Wasm.Validity

/-!
Running a module. A function works on a stack of operands and on its locals; a call goes to
the host or to a function of the module. Only so many functions of the module may be active
at once, the first included.
-/

namespace TextPipeline.Wasm

/-- What a module can do beside computing: it can come to a trap, and call the host. -/
class Hosting (M : Type → Type) where
  trap : {α : Type} → ExecutionFault → M α
  perform : Option Memory → HostFunction → List Int → M Int

/-- A computation that calls the host and may be cut short. -/
abbrev Run := ExceptT Error (StateM Host)

instance : Hosting Run where
  trap fault := throw (.execution fault)
  perform memory f arguments := fun host => host.perform memory f arguments

/-- The memory that the module exports. -/
def Module.exportedMemory (m : Module) : Option Memory :=
  if Export.memory memoryName ∈ m.exports then some ⟨m.data, m.pages * pageSize⟩ else none

section

variable {M : Type → Type} [Monad M] [Hosting M]

/-- Code that no valid module holds. -/
def malformed {α : Type} : M α := Hosting.trap .invalidModule

/-- Runs code to its end and returns the operands that are left, the top first. -/
def runCode (m : Module) (callee : Nat → List Int → M Int) :
    List Instruction → (stack : List Int) → (locals : Array Int) → M (List Int)
  | [], stack, _ => pure stack
  | .const value :: code, stack, locals => runCode m callee code (value :: stack) locals
  | .localGet index :: code, stack, locals =>
    match locals[index]? with
    | some value => runCode m callee code (value :: stack) locals
    | none => malformed
  | .localSet index :: code, value :: stack, locals =>
    if index < locals.size then runCode m callee code stack (locals.setIfInBounds index value)
    else malformed
  | .localSet _ :: _, [], _ => malformed
  | .call index :: code, stack, locals =>
    match m.parameterCount? index with
    | some count =>
      if count ≤ stack.length then do
        let value ← callee index (stack.take count).reverse
        runCode m callee code (value :: stack.drop count) locals
      else malformed
    | none => malformed

/-- What a function returns if it leaves these operands. -/
def onlyValue : List Int → M Int
  | [value] => pure value
  | _ => malformed

/-- A call by index: the imports come before the functions of the module. -/
def callIndex (i : Instance) (own : Nat → List Int → M Int) (index : Nat)
    (arguments : List Int) : M Int :=
  match i.hosts[index]? with
  | some f => Hosting.perform i.wasm.exportedMemory f arguments
  | none => own (index - i.hosts.length) arguments

/-- Runs a function of the module, while `depth` more may become active. -/
def activate (i : Instance) : (depth : Nat) → (own : Nat) → List Int → M Int
  | 0, _, _ => Hosting.trap .callStackExhausted
  | depth + 1, own, arguments =>
    match i.wasm.bodies[own]? with
    | some body => do
      let locals := arguments ++ List.replicate body.locals 0
      onlyValue (← runCode i.wasm (callIndex i (activate i depth)) body.code [] locals.toArray)
    | none => malformed

/-- Calls a function on the input of the program. -/
def Instance.enter [Engine] (i : Instance) (index : Nat) : M Int :=
  callIndex i (activate i callDepth) index [Host.inputHandle]

end

/-- The index of the exported function of one parameter with this name. -/
def Module.entry? (m : Module) (name : String) : Option Nat :=
  m.exports.findSome? fun
    | .function exported index =>
      if exported = name ∧ m.parameterCount? index = some 1 then some index else none
    | .memory _ => none

/-- Calls a function on the input of the program. A failure of the host is reported as the
host remembers it. -/
def Instance.call [Engine] (i : Instance) (index : Nat) (input : String) :
    Except Error (Int × Host) :=
  match (i.enter index : Run Int) (Host.start input) with
  | (.ok handle, host) => .ok (handle, host)
  | (.error e, host) => .error (host.failure.getD e)

end TextPipeline.Wasm
