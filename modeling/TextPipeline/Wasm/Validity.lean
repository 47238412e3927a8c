import TextPipeline.Wasm.Module

/-!
Which modules an engine accepts: valid ones, within its limits. The height of the operand stack
is known at every point of the code, so that it can be checked before anything runs: no
instruction takes more than is there, and one value is left at the end of a function.
-/

namespace TextPipeline.Wasm

/-- The height of the operand stack after the code, unless some instruction is invalid. The
code sees this many locals, the parameters included. -/
def stackHeight? (m : Module) (locals : Nat) : List Instruction → (height : Nat) → Option Nat
  | [], height => some height
  | .const _ :: code, height => stackHeight? m locals code (height + 1)
  | .localGet index :: code, height =>
    if index < locals then stackHeight? m locals code (height + 1) else none
  | .localSet _ :: _, 0 => none
  | .localSet index :: code, height + 1 =>
    if index < locals then stackHeight? m locals code height else none
  | .call index :: code, height =>
    match m.parameterCount? index with
    | some count =>
      if count ≤ height then stackHeight? m locals code (height - count + 1) else none
    | none => none

/-- The body of a function of this type leaves one value. -/
def Body.isValid (m : Module) (type : Nat) (b : Body) : Bool :=
  match m.types[type]? with
  | some parameters => stackHeight? m (parameters + b.locals) b.code 0 = some 1
  | none => false

/-- The type of an import exists. -/
def Import.isValid (m : Module) (i : Import) : Bool := i.type < m.types.length

/-- An exported function exists. -/
def Export.isValid (m : Module) : Export → Bool
  | function _ index => index < m.imports.length + m.functions.length
  | memory _ => true

/-- The most pages that can be addressed. -/
def maxPages : Nat := 65536

def Module.isValid (m : Module) : Bool :=
  m.imports.all (Import.isValid m)
    && m.functions.length = m.bodies.length
    && (m.functions.zip m.bodies).all (fun (type, body) => body.isValid m type)
    && m.exports.all (Export.isValid m)
    && decide (m.exports.map Export.name).Nodup
    && decide (m.pages ≤ maxPages)

/-- What an engine leaves open to its makers. -/
class Engine where
  /-- How many functions of a module may be active inside the first. -/
  nested : Nat
  /-- Whether a valid module is within the limits. -/
  admits : Module → Bool

/-- The number of functions of the module that may be active at once. -/
def callDepth [Engine] : Nat := Engine.nested + 1

/-- A module with few enough locals in each function, the parameter included, and short enough
names. -/
def Module.isModest (m : Module) (maxLocals maxName : Nat) : Bool :=
  m.bodies.all (fun b => b.locals + 1 ≤ maxLocals)
    && m.imports.all (fun i => i.origin.utf8ByteSize ≤ maxName && i.name.utf8ByteSize ≤ maxName)
    && m.exports.all (fun e => e.name.utf8ByteSize ≤ maxName)

instance Engine.standard : Engine where
  nested := 999
  admits m := m.isModest 50000 100000

/-- The engine runs the module. -/
def Module.isAccepted [Engine] (m : Module) : Bool := m.isValid && Engine.admits m

end TextPipeline.Wasm
