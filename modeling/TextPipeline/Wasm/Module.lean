import TextPipeline.Builtin

/-!
Modules of the wasm format, as far as compiled programs need them: every value is a 32-bit
integer, every function returns one, and code has no jumps.

A module calls the functions it imports and its own by one numbering, the imports first. It
has one memory, which starts with the data segment.
-/

namespace TextPipeline.Wasm

/-- A function that the host provides. -/
inductive HostFunction
  /-- The text at an offset of the memory, with a length. -/
  | literal
  /-- Two texts, one below the other. -/
  | joinLines
  | builtin (b : Builtin)
  deriving DecidableEq, Repr

/-- The module under whose name the host functions are imported. -/
def hostModule : String := "nalgae"

def literalName : String := "literal"

def joinName : String := "join_lines"

/-- The name under which the memory is exported. -/
def memoryName : String := "memory"

/-- The size of a page of memory in bytes. -/
def pageSize : Nat := 65536

namespace HostFunction

def name : HostFunction → String
  | literal => literalName
  | joinLines => joinName
  | builtin b => b.name

def operandCount : HostFunction → Nat
  | literal | joinLines => 2
  | builtin b => b.operandCount

end HostFunction

/-- A function of another module, by the names of both. -/
structure Import where
  origin : String
  name : String
  /-- An index into the types of the module. -/
  type : Nat
  deriving DecidableEq, Repr

inductive Export
  | function (name : String) (index : Nat)
  | memory (name : String)
  deriving DecidableEq, Repr

def Export.name : Export → String
  | function name _ | memory name => name

inductive Instruction
  | const (value : Int)
  | localGet (index : Nat)
  | localSet (index : Nat)
  | call (index : Nat)
  deriving DecidableEq, Repr

/-- A function body. Local 0 is the parameter, and the `locals` others start as zero. -/
structure Body where
  locals : Nat
  code : List Instruction
  deriving DecidableEq, Repr

structure Module where
  /-- The function types, each given by its number of parameters. -/
  types : List Nat
  imports : List Import
  /-- The type of each function of its own, an index into `types`. -/
  functions : List Nat
  /-- The size of the memory. -/
  pages : Nat
  exports : List Export
  /-- The body of each function of its own. -/
  bodies : List Body
  /-- What the memory starts with. -/
  data : List UInt8
  deriving DecidableEq, Repr

/-- The number of parameters of the function with this index. -/
def Module.parameterCount? (m : Module) (index : Nat) : Option Nat :=
  match m.imports[index]? with
  | some i => m.types[i.type]?
  | none => (m.functions[index - m.imports.length]?).bind (m.types[·]?)

end TextPipeline.Wasm
