import Mathlib.Algebra.Ring.Int.Defs
import Mathlib.Algebra.Ring.Nat
import TextPipeline.Host
import TextPipeline.Wasm.Binary

/-!
A decoder of the binary format, for modules with the sections that compiled programs have. It is
strict: sections come in their order and have no bytes beside their contents, numbers are in their
shortest form and have 32 bits, names are UTF-8, and nothing is left after the last section. All
numerals of the format are its own.
-/

namespace TextPipeline.Wasm

/-- Reads something off the front of some bytes. -/
abbrev Reader := StateT Bytes Option

namespace Reader

variable {α : Type}

/-! ### Bytes and numbers -/

def anyByte : Reader UInt8
  | [] => none
  | b :: rest => some (b, rest)

def byte (b : UInt8) : Reader Unit := do
  guard ((← anyByte) = b)

/-- This many bytes. -/
def bytes (count : Nat) : Reader Bytes := fun input =>
  if count ≤ input.length then some (input.splitAt count) else none

/-- An unsigned number of at most this many bytes. A high part of zero is superfluous. -/
def unsigned : (width : Nat) → Reader Nat
  | 0 => failure
  | width + 1 => do
    let b ← anyByte
    if b.toNat < 128 then return b.toNat
    let high ← unsigned width
    guard (high ≠ 0)
    return b.toNat - 128 + 128 * high

/-- A signed number of at most this many bytes. A number that fits into the last seven bits must
not have a high part. -/
def signed : (width : Nat) → Reader Int
  | 0 => failure
  | width + 1 => do
    let b ← anyByte
    if b.toNat < 64 then return b.toNat
    if b.toNat < 128 then return b.toNat - 128
    let high ← signed width
    let number : Int := b.toNat - 128 + 128 * high
    guard (¬ (-64 ≤ number ∧ number < 64))
    return number

/-- An unsigned number of 32 bits. -/
def u32 : Reader Nat := do
  let n ← unsigned 5
  guard (n < 2 ^ 32)
  return n

/-- A signed number of 32 bits. -/
def s32 : Reader Int := do
  let z ← signed 5
  guard (-2 ^ 31 ≤ z ∧ z < 2 ^ 31)
  return z

/-! ### Blocks -/

def times (read : Reader α) : (count : Nat) → Reader (List α)
  | 0 => return []
  | count + 1 => do
    let a ← read
    let rest ← times read count
    return a :: rest

/-- A list after its length. -/
def vector (read : Reader α) : Reader (List α) := do
  times read (← u32)

/-- A list of one. -/
def single (read : Reader α) : Reader α := do
  match ← vector read with
  | [a] => return a
  | _ => failure

/-- Contents after their length, read to the last byte. -/
def block (read : Reader α) : Reader α := do
  let contents ← bytes (← u32)
  match read contents with
  | some (a, []) => return a
  | _ => failure

def name : Reader String := do
  match decodeUtf8? (← bytes (← u32)) with
  | some s => return s
  | none => failure

def sectionOf (id : UInt8) (read : Reader α) : Reader α := do
  byte id
  block read

end Reader

/-! ### The parts of a module -/

structure FunctionType where
  parameters : Nat
  results : Nat
  deriving DecidableEq, Repr

structure Segment where
  memory : Nat
  offset : Int
  data : Bytes
  deriving DecidableEq, Repr

structure Contents where
  types : List FunctionType
  imports : List Import
  functions : List Nat
  pages : Nat
  exports : List Export
  bodies : List Body
  /-- Nothing if there is no data section. -/
  segment : Option Segment
  deriving DecidableEq, Repr

namespace Reader

/-- The type `i32`. -/
def valueType : Reader Unit := byte 0x7f

def functionType : Reader FunctionType := do
  byte 0x60
  let parameters ← vector valueType
  let results ← vector valueType
  return ⟨parameters.length, results.length⟩

/-- An imported function. -/
def importEntry : Reader Import := do
  let origin ← name
  let name ← name
  byte 0x00
  return ⟨origin, name, ← u32⟩

/-- A memory without a greatest number of pages. -/
def memory : Reader Nat := do
  byte 0x00
  u32

/-- An exported function, or the one memory. -/
def exportEntry : Reader Export := do
  let name ← name
  match ← anyByte with
  | 0x00 => return .function name (← u32)
  | 0x02 =>
    guard ((← u32) = 0)
    return .memory name
  | _ => failure

/-- The rest of an instruction after its first byte. -/
def instruction (opcode : UInt8) : Reader Instruction :=
  match opcode with
  | 0x41 => return .const (← s32)
  | 0x20 => return .localGet (← u32)
  | 0x21 => return .localSet (← u32)
  | 0x10 => return .call (← u32)
  | _ => failure

/-- At most this many instructions, and the mark after them. -/
def instructions : (most : Nat) → Reader (List Instruction)
  | 0 => do
    byte 0x0b
    return []
  | most + 1 => do
    let opcode ← anyByte
    if opcode = 0x0b then return []
    let first ← instruction opcode
    let rest ← instructions most
    return first :: rest

/-- Code up to its end; every instruction takes a byte at least. -/
def expression : Reader (List Instruction) := fun input => instructions input.length input

/-- A run of locals. -/
def localRun : Reader Nat := do
  let count ← u32
  valueType
  return count

def body : Reader Body := block do
  let runs ← vector localRun
  let code ← expression
  return ⟨runs.sum, code⟩

def segment : Reader Segment := do
  let memory ← u32
  byte 0x41
  let offset ← s32
  byte 0x0b
  let data ← bytes (← u32)
  return ⟨memory, offset, data⟩

/-- The data section, unless the bytes end before it. -/
def dataSection : Reader (Option Segment) := fun input =>
  if input = [] then some (none, [])
  else (return some (← sectionOf 11 (single segment)) : Reader (Option Segment)) input

/-- The magic number and the version. -/
def preamble : Reader Unit := do
  guard ((← bytes 8) = [0x00, 0x61, 0x73, 0x6d, 0x01, 0x00, 0x00, 0x00])

def contents : Reader Contents := do
  preamble
  let types ← sectionOf 1 (vector functionType)
  let imports ← sectionOf 2 (vector importEntry)
  let functions ← sectionOf 3 (vector u32)
  let pages ← sectionOf 5 (single memory)
  let exports ← sectionOf 7 (vector exportEntry)
  let bodies ← sectionOf 10 (vector body)
  let segment ← dataSection
  return { types, imports, functions, pages, exports, bodies, segment }

end Reader

/-- What these bytes say, if they are those of a module and nothing else. -/
def decode? (input : Bytes) : Option Contents :=
  match Reader.contents input with
  | some (c, []) => some c
  | _ => none

end TextPipeline.Wasm
