import TextPipeline.Wasm.Leb128
import TextPipeline.Wasm.Module

/-!
Modules as bytes. After the header come the sections: a number, the length of the contents
and the contents. Lists start with their length, and so do names, which are UTF-8.
-/

namespace TextPipeline.Wasm

abbrev Bytes := List UInt8

/-- The UTF-8 encoding of a text. -/
def utf8 (s : String) : Bytes := s.toList.flatMap String.utf8EncodeChar

/-- A list of encoded elements after their number. -/
def vector {α : Type} (encode : α → Bytes) (xs : List α) : Bytes :=
  leb128 xs.length ++ xs.flatMap encode

/-- Bytes after their number. -/
def sized (bytes : Bytes) : Bytes := leb128 bytes.length ++ bytes

def encodeName (s : String) : Bytes := sized (utf8 s)

/-- The number of the value type `i32`. -/
def i32 : UInt8 := 0x7f

/-- A function type: the parameters and the one result. -/
def encodeType (parameters : Nat) : Bytes :=
  0x60 :: vector (fun _ => [i32]) (List.replicate parameters ()) ++ vector (fun _ => [i32]) [()]

def Import.encode (i : Import) : Bytes :=
  encodeName i.origin ++ encodeName i.name ++ 0x00 :: leb128 i.type

def Export.encode : Export → Bytes
  | function name index => encodeName name ++ 0x00 :: leb128 index
  | memory name => encodeName name ++ 0x02 :: leb128 0

def Instruction.encode : Instruction → Bytes
  | const value => 0x41 :: signedLeb128 value
  | localGet index => 0x20 :: leb128 index
  | localSet index => 0x21 :: leb128 index
  | call index => 0x10 :: leb128 index

/-- The mark at the end of code. -/
def endMark : UInt8 := 0x0b

/-- Runs of locals of one type: one run, or none if there are no locals. -/
def encodeLocals (count : Nat) : Bytes :=
  vector (fun n => leb128 n ++ [i32]) (if count = 0 then [] else [count])

def Body.encode (b : Body) : Bytes :=
  sized (encodeLocals b.locals ++ b.code.flatMap Instruction.encode ++ [endMark])

/-- A memory with a least number of pages and no greatest. -/
def encodeMemory (pages : Nat) : Bytes := 0x00 :: leb128 pages

/-- A segment of memory 0 from offset 0 on. -/
def encodeSegment (data : Bytes) : Bytes :=
  leb128 0 ++ (Instruction.const 0).encode ++ endMark :: sized data

/-- A section with its number. -/
def encodeSection (id : UInt8) (contents : Bytes) : Bytes := id :: sized contents

/-- The magic number and the version of the format. -/
def header : Bytes := [0x00, 0x61, 0x73, 0x6d, 0x01, 0x00, 0x00, 0x00]

def Module.encode (m : Module) : Bytes :=
  header
    ++ encodeSection 1 (vector encodeType m.types)
    ++ encodeSection 2 (vector Import.encode m.imports)
    ++ encodeSection 3 (vector leb128 m.functions)
    ++ encodeSection 5 (vector encodeMemory [m.pages])
    ++ encodeSection 7 (vector Export.encode m.exports)
    ++ encodeSection 10 (vector Body.encode m.bodies)
    ++ if m.data.isEmpty then [] else encodeSection 11 (vector encodeSegment [m.data])

end TextPipeline.Wasm
