import TextPipeline.Error
import TextPipeline.Wasm.Binary

/-!
The literals of a module and where they stand in its data. A text that is already there is
shared; any other is put at the end.
-/

namespace TextPipeline.Wasm

/-- A stretch of memory. -/
structure Location where
  offset : Nat
  length : Nat
  deriving DecidableEq, Repr

structure LiteralPool where
  locations : List (String × Location)
  data : Bytes
  deriving DecidableEq, Repr

/-- A computation on the pool. What it did before it failed is not undone. -/
abbrev Pooling := ExceptT Error (StateM LiteralPool)

namespace LiteralPool

def empty : LiteralPool := ⟨[], []⟩

/-- The greatest offset or length: the largest signed integer of 32 bits. -/
def limit : Nat := 2147483647

def find? (pool : LiteralPool) (text : String) : Option Location := pool.locations.lookup text

/-- A number that can be an offset or a length. -/
def limited (n : Nat) : Pooling Nat :=
  if n ≤ limit then pure n else throw (.generation .literalsTooLarge)

/-- Adds a text: its bytes to the data, then its location to the table. -/
def add (text : String) : Pooling Location := do
  let offset ← limited (← get).data.length
  let length ← limited (utf8 text).length
  modify fun pool => { pool with data := pool.data ++ utf8 text }
  modify fun pool => { pool with locations := (text, ⟨offset, length⟩) :: pool.locations }
  return ⟨offset, length⟩

/-- Finds a text, or adds it. -/
def locate (text : String) : Pooling Location := do
  match (← get).find? text with
  | some location => return location
  | none => add text

/-- Where a text stands, or why it cannot stand anywhere, and the pool after the call. -/
def intern (pool : LiteralPool) (text : String) : Except Error Location × LiteralPool :=
  (locate text).run.run pool

/-- The pages that hold the data, at least one. -/
def pages (pool : LiteralPool) : Nat := max 1 ((pool.data.length + (pageSize - 1)) / pageSize)

end LiteralPool

end TextPipeline.Wasm
