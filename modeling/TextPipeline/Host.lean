import TextPipeline.Builtin.Apply
import TextPipeline.Wasm.Binary

/-!
The host of a running module. It owns every text, and the module knows a text by its handle,
the number under which the host keeps it. Handle 0 is the input of the program.

A call either adds one text and returns its handle, or fails and leaves the texts as they
were; the host remembers the first failure.
-/

namespace TextPipeline

open Wasm (Bytes HostFunction)

/-- A memory of a fixed size, zero after its data. -/
structure Memory where
  data : Bytes
  size : Nat

/-- The bytes of a stretch that lies within the memory. -/
def Memory.read? (m : Memory) (offset length : Nat) : Option Bytes :=
  if offset + length ≤ m.size then
    some (((m.data.drop offset).take length).rightpad length 0)
  else none

/-- The text with this UTF-8 encoding. -/
def decodeUtf8? (bytes : Bytes) : Option String := String.fromUTF8? bytes.toByteArray

structure Host where
  texts : Array String
  failure : Option Error

namespace Host

/-- A host that holds the input only. -/
def start (input : String) : Host := ⟨#[input], none⟩

/-- The handle of the input. -/
def inputHandle : Int := 0

/-- The greatest handle. -/
def maxHandle : Nat := 2147483647

/-- The text behind a handle. -/
def get (h : Host) (handle : Int) : Except Error String :=
  match handle with
  | .ofNat index =>
    match h.texts[index]? with
    | some s => .ok s
    | none => .error (.execution (.unknownHandle handle))
  | .negSucc _ => .error (.execution (.unknownHandle handle))

/-- A call that fails: the error is remembered, unless an earlier one is. -/
def fail (h : Host) (e : Error) : Except Error Int × Host :=
  (.error e, { h with failure := h.failure.or (some e) })

/-- Keeps a text under the next handle. -/
def store (h : Host) (s : String) : Except Error Int × Host :=
  if h.texts.size ≤ maxHandle then (.ok h.texts.size, { h with texts := h.texts.push s })
  else h.fail (.execution .tooManyTexts)

/-- The text at a place in the memory that the module exports. -/
def literal (memory : Option Memory) (offset length : Int) : Except Error String :=
  match memory with
  | none => .error (.execution .memoryNotExported)
  | some m =>
    if offset < 0 ∨ length < 0 then .error (.execution (.literalLocation offset length))
    else
      match m.read? offset.toNat length.toNat with
      | none => .error (.execution .literalOutOfBounds)
      | some bytes =>
        match decodeUtf8? bytes with
        | none => .error (.execution .literalNotText)
        | some s => Builtin.ofLiteral s

/-- The text that a host function returns. Handles are looked up from left to right. -/
def result (memory : Option Memory) (h : Host) :
    HostFunction → List Int → Except Error String
  | .literal, [offset, length] => literal memory offset length
  | .joinLines, [first, second] => do
    let a ← h.get first
    let b ← h.get second
    Builtin.joinLines a b
  | .builtin b, handles => do b.apply (← handles.mapM h.get)
  | _, _ => .error (.execution .invalidModule)

/-- A call by the module: the handle it returns or why it failed, and the host after it. -/
def perform (memory : Option Memory) (f : HostFunction) (arguments : List Int) (h : Host) :
    Except Error Int × Host :=
  match h.result memory f arguments with
  | .error e => h.fail e
  | .ok s => h.store s

/-- Calls one after the other up to the first that fails. The handle is that of the last
call, and `handle` if there is none. -/
def performAll (memory : Option Memory) (handle : Int) :
    List (HostFunction × List Int) → Host → Except Error Int × Host
  | [], h => (.ok handle, h)
  | (f, arguments) :: calls, h =>
    match h.perform memory f arguments with
    | (.ok handle, h) => performAll memory handle calls h
    | (.error e, h) => (.error e, h)

end Host

end TextPipeline
