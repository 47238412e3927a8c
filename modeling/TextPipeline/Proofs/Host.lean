import Mathlib.Data.List.Forall2
import TextPipeline.Host
import TextPipeline.Proofs.Builtin

/-!
The host beside the meaning of what it is asked for. A host that has not failed yet holds plain
texts only and has the input under its handle; a call leaves it so, and every handle that
denoted a text still denotes it.
-/

namespace TextPipeline.Host

open Text Wasm

/-- Every handle of a text still denotes it. -/
def Grows (h later : Host) : Prop :=
  ∀ handle text, h.get handle = .ok text → later.get handle = .ok text

lemma Grows.refl (h : Host) : h.Grows h := fun _ _ hget => hget

lemma Grows.trans {h later last : Host} (h₁ : h.Grows later) (h₂ : later.Grows last) :
    h.Grows last :=
  fun handle text hget => h₂ handle text (h₁ handle text hget)

/-- The texts behind the handles, in order. -/
def Denotes (h : Host) (handles : List Int) (texts : List String) : Prop :=
  List.Forall₂ (fun handle text => h.get handle = .ok text) handles texts

lemma Denotes.of_grows {h later : Host} {handles : List Int} {texts : List String}
    (hd : h.Denotes handles texts) (hg : h.Grows later) : later.Denotes handles texts :=
  List.Forall₂.imp hg hd

lemma Denotes.mapM_get {h : Host} {handles : List Int} {texts : List String}
    (hd : h.Denotes handles texts) : handles.mapM h.get = .ok texts := by
  induction hd with
  | nil => rfl
  | cons hget _ ih =>
    rw [List.mapM_cons, hget, ih]
    rfl

structure Ready (input : String) (h : Host) : Prop where
  failure : h.failure = none
  plain : ∀ handle text, h.get handle = .ok text → Plain text
  input : h.get inputHandle = .ok input

lemma ready_start {input : String} (hinput : Plain input) : Ready input (start input) where
  failure := rfl
  plain := by
    intro handle text h
    rcases handle with (_ | _) | _
    · cases h
      exact hinput
    · cases h
    · cases h
  input := rfl

/-! ### Keeping a text -/

lemma get_ofNat (h : Host) (index : Nat) (text : String) :
    h.get (index : Int) = .ok text ↔ h.texts[index]? = some text := by
  have hget : h.get (index : Int) = h.get (.ofNat index) := rfl
  rw [hget, get]
  split <;> simp_all

section Store

variable (h : Host) (s : String)

/-- The host with one more text. -/
def push : Host := { h with texts := h.texts.push s }

lemma push_get_new : (h.push s).get h.texts.size = .ok s := by
  rw [get_ofNat]
  exact Array.getElem?_push_size

lemma grows_push : h.Grows (h.push s) := by
  intro handle text hget
  obtain index | index := handle
  · have hget := (h.get_ofNat index text).mp hget
    refine ((h.push s).get_ofNat index text).mpr ?_
    obtain ⟨hlt, -⟩ := Array.getElem?_eq_some_iff.mp hget
    rw [push, Array.getElem?_push, if_neg (Nat.ne_of_lt hlt), hget]
  · cases hget

variable {h s}

lemma Ready.push {input : String} (hr : h.Ready input) (hs : Plain s) :
    (h.push s).Ready input where
  failure := hr.failure
  plain := by
    intro handle text hget
    obtain index | index := handle
    · have hget := ((h.push s).get_ofNat index text).mp hget
      rw [Host.push, Array.getElem?_push] at hget
      split at hget
      · -- the handle of the new text
        cases hget
        exact hs
      · -- the handle of an old one
        exact hr.plain index text ((h.get_ofNat index text).mpr hget)
    · cases hget
  input := h.grows_push s _ _ hr.input

end Store

/-- The result of a run on the machine belongs to what the program comes to: a handle of the
text, the error that the host remembers, or the end of the call stack if there is no result
within the depth. The run makes at most `cost` texts, and can be cut off only if these are more
than the host has room for. -/
inductive Simulates (input : String) (h : Host) (cost : Nat) :
    Outcome String → Except Error Int × Host → Prop
  | value {later : Host} {handle : Int} {text : String} : h.Grows later → later.Ready input →
      later.texts.size ≤ h.texts.size + cost → later.get handle = .ok text →
      Simulates input h cost (.done (.ok text)) (.ok handle, later)
  | failed {later : Host} {e : Error} : later.failure = some e →
      Simulates input h cost (.done (.error e)) (.error e, later)
  | exhausted {later : Host} : later.failure = none →
      Simulates input h cost .pending (.error (.execution .callStackExhausted), later)
  | full {later : Host} {x : Outcome String} : maxHandle + 1 < h.texts.size + cost →
      later.failure = some (.execution .tooManyTexts) →
      Simulates input h cost x (.error (.execution .tooManyTexts), later)

lemma Simulates.of_grows {input : String} {h later : Host} {cost before : Nat}
    {x : Outcome String} {y : Except Error Int × Host} (hx : Simulates input later cost x y)
    (hg : h.Grows later) (hsize : later.texts.size ≤ h.texts.size + before) :
    Simulates input h (before + cost) x y := by
  cases hx with
  | value hgrows hready hle hget => exact .value (hg.trans hgrows) hready (by omega) hget
  | failed hf => exact .failed hf
  | exhausted hf => exact .exhausted hf
  | full hfull hf => exact .full (by omega) hf

lemma perform_simulates {input : String} {h : Host} (hr : h.Ready input)
    {memory : Option Memory} {f : HostFunction} {args : List Int} {r : Except Error String}
    (hres : h.result memory f args = r) (hplain : ∀ s, r = .ok s → Plain s) :
    Simulates input h 1 (.done r) (h.perform memory f args) := by
  unfold perform
  rw [hres]
  cases r with
  | error e => exact .failed (by rw [hr.failure]; rfl)
  | ok s =>
    have hsize : (h.push s).texts.size ≤ h.texts.size + 1 := Nat.le_of_eq (Array.size_push s)
    simp only [store]
    split
    · -- there is a handle for the text
      exact .value (h.grows_push s) (hr.push (hplain s rfl)) hsize (h.push_get_new s)
    · -- the handles have run out
      exact .full (by omega) (by rw [hr.failure]; rfl)

end TextPipeline.Host
