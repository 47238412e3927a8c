import TextPipeline.Proofs.Procedure.Shape
import TextPipeline.Proofs.Wasm.Simulation

/-!
Running a compiled program: what comes out is what the assembly means
(`finish_delivers_iff_yields`).
-/

namespace TextPipeline.Artifact

open Wasm Host

/-- A run has ended with this result: with the handle of a text, or with an error. -/
def Delivers (x : Except Error (Int × Host)) : Except Error String → Prop
  | .ok s => ∃ handle host, x = .ok (handle, host) ∧ host.get handle = .ok s
  | .error e => x = .error e

lemma Delivers.unique {x : Except Error (Int × Host)} {r s : Except Error String}
    (hr : Delivers x r) (hs : Delivers x s) : r = s := by
  rcases r with e | t <;> rcases s with e' | t'
  · cases hr.symm.trans hs
    rfl
  · -- an error is no handle
    obtain ⟨_, _, hx, -⟩ := hs
    cases hr.symm.trans hx
  · obtain ⟨_, _, hx, -⟩ := hr
    cases hx.symm.trans hs
  · -- the handle is the same, and so is the text
    obtain ⟨handle, host, hx, hget⟩ := hr
    obtain ⟨_, _, hx', hget'⟩ := hs
    cases hx.symm.trans hx'
    cases hget.symm.trans hget'
    rfl

section Call

variable {i : Instance} {index cost : Nat} {input : String} (hroom : cost ≤ maxHandle)
include hroom

lemma not_full : ¬ maxHandle + 1 < (Host.start input).texts.size + cost := by
  have hsize : (Host.start input).texts.size = 1 := rfl
  omega

lemma delivers_call [Engine] {r : Except Error String}
    (hsim : Simulates input (.start input) cost (.done r)
      ((i.enter index : Run Int) (.start input))) : Delivers (i.call index input) r := by
  unfold Instance.call
  generalize (i.enter index : Run Int) (.start input) = y at *
  cases hsim with
  | value _ _ _ hget => exact ⟨_, _, rfl, hget⟩
  | failed hf => simp only [hf, Option.getD_some, Delivers]
  | full hfull _ => exact absurd hfull (not_full hroom)

lemma call_exhausted [Engine] (hsim : Simulates input (.start input) cost .pending
      ((i.enter index : Run Int) (.start input))) :
    i.call index input = .error (.execution .callStackExhausted) := by
  unfold Instance.call
  generalize (i.enter index : Run Int) (.start input) = y at *
  cases hsim with
  | exhausted hf => simp only [hf, Option.getD_none]
  | full hfull _ => exact absurd hfull (not_full hroom)

end Call

lemma ofAssembly_ok {a : Assembly} {artifact : Artifact} (h : ofAssembly a = .ok artifact) :
    Generated a artifact.wasm ∧ artifact.entryPoint = a.entry.name := by
  obtain ⟨m, hm, h⟩ := ok_of_bind h
  cases h
  exact ⟨generated_of_ofAssembly hm, rfl⟩

/-- The artifact was made of an assembly that an engine can run. -/
structure Runnable (a : Assembly) (artifact : Artifact) : Prop where
  made : ofAssembly a = .ok artifact
  entry : a.entry.name ≠ memoryName
  coherent : ∀ p ∈ a.procedures, p.Coherent

lemma runnable_of_compile {source entry : String} {a : Assembly} {artifact : Artifact}
    (hlower : lowerSource source entry = .ok a) (h : compile source entry = .ok artifact) :
    Runnable a artifact := by
  have hformed := wellFormed_of_lowerSource hlower
  refine ⟨?_, hformed.entry, hformed.coherent⟩
  rw [← h, compile, bind_of_ok hlower]

/-- There is an artifact, and the engine takes it. -/
def isTaken [Engine] : Except Error Artifact → Bool
  | .ok artifact => Engine.admits artifact.wasm
  | .error _ => false

lemma exists_of_isTaken [Engine] {x : Except Error Artifact} (h : isTaken x) :
    ∃ artifact, x = .ok artifact ∧ Engine.admits artifact.wasm := by
  cases x with
  | error e => cases h
  | ok artifact => exact ⟨artifact, rfl, h⟩

section Start

variable [Engine] {artifact : Artifact} {input : String}

lemma start_of_refused {e : Error} (h : Text.ensurePlain input = .error e) :
    artifact.start input = .error e := bind_of_error h _

lemma finish_of_start {linked : Instance} {index : Nat}
    (h : artifact.start input = .ok (linked, index)) :
    artifact.finish input = linked.call index input := bind_of_ok h _

lemma start_of_not_admitted (hinput : Text.Plain input) (h : Engine.admits artifact.wasm = false) :
    artifact.start input = .error (.execution .invalidModule) := by
  rw [start, Text.ensurePlain_of_plain hinput]
  exact if_neg (by simp [Module.isAccepted, h])

lemma admits_of_start {linked : Instance} {index : Nat}
    (h : artifact.start input = .ok (linked, index)) : Engine.admits artifact.wasm := by
  obtain ⟨_, -, h⟩ := ok_of_bind h
  split at h
  · rename_i haccepted
    rw [Module.isAccepted, Bool.and_eq_true] at haccepted
    exact haccepted.2
  · cases h

lemma Runnable.exists_start {a : Assembly} (h : Runnable a artifact)
    (hadmits : Engine.admits artifact.wasm) :
    ∃ linked, Loaded a linked ∧ ∀ input, Text.Plain input → artifact.start input =
      .ok (linked, a.layout.importCount + a.functions.length) := by
  obtain ⟨g, hentry⟩ := ofAssembly_ok h.made
  obtain ⟨linked, hlinked, -, hloaded⟩ := instantiate_of_generated g
  have haccepted : artifact.wasm.isAccepted := by
    rw [Module.isAccepted, isValid_of_generated g h.coherent h.entry, hadmits]
    rfl
  refine ⟨linked, hloaded, fun input hinput => ?_⟩
  rw [start, Text.ensurePlain_of_plain hinput, hentry, g.entry?_entry, Linker.host_eq]
  exact (if_pos haccepted).trans (bind_of_ok hlinked _)

end Start

/-- A compiled program delivers the result of its assembly, for every coherent assembly that can
be compiled and every plain input, as long as the engine takes the module and there are handles for
the texts it makes. The machine runs out of stack exactly where the calls of the assembly are nested
too deep for it. -/
theorem finish_delivers_iff_yields [Engine] {a : Assembly} {artifact : Artifact} {input : String}
    (h : ofAssembly a = .ok artifact) (hname : a.entry.name ≠ memoryName)
    (hco : ∀ p ∈ a.procedures, p.Coherent) (hadmits : Engine.admits artifact.wasm)
    (hinput : Text.Plain input) (hroom : a.texts (callDepth - 1) input ≤ maxHandle) :
    (a.outcome (callDepth - 1) input ≠ .pending →
      ∀ r, Delivers (artifact.finish input) r ↔ a.Yields input r) ∧
    (a.outcome (callDepth - 1) input = .pending →
      artifact.finish input = .error (.execution .callStackExhausted)) := by
  have hrunnable : Runnable a artifact := ⟨h, hname, hco⟩
  obtain ⟨linked, hloaded, hstart⟩ := hrunnable.exists_start hadmits
  have hsim := entry_simulates hloaded hco hinput
  rw [finish_of_start (hstart input hinput)]
  cases hout : a.outcome (callDepth - 1) input with
  -- the stack runs out, in the machine as in the assembly
  | pending =>
    rw [hout] at hsim
    exact ⟨fun hdone => absurd rfl hdone, fun _ => call_exhausted hroom hsim⟩
  | done r =>
    rw [hout] at hsim
    have hyields : a.Yields input r := ⟨_, hout⟩
    have hdelivers := delivers_call hroom hsim
    refine ⟨fun _ s => ⟨fun hs => ?_, fun hs => ?_⟩, nofun⟩
    · -- only one result can be delivered
      exact hs.unique hdelivers ▸ hyields
    · exact hs.unique hyields ▸ hdelivers

/-- Two procedures that use every kind of operation; the entry reads a temporary before its
binding. -/
def echoAssembly : Assembly where
  functions := [{
    name := "fn_loud"
    parameter := "text"
    bindings := [⟨0, .builtin .upper [.param]⟩, ⟨1, .literal "!"⟩,
      ⟨2, .builtin .append [.temp 0, .temp 1]⟩]
    result := .temp 2 }]
  entry := {
    name := "run"
    parameter := "input"
    bindings := [⟨0, .invoke "fn_loud" .param⟩, ⟨1, .join [.temp 0, .temp 2, .param]⟩,
      ⟨2, .literal ""⟩]
    result := .temp 1 }

theorem echoAssembly_delivers : ∃ artifact, ofAssembly echoAssembly = .ok artifact ∧
    Delivers (artifact.finish "hi") (.ok "HI!\nhi\nhi") := by
  have houtcome : echoAssembly.outcome 1 "hi" = .done (.ok "HI!\nhi\nhi") := rfl
  have hdeep : echoAssembly.outcome (callDepth - 1) "hi" ≠ .pending := by
    rw [Assembly.outcome_mono (by decide) houtcome]
    nofun
  refine ⟨_, rfl, ((finish_delivers_iff_yields (a := echoAssembly) rfl ?_ ?_ ?_ ?_ ?_).1 hdeep
    _).mpr ⟨1, houtcome⟩⟩
  · decide
  · decide
  · decide +kernel
  · decide
  · decide +kernel

end TextPipeline.Artifact
