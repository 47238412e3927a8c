import TextPipeline.Proofs.Artifact
import TextPipeline.Proofs.Host.Calls

/-!
Modules as the host sees them. Of a run the host sees the calls only: each of them is made with
what the earlier ones returned in mind, and a call that fails is the last. Whatever a module is
made of, this is all that the host has to be safe against. The machine runs a module as a dialogue
of this kind, too, and with a host at hand it does what the dialogue does (`follows_dialogue`).
-/

namespace TextPipeline

open Text Wasm

/-- What a module does as far as the host can tell. -/
inductive Dialogue (α : Type) where
  /-- The module ends of itself, with a value or in a trap. -/
  | ends (result : Except Error α)
  /-- The module calls the host and goes on with the handle. -/
  | calls (call : HostCall) (next : Int → Dialogue α)

namespace Dialogue

variable {α β : Type}

def run : Dialogue α → Host → Except Error α × Host
  | ends result, h => (result, h)
  | calls c next, h =>
    match h.answer c with
    | (.ok handle, later) => (next handle).run later
    | (.error e, later) => (.error e, later)

/-- The calls that are made, with what they return. -/
def trace : Dialogue α → Host → List (HostCall × Except Error Int)
  | ends _, _ => []
  | calls c next, h =>
    match h.answer c with
    | (.ok handle, later) => (c, .ok handle) :: (next handle).trace later
    | (.error e, _) => [(c, .error e)]

/-- What a run comes to for the one who started it: the text behind the handle, or the failure
that the host remembers, or else the trap. -/
def reported (d : Dialogue Int) (h : Host) : Except Error String :=
  match d.run h with
  | (.ok handle, later) => later.get handle
  | (.error e, later) => .error (later.failure.getD e)

/-- One dialogue after the other, unless the first ends in a trap. -/
def bind : Dialogue α → (α → Dialogue β) → Dialogue β
  | ends (.ok a), f => f a
  | ends (.error e), _ => ends (.error e)
  | calls c next, f => calls c fun handle => (next handle).bind f

instance : Monad Dialogue where
  pure a := ends (.ok a)
  bind := bind

/-- A call of the host is told, not made. -/
instance : Hosting Dialogue where
  trap fault := ends (.error (.execution fault))
  perform memory f arguments := calls ⟨memory, f, arguments⟩ fun handle => ends (.ok handle)

lemma run_bind (d : Dialogue α) (f : α → Dialogue β) (h : Host) :
    (d >>= f).run h = match d.run h with
      | (.ok a, later) => (f a).run later
      | (.error e, later) => (.error e, later) := by
  induction d generalizing h with
  | ends result => cases result <;> rfl
  | calls c next ih =>
    change (calls c fun handle => next handle >>= f).run h = _
    simp only [run]
    rcases h.answer c with ⟨e | handle, later⟩
    · rfl
    · exact ih handle later

lemma run_host (d : Dialogue α) (h : Host) :
    (d.run h).2 = h.after ((d.trace h).map Prod.fst) := by
  induction d generalizing h with
  | ends result => rfl
  | calls c next ih =>
    simp only [run, trace]
    rcases hans : h.answer c with ⟨e | handle, later⟩
    · simp [hans]
    · simpa [hans] using ih handle later

lemma run_of_failing {d : Dialogue α} {h : Host} {c : HostCall} {e : Error}
    (hmem : (c, .error e) ∈ d.trace h) :
    ∃ later, d.run h = (.error e, later) ∧ later.failure = h.failure.or (some e) := by
  induction d generalizing h with
  | ends result => cases hmem
  | calls c' next ih =>
    simp only [run, trace] at hmem ⊢
    obtain ⟨s, -, -, hans⟩ | ⟨e', -, hans⟩ := h.answer_cases c'
    · -- the call is answered, so that it is not the one that fails
      rw [hans] at hmem ⊢
      rcases List.mem_cons.mp hmem with heq | hmem
      · cases heq
      · exact ih _ hmem
    · -- this is the call that fails
      rw [hans] at hmem ⊢
      cases List.mem_singleton.mp hmem
      exact ⟨_, rfl, rfl⟩

lemma reported_of_failing {d : Dialogue Int} {h : Host} {c : HostCall} {e : Error}
    (hmem : (c, .error e) ∈ d.trace h) : d.reported h = .error (h.failure.getD e) := by
  obtain ⟨later, hrun, hfailure⟩ := run_of_failing hmem
  simp only [reported, hrun, hfailure]
  cases h.failure <;> rfl

lemma plain_of_reported {d : Dialogue Int} {h : Host} (hp : h.AllPlain) {s : String}
    (hs : d.reported h = .ok s) : Plain s := by
  have hlater := hp.after ((d.trace h).map Prod.fst)
  rw [← run_host] at hlater
  unfold reported at hs
  split at hs
  · rename_i handle later hrun
    rw [hrun] at hlater
    exact hlater.get hs
  · cases hs

end Dialogue

namespace Wasm

open Dialogue Host

/-! ### Runs on the machine -/

/-- The run is this dialogue, with every host. -/
def Follows {α : Type} (x : Run α) (d : Dialogue α) : Prop := ∀ h : Host, x h = d.run h

lemma Follows.bind {α β : Type} {x : Run α} {d : Dialogue α} {k : α → Run β}
    {f : α → Dialogue β} (hx : Follows x d) (hk : ∀ a, Follows (k a) (f a)) :
    Follows (x >>= k) (d >>= f) := by
  intro h
  rw [run_bind, ← hx h]
  rcases hxh : x h with ⟨e | a, later⟩
  · exact run_bind_error hxh
  · rw [run_bind_ok hxh]
    exact hk a later

lemma follows_pure {α : Type} (a : α) : Follows (pure a) (pure a) := fun _ => rfl

lemma follows_trap {α : Type} (fault : ExecutionFault) :
    Follows (Hosting.trap fault : Run α) (Hosting.trap fault) := fun _ => rfl

lemma follows_perform (memory : Option Memory) (f : HostFunction) (args : List Int) :
    Follows (Hosting.perform memory f args) (Hosting.perform memory f args) := by
  intro h
  change h.perform memory f args = Dialogue.run (.calls ⟨memory, f, args⟩ fun v => .ends (.ok v)) h
  simp only [Dialogue.run, answer]
  rcases h.perform memory f args with ⟨_ | _, _⟩ <;> rfl

section Machine

variable {callee : Nat → List Int → Run Int} {said : Nat → List Int → Dialogue Int}
  (hcallee : ∀ index args, Follows (callee index args) (said index args))
include hcallee

lemma follows_runCode (m : Module) (code : List Instruction) (stack : List Int)
    (locals : Array Int) :
    Follows (runCode m callee code stack locals) (runCode m said code stack locals) := by
  fun_induction runCode m callee code stack locals with
  | case1 locals stack => exact follows_pure stack
  | case2 value code stack locals ih => exact ih
  | case3 index code stack locals value hlocal ih =>
    simp only [runCode, hlocal]
    exact ih
  | case4 index code stack locals hlocal =>
    simp only [runCode, hlocal]
    exact follows_trap _
  | case5 index code value stack locals hlt ih =>
    simp only [runCode, if_pos hlt]
    exact ih
  | case6 index code value stack locals hlt =>
    simp only [runCode, if_neg hlt]
    exact follows_trap _
  | case7 => exact follows_trap _
  | case8 index code stack locals count hcount hle ih =>
    simp only [runCode, hcount, if_pos hle]
    exact (hcallee index _).bind ih
  | case9 index code stack locals count hcount hle =>
    simp only [runCode, hcount, if_neg hle]
    exact follows_trap _
  | case10 index code stack locals hcount =>
    simp only [runCode, hcount]
    exact follows_trap _

lemma follows_callIndex (i : Instance) (index : Nat) (args : List Int) :
    Follows (callIndex i callee index args) (callIndex i said index args) := by
  unfold callIndex
  cases i.hosts[index]? with
  | none => exact hcallee _ args
  | some f => exact follows_perform _ f args

omit hcallee in
lemma follows_onlyValue (stack : List Int) : Follows (onlyValue stack) (onlyValue stack) := by
  match stack with
  | [] => exact follows_trap _
  | [value] => exact follows_pure value
  | _ :: _ :: _ => exact follows_trap _

end Machine

lemma follows_activate (i : Instance) (depth own : Nat) (args : List Int) :
    Follows (activate i depth own args) (activate i depth own args) := by
  induction depth generalizing own args with
  | zero => exact follows_trap _
  | succ depth ih =>
    unfold activate
    cases i.wasm.bodies[own]? with
    | none => exact follows_trap _
    | some body =>
      exact (follows_runCode (follows_callIndex ih i) i.wasm body.code [] _).bind
        follows_onlyValue

/-- What a run on the input of the program says to the host if it starts at this function. -/
def Instance.dialogue [Engine] (i : Instance) (index : Nat) : Dialogue Int := i.enter index

lemma Instance.follows_dialogue [Engine] (i : Instance) (index : Nat) :
    Follows (i.enter index) (i.dialogue index) :=
  follows_callIndex (follows_activate i callDepth) i index [inputHandle]

lemma Instance.call_eq_run [Engine] (i : Instance) (index : Nat) (input : String) :
    i.call index input = match (i.dialogue index).run (.start input) with
      | (.ok handle, host) => .ok (handle, host)
      | (.error e, host) => .error (host.failure.getD e) := by
  rw [call, i.follows_dialogue index]
  rcases (i.dialogue index).run (.start input) with ⟨_ | _, _⟩ <;> rfl

end Wasm

open Wasm Host

section Artifact

variable [Engine] {artifact : Artifact} {input : String}

lemma Artifact.execute_eq_reported {linked : Instance} {index : Nat}
    (hstart : artifact.start input = .ok (linked, index)) :
    artifact.execute input = (linked.dialogue index).reported (.start input) := by
  rw [execute, finish_of_start hstart, linked.call_eq_run, Dialogue.reported]
  rcases (linked.dialogue index).run (.start input) with ⟨_ | _, _⟩ <;> rfl

lemma Artifact.plain_of_execute {s : String} (hinput : Plain input)
    (hs : artifact.execute input = .ok s) : Plain s := by
  obtain ⟨_, hfinish, -⟩ := ok_of_bind hs
  obtain ⟨⟨linked, index⟩, hstart, -⟩ := ok_of_bind hfinish
  rw [execute_eq_reported hstart] at hs
  exact Dialogue.plain_of_reported (allPlain_start hinput) hs

end Artifact

/-- **The host is safe from any module.** After any calls whatsoever it has the input under its
handle, holds plain texts only, and knows exactly the handles below their number; a further call
keeps one more text or changes nothing but the failure that is remembered, and no call changes the
text behind a handle. So every text that an execution returns is plain, and a call that fails
during it decides its error: the first failure that the host remembers. -/
theorem Host.invariants_of_calls [Engine] {input : String} (hinput : Plain input)
    (calls : List HostCall) :
    let h := (Host.start input).after calls
    h.get inputHandle = .ok input ∧
    (∀ s ∈ h.texts, Plain s) ∧
    (∀ handle, (∃ s, h.get handle = .ok s) ↔ 0 ≤ handle ∧ handle < h.texts.size) ∧
    (∀ c, (∃ s, h.result c.memory c.function c.arguments = .ok s ∧
        h.answer c = (.ok h.texts.size, { h with texts := h.texts.push s })) ∨
      ∃ e, (h.result c.memory c.function c.arguments = .error e ∨ maxHandle < h.texts.size) ∧
        h.answer c = (.error e, { h with failure := h.failure.or (some e) })) ∧
    (∀ more handle s, h.get handle = .ok s → (h.after more).get handle = .ok s) ∧
    (∀ d : Dialogue Int, (∀ s, d.reported h = .ok s → Plain s) ∧
      ∀ c e, (c, .error e) ∈ d.trace h → d.reported h = .error (h.failure.getD e)) ∧
    ∀ artifact : Artifact, (∀ s, artifact.execute input = .ok s → Plain s) ∧
      ∀ linked index, artifact.start input = .ok (linked, index) →
        Follows (linked.enter index) (linked.dialogue index) ∧
        artifact.execute input = (linked.dialogue index).reported (.start input) ∧
        ∀ c e, (c, .error e) ∈ (linked.dialogue index).trace (.start input) →
          artifact.execute input = .error e := by
  intro h
  have hp : h.AllPlain := (allPlain_start hinput).after calls
  refine ⟨?_, hp, h.exists_get_iff, ?_, ?_, ?_, ?_⟩
  · exact grows_after _ calls _ _ rfl
  · intro c
    -- a call is answered or fails, and the host differs in one field only
    obtain ⟨s, hres, -, hans⟩ | ⟨e, hcause, hans⟩ := h.answer_cases c
    · exact .inl ⟨s, hres, hans⟩
    · exact .inr ⟨e, hcause, hans⟩
  · exact fun more => h.grows_after more
  · exact fun d => ⟨fun s => Dialogue.plain_of_reported hp,
      fun c e => Dialogue.reported_of_failing⟩
  · refine fun artifact =>
      ⟨fun s => Artifact.plain_of_execute hinput, fun linked index hstart => ?_⟩
    have hexecute := Artifact.execute_eq_reported hstart
    exact ⟨linked.follows_dialogue index, hexecute,
      fun c e hmem => hexecute.trans (Dialogue.reported_of_failing hmem)⟩

/-- A literal outside the memory, an edit, an edit of a text that is not there, and a join. -/
def mixedCalls : List HostCall :=
  [⟨some ⟨[104, 105], 65536⟩, .literal, [65535, 2]⟩, ⟨none, .builtin .upper, [0]⟩,
    ⟨none, .builtin .trim, [-1]⟩, ⟨none, .joinLines, [1, 0]⟩]

theorem Host.mixedCalls_keep_input :
    Plain "hi" ∧ ((Host.start "hi").after mixedCalls).texts = #["hi", "HI", "HI\nhi"] ∧
      ((Host.start "hi").after mixedCalls).failure = some (.execution .literalOutOfBounds) ∧
      ((Host.start "hi").after mixedCalls).get inputHandle = .ok "hi" := by
  have hinput : Plain "hi" := by decide
  exact ⟨hinput, by decide +kernel, by decide +kernel,
    (invariants_of_calls hinput mixedCalls).1⟩

end TextPipeline
