import TextPipeline.Proofs.Wasm.Handles

/-!
Running out of stack. A run ends so only where calls are nested too deep: not if all chains of calls
are short enough (`spares_of_within`), since no call of the host fails in this way. And where a run
does end so, nothing else is reported (`reported_of_error`).
-/

namespace TextPipeline

open Text Wasm Host

/-! ### Calls of the host -/

/-- Not the error of calls that are nested too deep. -/
def Spared {α : Type} (x : Except Error α) : Prop := x ≠ .error (.execution .callStackExhausted)

lemma spared_ok {α : Type} (a : α) : Spared (.ok a) := nofun

lemma Spared.bind {α β : Type} {x : Except Error α} {k : α → Except Error β} (hx : Spared x)
    (hk : ∀ a, Spared (k a)) : Spared (x >>= k) := by
  cases x with
  | error e => exact fun h => hx (congrArg Except.error (Except.error.inj h))
  | ok a => exact hk a

lemma spared_ensurePlain (s : String) : Spared (ensurePlain s) := by
  unfold ensurePlain
  split <;> exact nofun

lemma spared_checked (s : String) : Spared (checked s) :=
  (spared_ensurePlain s).bind fun _ => spared_ok s

lemma spared_edited (args : List String) (s : String) : Spared (edited args s) := by
  refine Spared.bind ?_ fun _ => spared_checked s
  induction args with
  | nil => exact spared_ok ()
  | cons arg args ih => exact (spared_ensurePlain arg).bind fun _ => ih

lemma Builtin.spared_apply (b : Builtin) (args : List String) : Spared (b.apply args) := by
  unfold apply
  split <;> first | exact spared_edited _ _ | exact spared_checked _ | exact nofun

namespace Host

lemma spared_get (h : Host) (handle : Int) : Spared (h.get handle) := by
  unfold get
  split
  · split <;> exact nofun
  · exact nofun

lemma spared_mapM (h : Host) (handles : List Int) : Spared (handles.mapM h.get) := by
  induction handles with
  | nil => exact spared_ok []
  | cons handle handles ih =>
    rw [List.mapM_cons]
    exact (h.spared_get handle).bind fun _ => ih.bind fun _ => spared_ok _

lemma spared_result (h : Host) (f : HostFunction) (args : List Int) :
    Spared (h.result none f args) := by
  unfold result
  split
  · exact nofun
  · exact (h.spared_get _).bind fun _ => (h.spared_get _).bind fun _ => spared_edited _ _
  · exact (h.spared_mapM _).bind fun _ => Builtin.spared_apply _ _
  · exact nofun

end Host

/-! ### Properties that runs keep -/

/-- A property of runs that the calls of the host have, and that is kept when one run follows
another. -/
structure Closed (C : ∀ ⦃α : Type⦄, Run α → Prop) : Prop where
  pure : ∀ {α : Type} (a : α), C (pure a : Run α)
  bind : ∀ {α β : Type} {x : Run α} {k : α → Run β}, C x → (∀ a, C (k a)) → C (x >>= k)
  malformed : C (malformed : Run Int)
  keep : ∀ text, C (keep (Builtin.ofLiteral text))
  ask : ∀ f args, C (ask f args)

section Procedures

variable {C : ∀ ⦃α : Type⦄, Run α → Prop} (hC : Closed C) {call : HandleCalls}
include hC

lemma closed_operation {op : Operation} (f : Handles)
    (h : ∀ callee o, op = .invoke callee o → ∀ handle, C (call callee handle)) :
    C (op.onHandles call f) := by
  cases op with
  | literal text => exact hC.keep text
  | builtin b os => exact hC.ask _ _
  | invoke callee o => exact h callee o rfl _
  | join parts =>
    cases parts with
    | nil => exact hC.malformed
    | cons first rest =>
      clear h
      rw [Operation.onHandles]
      generalize f first = joined
      induction rest generalizing joined with
      | nil => exact hC.pure _
      | cons next rest ih =>
        rw [List.map_cons, List.foldlM_cons]
        exact hC.bind (hC.ask _ _) fun handle => ih handle

lemma closed_executed {bs : List Binding} (f : Handles)
    (h : ∀ b ∈ bs, ∀ callee o, b.operation = .invoke callee o → ∀ handle, C (call callee handle)) :
    C (executedOnHandles call bs f) := by
  induction bs generalizing f with
  | nil => exact hC.pure f
  | cons b bs ih =>
    obtain ⟨hb, hbs⟩ := List.forall_mem_cons.mp h
    exact hC.bind (closed_operation hC f hb) fun handle => ih _ hbs

lemma closed_procedure {p : Procedure} (handle : Int)
    (h : ∀ b ∈ p.bindings, ∀ callee o, b.operation = .invoke callee o →
      ∀ handle, C (call callee handle)) : C (p.onHandles call handle) :=
  hC.bind (closed_executed hC _ h) fun _ => hC.pure _

end Procedures

/-- The run does not end because calls are nested too deep. -/
def Spares ⦃α : Type⦄ (x : Run α) : Prop := ∀ host, Spared (x host).1

lemma spared_keep {r : Except Error String} (hr : Spared r) (host : Host) :
    Spared (keep r host).1 := by
  cases r with
  | error e => exact fun h => hr (congrArg Except.error (Except.error.inj h))
  | ok s =>
    change Spared (host.store s).1
    unfold store
    split
    · exact spared_ok _
    · exact nofun

lemma closed_spares : Closed Spares where
  pure a _ := spared_ok a
  bind {_ _ x k} hx hk host := by
    generalize hy : x host = y
    have hspared := hx host
    rw [hy] at hspared
    rcases y with ⟨e | a, later⟩
    · -- the first run fails, and not for want of stack
      rw [run_bind_error hy]
      exact fun h => hspared (congrArg Except.error (Except.error.inj h))
    · rw [run_bind_ok hy]
      exact hk a later
  malformed _ := nofun
  keep text host := spared_keep (spared_checked text) host
  ask f args host := spared_keep (host.spared_result f args) host

/-- No error is remembered but the one with which the run ended. -/
def EndsAlone {α : Type} : Except Error α × Host → Prop
  | (.ok _, host) => host.failure = none
  | (.error e, host) => host.failure.getD e = e

/-- Where no error is remembered before the run, only its own is remembered after it. -/
def Reports ⦃α : Type⦄ (x : Run α) : Prop :=
  ∀ host : Host, host.failure = none → EndsAlone (x host)

lemma endsAlone_fail {host : Host} (h : host.failure = none) (e : Error) :
    EndsAlone (host.fail e) := by
  simp [fail, EndsAlone, h]

lemma endsAlone_keep {host : Host} (h : host.failure = none) (r : Except Error String) :
    EndsAlone (keep r host) := by
  cases r with
  | error e => exact endsAlone_fail h e
  | ok s =>
    change EndsAlone (host.store s)
    unfold store
    split
    · exact h
    · exact endsAlone_fail h _

lemma reports_throw {α : Type} (e : Error) : Reports (throw e : Run α) := by
  intro host hhost
  change host.failure.getD e = e
  rw [hhost]
  rfl

lemma closed_reports : Closed Reports where
  pure a host hhost := hhost
  bind {_ _ x k} hx hk host hhost := by
    have hreports := hx host hhost
    generalize hy : x host = y at hreports
    rcases y with ⟨e | a, later⟩
    · rw [run_bind_error hy]
      exact hreports
    · rw [run_bind_ok hy]
      exact hk a later hreports
  malformed := reports_throw _
  keep text host hhost := endsAlone_keep hhost _
  ask f args host hhost := endsAlone_keep hhost _

/-! ### Assemblies -/

namespace Assembly

variable {a : Assembly}

lemma reports_onHandles (a : Assembly) (depth : Nat) (name : String) (handle : Int) :
    Reports (a.onHandles depth name handle) := by
  induction depth generalizing name handle with
  | zero => exact reports_throw _
  | succ depth ih =>
    rw [onHandles]
    cases a.procedure? name with
    | none => exact reports_throw _
    | some p => exact closed_procedure closed_reports handle fun _ _ callee _ _ h => ih callee h

lemma reported_of_error [Engine] {input : String} {e : Error}
    (h : (a.entry.onHandles (a.onHandles (callDepth - 1)) inputHandle (.start input)).1 =
      .error e) : a.reported input = .error e := by
  have hreports : Reports (a.entry.onHandles (a.onHandles (callDepth - 1)) inputHandle) :=
    closed_procedure closed_reports _ fun _ _ callee _ _ h => a.reports_onHandles _ callee h
  have hstart := hreports (.start input) rfl
  unfold reported
  generalize a.entry.onHandles _ _ _ = y at h hstart
  rcases y with ⟨_ | _, later⟩
  · cases h
    exact congrArg Except.error hstart
  · cases h

/-- **Short chains of calls spare the stack.** -/
lemma spares_of_within
    (hlinked : ∀ p ∈ a.procedures, ∀ b ∈ p.bindings, b.operation.Linked a) {p : Procedure}
    {depth : Nat} (hp : p ∈ a.procedures) (h : a.Within p depth) (handle : Int) :
    Spares (p.onHandles (a.onHandles depth) handle) := by
  induction depth using Nat.strong_induction_on generalizing p handle with
  | _ depth ih =>
    refine closed_procedure closed_spares handle fun b hb callee o hop handle => ?_
    have hcallee := hlinked p hp b hb
    rw [hop] at hcallee
    obtain ⟨q, hq, hqmem⟩ := exists_procedure? hcallee
    obtain ⟨less, rfl, hless⟩ := h.of_invokes ⟨b, hb, callee, o, hop, hq⟩
    rw [onHandles, hq]
    exact ih less (Nat.lt_succ_self less) hqmem hless handle

end Assembly

end TextPipeline
