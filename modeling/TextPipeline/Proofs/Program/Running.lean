import TextPipeline.Proofs.Program.Positions
import TextPipeline.Proofs.Wasm.Handles

/-!
Trees on handles. The procedures of a program run on handles as its tree does
(`onHandles_of_lower`), so that two programs can be compared by their trees, whatever their code
looks like. Relations between runs that are kept when runs are put together (`Compatible`) are also
kept by trees.
-/

namespace TextPipeline

open Wasm Host

namespace Running

structure Scope where
  parameter : String
  current : Int

/-- The texts of these handles one below the other. -/
def stack : List Int → Run Int
  | [] => keep (Builtin.ofLiteral "")
  | first :: rest => rest.foldlM (fun joined next => ask .joinLines [joined, next]) first

section Evaluator

variable (call : HandleCalls)

mutual

/-- The handle of a term in value context. -/
def value (σ : Scope) : Term → Run Int
  | .identifier name _ => if name = σ.parameter then pure σ.current else malformed
  | .literal text _ => keep (Builtin.ofLiteral text)
  | .call target arguments _ =>
    match Catalog.standard.find? target with
    | some d => values σ arguments >>= ask (.builtin d.builtin)
    | none => do
      match ← values σ arguments with
      | [handle] => call target handle
      | _ => malformed
  | .group es _ => members σ es >>= stack

/-- The handle of a term as a step on the text of a handle. -/
def step (σ : Scope) (handle : Int) : Term → Run Int
  | .identifier name _ =>
    match Catalog.standard.find? name with
    | some d => ask (.builtin d.builtin) [handle]
    | none => call name handle
  | .literal text _ => keep (Builtin.ofLiteral text)
  | .call target arguments _ =>
    match Catalog.standard.find? target with
    | some d => values σ arguments >>= fun handles => ask (.builtin d.builtin) (handle :: handles)
    | none => malformed
  | .group es _ => members { σ with current := handle } es >>= stack

def values (σ : Scope) : List Term → Run (List Int)
  | [] => pure []
  | t :: ts => value σ t >>= fun handle => values σ ts >>= fun handles => pure (handle :: handles)

def steps (σ : Scope) (handle : Int) : List Term → Run Int
  | [] => pure handle
  | t :: ts => step σ handle t >>= fun next => steps σ next ts

def result (σ : Scope) : Expression → Run Int
  | .pipeline [] _ => malformed
  | .pipeline (t :: ts) _ => value σ t >>= fun handle => steps σ handle ts

def members (σ : Scope) : List Expression → Run (List Int)
  | [] => pure []
  | e :: es => result σ e >>= fun handle => members σ es >>= fun handles => pure (handle :: handles)

end

end Evaluator

/-- Calls of the functions of a program, at most `depth` of them inside each other. -/
def call (p : Program) : (depth : Nat) → HandleCalls
  | 0, _, _ => throw (.execution .callStackExhausted)
  | depth + 1, name, handle =>
    match p.definition? name with
    | some d => result (call p depth) ⟨d.parameter, handle⟩ d.body
    | none => malformed

section Shapes

variable (calls : HandleCalls) (σ : Scope)

lemma steps_append (handle : Int) (ts us : List Term) : steps calls σ handle (ts ++ us) =
    steps calls σ handle ts >>= fun handle => steps calls σ handle us := by
  induction ts generalizing handle with
  | nil => rw [List.nil_append, steps, pure_bind]
  | cons t ts ih =>
    rw [List.cons_append, steps, steps, bind_assoc]
    exact bind_congr ih

lemma result_singleton (t : Term) (line : Nat) :
    result calls σ (.pipeline [t] line) = value calls σ t := by
  rw [result]
  exact (bind_congr fun handle => by rw [steps]).trans (bind_pure _)

lemma value_group_singleton (e : Expression) (line : Nat) :
    value calls σ (.group [e] line) = result calls σ e := by
  rw [value, members, bind_assoc]
  refine (bind_congr fun handle => ?_).trans (bind_pure _)
  rw [members, pure_bind, pure_bind]
  rfl

end Shapes

/-! ### Code beside its tree -/

/-- Code does what the evaluation beside it does: whatever goes on from where the code ends can go
on from what the evaluation returns. -/
def Tracks {α : Type} (holds : Handles → α → Prop) (x : Run Handles) (y : Run α) : Prop :=
  ∀ ⦃β : Type⦄ (k : Handles → Run β) (l : α → Run β), (∀ g a, holds g a → k g = l a) →
    x >>= k = y >>= l

section Tracking

variable {α β : Type} {P : Handles → α → Prop} {Q : Handles → β → Prop} {x : Run Handles}
  {y : Run α}

lemma Tracks.bind {k : Handles → Run Handles} {l : α → Run β} (h : Tracks P x y)
    (hk : ∀ g a, P g a → Tracks Q (k g) (l a)) : Tracks Q (x >>= k) (y >>= l) := by
  intro γ k' l' hQ
  rw [bind_assoc, bind_assoc]
  exact h _ _ fun g a hP => hk g a hP k' l' hQ

lemma Tracks.map {φ : α → β} (h : Tracks P x y) (hP : ∀ g a, P g a → Q g (φ a)) :
    Tracks Q x (y >>= fun a => pure (φ a)) := by
  intro γ k l hQ
  rw [bind_assoc]
  refine h k _ fun g a hg => ?_
  rw [pure_bind]
  exact hQ g (φ a) (hP g a hg)

lemma tracks_pure {f : Handles} {a : α} (h : P f a) : Tracks P (pure f) (pure a) := by
  intro γ k l hP
  rw [pure_bind, pure_bind]
  exact hP f a h

end Tracking

/-- Nothing but temporaries from the bound on may differ. -/
def AgreesBelow (bound : Nat) (f g : Handles) : Prop := ∀ o : Operand, o.Below bound → g o = f o

lemma AgreesBelow.trans {m n : Nat} {f g h : Handles} (hfg : AgreesBelow m f g)
    (hgh : AgreesBelow n g h) (hmn : m ≤ n) : AgreesBelow m f h :=
  fun o ho => (hgh o (ho.mono hmn)).trans (hfg o ho)

/-- The operand has the handle, and what was there before the code is still there. -/
structure Holds (f : Handles) (next : Nat) (o : Operand) (g : Handles) (handle : Int) : Prop where
  agrees : AgreesBelow next f g
  handle : g o = handle

structure HoldsAll (f : Handles) (next : Nat) (os : List Operand) (g : Handles)
    (handles : List Int) : Prop where
  agrees : AgreesBelow next f g
  handles : os.map g = handles

structure Mirrors (f : Handles) (next : Nat) (scope : Lowering.Scope) (σ : Scope) : Prop where
  parameter : scope.parameter = σ.parameter
  current : f scope.current = σ.current
  below : scope.current.Below next

lemma Mirrors.after {f g : Handles} {next : Nat} {scope : Lowering.Scope} {σ : Scope}
    (h : Mirrors f next scope σ) (hg : AgreesBelow next f g) (more : Nat) :
    Mirrors g (next + more) scope σ where
  parameter := h.parameter
  current := (hg _ h.below).trans h.current
  below := h.below.mono (Nat.le_add_right _ _)

lemma executedOnHandles_append (calls : HandleCalls) (xs ys : List Binding) (f : Handles) :
    executedOnHandles calls (xs ++ ys) f =
      executedOnHandles calls xs f >>= executedOnHandles calls ys := by
  induction xs generalizing f with
  | nil => rw [List.nil_append, executedOnHandles, pure_bind]
  | cons b bs ih =>
    rw [List.cons_append, executedOnHandles, executedOnHandles, bind_assoc]
    exact bind_congr fun handle => ih _

section Emission

open Lowering (emit)

variable {calls : HandleCalls} {f : Handles} {next : Nat} {o : Operand}
  {before code : List Binding} {op : Operation}

lemma tracks_emit {α : Type} {P : Handles → α → Prop} {y : Run α} {l : α → Run Int}
    (he : (o, code) = emit next before op) (h : Tracks P (executedOnHandles calls before f) y)
    (hagrees : ∀ g a, P g a → AgreesBelow next f g)
    (hop : ∀ g a, P g a → op.onHandles calls g = l a) :
    Tracks (Holds f next o) (executedOnHandles calls code f) (y >>= l) := by
  cases he
  rw [executedOnHandles_append]
  refine h.bind fun g a hP => ?_
  intro γ k l' hk
  rw [executedOnHandles, hop g a hP, bind_assoc]
  refine bind_congr fun handle => ?_
  rw [executedOnHandles, pure_bind]
  refine hk _ handle ⟨fun p hp => ?_, Function.update_self ..⟩
  have hne : p ≠ .temp (next + before.length) := by
    rintro rfl
    exact Nat.not_lt.mpr (Nat.le_add_right _ _) hp
  rw [Function.update_of_ne hne]
  exact hagrees g a hP p hp

lemma tracks_emit_nil (he : (o, code) = emit next [] op) :
    Tracks (Holds f next o) (executedOnHandles calls code f) (op.onHandles calls f) := by
  have hstart : Tracks (fun g (_ : Unit) => g = f) (executedOnHandles calls [] f) (pure ()) :=
    tracks_pure rfl
  have h := tracks_emit he hstart (l := fun _ => op.onHandles calls f)
    (fun g _ hg => hg ▸ fun _ _ => rfl) fun g _ hg => by rw [hg]
  rwa [pure_bind] at h

lemma onHandles_stacking (parts : List Operand) (g : Handles) :
    (if parts.isEmpty then Operation.literal "" else .join parts).onHandles calls g =
      stack (parts.map g) := by
  cases parts <;> rfl

end Emission

structure SameCalls (names : Lowering.Names) (calls fcalls : HandleCalls) : Prop where
  catalog : names.catalog = Catalog.standard
  functions : ∀ name ∈ names.functions, calls (functionName name) = fcalls name

section Terms

open Lowering (value_identifier_ok value_call_ok value_group_ok step_identifier_ok step_call_ok
  step_group_ok values_cons_ok steps_cons_ok expression_cons_ok members_cons_ok value_emits
  step_emits expression_emits)

variable {names : Lowering.Names} {calls fcalls : HandleCalls}

mutual

lemma value_tracks (hs : SameCalls names calls fcalls) :
    ∀ (scope : Lowering.Scope) (next : Nat) (t : Term) {f : Handles} {σ : Scope} {o : Operand}
    {code : List Binding}, Mirrors f next scope σ →
    Lowering.value names scope next t = .ok (o, code) →
    Tracks (Holds f next o) (executedOnHandles calls code f) (value fcalls σ t)
  | scope, next, .identifier name line, f, σ, _, _, hσ, h => by
    obtain ⟨rfl, rfl, rfl⟩ := value_identifier_ok h
    rw [value, if_pos hσ.parameter]
    exact tracks_pure ⟨fun _ _ => rfl, hσ.current⟩
  | scope, next, .literal text line, f, σ, _, _, hσ, h => by
    rw [Lowering.value] at h
    rw [value]
    exact tracks_emit_nil (Except.ok.inj h).symm
  | scope, next, .call target arguments line, f, σ, _, _, hσ, h => by
    rw [value]
    obtain ⟨d, os, before, hd, -, hvs, he⟩ | ⟨operand, before, hd, hmem, hvs, he⟩ :=
      value_call_ok h
    · -- a builtin, on the handles of its operands
      rw [hs.catalog] at hd
      rw [hd]
      refine tracks_emit he (values_tracks hs scope next arguments hσ hvs)
        (fun _ _ hg => hg.agrees) fun g handles hg => ?_
      rw [← hg.handles]
      rfl
    · -- a function, on the handle of its only operand
      rw [hs.catalog] at hd
      rw [hd]
      refine tracks_emit he (values_tracks hs scope next arguments hσ hvs)
        (fun _ _ hg => hg.agrees) fun g handles hg => ?_
      rw [← hg.handles]
      exact congrFun (hs.functions target hmem) _
  | scope, next, .group es line, f, σ, _, _, hσ, h => by
    rw [value]
    obtain ⟨parts, before, hms, he⟩ := value_group_ok h
    refine tracks_emit he (members_tracks hs scope next es hσ hms) (fun _ _ hg => hg.agrees)
      fun g handles hg => ?_
    rw [onHandles_stacking, hg.handles]

lemma step_tracks (hs : SameCalls names calls fcalls) :
    ∀ (scope : Lowering.Scope) (next : Nat) (current : Operand) (t : Term) {f : Handles}
    {σ : Scope} {o : Operand} {code : List Binding}, Mirrors f next scope σ →
    current.Below next → Lowering.step names scope next current t = .ok (o, code) →
    Tracks (Holds f next o) (executedOnHandles calls code f) (step fcalls σ (f current) t)
  | scope, next, current, .identifier name line, f, σ, _, _, hσ, hc, h => by
    rw [step]
    obtain ⟨-, ⟨d, hd, -, he⟩ | ⟨hd, hmem, he⟩⟩ := step_identifier_ok h
    · rw [hs.catalog] at hd
      rw [hd]
      exact tracks_emit_nil he
    · rw [hs.catalog] at hd
      rw [hd, ← hs.functions name hmem]
      exact tracks_emit_nil he
  | scope, next, current, .literal text line, f, σ, _, _, hσ, hc, h => by
    rw [Lowering.step] at h
    rw [step]
    exact tracks_emit_nil (Except.ok.inj h).symm
  | scope, next, current, .call target arguments line, f, σ, _, _, hσ, hc, h => by
    rw [step]
    obtain ⟨d, os, before, hd, -, hvs, he⟩ := step_call_ok h
    rw [hs.catalog] at hd
    rw [hd]
    refine tracks_emit he (values_tracks hs scope next arguments hσ hvs)
      (fun _ _ hg => hg.agrees) fun g handles hg => ?_
    -- the arguments leave the handle so far where it was
    rw [← hg.handles, ← hg.agrees current hc]
    rfl
  | scope, next, current, .group es line, f, σ, _, _, hσ, hc, h => by
    rw [step]
    obtain ⟨parts, before, hms, he⟩ := step_group_ok h
    have hσ' : Mirrors f next { scope with current } { σ with current := f current } :=
      ⟨hσ.parameter, rfl, hc⟩
    refine tracks_emit he (members_tracks hs _ next es hσ' hms) (fun _ _ hg => hg.agrees)
      fun g handles hg => ?_
    rw [onHandles_stacking, hg.handles]

lemma values_tracks (hs : SameCalls names calls fcalls) :
    ∀ (scope : Lowering.Scope) (next : Nat) (ts : List Term) {f : Handles} {σ : Scope}
    {os : List Operand} {code : List Binding}, Mirrors f next scope σ →
    Lowering.values names scope next ts = .ok (os, code) →
    Tracks (HoldsAll f next os) (executedOnHandles calls code f) (values fcalls σ ts)
  | scope, next, [], f, σ, _, _, hσ, h => by
    cases h
    rw [values]
    exact tracks_pure ⟨fun _ _ => rfl, rfl⟩
  | scope, next, t :: ts, f, σ, _, _, hσ, h => by
    obtain ⟨o, before, rest, more, hv, hvs, rfl, rfl⟩ := values_cons_ok h
    have hbelow := (value_emits scope next t hσ.below hv).2 o (by simp)
    rw [values, executedOnHandles_append]
    refine (value_tracks hs scope next t hσ hv).bind fun g handle hg => ?_
    have hσ' := hσ.after hg.agrees before.length
    refine (values_tracks hs scope _ ts hσ' hvs).map fun k handles hk => ?_
    refine ⟨hg.agrees.trans hk.agrees (Nat.le_add_right _ _), ?_⟩
    rw [List.map_cons, hk.agrees o hbelow, hg.handle, hk.handles]

lemma steps_tracks (hs : SameCalls names calls fcalls) :
    ∀ (scope : Lowering.Scope) (next : Nat) (current : Operand) (ts : List Term) {f : Handles}
    {σ : Scope} {o : Operand} {code : List Binding}, Mirrors f next scope σ →
    current.Below next → Lowering.steps names scope next current ts = .ok (o, code) →
    Tracks (Holds f next o) (executedOnHandles calls code f) (steps fcalls σ (f current) ts)
  | scope, next, current, [], f, σ, _, _, hσ, hc, h => by
    cases h
    rw [steps]
    exact tracks_pure ⟨fun _ _ => rfl, rfl⟩
  | scope, next, current, t :: ts, f, σ, _, _, hσ, hc, h => by
    obtain ⟨operand, before, more, ht, hss, rfl⟩ := steps_cons_ok h
    have hbelow := (step_emits scope next current t hσ.below hc ht).2 operand (by simp)
    rw [steps, executedOnHandles_append]
    refine (step_tracks hs scope next current t hσ hc ht).bind fun g handle hg => ?_
    have hσ' := hσ.after hg.agrees before.length
    have hrest := steps_tracks hs scope _ operand ts hσ' hbelow hss
    rw [hg.handle] at hrest
    exact fun γ k l hk => hrest k l fun k' handle' hk' => hk k' handle'
      ⟨hg.agrees.trans hk'.agrees (Nat.le_add_right _ _), hk'.handle⟩

lemma expression_tracks (hs : SameCalls names calls fcalls) :
    ∀ (scope : Lowering.Scope) (next : Nat) (e : Expression) {f : Handles} {σ : Scope}
    {o : Operand} {code : List Binding}, Mirrors f next scope σ →
    Lowering.expression names scope next e = .ok (o, code) →
    Tracks (Holds f next o) (executedOnHandles calls code f) (result fcalls σ e)
  | scope, next, .pipeline [] line, f, σ, _, _, hσ, h => by cases h
  | scope, next, .pipeline (t :: ts) line, f, σ, _, _, hσ, h => by
    obtain ⟨operand, before, more, hv, hss, rfl⟩ := expression_cons_ok h
    have hbelow := (value_emits scope next t hσ.below hv).2 operand (by simp)
    rw [result, executedOnHandles_append]
    refine (value_tracks hs scope next t hσ hv).bind fun g handle hg => ?_
    have hσ' := hσ.after hg.agrees before.length
    have hrest := steps_tracks hs scope _ operand ts hσ' hbelow hss
    rw [hg.handle] at hrest
    exact fun γ k l hk => hrest k l fun k' handle' hk' => hk k' handle'
      ⟨hg.agrees.trans hk'.agrees (Nat.le_add_right _ _), hk'.handle⟩

lemma members_tracks (hs : SameCalls names calls fcalls) :
    ∀ (scope : Lowering.Scope) (next : Nat) (es : List Expression) {f : Handles} {σ : Scope}
    {os : List Operand} {code : List Binding}, Mirrors f next scope σ →
    Lowering.members names scope next es = .ok (os, code) →
    Tracks (HoldsAll f next os) (executedOnHandles calls code f) (members fcalls σ es)
  | scope, next, [], f, σ, _, _, hσ, h => by
    cases h
    rw [members]
    exact tracks_pure ⟨fun _ _ => rfl, rfl⟩
  | scope, next, e :: es, f, σ, _, _, hσ, h => by
    obtain ⟨o, before, rest, more, he, hms, rfl, rfl⟩ := members_cons_ok h
    have hbelow := (expression_emits scope next e hσ.below he).2 o (by simp)
    rw [members, executedOnHandles_append]
    refine (expression_tracks hs scope next e hσ he).bind fun g handle hg => ?_
    have hσ' := hσ.after hg.agrees before.length
    refine (members_tracks hs scope _ es hσ' hms).map fun k handles hk => ?_
    refine ⟨hg.agrees.trans hk.agrees (Nat.le_add_right _ _), ?_⟩
    rw [List.map_cons, hk.agrees o hbelow, hg.handle, hk.handles]

end

lemma onHandles_of_procedure (hs : SameCalls names calls fcalls)
    {name parameter scopeName : String} {body : Expression} {q : Procedure}
    (h : Lowering.procedure names name parameter scopeName body = .ok q) (handle : Int) :
    q.onHandles calls handle = result fcalls ⟨scopeName, handle⟩ body := by
  obtain ⟨⟨o, code⟩, hbody, hq⟩ := ok_of_bind h
  cases hq
  have hscope : Mirrors (.start handle) 0 ⟨scopeName, .param⟩ ⟨scopeName, handle⟩ :=
    ⟨rfl, rfl, trivial⟩
  have htracks := expression_tracks hs _ 0 body hscope hbody
  exact (htracks _ pure fun g handle hg => by rw [hg.handle]).trans (bind_pure _)

end Terms

/-! ### Relations that runs keep -/

/-- A relation between runs that is kept when one run follows another. -/
structure Compatible (R : ∀ ⦃α : Type⦄, Run α → Run α → Prop) : Prop where
  refl : ∀ {α : Type} (x : Run α), R x x
  bind : ∀ {α β : Type} {x y : Run α} {k l : α → Run β}, R x y → (∀ a, R (k a) (l a)) →
    R (x >>= k) (y >>= l)

lemma compatible_eq : Compatible fun _ x y => x = y where
  refl _ := rfl
  bind hx hk := by rw [hx, funext hk]

section Relations

variable {R : ∀ ⦃α : Type⦄, Run α → Run α → Prop} {calls fcalls : HandleCalls}

mutual

lemma value_compatible (hR : Compatible R) (hcalls : ∀ name h, R (calls name h) (fcalls name h)) :
    ∀ (σ : Scope) (t : Term), R (value calls σ t) (value fcalls σ t)
  | σ, .identifier name line => by
    rw [value, value]
    exact hR.refl _
  | σ, .literal text line => by
    rw [value, value]
    exact hR.refl _
  | σ, .call target arguments line => by
    rw [value, value]
    cases Catalog.standard.find? target with
    | some d => exact hR.bind (values_compatible hR hcalls σ arguments) fun _ => hR.refl _
    | none =>
      refine hR.bind (values_compatible hR hcalls σ arguments) fun handles => ?_
      match handles with
      | [handle] => exact hcalls target handle
      | [] | _ :: _ :: _ => exact hR.refl _
  | σ, .group es line => by
    rw [value, value]
    exact hR.bind (members_compatible hR hcalls σ es) fun _ => hR.refl _

lemma step_compatible (hR : Compatible R) (hcalls : ∀ name h, R (calls name h) (fcalls name h)) :
    ∀ (σ : Scope) (handle : Int) (t : Term), R (step calls σ handle t) (step fcalls σ handle t)
  | σ, handle, .identifier name line => by
    rw [step, step]
    cases Catalog.standard.find? name with
    | some d => exact hR.refl _
    | none => exact hcalls name handle
  | σ, handle, .literal text line => by
    rw [step, step]
    exact hR.refl _
  | σ, handle, .call target arguments line => by
    rw [step, step]
    cases Catalog.standard.find? target with
    | some d => exact hR.bind (values_compatible hR hcalls σ arguments) fun _ => hR.refl _
    | none => exact hR.refl _
  | σ, handle, .group es line => by
    rw [step, step]
    exact hR.bind (members_compatible hR hcalls _ es) fun _ => hR.refl _

lemma values_compatible (hR : Compatible R) (hcalls : ∀ name h, R (calls name h) (fcalls name h)) :
    ∀ (σ : Scope) (ts : List Term), R (values calls σ ts) (values fcalls σ ts)
  | σ, [] => by
    rw [values, values]
    exact hR.refl _
  | σ, t :: ts => by
    rw [values, values]
    exact hR.bind (value_compatible hR hcalls σ t) fun _ =>
      hR.bind (values_compatible hR hcalls σ ts) fun _ => hR.refl _

lemma steps_compatible (hR : Compatible R) (hcalls : ∀ name h, R (calls name h) (fcalls name h)) :
    ∀ (σ : Scope) (handle : Int) (ts : List Term),
      R (steps calls σ handle ts) (steps fcalls σ handle ts)
  | σ, handle, [] => by
    rw [steps, steps]
    exact hR.refl _
  | σ, handle, t :: ts => by
    rw [steps, steps]
    exact hR.bind (step_compatible hR hcalls σ handle t) fun next =>
      steps_compatible hR hcalls σ next ts

lemma result_compatible (hR : Compatible R) (hcalls : ∀ name h, R (calls name h) (fcalls name h)) :
    ∀ (σ : Scope) (e : Expression), R (result calls σ e) (result fcalls σ e)
  | σ, .pipeline [] line => by
    rw [result, result]
    exact hR.refl _
  | σ, .pipeline (t :: ts) line => by
    rw [result, result]
    exact hR.bind (value_compatible hR hcalls σ t) fun handle =>
      steps_compatible hR hcalls σ handle ts

lemma members_compatible (hR : Compatible R)
    (hcalls : ∀ name h, R (calls name h) (fcalls name h)) :
    ∀ (σ : Scope) (es : List Expression), R (members calls σ es) (members fcalls σ es)
  | σ, [] => by
    rw [members, members]
    exact hR.refl _
  | σ, e :: es => by
    rw [members, members]
    exact hR.bind (result_compatible hR hcalls σ e) fun _ =>
      hR.bind (members_compatible hR hcalls σ es) fun _ => hR.refl _

end

section Exchange

variable (hR : Compatible R) (hcalls : ∀ name h, R (calls name h) (fcalls name h))
include hR hcalls

lemma values_exchange (σ : Scope) (before : List Term) {t t' : Term} (after : List Term)
    (h : R (value calls σ t) (value fcalls σ t')) :
    R (values calls σ (before ++ t :: after)) (values fcalls σ (before ++ t' :: after)) := by
  induction before with
  | nil =>
    rw [List.nil_append, List.nil_append, values, values]
    exact hR.bind h fun _ => hR.bind (values_compatible hR hcalls σ after) fun _ => hR.refl _
  | cons first before ih =>
    rw [List.cons_append, List.cons_append, values, values]
    exact hR.bind (value_compatible hR hcalls σ first) fun _ => hR.bind ih fun _ => hR.refl _

lemma steps_exchange (σ : Scope) (handle : Int) (before : List Term) {t t' : Term}
    (after : List Term) (h : ∀ handle, R (step calls σ handle t) (step fcalls σ handle t')) :
    R (steps calls σ handle (before ++ t :: after))
      (steps fcalls σ handle (before ++ t' :: after)) := by
  induction before generalizing handle with
  | nil =>
    rw [List.nil_append, List.nil_append, steps, steps]
    exact hR.bind (h handle) fun next => steps_compatible hR hcalls σ next after
  | cons first before ih =>
    rw [List.cons_append, List.cons_append, steps, steps]
    exact hR.bind (step_compatible hR hcalls σ handle first) ih

lemma members_exchange (σ : Scope) (before : List Expression) {e e' : Expression}
    (after : List Expression) (h : R (result calls σ e) (result fcalls σ e')) :
    R (members calls σ (before ++ e :: after)) (members fcalls σ (before ++ e' :: after)) := by
  induction before with
  | nil =>
    rw [List.nil_append, List.nil_append, members, members]
    exact hR.bind h fun _ => hR.bind (members_compatible hR hcalls σ after) fun _ => hR.refl _
  | cons first before ih =>
    rw [List.cons_append, List.cons_append, members, members]
    exact hR.bind (result_compatible hR hcalls σ first) fun _ => hR.bind ih fun _ => hR.refl _

end Exchange

mutual

-- Groups pass other texts on, so that the expressions have to be related for every handle.
lemma result_fill (hR : Compatible R) (hcalls : ∀ name h, R (calls name h) (fcalls name h))
    {parameter : String} {e e' : Expression}
    (he : ∀ h, R (result calls ⟨parameter, h⟩ e) (result fcalls ⟨parameter, h⟩ e')) :
    ∀ (x : Expression.Position) (h : Int),
      R (result calls ⟨parameter, h⟩ (x.fill e)) (result fcalls ⟨parameter, h⟩ (x.fill e'))
  | .here, h => he h
  | .stage [] inner after line, h => by
    simp only [Expression.Position.fill, List.nil_append, result]
    exact hR.bind (value_fill hR hcalls he inner h) fun handle =>
      steps_compatible hR hcalls _ handle after
  | .stage (first :: before) inner after line, h => by
    simp only [Expression.Position.fill, List.cons_append, result]
    exact hR.bind (value_compatible hR hcalls _ first) fun handle =>
      steps_exchange hR hcalls _ handle before after fun handle =>
        step_fill hR hcalls he inner h handle

lemma value_fill (hR : Compatible R) (hcalls : ∀ name h, R (calls name h) (fcalls name h))
    {parameter : String} {e e' : Expression}
    (he : ∀ h, R (result calls ⟨parameter, h⟩ e) (result fcalls ⟨parameter, h⟩ e')) :
    ∀ (x : Term.Position) (h : Int),
      R (value calls ⟨parameter, h⟩ (x.fill e)) (value fcalls ⟨parameter, h⟩ (x.fill e'))
  | .argument target before inner after line, h => by
    have hvalues := values_exchange hR hcalls ⟨parameter, h⟩ before after
      (value_fill hR hcalls he inner h)
    simp only [Term.Position.fill, value]
    cases Catalog.standard.find? target with
    | some d => exact hR.bind hvalues fun _ => hR.refl _
    | none =>
      refine hR.bind hvalues fun handles => ?_
      match handles with
      | [handle] => exact hcalls target handle
      | [] | _ :: _ :: _ => exact hR.refl _
  | .member before inner after line, h => by
    simp only [Term.Position.fill, value]
    exact hR.bind (members_exchange hR hcalls _ before after
      (result_fill hR hcalls he inner h)) fun _ => hR.refl _

lemma step_fill (hR : Compatible R) (hcalls : ∀ name h, R (calls name h) (fcalls name h))
    {parameter : String} {e e' : Expression}
    (he : ∀ h, R (result calls ⟨parameter, h⟩ e) (result fcalls ⟨parameter, h⟩ e')) :
    ∀ (x : Term.Position) (h handle : Int), R (step calls ⟨parameter, h⟩ handle (x.fill e))
      (step fcalls ⟨parameter, h⟩ handle (x.fill e'))
  | .argument target before inner after line, h, handle => by
    have hvalues := values_exchange hR hcalls ⟨parameter, h⟩ before after
      (value_fill hR hcalls he inner h)
    simp only [Term.Position.fill, step]
    cases Catalog.standard.find? target with
    | some d => exact hR.bind hvalues fun _ => hR.refl _
    | none => exact hR.refl _
  | .member before inner after line, h, handle => by
    simp only [Term.Position.fill, step]
    exact hR.bind (members_exchange hR hcalls _ before after
      (result_fill hR hcalls he inner handle)) fun _ => hR.refl _

end

lemma result_rewritten (hR : Compatible R) (hcalls : ∀ name h, R (calls name h) (fcalls name h))
    {parameter scope : String} {e e' body body' : Expression}
    (he : ∀ h, R (result calls ⟨parameter, h⟩ e) (result fcalls ⟨parameter, h⟩ e'))
    (hbody : Rewritten parameter e e' scope body body') (h : Int) :
    R (result calls ⟨scope, h⟩ body) (result fcalls ⟨scope, h⟩ body') := by
  rcases hbody with rfl | ⟨rfl, x, rfl, rfl⟩
  · exact result_compatible hR hcalls _ _
  · exact result_fill hR hcalls he x h

end Relations

/-! ### Programs -/

variable {p : Program} {entry : String} {a : Assembly}

lemma sameCalls_of_lower (h : p.lower Catalog.standard entry = .ok a) (depth : Nat) :
    SameCalls (p.names Catalog.standard) (a.onHandles depth) (call p depth) := by
  induction depth with
  | zero => exact ⟨rfl, fun _ _ => rfl⟩
  | succ depth ih =>
    refine ⟨rfl, fun name hname => ?_⟩
    obtain ⟨-, hfs, -⟩ := Program.lower_ok h
    obtain ⟨d, q, hd, hq, hfun⟩ :=
      Lowering.exists_procedure_of_mem (Lowering.forall₂_of_mapM hfs) hname a.entry
    have hd : p.definition? name = some d := hd
    have hq : a.procedure? (functionName name) = some q := hq
    funext handle
    rw [Assembly.onHandles, call, hd, hq]
    exact onHandles_of_procedure ih hfun handle

/-- **The procedures of a program run as its tree does.** -/
lemma onHandles_of_lower (h : p.lower Catalog.standard entry = .ok a) (depth : Nat) (handle : Int) :
    a.entry.onHandles (a.onHandles depth) handle =
      result (call p depth) ⟨inputName, handle⟩ p.expression := by
  obtain ⟨-, -, hentry⟩ := Program.lower_ok h
  exact onHandles_of_procedure (sameCalls_of_lower h depth) hentry handle

/-! ### One expression for another -/

section Rewriting

variable {R : ∀ ⦃α : Type⦄, Run α → Run α → Prop} {q : Program} {parameter : String}
  {e e' : Expression}

/-- **Programs that differ in one expression.** What holds between the runs of the two expressions,
as long as it holds between the calls that are nested less deeply, holds between all calls. -/
lemma call_rewrites (hR : Compatible R) (h : p.Rewrites parameter e e' q)
    (he : ∀ depth, (∀ d ≤ depth, ∀ name h, R (call p d name h) (call q d name h)) →
      ∀ h, R (result (call p depth) ⟨parameter, h⟩ e) (result (call q depth) ⟨parameter, h⟩ e'))
    (depth : Nat) : ∀ name h, R (call p depth name h) (call q depth name h) := by
  induction depth using Nat.strong_induction_on with
  | _ depth ih =>
    intro name handle
    cases depth with
    | zero => exact hR.refl _
    | succ depth =>
      have hbelow := fun d (hd : d ≤ depth) => ih d (Nat.lt_succ_of_le hd)
      rw [call, call]
      obtain ⟨hp, hq⟩ | ⟨d, d', hp, hq, hd⟩ := h.definition? name
      · -- no definition has the name
        rw [hp, hq]
        exact hR.refl _
      · -- a definition, whose body may be rewritten
        rw [hp, hq]
        simp only [hd.sameParameter]
        exact result_rewritten hR (hbelow depth le_rfl) (he depth hbelow) hd.body handle

lemma result_rewrites (hR : Compatible R) (h : p.Rewrites parameter e e' q)
    (he : ∀ depth, (∀ d ≤ depth, ∀ name h, R (call p d name h) (call q d name h)) →
      ∀ h, R (result (call p depth) ⟨parameter, h⟩ e) (result (call q depth) ⟨parameter, h⟩ e'))
    (depth : Nat) (handle : Int) :
    R (result (call p depth) ⟨inputName, handle⟩ p.expression)
      (result (call q depth) ⟨inputName, handle⟩ q.expression) :=
  result_rewritten hR (call_rewrites hR h he depth)
    (he depth fun d _ => call_rewrites hR h he d) h.expression handle

end Rewriting

end Running

end TextPipeline
