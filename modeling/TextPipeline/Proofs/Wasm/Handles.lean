import TextPipeline.Proofs.Artifact
import TextPipeline.Proofs.Procedure.CallGraph

/-!
Procedures on handles. A run of a module comes down to a run of the procedures it was generated
from, in which handles of the host take the place of texts (`execute_eq_reported_of_runnable`). The
order of the functions, the imports and the places of the literals leave no trace in it, so that a
program can be compared with another whose module looks quite different (`execute_eq_of_reported`):
an assembly that has the procedures of another, and perhaps more, runs as the other does
(`reported_of_extends`).
-/

namespace TextPipeline

open Wasm Host

/-- Calls of procedures by name on the handle of a text. -/
abbrev HandleCalls := String → Int → Run Int

/-- The handles of the parameter and of the temporaries. -/
abbrev Handles := Operand → Int

namespace Host

/-- The host keeps a text, or remembers why there is none. -/
def keep (r : Except Error String) : Run Int := fun h =>
  match r with
  | .error e => h.fail e
  | .ok s => h.store s

/-- A call of a host function that does not look at the memory. -/
def ask (f : HostFunction) (args : List Int) : Run Int := fun h => h.perform none f args

lemma perform_eq_keep (memory : Option Memory) (f : HostFunction) (args : List Int) (h : Host) :
    h.perform memory f args = keep (h.result memory f args) h := rfl

lemma perform_eq_ask {f : HostFunction} (hf : f ≠ .literal) (memory : Option Memory)
    (args : List Int) (h : Host) : h.perform memory f args = ask f args h := by
  have hres : h.result memory f args = h.result none f args := by
    cases f with
    | literal => exact absurd rfl hf
    | joinLines => rcases args with _ | ⟨_, _ | ⟨_, _ | _⟩⟩ <;> rfl
    | builtin b => rfl
  rw [ask, perform_eq_keep, perform_eq_keep, hres]

end Host

section Procedures

variable (call : HandleCalls)

/-- What an operation asks of the host. -/
def Operation.onHandles (f : Handles) : Operation → Run Int
  | literal text => keep (Builtin.ofLiteral text)
  | builtin b operands => ask (.builtin b) (operands.map f)
  | invoke callee argument => call callee (f argument)
  | join [] => malformed
  | join (first :: rest) =>
    (rest.map f).foldlM (fun joined next => ask .joinLines [joined, next]) (f first)

/-- The handles after the bindings. -/
def executedOnHandles : List Binding → Handles → Run Handles
  | [], f => pure f
  | b :: bs, f => do
    let handle ← b.operation.onHandles call f
    executedOnHandles bs (Function.update f (.temp b.temp) handle)

/-- The handles with which a procedure starts. -/
def Handles.start (handle : Int) : Handles
  | .param => handle
  | .temp _ => inputHandle

def Procedure.onHandles (p : Procedure) (handle : Int) : Run Int := do
  let f ← executedOnHandles call p.bindings (.start handle)
  return f p.result

end Procedures

namespace Assembly

/-- Calls of the procedures of an assembly, at most `depth` of them inside each other. -/
def onHandles (a : Assembly) : (depth : Nat) → HandleCalls
  | 0, _, _ => Hosting.trap .callStackExhausted
  | depth + 1, name, handle =>
    match a.procedure? name with
    | some p => p.onHandles (a.onHandles depth) handle
    | none => malformed

/-- What a run of the entry procedure on the input is reported to come to. -/
def reported [Engine] (a : Assembly) (input : String) : Except Error String :=
  match a.entry.onHandles (a.onHandles (callDepth - 1)) inputHandle (.start input) with
  | (.ok handle, host) => host.get handle
  | (.error e, host) => .error (host.failure.getD e)

end Assembly

namespace Wasm

/-! ### From locals to handles -/

structure Carries (bound : Nat) (f : Handles) (locals : Array Int) : Prop where
  size : locals.size = 1 + bound
  operand : ∀ o : Operand, o.Below bound → locals[localOf o]? = some (f o)

namespace Carries

variable {bound : Nat} {f : Handles} {locals : Array Int}

lemma operands (h : Carries bound f locals) {os : List Operand}
    (hos : ∀ o ∈ os, o.Below bound) :
    List.Forall₂ (fun o handle => locals[localOf o]? = some handle) os (os.map f) := by
  induction os with
  | nil => exact .nil
  | cons o os ih =>
    obtain ⟨ho, hos⟩ := List.forall_mem_cons.mp hos
    exact .cons (h.operand o ho) (ih hos)

lemma set (h : Carries bound f locals) {index : Nat} (hlt : index < bound) (handle : Int) :
    Carries bound (Function.update f (.temp index) handle)
      (locals.setIfInBounds (index + 1) handle) where
  size := by rw [Array.size_setIfInBounds, h.size]
  operand := by
    intro o ho
    have hsize := h.size
    by_cases heq : o = .temp index
    · -- the temporary that is set
      subst heq
      rw [Function.update_self]
      exact Array.getElem?_setIfInBounds_self_of_lt (by omega)
    · -- any other operand has another local
      have hne : index + 1 ≠ localOf o := by
        cases o with
        | param => simp [localOf]
        | temp i =>
          rintro ⟨⟩
          exact heq rfl
      rw [Function.update_of_ne heq, Array.getElem?_setIfInBounds_ne hne]
      exact h.operand o ho

lemma start (handle : Int) (bound : Nat) :
    Carries bound (.start handle) ([handle] ++ List.replicate bound 0).toArray where
  size := by simp only [List.size_toArray, List.length_append, List.length_replicate,
    List.length_singleton]
  operand := by
    rintro (_ | i) ho
    · rfl
    · have hlt : i < bound := ho
      simp [localOf, Handles.start, inputHandle, hlt]

end Carries

/-- The functions of the module are the calls of their procedures. -/
def Realizes (a : Assembly) (call : HandleCalls) (own : Nat → List Int → Run Int) : Prop :=
  ∀ {i p name}, a.procedures[i]? = some p → a.procedure? name = some p →
    ∀ handle, own i [handle] = call name handle

section Code

variable {a : Assembly} {i : Instance} (g : Loaded a i) (own : Nat → List Int → Run Int)
include g

lemma callIndex_literal {location : Location} {text : String}
    (hs : Stored i.wasm.data location text) :
    callIndex i own Layout.literalIndex [location.offset, location.length] =
      keep (Builtin.ofLiteral text) := by
  rw [g.callIndex_host own Layout.hostFunctions_literalIndex]
  funext h
  have hres : h.result i.wasm.exportedMemory .literal [location.offset, location.length] =
      Builtin.ofLiteral text := by
    rw [g.exportedMemory]
    exact literal_of_stored hs g.fits
  exact (perform_eq_keep _ _ _ h).trans (by rw [hres])

lemma callIndex_ask {f : HostFunction} {index : Nat}
    (hf : a.layout.hostFunctions[index]? = some f) (hne : f ≠ .literal) (args : List Int) :
    callIndex i own index args = ask f args := by
  rw [g.callIndex_host own hf]
  funext h
  exact perform_eq_ask hne _ _ h

variable {own} {call : HandleCalls} (hown : Realizes a call own)
include hown

lemma operation_pushes {op : Operation} {code : List Instruction} {bound : Nat} {f : Handles}
    {locals : Array Int} (hop : op.Sits bound)
    (hcode : IsCode a.layout i.wasm.data op code) (hl : Carries bound f locals) :
    Pushes i.wasm (callIndex i own) locals code (op.onHandles call f) := by
  intro rest stack
  cases hcode with
  | @literal text location hs _ =>
    rw [Operation.onHandles, ← callIndex_literal g own hs]
    exact runCode_call [_, _] (g.parameterCount?_host Layout.hostFunctions_literalIndex) rest stack
  | @builtin b os index hindex =>
    have hb := Layout.hostFunctions_builtinIndex? hindex
    have hbelow : ∀ o ∈ os, o.Below bound := hop.below
    have hcount : (os.map f).length = (HostFunction.builtin b).operandCount := by
      rw [List.length_map]
      exact hop.count
    rw [Operation.onHandles, ← callIndex_ask g own hb (by simp), List.append_assoc,
      runCode_gets (hl.operands hbelow)]
    exact runCode_call (os.map f) (by rw [g.parameterCount?_host hb, hcount]) rest stack
  | @invoke callee argument index hindex =>
    obtain ⟨k, p, hp, hname, rfl⟩ := procedureIndex?_ok hindex
    have hlocal := hl.operand argument (hop.below _ List.mem_cons_self)
    rw [Operation.onHandles, ← hown hp hname, ← g.callIndex_procedure own]
    exact (runCode_get hlocal _ stack).trans
      (runCode_call [f argument] (g.parameterCount?_procedure hp) rest stack)
  | @join first parts =>
    have hlocal := hl.operand first (hop.below _ List.mem_cons_self)
    have hgets := hl.operands fun o ho => hop.below o (List.mem_cons_of_mem _ ho)
    have hjoin := Layout.hostFunctions_joinIndex (l := a.layout)
    simp only [Operation.onHandles, ← callIndex_ask g own hjoin (by simp)]
    exact (runCode_get hlocal _ stack).trans
      (runCode_joins (g.parameterCount?_host hjoin) hgets rest stack (f first))

lemma bindings_eq_onHandles {bs : List Binding} {code : List Instruction} {bound : Nat}
    {result : Operand} {f : Handles} {locals : Array Int} (hbs : AllSit bound bs)
    (hcode : AreCode a.layout i.wasm.data bs code) (hresult : result.Below bound)
    (hl : Carries bound f locals) :
    runCode i.wasm (callIndex i own) (code ++ [getOperand result]) [] locals >>= onlyValue =
      executedOnHandles call bs f >>= fun f => pure (f result) := by
  induction hcode generalizing f locals with
  | nil =>
    rw [List.nil_append, runCode_get (hl.operand result hresult), executedOnHandles, pure_bind]
    rfl
  | @cons b bs code more hop _ ih =>
    obtain ⟨htemp, hsits⟩ := hbs b List.mem_cons_self
    have hlocal : b.temp + 1 < locals.size := by
      rw [hl.size]
      omega
    rw [List.append_assoc, operation_pushes g hown hsits hop hl, executedOnHandles, bind_assoc,
      bind_assoc]
    refine bind_congr fun handle => ?_
    rw [List.cons_append, runCode_set hlocal]
    exact ih (fun b hb => hbs b (List.mem_cons_of_mem _ hb)) (hl.set htemp handle)

end Code

/-! ### Calls inside calls -/

section Depth

variable {a : Assembly} {i : Instance} (g : Loaded a i) (hco : ∀ p ∈ a.procedures, p.Coherent)
include g hco

lemma activate_eq_onHandles {call : HandleCalls} {depth k : Nat} {p : Procedure}
    (hrealizes : Realizes a call (activate i depth)) (hp : a.procedures[k]? = some p)
    (handle : Int) : activate i (depth + 1) k [handle] = p.onHandles call handle := by
  obtain ⟨body, hbody, code, hcode, rfl⟩ := forall₂_getElem? g.bodies hp
  have hcoherent := hco p (List.mem_of_getElem? hp)
  unfold activate
  simp only [hbody]
  exact bindings_eq_onHandles g hrealizes hcoherent.allSit hcode hcoherent.result (.start handle _)

lemma realizes_activate (depth : Nat) : Realizes a (a.onHandles depth) (activate i depth) := by
  induction depth with
  | zero => exact fun _ _ _ => rfl
  | succ depth ih =>
    intro k p name hp hname handle
    rw [Assembly.onHandles, hname]
    exact activate_eq_onHandles g hco ih hp handle

lemma enter_eq_onHandles [Engine] :
    (i.enter (a.layout.importCount + a.functions.length) : Run Int) =
      a.entry.onHandles (a.onHandles (callDepth - 1)) inputHandle := by
  rw [Instance.enter, g.callIndex_procedure]
  exact activate_eq_onHandles g hco (realizes_activate g hco _) a.getElem?_entry _

end Depth

end Wasm

namespace Artifact

variable [Engine] {a b : Assembly} {artifact other : Artifact} {input : String}

lemma execute_of_error {e : Error} (h : artifact.start input = .error e) :
    artifact.execute input = .error e := by
  rw [execute, finish, bind_of_error h, bind_of_error rfl]

/-- **A compiled program runs its procedures on handles,** if the engine takes it. -/
lemma execute_eq_reported_of_runnable (h : Runnable a artifact)
    (hadmits : Engine.admits artifact.wasm) (hinput : Text.Plain input) :
    artifact.execute input = a.reported input := by
  obtain ⟨linked, hloaded, hstart⟩ := h.exists_start hadmits
  rw [execute, finish_of_start (hstart input hinput), Instance.call,
    enter_eq_onHandles hloaded h.coherent, Assembly.reported]
  generalize a.entry.onHandles _ _ _ = y
  rcases y with ⟨e | handle, host⟩ <;> rfl

lemma execute_eq_or_reported (h : Runnable a artifact) (h' : Runnable b other)
    (hadmits : Engine.admits other.wasm = Engine.admits artifact.wasm) (input : String) :
    other.execute input = artifact.execute input ∨
      (artifact.execute input = a.reported input ∧ other.execute input = b.reported input) := by
  cases hinput : Text.ensurePlain input with
  | error e =>
    rw [execute_of_error (start_of_refused hinput), execute_of_error (start_of_refused hinput)]
    exact .inl rfl
  | ok _ =>
    have hplain := Text.plain_of_ensurePlain hinput
    cases htakes : Engine.admits artifact.wasm with
    | true =>
      exact .inr ⟨execute_eq_reported_of_runnable h htakes hplain,
        execute_eq_reported_of_runnable h' (hadmits.trans htakes) hplain⟩
    | false =>
      rw [execute_of_error (start_of_not_admitted hplain (hadmits.trans htakes)),
        execute_of_error (start_of_not_admitted hplain htakes)]
      exact .inl rfl

lemma execute_eq_of_reported (h : Runnable a artifact) (h' : Runnable b other)
    (hadmits : Engine.admits other.wasm = Engine.admits artifact.wasm) {input : String}
    (hreported : b.reported input = a.reported input) :
    other.execute input = artifact.execute input := by
  rcases execute_eq_or_reported h h' hadmits input with hsame | ⟨hfirst, hsecond⟩
  · exact hsame
  · rw [hfirst, hsecond, hreported]

end Artifact

/-! ### More procedures -/

/-- The other assembly has the same entry, and every procedure of this one under its name. -/
structure Assembly.Extends (b a : Assembly) : Prop where
  entry : b.entry = a.entry
  procedures : ∀ name p, a.procedure? name = some p → b.procedure? name = some p

lemma executedOnHandles_congr {call other : HandleCalls} {bs : List Binding}
    (h : ∀ b ∈ bs, ∀ callee o, b.operation = .invoke callee o → call callee = other callee)
    (f : Handles) : executedOnHandles call bs f = executedOnHandles other bs f := by
  induction bs generalizing f with
  | nil => rfl
  | cons b bs ih =>
    obtain ⟨hb, hbs⟩ := List.forall_mem_cons.mp h
    have hop : b.operation.onHandles call f = b.operation.onHandles other f := by
      generalize b.operation = op at hb
      cases op with
      | invoke callee o => exact congrFun (hb callee o rfl) (f o)
      | join parts => cases parts <;> rfl
      | literal _ | builtin _ _ => rfl
    rw [executedOnHandles, executedOnHandles, hop]
    exact bind_congr fun handle => ih hbs _

namespace Assembly

variable {a b : Assembly}
  (hlinked : ∀ p ∈ a.procedures, ∀ x ∈ p.bindings, x.operation.Linked a)
include hlinked

lemma onHandles_congr {p : Procedure} (hp : p ∈ a.procedures) {call other : HandleCalls}
    (h : ∀ name q, a.procedure? name = some q → call name = other name) :
    p.onHandles call = p.onHandles other := by
  funext handle
  unfold Procedure.onHandles
  rw [executedOnHandles_congr]
  intro x hx callee o hop
  have hcallee : x.operation.Linked a := hlinked p hp x hx
  rw [hop] at hcallee
  obtain ⟨q, hq, -⟩ := exists_procedure? hcallee
  exact h callee q hq

variable (hext : b.Extends a)
include hext

lemma onHandles_of_extends (depth : Nat) (name : String) (p : Procedure)
    (hp : a.procedure? name = some p) : a.onHandles depth name = b.onHandles depth name := by
  induction depth generalizing name p with
  | zero => rfl
  | succ depth ih =>
    funext handle
    rw [onHandles, onHandles, hp, hext.procedures name p hp]
    exact congrFun (onHandles_congr hlinked (List.mem_of_find?_eq_some hp) ih) handle

/-- **Procedures that are not called are inert.** -/
lemma reported_of_extends [Engine] (input : String) : b.reported input = a.reported input := by
  unfold reported
  rw [hext.entry, onHandles_congr hlinked a.entry_mem (onHandles_of_extends hlinked hext _)]

end Assembly

end TextPipeline
