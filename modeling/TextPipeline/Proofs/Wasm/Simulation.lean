import TextPipeline.Proofs.Host
import TextPipeline.Proofs.Wasm.Linking
import TextPipeline.Proofs.Wasm.Validity
import TextPipeline.Wasm.Machine

/-!
A generated module on the machine does what its assembly means. The locals of a function hold
handles of the texts in the frame of the procedure (`Mirrors`), the code of an operation comes
down to one call or a chain of them, and by induction on the depth of calls every function of
the module simulates its procedure (`activate_simulates`).
-/

namespace TextPipeline

lemma Assembly.getElem?_entry (a : Assembly) :
    a.procedures[a.functions.length]? = some a.entry :=
  List.getElem?_concat_length

namespace Wasm

open Host

lemma simulates_bind {input : String} {h : Host} {cost : Nat} {n : String → Nat}
    {x : Outcome String} {k : String → Outcome String} {X : Run Int} {K : Int → Run Int}
    (hx : Simulates input h cost x (X h))
    (hk : ∀ later handle text, h.Grows later → later.Ready input →
      later.get handle = .ok text → Simulates input later (n text) (k text) (K handle later)) :
    Simulates input h (cost + x.after n) (x >>= k) ((X >>= K) h) := by
  generalize hy : X h = y at hx
  cases hx with
  | value hgrows hready hsize hget =>
    rw [run_bind_ok hy]
    exact (hk _ _ _ hgrows hready hget).of_grows hgrows hsize
  | failed hf =>
    rw [run_bind_error hy]
    exact .failed hf
  | exhausted hf =>
    rw [run_bind_error hy]
    exact .exhausted hf
  | full hfull hf =>
    rw [run_bind_error hy]
    exact .full (by omega) hf

/-! ### Steps of a run -/

section Code

variable {m : Module} {callee : Nat → List Int → Run Int} {locals : Array Int}

lemma runCode_get {o : Operand} {handle : Int} (h : locals[localOf o]? = some handle)
    (rest : List Instruction) (stack : List Int) :
    runCode m callee (getOperand o :: rest) stack locals =
      runCode m callee rest (handle :: stack) locals := by
  simp only [getOperand, runCode, h]

lemma runCode_gets {os : List Operand} {handles : List Int}
    (h : List.Forall₂ (fun o handle => locals[localOf o]? = some handle) os handles)
    (rest : List Instruction) (stack : List Int) :
    runCode m callee (os.map getOperand ++ rest) stack locals =
      runCode m callee rest (handles.reverse ++ stack) locals := by
  induction h generalizing stack with
  | nil => rfl
  | cons ho _ ih =>
    rw [List.map_cons, List.cons_append, runCode_get ho, ih, List.reverse_cons,
      List.append_assoc, List.singleton_append]

lemma runCode_call {index : Nat} (args : List Int)
    (h : m.parameterCount? index = some args.length) (rest : List Instruction)
    (stack : List Int) :
    runCode m callee (.call index :: rest) (args.reverse ++ stack) locals =
      callee index args >>= fun value => runCode m callee rest (value :: stack) locals := by
  have hlen : args.reverse.length = args.length := List.length_reverse
  simp only [runCode, h]
  rw [if_pos (by rw [List.length_append]; omega), ← hlen, List.take_left, List.drop_left,
    List.reverse_reverse]

lemma runCode_set {index : Nat} (h : index < locals.size) (rest : List Instruction)
    (value : Int) (stack : List Int) :
    runCode m callee (.localSet index :: rest) (value :: stack) locals =
      runCode m callee rest stack (locals.setIfInBounds index value) := by
  simp only [runCode, if_pos h]

/-- The code pushes the value that `x` returns, whatever is on the stack and comes after. -/
def Pushes (m : Module) (callee : Nat → List Int → Run Int) (locals : Array Int)
    (code : List Instruction) (x : Run Int) : Prop :=
  ∀ rest stack, runCode m callee (code ++ rest) stack locals =
    x >>= fun value => runCode m callee rest (value :: stack) locals

lemma runCode_joins {join : Nat} (hjoin : m.parameterCount? join = some 2)
    {os : List Operand} {handles : List Int}
    (h : List.Forall₂ (fun o handle => locals[localOf o]? = some handle) os handles)
    (rest : List Instruction) (stack : List Int) (handle : Int) :
    runCode m callee ((os.flatMap fun part => [getOperand part, .call join]) ++ rest)
        (handle :: stack) locals =
      handles.foldlM (fun joined next => callee join [joined, next]) handle >>= fun value =>
        runCode m callee rest (value :: stack) locals := by
  induction h generalizing handle with
  | nil => rw [List.foldlM_nil, pure_bind]; rfl
  | @cons o next os handles ho _ ih =>
    rw [List.flatMap_cons, List.append_assoc, List.foldlM_cons, bind_assoc]
    refine (runCode_get ho _ _).trans ((runCode_call [handle, next] hjoin _ _).trans ?_)
    exact bind_congr fun joined => ih joined

end Code

/-! ### Frames and locals -/

structure Mirrors (h : Host) (bound : Nat) (f : Frame) (locals : Array Int) : Prop where
  size : locals.size = 1 + bound
  operand : ∀ o : Operand, o.Below bound →
    ∃ handle, locals[localOf o]? = some handle ∧ h.get handle = .ok (f.get o)

namespace Mirrors

variable {h later : Host} {bound : Nat} {f : Frame} {locals : Array Int}

lemma of_grows (hm : Mirrors h bound f locals) (hg : h.Grows later) :
    Mirrors later bound f locals where
  size := hm.size
  operand := by
    intro o ho
    obtain ⟨handle, hlocal, hget⟩ := hm.operand o ho
    exact ⟨handle, hlocal, hg _ _ hget⟩

lemma operands (hm : Mirrors h bound f locals) {os : List Operand}
    (hos : ∀ o ∈ os, o.Below bound) :
    ∃ handles, List.Forall₂ (fun o handle => locals[localOf o]? = some handle) os handles ∧
      h.Denotes handles (os.map f.get) := by
  induction os with
  | nil => exact ⟨[], .nil, .nil⟩
  | cons o os ih =>
    obtain ⟨handle, hlocal, hget⟩ := hm.operand o (hos o List.mem_cons_self)
    obtain ⟨handles, hlocals, hgets⟩ := ih fun o ho => hos o (List.mem_cons_of_mem _ ho)
    exact ⟨handle :: handles, .cons hlocal hlocals, .cons hget hgets⟩

lemma set (hm : Mirrors h bound f locals) {index : Nat} {handle : Int} {text : String}
    (hlt : index < bound) (hget : h.get handle = .ok text) :
    Mirrors h bound (f.set index text) (locals.setIfInBounds (index + 1) handle) where
  size := by rw [Array.size_setIfInBounds, hm.size]
  operand := by
    intro o ho
    have hsize := hm.size
    rcases o with _ | i
    · -- the parameter stays where it is
      obtain ⟨old, hlocal, hold⟩ := hm.operand .param ho
      exact ⟨old, by rw [Array.getElem?_setIfInBounds_ne (by simp [localOf]), hlocal], hold⟩
    · by_cases hi : i = index
      · -- the temporary that is set
        subst hi
        refine ⟨handle, ?_, by rw [Frame.get_set_self, hget]⟩
        exact Array.getElem?_setIfInBounds_self_of_lt (by omega)
      · -- another temporary
        obtain ⟨old, hlocal, hold⟩ := hm.operand (.temp i) ho
        refine ⟨old, ?_, by rw [Frame.get_set_of_ne _ _ hi, hold]⟩
        rw [Array.getElem?_setIfInBounds_ne (by simp only [localOf]; omega), hlocal]

lemma start {input text : String} {handle : Int} (hr : h.Ready input)
    (hget : h.get handle = .ok text) (bound : Nat) :
    Mirrors h bound (.start input text) ([handle] ++ List.replicate bound 0).toArray where
  size := by simp only [List.size_toArray, List.length_append, List.length_replicate,
    List.length_singleton]
  operand := by
    intro o ho
    rcases o with _ | i
    · exact ⟨handle, rfl, hget⟩
    · have hlt : i < bound := ho
      refine ⟨inputHandle, ?_, hr.input⟩
      simp [localOf, inputHandle, hlt]

end Mirrors

/-! ### Operations -/

namespace Generated

variable {a : Assembly} {m : Module} (g : Generated a m)
include g

lemma exportedMemory : m.exportedMemory = some ⟨m.data, m.pages * pageSize⟩ := by
  unfold Module.exportedMemory
  exact if_pos (by rw [g.exports]; exact List.mem_cons_of_mem _ List.mem_cons_self)

lemma entry?_entry : m.entry? a.entry.name =
    some (a.layout.importCount + a.functions.length) := by
  have hcount := g.parameterCount?_procedure a.getElem?_entry
  unfold Module.entry?
  rw [g.exports, List.findSome?_cons]
  simp only [hcount, and_self, if_pos]

end Generated

namespace Loaded

variable {a : Assembly} {i : Instance} (g : Loaded a i) (own : Nat → List Int → Run Int)
include g

lemma callIndex_host {f : HostFunction} {index : Nat}
    (hf : a.layout.hostFunctions[index]? = some f) (args : List Int) :
    callIndex i own index args = Hosting.perform i.wasm.exportedMemory f args := by
  unfold callIndex
  rw [g.hosts, hf]

lemma callIndex_procedure (k : Nat) (args : List Int) :
    callIndex i own (a.layout.importCount + k) args = own k args := by
  unfold callIndex
  rw [g.hosts, List.getElem?_eq_none (by rw [Layout.length_hostFunctions]; omega),
    Layout.length_hostFunctions, Nat.add_sub_cancel_left]

variable {input : String} {h : Host} (hr : h.Ready input)
include hr

lemma host_simulates {f : HostFunction} {index : Nat}
    (hf : a.layout.hostFunctions[index]? = some f) {args : List Int} {r : Except Error String}
    (hres : h.result i.wasm.exportedMemory f args = r) (hplain : ∀ s, r = .ok s → Text.Plain s) :
    Simulates input h 1 (.done r) (callIndex i own index args h) := by
  rw [g.callIndex_host own hf]
  exact perform_simulates hr hres hplain

lemma literal_simulates {location : Location} {text : String}
    (hs : Stored i.wasm.data location text) :
    Simulates input h 1 (.done (Builtin.ofLiteral text))
      (callIndex i own Layout.literalIndex [location.offset, location.length] h) := by
  refine g.host_simulates own hr Layout.hostFunctions_literalIndex ?_
    fun _ => Text.plain_of_checked
  rw [g.exportedMemory]
  exact literal_of_stored hs g.fits

lemma builtin_simulates {b : Builtin} {index : Nat} (hb : a.layout.builtinIndex? b = some index)
    {handles : List Int} {texts : List String} (hd : h.Denotes handles texts) :
    Simulates input h 1 (.done (b.apply texts)) (callIndex i own index handles h) := by
  refine g.host_simulates own hr (Layout.hostFunctions_builtinIndex? hb) ?_
    fun _ => Builtin.plain_of_apply
  simp only [result, hd.mapM_get]
  rfl

lemma joinLines_simulates {first second : Int} {s t : String} (hs : h.get first = .ok s)
    (ht : h.get second = .ok t) :
    Simulates input h 1 (pure (s ++ "\n" ++ t))
      (callIndex i own Layout.joinIndex [first, second] h) := by
  have hplain {handle : Int} {text : String} (hget : h.get handle = .ok text) :
      Text.Plain text := hr.plain handle text hget
  have hjoined := Builtin.joinLines_of_plain (hplain hs) (hplain ht)
  refine g.host_simulates own hr Layout.hostFunctions_joinIndex ?_ ?_
  · simp only [result, hs, ht]
    exact hjoined
  · intro text htext
    exact Text.plain_of_edited (hjoined.trans htext)

lemma joins_simulates {handle : Int} {text : String} (hget : h.get handle = .ok text)
    {handles : List Int} {texts : List String} (hd : h.Denotes handles texts) :
    Simulates input h handles.length (pure (Text.stacked (text :: texts)))
      (handles.foldlM (fun joined next =>
        callIndex i own Layout.joinIndex [joined, next]) handle h) := by
  induction handles generalizing h handle text texts with
  | nil =>
    cases hd
    exact .value (.refl h) hr (Nat.le_refl _) hget
  | cons next handles ih =>
    rcases hd with _ | @⟨_, t, _, texts, hnext, hd⟩
    have hsplit : (pure (Text.stacked (text :: t :: texts)) : Outcome String) =
        pure (text ++ "\n" ++ t) >>= fun joined => pure (Text.stacked (joined :: texts)) := rfl
    rw [List.foldlM_cons, hsplit, List.length_cons, Nat.add_comm]
    refine simulates_bind (n := fun _ => handles.length)
      (g.joinLines_simulates own hr hget hnext) ?_
    intro later joined s hgrows hready hs
    exact ih hready hs (Denotes.of_grows hd hgrows)

end Loaded

/-- The functions of the module simulate calls of their procedures. -/
def Serves (a : Assembly) (input : String) (call : Calls) (cost : String → String → Nat)
    (own : Nat → List Int → Run Int) : Prop :=
  ∀ {i p name h handle text}, a.procedures[i]? = some p → a.procedure? name = some p →
    Ready input h → h.get handle = .ok text →
    Simulates input h (cost name text) (call name text) (own i [handle] h)

section Procedures

variable {a : Assembly} {i : Instance} (g : Loaded a i) {input : String} {h : Host}
  {call : Calls} {cost : String → String → Nat} {own : Nat → List Int → Run Int}
  (hown : Serves a input call cost own)
include g hown

lemma operation_simulates {op : Operation} {code : List Instruction} {bound : Nat} {f : Frame}
    {locals : Array Int} (hop : op.Sits bound)
    (hcode : IsCode a.layout i.wasm.data op code) (hr : h.Ready input)
    (hm : Mirrors h bound f locals) :
    ∃ x, Pushes i.wasm (callIndex i own) locals code x ∧
      Simulates input h (op.texts cost f) (op.outcome call f) (x h) := by
  cases hcode with
  | @literal text location hs _ =>
    refine ⟨_, fun rest stack => ?_, g.literal_simulates own hr hs⟩
    exact runCode_call [_, _] (g.parameterCount?_host Layout.hostFunctions_literalIndex) rest stack
  | @builtin b os index hindex =>
    have hbelow : ∀ o ∈ os, o.Below bound := hop.below
    obtain ⟨handles, hlocals, hd⟩ := hm.operands hbelow
    refine ⟨_, fun rest stack => ?_, g.builtin_simulates own hr hindex hd⟩
    rw [List.append_assoc, runCode_gets hlocals]
    refine runCode_call handles ?_ rest stack
    rw [g.parameterCount?_host (Layout.hostFunctions_builtinIndex? hindex), ← hlocals.length_eq]
    exact congrArg some (Eq.symm hop.count)
  | @invoke callee argument index hindex =>
    obtain ⟨k, p, hp, hname, rfl⟩ := procedureIndex?_ok hindex
    obtain ⟨handle, hlocal, hget⟩ := hm.operand argument (hop.below _ List.mem_cons_self)
    refine ⟨own k [handle], fun rest stack => ?_, hown hp hname hr hget⟩
    rw [← g.callIndex_procedure own]
    exact (runCode_get hlocal _ stack).trans
      (runCode_call [handle] (g.parameterCount?_procedure hp) rest stack)
  | @join first parts =>
    obtain ⟨handle, hlocal, hget⟩ := hm.operand first (hop.below _ List.mem_cons_self)
    obtain ⟨handles, hlocals, hd⟩ := hm.operands fun o ho =>
      hop.below o (List.mem_cons_of_mem _ ho)
    have hcost : handles.length = parts.length := hlocals.length_eq.symm
    refine ⟨_, fun rest stack => ?_, hcost ▸ g.joins_simulates own hr hget hd⟩
    have hjoin := g.parameterCount?_host Layout.hostFunctions_joinIndex
    exact (runCode_get hlocal _ stack).trans (runCode_joins hjoin hlocals rest stack handle)

lemma bindings_simulates {bs : List Binding} {code : List Instruction} {bound : Nat}
    {result : Operand} {f : Frame} {locals : Array Int}
    (hbs : AllSit bound bs) (hcode : AreCode a.layout i.wasm.data bs code)
    (hresult : result.Below bound) (hr : h.Ready input) (hm : Mirrors h bound f locals) :
    Simulates input h (executedTexts call cost bs f)
      (executed call bs f >>= fun f => pure (f.get result))
      ((runCode i.wasm (callIndex i own) (code ++ [getOperand result]) [] locals >>=
        onlyValue) h) := by
  induction hcode generalizing h f locals with
  | nil =>
    obtain ⟨handle, hlocal, hget⟩ := hm.operand result hresult
    rw [List.nil_append, runCode_get hlocal]
    exact .value (.refl h) hr (Nat.le_refl _) hget
  | @cons b bs code more hop _ ih =>
    obtain ⟨htemp, hsits⟩ := hbs b List.mem_cons_self
    obtain ⟨x, hpush, hsim⟩ := operation_simulates g hown hsits hop hr hm
    rw [List.append_assoc, hpush, bind_assoc, executed_cons, Outcome.bind_assoc]
    refine simulates_bind hsim ?_
    intro later handle text hgrows hready hget
    have hlocal : b.temp + 1 < locals.size := by
      rw [hm.size]
      omega
    rw [List.cons_append, runCode_set hlocal]
    exact ih (fun b hb => hbs b (List.mem_cons_of_mem _ hb)) hready
      ((hm.of_grows hgrows).set htemp hget)

lemma body_simulates {p : Procedure} {body : Body} {handle : Int} {text : String}
    (hco : p.Coherent) (hbody : IsBody a.layout i.wasm.data p body)
    (hr : h.Ready input) (hget : h.get handle = .ok text) :
    Simulates input h (p.texts call cost input text) (p.outcome call input text)
      ((runCode i.wasm (callIndex i own) body.code []
        ([handle] ++ List.replicate body.locals 0).toArray >>= onlyValue) h) := by
  obtain ⟨code, hcode, rfl⟩ := hbody
  exact bindings_simulates g hown hco.allSit hcode hco.result hr (.start hr hget _)

end Procedures

/-! ### Calls inside calls -/

section Depth

variable {a : Assembly} {i : Instance} (g : Loaded a i)
  (hco : ∀ p ∈ a.procedures, p.Coherent) {input : String}
include g hco

lemma activate_simulates {call : Calls} {cost : String → String → Nat} {depth k : Nat}
    {p : Procedure} {h : Host} {handle : Int} {text : String}
    (hserves : Serves a input call cost (activate i depth))
    (hp : a.procedures[k]? = some p) (hr : h.Ready input) (hget : h.get handle = .ok text) :
    Simulates input h (p.texts call cost input text) (p.outcome call input text)
      ((activate i (depth + 1) k [handle] : Run Int) h) := by
  obtain ⟨body, hbody, hisBody⟩ := forall₂_getElem? g.bodies hp
  unfold activate
  simp only [hbody]
  exact body_simulates g hserves (hco p (List.mem_of_getElem? hp)) hisBody hr hget

/-- With as many calls inside each other as the meaning of the assembly counts, the functions
of the module simulate its procedures. -/
lemma serves_activate (depth : Nat) :
    Serves a input (a.call input depth) (a.callTexts input depth) (activate i depth) := by
  induction depth with
  | zero =>
    intro k p name h handle text hp hname hr hget
    exact .exhausted hr.failure
  | succ depth ih =>
    intro k p name h handle text hp hname hr hget
    rw [Assembly.call, Assembly.callTexts, hname]
    exact activate_simulates g hco ih hp hr hget

lemma entry_simulates [Engine] (hinput : Text.Plain input) :
    Simulates input (.start input) (a.texts (callDepth - 1) input)
      (a.outcome (callDepth - 1) input)
      ((i.enter (a.layout.importCount + a.functions.length) : Run Int) (.start input)) := by
  have hready := ready_start hinput
  rw [Instance.enter, g.callIndex_procedure]
  exact activate_simulates g hco (serves_activate g hco _) a.getElem?_entry hready hready.input

end Depth

end Wasm

end TextPipeline
