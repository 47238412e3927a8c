import TextPipeline.Proofs.Wasm.Generation

/-!
A module that is generated from a coherent assembly is valid (`isValid_of_generated`). What is on
the operand stack is known at every point of the code (`Flows`): a call takes all of it, the code of
an operation leaves one handle, which is then put away, and so there is nothing between two bindings
and only the result of a procedure is left at its end.
-/

namespace TextPipeline

/-- A builtin has as many operands as it takes. -/
def Operation.Counted : Operation → Prop
  | builtin b operands => operands.length = b.operandCount
  | _ => True

instance : DecidablePred Operation.Counted
  | .builtin b operands => Nat.decEq operands.length b.operandCount
  | .literal _ | .invoke _ _ | .join _ => isTrue trivial

/-- Every temporary that a procedure names exists, and its builtins have the operands they take. -/
structure Procedure.Coherent (p : Procedure) : Prop where
  targets : ∀ b ∈ p.bindings, b.temp < p.bindings.length
  operands : ∀ b ∈ p.bindings, ∀ o ∈ b.operation.operands, o.Below p.bindings.length
  counts : ∀ b ∈ p.bindings, b.operation.Counted
  result : p.result.Below p.bindings.length

instance : DecidablePred Procedure.Coherent := fun p =>
  decidable_of_iff
    ((∀ b ∈ p.bindings, b.temp < p.bindings.length) ∧
      (∀ b ∈ p.bindings, ∀ o ∈ b.operation.operands, o.Below p.bindings.length) ∧
      (∀ b ∈ p.bindings, b.operation.Counted) ∧ p.result.Below p.bindings.length)
    ⟨fun ⟨ht, ho, hc, hr⟩ => ⟨ht, ho, hc, hr⟩, fun ⟨ht, ho, hc, hr⟩ => ⟨ht, ho, hc, hr⟩⟩

structure Operation.Sits (bound : Nat) (op : Operation) : Prop where
  below : ∀ o ∈ op.operands, o.Below bound
  count : op.Counted

/-- The bindings can stand in a coherent procedure with this many of them. -/
def AllSit (bound : Nat) (bs : List Binding) : Prop :=
  ∀ b ∈ bs, b.temp < bound ∧ b.operation.Sits bound

lemma Procedure.Coherent.allSit {p : Procedure} (h : p.Coherent) :
    AllSit p.bindings.length p.bindings :=
  fun b hb => ⟨h.targets b hb, h.operands b hb, h.counts b hb⟩

namespace Wasm

/-! ### The stack -/

/-- A value on the operand stack, as far as it is known before a run: a constant or the handle
of a text. -/
inductive Slot
  | number (value : Int)
  | handle

/-- The function with this index can be called on all that is on the stack, which is the place of
a literal inside the data for one function and handles for any other. The top stands first. -/
structure Accepts (m : Module) (index : Nat) (stack : List Slot) : Prop where
  count : m.parameterCount? index = some stack.length
  literal : ∀ i, m.imports[index]? = some i → i.name = literalName →
    ∃ offset length : Nat, stack = [.number length, .number offset] ∧
      offset + length ≤ m.data.length
  handles : (∀ i, m.imports[index]? = some i → i.name ≠ literalName) →
    ∀ slot ∈ stack, slot = .handle

/-- The code leads from one stack to another and uses no local above the bound. -/
inductive Flows (m : Module) (bound : Nat) : List Slot → List Instruction → List Slot → Prop
  | nil {stack} : Flows m bound stack [] stack
  | const {value stack code final} : Flows m bound (.number value :: stack) code final →
      Flows m bound stack (.const value :: code) final
  | localGet {index stack code final} : index ≤ bound →
      Flows m bound (.handle :: stack) code final →
      Flows m bound stack (.localGet index :: code) final
  | localSet {index stack code final} : index ≤ bound → Flows m bound stack code final →
      Flows m bound (.handle :: stack) (.localSet index :: code) final
  | call {index stack code final} : Accepts m index stack → Flows m bound [.handle] code final →
      Flows m bound stack (.call index :: code) final

lemma HostFunction.name_eq_literalName {f : HostFunction} :
    f.name = literalName ↔ f = .literal := by
  cases f with
  | literal => simp [name]
  | joinLines => simp [name, joinName, literalName]
  | builtin b => cases b <;> simp [name, Builtin.name, literalName]

section Flow

variable {m : Module} {bound : Nat}

lemma Flows.append {stack middle final : List Slot} {code more : List Instruction}
    (h : Flows m bound stack code middle) (hmore : Flows m bound middle more final) :
    Flows m bound stack (code ++ more) final := by
  induction h with
  | nil => exact hmore
  | const _ ih => exact .const (ih hmore)
  | localGet hle _ ih => exact .localGet hle (ih hmore)
  | localSet hle _ ih => exact .localSet hle (ih hmore)
  | call haccepts _ ih => exact .call haccepts (ih hmore)

lemma Flows.stackHeight?_eq {stack final : List Slot} {code : List Instruction}
    (h : Flows m bound stack code final) :
    stackHeight? m (1 + bound) code stack.length = some final.length := by
  induction h with
  | nil => rfl
  | const _ ih => exact ih
  | localGet hle _ ih => exact (if_pos (by omega)).trans ih
  | localSet hle _ ih => exact (if_pos (by omega)).trans ih
  | call haccepts _ ih =>
    -- all that is on the stack goes, and one handle is there after the call
    simp only [stackHeight?, haccepts.count]
    rw [if_pos le_rfl, Nat.sub_self]
    exact ih

lemma localOf_le {o : Operand} (h : o.Below bound) : localOf o ≤ bound := by
  cases o with
  | param => exact Nat.zero_le _
  | temp index => exact h

lemma flows_gets {os : List Operand} {stack : List Slot} (h : ∀ o ∈ os, o.Below bound) :
    Flows m bound stack (os.map getOperand) (List.replicate os.length .handle ++ stack) := by
  induction os generalizing stack with
  | nil => exact .nil
  | cons o os ih =>
    obtain ⟨ho, hos⟩ := List.forall_mem_cons.mp h
    rw [List.length_cons, List.replicate_succ', List.append_assoc]
    exact .localGet (localOf_le ho) (ih hos)

lemma accepts_handles {index count : Nat} (hcount : m.parameterCount? index = some count)
    (hother : ∀ i, m.imports[index]? = some i → i.name ≠ literalName) :
    Accepts m index (List.replicate count .handle) where
  count := by rw [hcount, List.length_replicate]
  literal i hi hliteral := absurd hliteral (hother i hi)
  handles _ _ hslot := List.eq_of_mem_replicate hslot

lemma flows_joins {join : Nat} (hjoin : Accepts m join [.handle, .handle]) {parts : List Operand}
    (h : ∀ o ∈ parts, o.Below bound) :
    Flows m bound [.handle] (parts.flatMap fun part => [getOperand part, .call join])
      [.handle] := by
  induction parts with
  | nil => exact .nil
  | cons part parts ih =>
    obtain ⟨hpart, hparts⟩ := List.forall_mem_cons.mp h
    exact .localGet (localOf_le hpart) (.call hjoin (ih hparts))

end Flow

/-! ### Generated code -/

section Generated

variable {a : Assembly} {m : Module} (g : Generated a m)
include g

lemma accepts_host {f : HostFunction} {index : Nat}
    (hf : a.layout.hostFunctions[index]? = some f) (hother : f ≠ .literal) :
    Accepts m index (List.replicate f.operandCount .handle) := by
  refine accepts_handles (g.parameterCount?_host hf) fun i hi => ?_
  rw [g.imports_host hf] at hi
  cases hi
  exact mt HostFunction.name_eq_literalName.mp hother

lemma accepts_literal {location : Location} {text : String} (h : Stored m.data location text) :
    Accepts m Layout.literalIndex [.number location.length, .number location.offset] where
  count := g.parameterCount?_host Layout.hostFunctions_literalIndex
  literal _ _ _ := ⟨location.offset, location.length, rfl, h.inside⟩
  handles hother := absurd rfl (hother _ (g.imports_host Layout.hostFunctions_literalIndex))

lemma accepts_procedure {i : Nat} {p : Procedure} (hp : a.procedures[i]? = some p) :
    Accepts m (a.layout.importCount + i) [.handle] := by
  refine accepts_handles (g.parameterCount?_procedure hp) fun i hi => ?_
  rw [List.getElem?_eq_none (by rw [g.length_imports]; omega)] at hi
  cases hi

lemma flows_operation {op : Operation} {code : List Instruction} {bound : Nat}
    (hop : op.Sits bound) (hcode : IsCode a.layout m.data op code) :
    Flows m bound [] code [.handle] := by
  cases hcode with
  | literal hstored _ => exact .const (.const (.call (accepts_literal g hstored) .nil))
  | @builtin b os index hindex =>
    have hcount : os.length = (HostFunction.builtin b).operandCount := hop.count
    have hgets : Flows m bound [] (os.map getOperand) (List.replicate os.length .handle ++ []) :=
      flows_gets hop.below
    rw [List.append_nil, hcount] at hgets
    have hhost := Layout.hostFunctions_builtinIndex? hindex
    exact hgets.append (.call (accepts_host g hhost nofun) .nil)
  | @invoke callee argument index hindex =>
    obtain ⟨i, p, hp, -, rfl⟩ := procedureIndex?_ok hindex
    exact .localGet (localOf_le (hop.below argument List.mem_cons_self))
      (.call (accepts_procedure g hp) .nil)
  | @join first parts =>
    obtain ⟨hfirst, hparts⟩ := List.forall_mem_cons.mp hop.below
    have hjoin := accepts_host g Layout.hostFunctions_joinIndex nofun
    exact .localGet (localOf_le hfirst) (flows_joins hjoin hparts)

lemma flows_bindings {bs : List Binding} {code : List Instruction} {bound : Nat}
    (hbs : AllSit bound bs) (hcode : AreCode a.layout m.data bs code) :
    Flows m bound [] code [] := by
  induction hcode with
  | nil => exact .nil
  | @cons b bs code more hop _ ih =>
    obtain ⟨⟨htemp, hsits⟩, hrest⟩ := List.forall_mem_cons.mp hbs
    exact (flows_operation g hsits hop).append (.localSet htemp (ih hrest))

lemma flows_body {p : Procedure} {body : Body} (hco : p.Coherent)
    (hbody : IsBody a.layout m.data p body) :
    body.locals = p.bindings.length ∧ Flows m p.bindings.length [] body.code [.handle] := by
  obtain ⟨code, hcode, rfl⟩ := hbody
  refine ⟨rfl, (flows_bindings g hco.allSit hcode).append ?_⟩
  exact .localGet (localOf_le hco.result) .nil

lemma isValid_body {p : Procedure} {body : Body} (hco : p.Coherent)
    (hbody : IsBody a.layout m.data p body) : body.isValid m (a.layout.typeIndex 1) := by
  obtain ⟨hlocals, hflows⟩ := flows_body g hco hbody
  have hheight := hflows.stackHeight?_eq
  unfold Body.isValid
  rw [g.types, Layout.types_one]
  simpa [hlocals] using hheight

/-- A generated module is valid if its procedures are coherent and the entry does not take the
name of the memory. -/
lemma isValid_of_generated (hco : ∀ p ∈ a.procedures, p.Coherent)
    (hname : a.entry.name ≠ memoryName) : m.isValid := by
  unfold Module.isValid
  simp only [Bool.and_eq_true, List.all_eq_true, decide_eq_true_eq]
  refine ⟨⟨⟨⟨⟨?_, ?_⟩, ?_⟩, ?_⟩, ?_⟩, g.pages⟩
  · -- imports
    intro i hi
    rw [g.imports, Layout.imports_layout] at hi
    obtain ⟨f, hf, rfl⟩ := List.mem_map.mp hi
    obtain ⟨hlt, -⟩ := List.getElem?_eq_some_iff.mp (Layout.types_operandCount hf)
    simpa [Import.isValid, g.types, Layout.importOf] using hlt
  · -- a body for every function
    rw [g.functions, List.length_map, g.bodies.length_eq]
  · -- bodies
    rintro ⟨type, body⟩ hmem
    obtain ⟨htype, hbody⟩ := List.of_mem_zip hmem
    rw [g.functions] at htype
    obtain ⟨_, -, rfl⟩ := List.mem_map.mp htype
    obtain ⟨i, hi⟩ := List.mem_iff_getElem?.mp hbody
    obtain ⟨p, hp, hisBody⟩ := forall₂_getElem? g.bodies.flip hi
    exact isValid_body g (hco p (List.mem_of_getElem? hp)) hisBody
  · -- exports
    rw [g.exports]
    simp [Export.isValid, g.length_imports, g.functions, Assembly.procedures]
  · -- their names
    rw [g.exports]
    simpa [Export.name] using hname

end Generated

end Wasm

end TextPipeline
