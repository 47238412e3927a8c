import Mathlib.Logic.Function.Basic
import TextPipeline.Builtin.Apply
import TextPipeline.Procedure
import TextPipeline.Proofs.Outcome

/-!
The meaning of an assembly. A procedure executes its bindings in order in a frame that holds
the parameter and the temporaries; a temporary that nothing was assigned to yet is the input of
the program, in every procedure. Calls may lie inside each other up to a depth, and a result
that was found stays the same for every greater depth (`outcome_mono`). The texts that a run
makes are counted beside it.
-/

namespace TextPipeline

/-- The first procedure of this name. -/
def Assembly.procedure? (a : Assembly) (name : String) : Option Procedure :=
  a.procedures.find? fun p => p.name = name

/-- A temporary with a number below the bound, or the parameter. -/
def Operand.Below (bound : Nat) : Operand → Prop
  | param => True
  | temp index => index < bound

instance (bound : Nat) : DecidablePred (Operand.Below bound)
  | .param => isTrue trivial
  | .temp index => Nat.decLt index bound

lemma Operand.Below.mono {o : Operand} {m n : Nat} (h : o.Below m) (hmn : m ≤ n) : o.Below n := by
  cases o with
  | param => trivial
  | temp index => exact Nat.lt_of_lt_of_le h hmn

/-- What an operation reads. -/
def Operation.operands : Operation → List Operand
  | literal _ => []
  | builtin _ operands => operands
  | invoke _ argument => [argument]
  | join parts => parts

structure Frame where
  parameter : String
  temps : Nat → String

namespace Frame

/-- The frame in which a procedure starts on a text. -/
def start (input text : String) : Frame := ⟨text, fun _ => input⟩

def get (f : Frame) : Operand → String
  | .param => f.parameter
  | .temp index => f.temps index

def set (f : Frame) (index : Nat) (text : String) : Frame :=
  { f with temps := Function.update f.temps index text }

@[simp] lemma get_param (f : Frame) : f.get .param = f.parameter := rfl
@[simp] lemma get_set_param (f : Frame) (index : Nat) (text : String) :
    (f.set index text).get .param = f.get .param := rfl
@[simp] lemma get_set_self (f : Frame) (index : Nat) (text : String) :
    (f.set index text).get (.temp index) = text := by
  simp [get, set]
lemma get_set_of_ne (f : Frame) {index i : Nat} (text : String) (h : i ≠ index) :
    (f.set index text).get (.temp i) = f.get (.temp i) := by
  simp [get, set, h]

/-- Nothing but temporaries from the bound on may differ. -/
def AgreesBelow (bound : Nat) (f g : Frame) : Prop :=
  ∀ o : Operand, o.Below bound → g.get o = f.get o

lemma AgreesBelow.refl (bound : Nat) (f : Frame) : f.AgreesBelow bound f := fun _ _ => rfl

lemma AgreesBelow.trans {m n : Nat} {f g h : Frame} (hfg : f.AgreesBelow m g)
    (hgh : g.AgreesBelow n h) (hmn : m ≤ n) : f.AgreesBelow m h := by
  intro o ho
  rw [hgh o (ho.mono hmn), hfg o ho]

lemma agreesBelow_set (f : Frame) (index : Nat) (text : String) :
    f.AgreesBelow index (f.set index text) := by
  intro o ho
  cases o with
  | param => rfl
  | temp i => exact f.get_set_of_ne text (Nat.ne_of_lt ho)

end Frame

section Execution

variable (call : Calls)

/-- The text that an operation computes. -/
def Operation.outcome (f : Frame) : Operation → Outcome String
  | literal text => .done (Builtin.ofLiteral text)
  | builtin b operands => .done (b.apply (operands.map f.get))
  | invoke callee argument => call callee (f.get argument)
  | join parts => pure (Text.stacked (parts.map f.get))

/-- The frame after the bindings. -/
def executed : List Binding → Frame → Outcome Frame
  | [], f => pure f
  | b :: bs, f => do
    let text ← b.operation.outcome call f
    executed bs (f.set b.temp text)

/-- The result of a procedure on a text. -/
def Procedure.outcome (input : String) (p : Procedure) (text : String) : Outcome String := do
  let f ← executed call p.bindings (.start input text)
  return f.get p.result

end Execution

namespace Assembly

lemma entry_mem (a : Assembly) : a.entry ∈ a.procedures :=
  List.mem_append_right _ List.mem_cons_self

/-- Calls of the procedures of an assembly, at most `depth` of them inside each other. -/
def call (a : Assembly) (input : String) : (depth : Nat) → Calls
  | 0, _, _ => .pending
  | depth + 1, name, text =>
    match a.procedure? name with
    | some p => p.outcome (a.call input depth) input text
    | none => .pending

/-- The entry procedure on the input, with calls up to this depth. -/
def outcome (a : Assembly) (depth : Nat) (input : String) : Outcome String :=
  a.entry.outcome (a.call input depth) input input

/-- The result of the entry procedure on the input. -/
def Yields (a : Assembly) (input : String) (r : Except Error String) : Prop :=
  ∃ depth, a.outcome depth input = .done r

end Assembly

/-! ### How many texts are made -/

section Cost

variable (call : Calls) (cost : String → String → Nat)

/-- The texts that an operation makes, if calls make as many as `cost` says. -/
def Operation.texts (f : Frame) : Operation → Nat
  | literal _ => 1
  | builtin _ _ => 1
  | invoke callee argument => cost callee (f.get argument)
  | join parts => parts.length - 1

/-- The texts that the bindings make, up to the first that fails. -/
def executedTexts : List Binding → Frame → Nat
  | [], _ => 0
  | b :: bs, f =>
    b.operation.texts cost f +
      (b.operation.outcome call f).after fun text => executedTexts bs (f.set b.temp text)

def Procedure.texts (input : String) (p : Procedure) (text : String) : Nat :=
  executedTexts call cost p.bindings (.start input text)

end Cost

namespace Assembly

/-- The texts that a call makes, with calls in it up to this depth. -/
def callTexts (a : Assembly) (input : String) : (depth : Nat) → String → String → Nat
  | 0, _, _ => 0
  | depth + 1, name, text =>
    match a.procedure? name with
    | some p => p.texts (a.call input depth) (a.callTexts input depth) input text
    | none => 0

/-- The texts that a run of the entry procedure makes beside its input. -/
def texts (a : Assembly) (depth : Nat) (input : String) : Nat :=
  a.entry.texts (a.call input depth) (a.callTexts input depth) input input

end Assembly

/-! ### Execution in parts -/

@[simp] lemma executed_nil (call : Calls) (f : Frame) : executed call [] f = pure f := rfl
@[simp] lemma executed_cons (call : Calls) (b : Binding) (bs : List Binding) (f : Frame) :
    executed call (b :: bs) f =
      b.operation.outcome call f >>= fun text => executed call bs (f.set b.temp text) := rfl

lemma executed_append (call : Calls) (xs ys : List Binding) (f : Frame) :
    executed call (xs ++ ys) f = executed call xs f >>= executed call ys := by
  induction xs generalizing f with
  | nil => rfl
  | cons b bs ih => simp only [List.cons_append, executed_cons, ih, Outcome.bind_assoc]

/-! ### More depth keeps a result -/

/-- `more` has every result that `fewer` has. -/
def Calls.Extends (more fewer : Calls) : Prop :=
  ∀ name text r, fewer name text = .done r → more name text = .done r

section Extension

variable {more fewer : Calls} (h : more.Extends fewer)
include h

lemma operation_outcome_mono {f : Frame} {op : Operation} {r : Except Error String}
    (hr : op.outcome fewer f = .done r) : op.outcome more f = .done r := by
  cases op with
  | invoke callee argument => exact h _ _ _ hr
  | literal _ => exact hr
  | builtin _ _ => exact hr
  | join _ => exact hr

lemma executed_mono {bs : List Binding} {f : Frame} {r : Except Error Frame}
    (hr : executed fewer bs f = .done r) : executed more bs f = .done r := by
  induction bs generalizing f with
  | nil => exact hr
  | cons b bs ih =>
    rw [executed_cons] at hr ⊢
    obtain ⟨e, hop, rfl⟩ | ⟨text, hop, hrest⟩ := Outcome.bind_eq_done hr
    · rw [operation_outcome_mono h hop, Outcome.done_error_bind]
    · rw [operation_outcome_mono h hop, Outcome.done_ok_bind]
      exact ih hrest

lemma procedure_outcome_mono {input text : String} {p : Procedure} {r : Except Error String}
    (hr : p.outcome fewer input text = .done r) : p.outcome more input text = .done r := by
  unfold Procedure.outcome at hr ⊢
  obtain ⟨e, hx, rfl⟩ | ⟨f, hx, hrest⟩ := Outcome.bind_eq_done hr
  · rw [executed_mono h hx, Outcome.done_error_bind]
  · rw [executed_mono h hx, Outcome.done_ok_bind, hrest]

end Extension

namespace Assembly

variable (a : Assembly) (input : String)

lemma call_extends_succ (depth : Nat) :
    (a.call input (depth + 1)).Extends (a.call input depth) := by
  induction depth with
  | zero =>
    intro name text r h
    cases h
  | succ depth ih =>
    intro name text r h
    rw [call] at h ⊢
    split at h
    · rename_i p hp
      exact procedure_outcome_mono ih h
    · cases h

lemma call_extends {fewer more : Nat} (h : fewer ≤ more) :
    (a.call input more).Extends (a.call input fewer) := by
  induction h with
  | refl => exact fun _ _ _ h => h
  | @step depth _ ih =>
    intro name text r h
    exact a.call_extends_succ input depth name text r (ih name text r h)

variable {a input}

lemma outcome_mono {fewer more : Nat} (h : fewer ≤ more) {r : Except Error String}
    (hr : a.outcome fewer input = .done r) : a.outcome more input = .done r :=
  procedure_outcome_mono (a.call_extends input h) hr

/-- An assembly has at most one result on an input. -/
theorem Yields.unique {r s : Except Error String} (hr : a.Yields input r)
    (hs : a.Yields input s) : r = s := by
  obtain ⟨m, hm⟩ := hr
  obtain ⟨n, hn⟩ := hs
  have h := outcome_mono (Nat.le_max_left m n) hm
  rw [outcome_mono (Nat.le_max_right m n) hn] at h
  cases h
  rfl

end Assembly

end TextPipeline
