import TextPipeline.Proofs.Procedure.Operations

/-!
The form of lowered procedures. The bindings of a procedure assign the temporaries in order, each
of them once and from what was assigned before it, and there is one binding for every term of the
body that is not the name of the parameter (`procedures_in_single_assignment_form`).
-/

namespace TextPipeline

open Lowering

/-! ### Dense code from zero on -/

/-- Binding `i` assigns temporary `i`, and it uses only temporaries that were assigned before. -/
structure Procedure.SingleAssignment (q : Procedure) : Prop where
  target : ∀ (i : Nat) (b : Binding), q.bindings[i]? = some b → b.temp = i
  operands : ∀ (i : Nat) (b : Binding), q.bindings[i]? = some b →
    ∀ o ∈ b.operation.operands, o.Below i
  result : q.result.Below q.bindings.length

lemma Procedure.SingleAssignment.below {q : Procedure} (h : q.SingleAssignment) {bound : Nat}
    (hlength : q.bindings.length ≤ bound) :
    (∀ b ∈ q.bindings, b.temp < bound ∧ ∀ o ∈ b.operation.operands, o.Below bound) ∧
      q.result.Below bound := by
  refine ⟨fun b hb => ?_, h.result.mono hlength⟩
  obtain ⟨i, hi⟩ := List.mem_iff_getElem?.mp hb
  have hlt : i < q.bindings.length := (List.getElem?_eq_some_iff.mp hi).1
  refine ⟨h.target i b hi ▸ Nat.lt_of_lt_of_le hlt hlength, fun o ho => ?_⟩
  exact (h.operands i b hi o ho).mono (Nat.le_of_lt (Nat.lt_of_lt_of_le hlt hlength))

namespace Lowering

lemma Dense.getElem? {next i : Nat} {code : List Binding} {b : Binding} (h : Dense next code)
    (hb : code[i]? = some b) :
    b.temp = next + i ∧ ∀ o ∈ b.operation.operands, o.Below (next + i) := by
  induction code generalizing next i with
  | nil => simp at hb
  | cons first code ih =>
    obtain ⟨htemp, hoperands, hcode⟩ := h
    cases i with
    | zero =>
      rw [List.getElem?_cons_zero, Option.some.injEq] at hb
      subst hb
      exact ⟨htemp, hoperands⟩
    | succ i =>
      rw [List.getElem?_cons_succ] at hb
      have hrest := ih hcode hb
      rwa [Nat.add_assoc, Nat.add_comm 1 i] at hrest

lemma singleAssignment_of_procedure {names : Names} {name parameter scopeName : String}
    {body : Expression} {q : Procedure}
    (h : procedure names name parameter scopeName body = .ok q) : q.SingleAssignment := by
  obtain ⟨⟨o, code⟩, hbody, hq⟩ := ok_of_bind h
  cases hq
  obtain ⟨hdense, hresult⟩ := expression_emits ⟨scopeName, .param⟩ 0 body trivial hbody
  have hat (i : Nat) (b : Binding) (hb : code[i]? = some b) :
      b.temp = i ∧ ∀ o ∈ b.operation.operands, o.Below i := by
    simpa only [Nat.zero_add] using hdense.getElem? hb
  refine ⟨fun i b hb => (hat i b hb).1, fun i b hb => (hat i b hb).2, ?_⟩
  simpa only [Nat.zero_add] using hresult o List.mem_cons_self

end Lowering

/-! ### One binding for every term but the names of values -/

/-- The node is a term, and not a name that stands for a value. -/
def Site.binds : Site → Bool
  | pipeline _ | term .value _ (.identifier _ _) => false
  | term _ _ _ => true

lemma Site.isSome_operation? (catalog : Catalog) (s : Site) :
    (s.operation? catalog).isSome = s.binds := by
  cases s with
  | pipeline e => rfl
  | term context scope t => cases context <;> cases t <;> rfl

/-- The number of terms of an expression, at any depth, that are not names of values. -/
def Expression.bindingCount (scope : String) (e : Expression) : Nat :=
  (e.sites scope).countP Site.binds

lemma Lowering.length_of_procedure {names : Names} {name parameter scopeName : String}
    {body : Expression} {q : Procedure}
    (h : procedure names name parameter scopeName body = .ok q) :
    q.bindings.length = body.bindingCount scopeName := by
  have hkinds := (operations_of_procedure h).length_eq
  rw [Procedure.kinds, List.length_map, operationsOf, List.length_filterMap_eq_countP] at hkinds
  simpa only [Site.isSome_operation?, Expression.bindingCount] using hkinds

/-! ### The procedures of a program -/

section Lowered

variable {p : Program} {entry : String} {a : Assembly}
  (h : p.lower Catalog.standard entry = .ok a)
include h

lemma Program.forall_procedures_of_lower {P : Procedure → Prop}
    (hP : ∀ names name parameter scopeName body q,
      procedure names name parameter scopeName body = .ok q → P q) :
    ∀ q ∈ a.procedures, P q := by
  obtain ⟨-, hfs, hentry⟩ := Program.lower_ok h
  intro q hq
  rcases List.mem_append.mp hq with hq | hq
  · obtain ⟨d, -, hd⟩ := exists_of_forall₂ (forall₂_of_mapM hfs).flip hq
    exact hP _ _ _ _ _ q hd
  · rw [List.mem_singleton.mp hq]
    exact hP _ _ _ _ _ a.entry hentry

lemma Program.operation_of_lower {q : Procedure} (hq : q ∈ a.procedures) {b : Binding}
    (hb : b ∈ q.bindings) :
    (∀ f os, b.operation = .builtin f os → os.length = f.descriptor.operandCount) ∧
      (∀ parts, b.operation = .join parts → parts ≠ []) ∧
      ∀ callee o, b.operation = .invoke callee o →
        (a.functions.map (·.name)).count callee = 1 := by
  have hcoherent := (Program.procedures_of_lower h q hq).1
  have hemitted := (Program.procedures_of_lower h q hq).2 b hb
  refine ⟨fun f os hop => ?_, fun parts hop => ?_, fun callee o hop => ?_⟩
  · -- builtins have the operands they take
    have hcount := hcoherent.counts b hb
    rw [hop] at hcount
    exact hcount
  · -- there is something to be joined
    have hlinked := Program.linked_of_lower h q hq b hb
    rw [hop] at hlinked
    exact hlinked
  · -- no other procedure has the name that is invoked
    rw [hop] at hemitted
    cases hemitted with
    | invoke hname =>
      refine List.count_eq_one_of_mem (Program.nodup_functions_of_lower h) ?_
      rw [Program.names_of_lower h]
      exact List.mem_map_of_mem hname

end Lowered

/-- **Lowered procedures are in single-assignment form.** In every procedure binding `i` assigns
temporary `i`, its operands are the parameter and temporaries below `i`, and the result is there at
the end. Builtins have the operands that their descriptors ask for, no join is empty, and an
invocation names one of the procedures of the definitions, of which no two share a name. A procedure
has as many bindings as its body has terms, at any depth, other than names in value context, and
with no more than 2³² of them the numbers of its temporaries have 32 bits. -/
theorem Program.procedures_in_single_assignment_form {p : Program} {entry : String} {a : Assembly}
    (h : p.lower Catalog.standard entry = .ok a) :
    (∀ q ∈ a.procedures, q.SingleAssignment) ∧
      (∀ q ∈ a.procedures, ∀ b ∈ q.bindings,
        (∀ f os, b.operation = .builtin f os → os.length = f.descriptor.operandCount) ∧
        (∀ parts, b.operation = .join parts → parts ≠ []) ∧
        ∀ callee o, b.operation = .invoke callee o →
          (a.functions.map (·.name)).count callee = 1) ∧
      (a.functions.map (·.name)).Nodup ∧
      List.Forall₂ (fun d q => q.bindings.length = d.body.bindingCount d.parameter)
        p.definitions a.functions ∧
      a.entry.bindings.length = p.expression.bindingCount inputName ∧
      ∀ q ∈ a.procedures, q.bindings.length ≤ 2 ^ 32 →
        (∀ b ∈ q.bindings, b.temp < 2 ^ 32 ∧ ∀ o ∈ b.operation.operands, o.Below (2 ^ 32)) ∧
          q.result.Below (2 ^ 32) := by
  obtain ⟨-, hfs, hentry⟩ := Program.lower_ok h
  have hform : ∀ q ∈ a.procedures, q.SingleAssignment :=
    Program.forall_procedures_of_lower h fun _ _ _ _ _ _ hq => singleAssignment_of_procedure hq
  refine ⟨hform, fun q hq b hb => Program.operation_of_lower h hq hb,
    Program.nodup_functions_of_lower h, ?_, length_of_procedure hentry,
    fun q hq hlength => (hform q hq).below hlength⟩
  exact (forall₂_of_mapM hfs).imp fun d q hq => length_of_procedure hq

/-- `def pair(x) = { x; x | wrap "<" { x | upper } }`, and a pipeline of which a group is a step. -/
def pairingProgram : Program :=
  ⟨[⟨"pair", "x", .pipeline [.group [.pipeline [.identifier "x" 1] 1,
      .pipeline [.identifier "x" 1, .call "wrap" [.literal "<" 1,
        .group [.pipeline [.identifier "x" 1, .identifier "upper" 1] 1] 1] 1] 1] 1] 1, 1⟩],
    .pipeline [.identifier "it" 2, .identifier "pair" 2,
      .group [.pipeline [.identifier "it" 2, .group [] 2] 2,
        .pipeline [.call "pair" [.identifier "it" 2] 2] 2] 2] 2⟩

def pairingAssembly : Assembly :=
  ⟨[⟨"fn_pair", "x", [⟨0, .literal "<"⟩, ⟨1, .builtin .upper [.param]⟩, ⟨2, .join [.temp 1]⟩,
      ⟨3, .builtin .wrap [.param, .temp 0, .temp 2]⟩, ⟨4, .join [.param, .temp 3]⟩], .temp 4⟩],
    ⟨"run", "input", [⟨0, .invoke "fn_pair" .param⟩, ⟨1, .literal ""⟩,
      ⟨2, .invoke "fn_pair" (.temp 0)⟩, ⟨3, .join [.temp 1, .temp 2]⟩], .temp 3⟩⟩

theorem pairingProgram_in_single_assignment_form :
    pairingProgram.lower Catalog.standard "run" = .ok pairingAssembly ∧
      pairingAssembly.entry.SingleAssignment ∧
      pairingAssembly.entry.bindings.length = 4 ∧
      pairingProgram.expression.bindingCount inputName = 4 := by
  have h : pairingProgram.lower Catalog.standard "run" = .ok pairingAssembly := by
    decide +kernel
  obtain ⟨hform, -, -, -, hentry, -⟩ := Program.procedures_in_single_assignment_form h
  exact ⟨h, hform _ pairingAssembly.entry_mem, rfl, hentry.symm⟩

end TextPipeline
