import TextPipeline.Proofs.Wasm.Totality

/-!
Why generation fails. Where the literals have room, two procedures share a name, or else a binding
cannot be linked: it joins nothing or invokes a procedure that does not exist. A name that is
repeated is reported first, and of the bindings the first in the order in which they become code
(`ofAssembly_fails_exactly`).
-/

namespace TextPipeline

open Wasm

/-! ### One fault comes first -/

lemma Wasm.Unlinked.unique {a : Assembly} {op : Operation} {fault other : GenerationFault}
    (h : Unlinked a op fault) (h' : Unlinked a op other) : fault = other := by
  cases h <;> cases h' <;> rfl

lemma Wasm.FirstUnlinked.unique {a : Assembly} {bs : List Binding} {fault other : GenerationFault}
    (h : FirstUnlinked a bs fault) (h' : FirstUnlinked a bs other) : fault = other := by
  obtain ⟨before, b, after, rfl, hbefore, hb⟩ := h
  obtain ⟨before', b', after', hsplit, hbefore', hb'⟩ := h'
  obtain ⟨-, rfl, -⟩ :=
    append_cons_inj hbefore hbefore' hb.not_linked hb'.not_linked hsplit
  exact hb.unique hb'

lemma Assembly.FirstFault.unique {a : Assembly} {fault other : GenerationFault}
    (h : a.FirstFault fault) (h' : a.FirstFault other) : fault = other := by
  by_cases hnodup : (a.procedures.map (·.name)).Nodup
  · exact (h.firstUnlinked hnodup).unique (h'.firstUnlinked hnodup)
  · cases h with
    | unlinked hdistinct _ => exact absurd hdistinct hnodup
    | emittedTwice hsplit hbefore hmem =>
      cases h' with
      | unlinked hdistinct _ => exact absurd hdistinct hnodup
      | emittedTwice hsplit' hbefore' hmem' =>
        have hsome := firstRepeated_procedures hsplit hbefore hmem
        rw [firstRepeated_procedures hsplit' hbefore' hmem', Option.some.injEq] at hsome
        rw [hsome]

lemma Assembly.FirstFault.diagnostic {a : Assembly} {fault : GenerationFault}
    (h : a.FirstFault fault) :
    (∃ before p after, a.procedures = before ++ p :: after ∧ (before.map (·.name)).Nodup ∧
      p.name ∈ before.map (·.name) ∧ (Error.generation fault).diagnostic =
        .generation ("procedure '" ++ p.name ++ "' is emitted twice")) ∨
    (a.procedures.map (·.name)).Nodup ∧ ∃ before b after, a.bindings = before ++ b :: after ∧
      (∀ x ∈ before, x.operation.Linked a) ∧
      (b.operation = .join [] ∧
          (Error.generation fault).diagnostic = .generation "empty join" ∨
        ∃ callee o, b.operation = .invoke callee o ∧ callee ∉ a.procedures.map (·.name) ∧
          (Error.generation fault).diagnostic =
            .generation ("unknown procedure '" ++ callee ++ "'")) := by
  cases h with
  | emittedTwice hsplit hbefore hmem => exact .inl ⟨_, _, _, hsplit, hbefore, hmem, rfl⟩
  | unlinked hnodup hfirst =>
    obtain ⟨before, b, after, hsplit, hbefore, hb⟩ := hfirst
    refine .inr ⟨hnodup, before, b, after, hsplit, hbefore, ?_⟩
    generalize b.operation = op at hb
    cases hb with
    | emptyJoin => exact .inl ⟨rfl, rfl⟩
    | unknownProcedure hcallee => exact .inr ⟨_, _, rfl, hcallee, rfl⟩

namespace Wasm

variable {a : Assembly}

lemma not_linked_iff {op : Operation} : ¬ op.Linked a ↔
    op = .join [] ∨ ∃ callee o, op = .invoke callee o ∧ callee ∉ a.procedures.map (·.name) := by
  cases op <;> simp [Operation.Linked]

lemma ofAssembly_error_iff (hroom : a.literalBytes ≤ LiteralPool.limit) (e : Error) :
    Module.ofAssembly a = .error e ↔ ∃ fault, e = .generation fault ∧ a.FirstFault fault := by
  obtain ⟨m, hm, hsound⟩ | ⟨fault, herror, hfault⟩ := ofAssembly_outcome hroom
  · -- an assembly without faults
    constructor
    · intro he
      cases hm.symm.trans he
    · rintro ⟨fault, -, hfault⟩
      exact absurd hsound hfault.not_sound
  · -- an assembly with a first fault, which is the only one
    rw [herror]
    constructor
    · rintro ⟨⟩
      exact ⟨fault, rfl, hfault⟩
    · rintro ⟨other, rfl, hother⟩
      rw [hfault.unique hother]

lemma exists_error_iff (hroom : a.literalBytes ≤ LiteralPool.limit) :
    (∃ e, Module.ofAssembly a = .error e) ↔
      ¬ ((a.procedures.map (·.name)).Nodup ∧ ∀ b ∈ a.bindings, b.operation.Linked a) := by
  obtain ⟨m, hm, hsound⟩ | ⟨fault, herror, hfault⟩ := ofAssembly_outcome hroom
  · simpa [hm] using hsound
  · exact ⟨fun _ => hfault.not_sound, fun _ => ⟨_, herror⟩⟩

end Wasm

/-- **Generation fails exactly on these faults.** Where the literals of an assembly have less than
2³¹ bytes, generation fails if two procedures share a name, a join is empty, or an invocation names
no procedure, and only then. The error is that of the first procedure whose name occurred before,
and if there is none, that of the first binding at fault, procedure by procedure, and its words say
so. Everything else that generation looks up is there. -/
theorem Wasm.ofAssembly_fails_exactly {a : Assembly} (hroom : a.literalBytes < 2 ^ 31) :
    ((∃ e, Module.ofAssembly a = .error e) ↔
      ¬ (a.procedures.map (·.name)).Nodup ∨ (∃ b ∈ a.bindings, b.operation = .join []) ∨
        ∃ b ∈ a.bindings, ∃ callee o, b.operation = .invoke callee o ∧
          callee ∉ a.procedures.map (·.name)) ∧
    (∀ e, Module.ofAssembly a = .error e ↔ ∃ fault, e = .generation fault ∧ a.FirstFault fault) ∧
    (∀ e, Module.ofAssembly a = .error e →
      (∃ before p after, a.procedures = before ++ p :: after ∧ (before.map (·.name)).Nodup ∧
        p.name ∈ before.map (·.name) ∧
        e.diagnostic = .generation ("procedure '" ++ p.name ++ "' is emitted twice")) ∨
      (a.procedures.map (·.name)).Nodup ∧ ∃ before b after, a.bindings = before ++ b :: after ∧
        (∀ x ∈ before, x.operation.Linked a) ∧
        (b.operation = .join [] ∧ e.diagnostic = .generation "empty join" ∨
          ∃ callee o, b.operation = .invoke callee o ∧ callee ∉ a.procedures.map (·.name) ∧
            e.diagnostic = .generation ("unknown procedure '" ++ callee ++ "'"))) ∧
    a.layout.Complete a := by
  have hroom := Nat.le_of_lt_succ hroom
  refine ⟨?_, ofAssembly_error_iff hroom, fun e he => ?_, layout_complete a⟩
  · rw [exists_error_iff hroom, not_and_or]
    simp only [not_forall, not_linked_iff]
    grind
  · obtain ⟨fault, rfl, hfault⟩ := (ofAssembly_error_iff hroom e).mp he
    exact hfault.diagnostic

/-- Three bindings at fault, the second of which is in the same procedure as the first. -/
def faultyAssembly (entry : String) : Assembly :=
  ⟨[⟨"fn_f", "x", [⟨0, .literal "a"⟩, ⟨1, .invoke "fn_g" .param⟩, ⟨2, .join []⟩], .temp 1⟩],
    ⟨entry, "input", [⟨0, .join []⟩], .temp 0⟩⟩

/-- The invocation comes first, unless the name of the entry is not its own. -/
theorem faultyAssembly_fails :
    (faultyAssembly "run").literalBytes < 2 ^ 31 ∧
    Module.ofAssembly (faultyAssembly "run") = .error (.generation (.unknownProcedure "fn_g")) ∧
    (faultyAssembly "fn_f").literalBytes < 2 ^ 31 ∧
    Module.ofAssembly (faultyAssembly "fn_f") = .error (.generation (.emittedTwice "fn_f")) := by
  have hrun : (faultyAssembly "run").literalBytes < 2 ^ 31 := by decide +kernel
  have hfn : (faultyAssembly "fn_f").literalBytes < 2 ^ 31 := by decide +kernel
  refine ⟨hrun, ?_, hfn, ?_⟩
  · refine ((Wasm.ofAssembly_fails_exactly hrun).2.1 _).mpr ⟨_, rfl, .unlinked (by decide) ?_⟩
    exact ⟨[⟨0, .literal "a"⟩], _, _, rfl, by simp [Operation.Linked],
      .unknownProcedure (by decide)⟩
  · refine ((Wasm.ofAssembly_fails_exactly hfn).2.1 _).mpr ⟨_, rfl, ?_⟩
    exact @Assembly.FirstFault.emittedTwice _ (faultyAssembly "fn_f").functions _ [] rfl
      (by decide) (by decide)

end TextPipeline
