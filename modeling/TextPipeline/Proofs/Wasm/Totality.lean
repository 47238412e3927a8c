import TextPipeline.Proofs.Procedure.Shape
import TextPipeline.Proofs.Wasm.Generation

/-!
Generation where the literals of an assembly have room. Every operation that is linked becomes
code, and generation stops at the first binding whose operation is not (`Generates`). So it
succeeds on every assembly whose procedures have names of their own and whose operations are linked
(`exists_ofAssembly`). The pool never holds more than the literals of the assembly, each of them
once. What else generation looks up is always there (`layout_complete`).
-/

namespace TextPipeline

open Wasm

/-- The size of all literals of an assembly together. -/
def Assembly.literalBytes (a : Assembly) : Nat := bytesOf a.literals

/-- All bindings, in the order in which they become code. -/
def Assembly.bindings (a : Assembly) : List Binding := a.procedures.flatMap (·.bindings)

lemma Assembly.mem_usedBuiltins {a : Assembly} {b : Binding} {f : Builtin} {os : List Operand}
    (hb : b ∈ a.bindings) (hop : b.operation = .builtin f os) : f ∈ a.usedBuiltins := by
  obtain ⟨p, hp, hbp⟩ := List.mem_flatMap.mp hb
  refine List.mem_eraseDups.mpr (List.mem_flatMap.mpr ⟨p, hp, ?_⟩)
  exact List.mem_filterMap.mpr ⟨b, hbp, by simp [hop]⟩

namespace Wasm

/-! ### Room for the literals -/

namespace LiteralPool

structure DrawnFrom (all : List String) (pool : LiteralPool) : Prop where
  among : pool.texts ⊆ all
  size : pool.data.length = bytesOf pool.texts

lemma drawnFrom_empty (all : List String) : empty.DrawnFrom all :=
  ⟨List.nil_subset all, rfl⟩

lemma DrawnFrom.length_le {all : List String} {pool : LiteralPool} (h : pool.DrawnFrom all) :
    pool.data.length ≤ bytesOf all := by
  rw [h.size]
  exact bytesOf_le_of_subset h.among

lemma exists_intern {all : List String} {pool : LiteralPool} {text : String}
    (h : pool.DrawnFrom all) (htext : text ∈ all) (hroom : bytesOf all ≤ limit) :
    ∃ location grown, pool.intern text = (.ok location, grown) ∧ grown.DrawnFrom all := by
  have hextended (hnone : pool.find? text = none) : (pool.extended text).DrawnFrom all :=
    ⟨List.cons_subset.mpr ⟨htext, h.among⟩, length_extended h.size hnone⟩
  obtain ⟨location, -, hintern⟩ | ⟨hnone, -, hintern⟩ | ⟨hnone, hexceeds, -⟩ :=
    pool.intern_cases text
  · exact ⟨location, pool, hintern, h⟩
  · exact ⟨_, _, hintern, hextended hnone⟩
  · have hlen := (hextended hnone).length_le
    rw [length_data_extended] at hlen
    unfold Exceeds at hexceeds
    omega

end LiteralPool

/-! ### What is always found -/

/-- All that generation looks up on its own account is there: the entries of the builtins in the
table, their imports, and the function of the entry, once the names are known to differ. -/
structure Layout.Complete (l : Layout) (a : Assembly) : Prop where
  described : ∀ f ∈ a.usedBuiltins, Catalog.standard.entry? f = some f.descriptor
  imported : ∀ b ∈ a.bindings, ∀ f os, b.operation = .builtin f os →
    f ∈ a.usedBuiltins ∧ ∃ index, l.builtinIndex? f = some index ∧ l.imports[index]? =
      some ⟨hostModule, f.descriptor.name, l.typeIndex f.descriptor.operandCount⟩
  numbered : (a.procedures.map (·.name)).Nodup → Layout.ofAssembly a = .ok l
  entry : (a.procedures.map (·.name)).Nodup →
    l.procedureIndex? a.entry.name = some (l.importCount + a.functions.length)

lemma layout_complete (a : Assembly) : a.layout.Complete a where
  described f _ := Catalog.standard_entry? f
  imported b hb f os hop := by
    have hused := Assembly.mem_usedBuiltins hb hop
    obtain ⟨index, hindex⟩ := Layout.exists_builtinIndex? hused
    refine ⟨hused, index, hindex, ?_⟩
    rw [Layout.imports_layout, List.getElem?_map, Layout.hostFunctions_builtinIndex? hindex]
    rfl
  numbered hnodup := by
    rw [Layout.ofAssembly_eq, firstRepeated_eq_none.mpr ⟨hnodup, by simp⟩]
  entry := procedureIndex?_entry

/-! ### Linked operations and others -/

inductive Unlinked (a : Assembly) : Operation → GenerationFault → Prop
  | emptyJoin : Unlinked a (.join []) .emptyJoin
  | unknownProcedure {callee o} : callee ∉ a.procedures.map (·.name) →
      Unlinked a (.invoke callee o) (.unknownProcedure callee)

lemma Unlinked.not_linked {a : Assembly} {op : Operation} {fault : GenerationFault}
    (h : Unlinked a op fault) : ¬ op.Linked a := by
  cases h with
  | emptyJoin => exact fun hne => hne rfl
  | unknownProcedure hcallee => exact hcallee

/-- The fault is that of the first of these bindings whose operation cannot be linked. -/
def FirstUnlinked (a : Assembly) (bs : List Binding) (fault : GenerationFault) : Prop :=
  ∃ before b after, bs = before ++ b :: after ∧ (∀ x ∈ before, x.operation.Linked a) ∧
    Unlinked a b.operation fault

/-- A computation that makes code of these bindings if all of them are linked, and otherwise
stops at the first that is not. -/
inductive Generates (a : Assembly) {α : Type} (bs : List Binding) :
    Except Error (α × LiteralPool) → Prop
  | ok {x pool} : (∀ b ∈ bs, b.operation.Linked a) → pool.DrawnFrom a.literals →
      Generates a bs (.ok (x, pool))
  | error {fault} : FirstUnlinked a bs fault → Generates a bs (.error (.generation fault))

namespace Generates

variable {a : Assembly} {α β : Type} {xs ys : List Binding}
  {x : Except Error (α × LiteralPool)}

lemma bind {k : α × LiteralPool → Except Error (β × LiteralPool)} (hx : Generates a xs x)
    (hk : ∀ y pool, pool.DrawnFrom a.literals → Generates a ys (k (y, pool))) :
    Generates a (xs ++ ys) (x >>= k) := by
  cases hx with
  | @ok y pool hxs hpool =>
    change Generates a (xs ++ ys) (k (y, pool))
    generalize hz : k (y, pool) = z
    cases hz ▸ hk y pool hpool with
    | ok hys hgrown =>
      exact .ok (fun b hb => (List.mem_append.mp hb).elim (hxs b) (hys b)) hgrown
    | error hys =>
      obtain ⟨before, b, after, rfl, hbefore, hb⟩ := hys
      refine .error ⟨xs ++ before, b, after, (List.append_assoc ..).symm, ?_, hb⟩
      exact fun b hb => (List.mem_append.mp hb).elim (hxs b) (hbefore b)
  | error hxs =>
    obtain ⟨before, b, after, rfl, hbefore, hb⟩ := hxs
    exact .error ⟨before, b, after ++ ys, by simp, hbefore, hb⟩

lemma map (hx : Generates a xs x) (f : α → β) :
    Generates a xs (x >>= fun y => .ok (f y.1, y.2)) := by
  have h : Generates a (xs ++ []) (x >>= fun y => .ok (f y.1, y.2)) :=
    hx.bind fun y pool hpool => .ok (by simp) hpool
  simpa using h

end Generates

/-! ### Code for every operation -/

section Generating

variable {a : Assembly} {pool : LiteralPool}

lemma exists_procedureIndex? {name : String} (h : name ∈ a.procedures.map (·.name)) :
    ∃ index, a.layout.procedureIndex? name = some index := by
  obtain ⟨i, hi⟩ := Option.isSome_iff_exists.mp (List.isSome_idxOf?.mpr h)
  exact ⟨_, Option.map_eq_some_iff.mpr ⟨i, hi, rfl⟩⟩

lemma procedureIndex?_eq_none {name : String} (h : name ∉ a.procedures.map (·.name)) :
    a.layout.procedureIndex? name = none :=
  Option.map_eq_none_iff.mpr (List.idxOf?_eq_none_iff.mpr h)

section Code

variable (hroom : a.literalBytes ≤ LiteralPool.limit) (hpool : pool.DrawnFrom a.literals)
include hroom hpool

lemma operationCode_generates {b : Binding} (hb : b ∈ a.bindings) :
    Generates a [b] (operationCode a.layout pool b.operation) := by
  have hone {fault : GenerationFault} (h : Unlinked a b.operation fault) :
      FirstUnlinked a [b] fault := ⟨[], b, [], rfl, by simp, h⟩
  have hall (h : b.operation.Linked a) : ∀ x ∈ [b], x.operation.Linked a := by simpa using h
  cases hop : b.operation with
  | literal text =>
    obtain ⟨p, hp, hbp⟩ := List.mem_flatMap.mp hb
    have htext : text ∈ a.literals := Assembly.mem_literals.mpr ⟨p, hp, b, hbp, hop⟩
    obtain ⟨location, grown, hintern, hgrown⟩ := LiteralPool.exists_intern hpool htext hroom
    simp only [operationCode, hintern]
    exact .ok (hall (hop ▸ trivial)) hgrown
  | builtin f os =>
    -- what is called was collected before and has an import
    obtain ⟨index, hindex⟩ := Layout.exists_builtinIndex? (Assembly.mem_usedBuiltins hb hop)
    rw [operationCode, hindex]
    exact .ok (hall (hop ▸ trivial)) hpool
  | invoke callee o =>
    by_cases hcallee : callee ∈ a.procedures.map (·.name)
    · obtain ⟨index, hindex⟩ := exists_procedureIndex? hcallee
      rw [operationCode, hindex]
      exact .ok (hall (hop ▸ hcallee)) hpool
    · rw [operationCode, procedureIndex?_eq_none hcallee]
      exact .error (hone (hop ▸ .unknownProcedure hcallee))
  | join parts =>
    cases parts with
    | nil => exact .error (hone (hop ▸ .emptyJoin))
    | cons first rest => exact .ok (hall (hop ▸ List.cons_ne_nil first rest)) hpool

lemma bindingsCode_generates {bs : List Binding} (hbs : bs ⊆ a.bindings) :
    Generates a bs (bindingsCode a.layout pool bs) := by
  induction bs generalizing pool with
  | nil => exact .ok (by simp) hpool
  | cons b bs ih =>
    obtain ⟨hb, hbs⟩ := List.cons_subset.mp hbs
    refine (operationCode_generates hroom hpool hb).bind fun code middle hmiddle => ?_
    exact (ih hmiddle hbs).map fun more => code ++ .localSet (b.temp + 1) :: more

lemma procedureBody_generates {p : Procedure} (hp : p ∈ a.procedures) :
    Generates a p.bindings (procedureBody a.layout pool p) := by
  have hcode := bindingsCode_generates hroom hpool
    fun b hb => List.mem_flatMap.mpr ⟨p, hp, hb⟩
  exact hcode.map fun code => Body.mk p.bindings.length (code ++ [getOperand p.result])

lemma procedureBodies_generates {ps : List Procedure} (hps : ps ⊆ a.procedures) :
    Generates a (ps.flatMap (·.bindings)) (procedureBodies a.layout pool ps) := by
  induction ps generalizing pool with
  | nil => exact .ok (by simp) hpool
  | cons p ps ih =>
    obtain ⟨hp, hrest⟩ := List.cons_subset.mp hps
    refine (procedureBody_generates hroom hpool hp).bind fun body middle hmiddle => ?_
    exact (ih hmiddle hrest).map fun bodies => body :: bodies

end Code

end Generating

end Wasm

/-! ### The first fault -/

namespace Assembly

/-- The fault that comes first: that of the first procedure with the name of one before it, or
else that of the first binding that cannot be linked. -/
inductive FirstFault (a : Assembly) : GenerationFault → Prop
  | emittedTwice {before p after} : a.procedures = before ++ p :: after →
      (before.map (·.name)).Nodup → p.name ∈ before.map (·.name) →
      FirstFault a (.emittedTwice p.name)
  | unlinked {fault} : (a.procedures.map (·.name)).Nodup → FirstUnlinked a a.bindings fault →
      FirstFault a fault

variable {a : Assembly}

lemma firstRepeated_procedures {before after : List Procedure} {p : Procedure}
    (hsplit : a.procedures = before ++ p :: after) (hnodup : (before.map (·.name)).Nodup)
    (hmem : p.name ∈ before.map (·.name)) :
    firstRepeated Procedure.name [] a.procedures = some p :=
  firstRepeated_eq_some.mpr ⟨before, after, hsplit, hnodup, by simp, by simpa using hmem⟩

lemma firstRepeated_procedures_eq_none :
    firstRepeated Procedure.name [] a.procedures = none ↔ (a.procedures.map (·.name)).Nodup := by
  simp [firstRepeated_eq_none]

lemma FirstFault.firstUnlinked {fault : GenerationFault} (h : a.FirstFault fault)
    (hnodup : (a.procedures.map (·.name)).Nodup) : FirstUnlinked a a.bindings fault := by
  cases h with
  | emittedTwice hsplit hbefore hmem =>
    have hsome := firstRepeated_procedures hsplit hbefore hmem
    rw [firstRepeated_procedures_eq_none.mpr hnodup] at hsome
    cases hsome
  | unlinked _ hfirst => exact hfirst

lemma FirstFault.not_sound {fault : GenerationFault} (h : a.FirstFault fault) :
    ¬ ((a.procedures.map (·.name)).Nodup ∧ ∀ b ∈ a.bindings, b.operation.Linked a) := by
  rintro ⟨hnodup, hlinked⟩
  obtain ⟨before, b, after, hsplit, -, hb⟩ := h.firstUnlinked hnodup
  exact hb.not_linked (hlinked b (hsplit ▸ by simp))

end Assembly

namespace Wasm

variable {a : Assembly}

/-- Generation succeeds on an assembly without faults, and otherwise reports the first. -/
lemma ofAssembly_outcome (hroom : a.literalBytes ≤ LiteralPool.limit) :
    (∃ m, Module.ofAssembly a = .ok m ∧ (a.procedures.map (·.name)).Nodup ∧
        ∀ b ∈ a.bindings, b.operation.Linked a) ∨
      ∃ fault, Module.ofAssembly a = .error (.generation fault) ∧ a.FirstFault fault := by
  cases hrepeated : firstRepeated Procedure.name [] a.procedures with
  | some p =>
    obtain ⟨before, after, hsplit, hnodup, -, hmem⟩ := firstRepeated_eq_some.mp hrepeated
    rw [List.append_nil] at hmem
    have hlayout : Layout.ofAssembly a = .error (.generation (.emittedTwice p.name)) := by
      rw [Layout.ofAssembly_eq, hrepeated]
    exact .inr ⟨_, bind_of_error hlayout _, .emittedTwice hsplit hnodup hmem⟩
  | none =>
    have hnodup := Assembly.firstRepeated_procedures_eq_none.mp hrepeated
    have hbodies := procedureBodies_generates hroom (LiteralPool.drawnFrom_empty a.literals)
      (List.Subset.refl a.procedures)
    rw [Module.ofAssembly, bind_of_ok ((layout_complete a).numbered hnodup),
      procedureIndex?_entry hnodup]
    generalize procedureBodies a.layout .empty a.procedures = result at hbodies ⊢
    cases hbodies with
    | ok hlinked _ => exact .inl ⟨_, rfl, hnodup, hlinked⟩
    | error hfirst => exact .inr ⟨_, rfl, .unlinked hnodup hfirst⟩

/-- **Generation cannot fail** where names are distinct, operations linked and literals below the
limit. -/
lemma exists_ofAssembly (hdistinct : (a.procedures.map (·.name)).Nodup)
    (hlinked : ∀ p ∈ a.procedures, ∀ b ∈ p.bindings, b.operation.Linked a)
    (hroom : a.literalBytes ≤ LiteralPool.limit) : ∃ m, Module.ofAssembly a = .ok m := by
  obtain ⟨m, hm, -⟩ | ⟨fault, -, hfault⟩ := ofAssembly_outcome hroom
  · exact ⟨m, hm⟩
  · refine absurd ⟨hdistinct, fun b hb => ?_⟩ hfault.not_sound
    obtain ⟨p, hp, hbp⟩ := List.mem_flatMap.mp hb
    exact hlinked p hp b hbp

end Wasm

end TextPipeline
