import TextPipeline.Proofs.Lists
import TextPipeline.Proofs.Procedure.Meaning
import TextPipeline.Proofs.Wasm.LiteralPool
import TextPipeline.Wasm.Generation
import TextPipeline.Wasm.Validity

/-!
What generation emits, read off a module that was generated: where the functions stand in the
numbering, how many parameters they take, and which code the operations of a procedure have
become (`generated_of_ofAssembly`).
-/

namespace TextPipeline

lemma Catalog.standard_entry? (b : Builtin) :
    Catalog.standard.entry? b = some b.descriptor := by
  cases b <;> rfl

/-- The numbering of the functions of an assembly, if the names of its procedures differ. -/
def Assembly.layout (a : Assembly) : Wasm.Layout :=
  ⟨a.usedBuiltins.map Builtin.descriptor, a.procedures.map (·.name)⟩

namespace Wasm

/-! ### The numbering -/

namespace Layout

lemma mapM_describe (bs : List Builtin) :
    bs.mapM describe = .ok (bs.map Builtin.descriptor) := by
  induction bs with
  | nil => rfl
  | cons b bs ih =>
    have hb : describe b = .ok b.descriptor := by rw [describe, Catalog.standard_entry?]
    rw [List.mapM_cons, bind_of_ok hb, bind_of_ok ih]
    rfl

lemma ofAssembly_eq (a : Assembly) : ofAssembly a =
    match firstRepeated Procedure.name [] a.procedures with
    | some p => .error (.generation (.emittedTwice p.name))
    | none => .ok a.layout := by
  rw [ofAssembly, bind_of_ok (mapM_describe _)]
  rfl

lemma ofAssembly_ok {a : Assembly} {l : Layout} (h : ofAssembly a = .ok l) :
    l = a.layout ∧ (a.procedures.map (·.name)).Nodup := by
  rw [ofAssembly_eq] at h
  split at h
  · cases h
  · rename_i hnone
    cases h
    exact ⟨rfl, (firstRepeated_eq_none.mp hnone).1⟩

/-- The functions that are imported. -/
def hostFunctions (l : Layout) : List HostFunction :=
  .literal :: .joinLines :: l.imported.map fun d => .builtin d.builtin

/-- The import of a host function. -/
def importOf (l : Layout) (f : HostFunction) : Import :=
  ⟨hostModule, f.name, l.typeIndex f.operandCount⟩

variable {l : Layout} {a : Assembly}

@[simp] lemma length_hostFunctions : l.hostFunctions.length = l.importCount := by
  simp [hostFunctions, importCount]

lemma hostFunctions_literalIndex : l.hostFunctions[literalIndex]? = some .literal := rfl

lemma hostFunctions_joinIndex : l.hostFunctions[joinIndex]? = some .joinLines := rfl

lemma hostFunctions_layout : a.layout.hostFunctions =
    .literal :: .joinLines :: a.usedBuiltins.map .builtin := by
  simp [hostFunctions, Assembly.layout, Builtin.descriptor]

lemma imports_layout : a.layout.imports = a.layout.hostFunctions.map a.layout.importOf := by
  rw [hostFunctions_layout]
  simp [imports, importOf, Assembly.layout, Builtin.descriptor, HostFunction.name,
    HostFunction.operandCount, Descriptor.operandCount, Builtin.operandCount]

lemma types_layout :
    a.layout.types = (a.layout.hostFunctions.map HostFunction.operandCount ++ [1]).eraseDups := by
  rw [hostFunctions_layout]
  simp [types, Assembly.layout, Builtin.descriptor, HostFunction.operandCount,
    Descriptor.operandCount, Builtin.operandCount, Function.comp_def]

lemma types_operandCount {f : HostFunction} (h : f ∈ a.layout.hostFunctions) :
    a.layout.types[a.layout.typeIndex f.operandCount]? = some f.operandCount := by
  refine List.getElem?_idxOf ?_
  rw [types_layout, List.mem_eraseDups]
  exact List.mem_append_left _ (List.mem_map_of_mem h)

lemma types_one : a.layout.types[a.layout.typeIndex 1]? = some 1 := by
  refine List.getElem?_idxOf ?_
  rw [types_layout, List.mem_eraseDups]
  exact List.mem_append_right _ List.mem_cons_self

lemma hostFunctions_builtinIndex? {b : Builtin} {index : Nat}
    (h : l.builtinIndex? b = some index) : l.hostFunctions[index]? = some (.builtin b) := by
  obtain ⟨i, hi, rfl⟩ := Option.map_eq_some_iff.mp h
  obtain ⟨hlt, hb, -⟩ := List.findIdx?_eq_some_iff_getElem.mp hi
  have hb : l.imported[i].builtin = b := by simpa using hb
  simp [hostFunctions, hlt, hb]

lemma exists_builtinIndex? {b : Builtin} (h : b ∈ a.usedBuiltins) :
    ∃ index, a.layout.builtinIndex? b = some index := by
  have hsome : (a.layout.imported.findIdx? fun d => d.builtin = b).isSome := by
    rw [List.findIdx?_isSome, List.any_eq_true]
    exact ⟨b.descriptor, List.mem_map_of_mem h, by simp [Builtin.descriptor]⟩
  obtain ⟨i, hi⟩ := Option.isSome_iff_exists.mp hsome
  exact ⟨i + 2, Option.map_eq_some_iff.mpr ⟨i, hi, rfl⟩⟩

end Layout

lemma find?_of_idxOf? {ps : List Procedure} {name : String} {i : Nat}
    (h : (ps.map (·.name)).idxOf? name = some i) :
    ∃ p, ps[i]? = some p ∧ ps.find? (fun p => p.name = name) = some p := by
  induction ps generalizing i with
  | nil => cases h
  | cons p ps ih =>
    rw [List.map_cons, List.idxOf?_cons] at h
    split at h
    · -- the first procedure of the name
      rename_i hname
      cases h
      exact ⟨p, rfl, List.find?_cons_of_pos (by simpa using hname)⟩
    · rename_i hname
      obtain ⟨k, hk, rfl⟩ := Option.map_eq_some_iff.mp h
      obtain ⟨q, hq, hfind⟩ := ih hk
      exact ⟨q, hq, (List.find?_cons_of_neg (by simpa using hname)).trans hfind⟩

lemma procedureIndex?_ok {a : Assembly} {name : String} {index : Nat}
    (h : a.layout.procedureIndex? name = some index) :
    ∃ i p, a.procedures[i]? = some p ∧ a.procedure? name = some p ∧
      index = a.layout.importCount + i := by
  obtain ⟨i, hi, rfl⟩ := Option.map_eq_some_iff.mp h
  obtain ⟨p, hp, hfind⟩ := find?_of_idxOf? hi
  exact ⟨i, p, hp, hfind, rfl⟩

lemma procedureIndex?_entry {a : Assembly} (hnodup : (a.procedures.map (·.name)).Nodup) :
    a.layout.procedureIndex? a.entry.name =
      some (a.layout.importCount + a.functions.length) := by
  have hnames : a.procedures.map (·.name) = a.functions.map (·.name) ++ [a.entry.name] := by
    simp [Assembly.procedures]
  rw [hnames, List.nodup_append] at hnodup
  have hnew : a.entry.name ∉ a.functions.map (·.name) :=
    fun hmem => hnodup.2.2 _ hmem _ List.mem_cons_self rfl
  have hindex : (a.procedures.map (·.name)).idxOf? a.entry.name = some a.functions.length := by
    rw [hnames, List.idxOf?, List.findIdx?_append]
    have hnone := List.idxOf?_eq_none_iff.mpr hnew
    rw [List.idxOf?] at hnone
    simp [hnone]
  exact Option.map_eq_some_iff.mpr ⟨_, hindex, rfl⟩

/-! ### The code of operations -/

/-- The code that an operation becomes, if this is the data of the module. -/
inductive IsCode (l : Layout) (data : Bytes) : Operation → List Instruction → Prop
  | literal {text location} : Stored data location text → location.Narrow →
      IsCode l data (.literal text)
        [.const location.offset, .const location.length, .call Layout.literalIndex]
  | builtin {b operands index} : l.builtinIndex? b = some index →
      IsCode l data (.builtin b operands) (operands.map getOperand ++ [.call index])
  | invoke {callee argument index} : l.procedureIndex? callee = some index →
      IsCode l data (.invoke callee argument) [getOperand argument, .call index]
  | join {first rest} : IsCode l data (.join (first :: rest))
      (getOperand first ::
        rest.flatMap fun part => [getOperand part, .call Layout.joinIndex])

inductive AreCode (l : Layout) (data : Bytes) : List Binding → List Instruction → Prop
  | nil : AreCode l data [] []
  | cons {b bs code more} : IsCode l data b.operation code → AreCode l data bs more →
      AreCode l data (b :: bs) (code ++ .localSet (b.temp + 1) :: more)

/-- The body that a procedure becomes. -/
def IsBody (l : Layout) (data : Bytes) (p : Procedure) (body : Body) : Prop :=
  ∃ code, AreCode l data p.bindings code ∧
    body = ⟨p.bindings.length, code ++ [getOperand p.result]⟩

/-- What a generating function leaves behind: a pool that has only grown, and something that is
right for all data to come. -/
structure Leaves (pool grown : LiteralPool) (right : Bytes → Prop) : Prop where
  packed : grown.Packed
  grows : pool.data <+: grown.data
  right : ∀ final, grown.data <+: final → right final

section Generating

variable {l : Layout} {pool grown : LiteralPool} (hp : pool.Packed)
include hp

lemma operationCode_ok {op : Operation} {code : List Instruction}
    (h : operationCode l pool op = .ok (code, grown)) :
    Leaves pool grown fun final => IsCode l final op code := by
  cases op with
  | literal text =>
    -- the only operation that can change the pool
    simp only [operationCode] at h
    split at h
    · rename_i location later hin
      cases h
      obtain ⟨hpacked, hgrows, hstored, hnarrow⟩ := LiteralPool.intern_ok hp hin
      exact ⟨hpacked, hgrows, fun _ hfinal => .literal (hstored.of_longer hfinal) hnarrow⟩
    · cases h
  | builtin b operands =>
    simp only [operationCode] at h
    split at h
    · rename_i hindex
      cases h
      exact ⟨hp, List.prefix_rfl, fun _ _ => .builtin hindex⟩
    · cases h
  | invoke callee argument =>
    simp only [operationCode] at h
    split at h
    · rename_i hindex
      cases h
      exact ⟨hp, List.prefix_rfl, fun _ _ => .invoke hindex⟩
    · cases h
  | join parts =>
    cases parts with
    | nil => cases h
    | cons first rest =>
      cases h
      exact ⟨hp, List.prefix_rfl, fun _ _ => .join⟩

lemma bindingsCode_ok {bs : List Binding} {code : List Instruction}
    (h : bindingsCode l pool bs = .ok (code, grown)) :
    Leaves pool grown fun final => AreCode l final bs code := by
  induction bs generalizing pool code with
  | nil =>
    cases h
    exact ⟨hp, List.prefix_rfl, fun _ _ => .nil⟩
  | cons b bs ih =>
    obtain ⟨⟨first, middle⟩, hfirst, h⟩ := ok_of_bind h
    obtain ⟨⟨more, last⟩, hmore, h⟩ := ok_of_bind h
    cases h
    have hop := operationCode_ok hp hfirst
    have hrest := ih hop.packed hmore
    exact ⟨hrest.packed, hop.grows.trans hrest.grows, fun final hfinal =>
      .cons (hop.right final (hrest.grows.trans hfinal)) (hrest.right final hfinal)⟩

lemma procedureBody_ok {p : Procedure} {body : Body}
    (h : procedureBody l pool p = .ok (body, grown)) :
    Leaves pool grown fun final => IsBody l final p body := by
  obtain ⟨⟨code, last⟩, hcode, h⟩ := ok_of_bind h
  cases h
  have hbs := bindingsCode_ok hp hcode
  exact ⟨hbs.packed, hbs.grows, fun final hfinal => ⟨code, hbs.right final hfinal, rfl⟩⟩

lemma procedureBodies_ok {ps : List Procedure} {bodies : List Body}
    (h : procedureBodies l pool ps = .ok (bodies, grown)) :
    Leaves pool grown fun final => List.Forall₂ (IsBody l final) ps bodies := by
  induction ps generalizing pool bodies with
  | nil =>
    cases h
    exact ⟨hp, List.prefix_rfl, fun _ _ => .nil⟩
  | cons p ps ih =>
    obtain ⟨⟨body, middle⟩, hbody, h⟩ := ok_of_bind h
    obtain ⟨⟨rest, last⟩, hrest, h⟩ := ok_of_bind h
    cases h
    have hfirst := procedureBody_ok hp hbody
    have hmore := ih hfirst.packed hrest
    exact ⟨hmore.packed, hfirst.grows.trans hmore.grows, fun final hfinal =>
      .cons (hfirst.right final (hmore.grows.trans hfinal)) (hmore.right final hfinal)⟩

end Generating

/-! ### Generated modules -/

structure Generated (a : Assembly) (m : Module) : Prop where
  types : m.types = a.layout.types
  imports : m.imports = a.layout.imports
  functions : m.functions = a.procedures.map fun _ => a.layout.typeIndex 1
  exports : m.exports =
    [.function a.entry.name (a.layout.importCount + a.functions.length), .memory memoryName]
  bodies : List.Forall₂ (IsBody a.layout m.data) a.procedures m.bodies
  fits : m.data.length ≤ m.pages * pageSize
  pages : m.pages ≤ maxPages

lemma generated_of_ofAssembly {a : Assembly} {m : Module} (h : Module.ofAssembly a = .ok m) :
    Generated a m := by
  obtain ⟨l, hl, h⟩ := ok_of_bind h
  obtain ⟨⟨bodies, pool⟩, hbodies, h⟩ := ok_of_bind h
  obtain ⟨rfl, hnodup⟩ := Layout.ofAssembly_ok hl
  rw [procedureIndex?_entry hnodup] at h
  cases h
  have hall := procedureBodies_ok LiteralPool.packed_empty hbodies
  have hpages : pool.pages ≤ maxPages := by
    have hbytes := hall.packed.pages_le
    unfold pageSize at hbytes
    unfold maxPages
    omega
  exact ⟨rfl, rfl, rfl, rfl, hall.right _ List.prefix_rfl, pool.length_le_pages, hpages⟩

namespace Generated

variable {a : Assembly} {m : Module} (g : Generated a m)
include g

lemma length_imports : m.imports.length = a.layout.importCount := by
  rw [g.imports, Layout.imports_layout, List.length_map, Layout.length_hostFunctions]

lemma map_imports : m.imports.map (fun i => (i.origin, i.name)) =
    (hostModule, literalName) :: (hostModule, joinName) ::
      a.usedBuiltins.map fun b => (hostModule, b.name) := by
  rw [g.imports, Layout.imports_layout, Layout.hostFunctions_layout]
  simp [Layout.importOf, HostFunction.name, Function.comp_def]

lemma imports_host {f : HostFunction} {index : Nat}
    (h : a.layout.hostFunctions[index]? = some f) :
    m.imports[index]? = some (a.layout.importOf f) := by
  rw [g.imports, Layout.imports_layout, List.getElem?_map, h]
  rfl

lemma parameterCount?_host {f : HostFunction} {index : Nat}
    (h : a.layout.hostFunctions[index]? = some f) :
    m.parameterCount? index = some f.operandCount := by
  unfold Module.parameterCount?
  rw [g.imports_host h, g.types]
  exact Layout.types_operandCount (List.mem_of_getElem? h)

lemma parameterCount?_procedure {i : Nat} {p : Procedure} (h : a.procedures[i]? = some p) :
    m.parameterCount? (a.layout.importCount + i) = some 1 := by
  unfold Module.parameterCount?
  rw [List.getElem?_eq_none (by rw [g.length_imports]; omega), g.length_imports, g.functions]
  simp only [Nat.add_sub_cancel_left, List.getElem?_map, h, Option.map_some, Option.bind_some,
    g.types]
  exact Layout.types_one

end Generated

end Wasm

end TextPipeline
