import Mathlib.Data.Option.Basic
import TextPipeline.Proofs.Wasm.Decoder
import TextPipeline.Proofs.Wasm.Generation

/-!
The bytes of a module say what the module is (`decode?_encode`). A reader that takes some bytes off
the front does so whatever comes after them (`Reads`), so that readers follow each other as the
encodings do. The size of a section bounds every count and every size inside it.
-/

namespace TextPipeline.Wasm

/-- The operand of an instruction has 32 bits. -/
def Instruction.Narrow : Instruction → Prop
  | const value => -2 ^ 31 ≤ value ∧ value < 2 ^ 31
  | localGet index | localSet index | call index => index < 2 ^ 32

namespace Reader

variable {α β : Type}

/-- The reader takes these bytes off the front, whatever comes after them. -/
def Reads (read : Reader α) (xs : Bytes) (a : α) : Prop :=
  ∀ rest, read (xs ++ rest) = some (a, rest)

lemma reads_pure (a : α) : Reads (pure a) [] a := fun _ => rfl

lemma bind_of_read {read : Reader α} {xs rest : Bytes} {a : α} (h : read xs = some (a, rest))
    (f : α → Reader β) : (read >>= f) xs = f a rest := by
  change (read xs).bind (fun p => f p.1 p.2) = _
  rw [h]
  rfl

lemma Reads.bind {read : Reader α} {f : α → Reader β} {xs ys : Bytes} {a : α} {b : β}
    (hr : Reads read xs a) (hf : Reads (f a) ys b) : Reads (read >>= f) (xs ++ ys) b := by
  intro rest
  rw [List.append_assoc, bind_of_read (hr _), hf]

lemma Reads.bind_nil {read : Reader α} {f : α → Reader β} {xs : Bytes} {a : α} {b : β}
    (hr : Reads read xs a) (hf : Reads (f a) [] b) : Reads (read >>= f) xs b := by
  rw [← List.append_nil xs]
  exact hr.bind hf

lemma reads_guard {p : Prop} [Decidable p] (h : p) : Reads (guard p) [] () := by
  intro rest
  rw [guard, if_pos h]
  rfl

lemma reads_anyByte (b : UInt8) : Reads anyByte [b] b := fun _ => rfl

lemma reads_byte (b : UInt8) : Reads (byte b) [b] () :=
  (reads_anyByte b).bind (reads_guard rfl)

lemma reads_bytes (xs : Bytes) : Reads (bytes xs.length) xs xs := by
  intro rest
  rw [bytes, if_pos (by rw [List.length_append]; omega), List.splitAt_eq, List.take_left,
    List.drop_left]

/-! ### Numbers -/

lemma reads_unsigned {width n : Nat} (h : n < 128 ^ (width + 1)) :
    Reads (unsigned (width + 1)) (leb128 n) n := by
  induction width generalizing n with
  | zero =>
    have hlt : n < 128 := by simpa using h
    have hb := UInt8.toNat_ofNat_of_lt' (by omega : n < 256)
    rw [leb128, if_pos hlt, unsigned]
    refine (reads_anyByte _).bind_nil ?_
    rw [hb, if_pos hlt]
    exact reads_pure n
  | succ width ih =>
    rw [leb128, unsigned]
    split
    · -- the last byte
      rename_i hlt
      have hb := UInt8.toNat_ofNat_of_lt' (by omega : n < 256)
      refine (reads_anyByte _).bind_nil ?_
      rw [hb, if_pos hlt]
      exact reads_pure n
    · -- seven bits, and a byte with the rest after it
      rename_i hge
      have hb := UInt8.toNat_ofNat_of_lt' (by omega : n % 128 + 128 < 256)
      have hhigh : n / 128 < 128 ^ (width + 1) := by
        rw [Nat.div_lt_iff_lt_mul (by decide)]
        exact h
      refine (reads_anyByte _).bind ?_
      rw [hb, if_neg (by omega)]
      refine (ih hhigh).bind_nil ((reads_guard (by omega)).bind_nil ?_)
      have hn : n % 128 + 128 - 128 + 128 * (n / 128) = n := by omega
      rw [hn]
      exact reads_pure n

lemma reads_u32 {n : Nat} (h : n < 2 ^ 32) : Reads u32 (leb128 n) n := by
  have hwide : n < 128 ^ (4 + 1) := by omega
  exact (reads_unsigned hwide).bind_nil ((reads_guard h).bind_nil (reads_pure n))

lemma reads_signed_last {width : Nat} {z : Int} (h : -64 ≤ z ∧ z < 64) :
    Reads (signed (width + 1)) [UInt8.ofNat (z % 128).toNat] z := by
  have hb := UInt8.toNat_ofNat_of_lt' (by omega : (z % 128).toNat < 256)
  rw [signed]
  refine (reads_anyByte _).bind_nil ?_
  rw [hb]
  split
  · have hz : (((z % 128).toNat : Nat) : Int) = z := by omega
    rw [hz]
    exact reads_pure z
  · have hz : (((z % 128).toNat : Nat) : Int) - 128 = z := by omega
    rw [if_pos (by omega), hz]
    exact reads_pure z

lemma reads_signed {width : Nat} {z : Int} (h : -(64 * 128 ^ width) ≤ z ∧ z < 64 * 128 ^ width) :
    Reads (signed (width + 1)) (signedLeb128 z) z := by
  induction width generalizing z with
  | zero =>
    have hz : -64 ≤ z ∧ z < 64 := by simpa using h
    rw [signedLeb128, if_pos hz]
    exact reads_signed_last hz
  | succ width ih =>
    rw [signedLeb128]
    split
    · rename_i hz
      exact reads_signed_last hz
    · -- seven bits, and the rest keeps the sign
      rename_i hz
      have hb := UInt8.toNat_ofNat_of_lt' (by omega : (z % 128).toNat + 128 < 256)
      have hhigh : -(64 * 128 ^ width) ≤ z / 128 ∧ z / 128 < 64 * 128 ^ width := by
        rw [Int.pow_succ] at h
        omega
      rw [signed]
      refine (reads_anyByte _).bind ?_
      rw [hb, if_neg (by omega), if_neg (by omega)]
      have hsum : (((z % 128).toNat + 128 : Nat) : Int) - 128 + 128 * (z / 128) = z := by omega
      refine (ih hhigh).bind_nil ?_
      simp only [hsum]
      exact (reads_guard hz).bind_nil (reads_pure z)

lemma reads_s32 {z : Int} (h : -2 ^ 31 ≤ z ∧ z < 2 ^ 31) : Reads s32 (signedLeb128 z) z := by
  have hwide : -(64 * 128 ^ 4) ≤ z ∧ z < 64 * 128 ^ 4 := by omega
  exact (reads_signed hwide).bind_nil ((reads_guard h).bind_nil (reads_pure z))

/-! ### Blocks -/

lemma reads_times {read : Reader β} {encode : α → Bytes} {f : α → β} (xs : List α)
    (h : ∀ x ∈ xs, Reads read (encode x) (f x)) :
    Reads (times read xs.length) (xs.flatMap encode) (xs.map f) := by
  induction xs with
  | nil => exact reads_pure []
  | cons x xs ih =>
    have hrest := ih fun y hy => h y (List.mem_cons_of_mem x hy)
    rw [List.flatMap_cons]
    exact (h x List.mem_cons_self).bind (hrest.bind_nil (reads_pure _))

lemma length_le_vector {encode : α → Bytes} (hne : ∀ x, encode x ≠ []) (xs : List α) :
    xs.length ≤ (Wasm.vector encode xs).length := by
  have hflat : xs.length ≤ (xs.flatMap encode).length := by
    induction xs with
    | nil => exact Nat.le_refl 0
    | cons x xs ih =>
      have hpos := List.length_pos_iff.mpr (hne x)
      rw [List.flatMap_cons, List.length_append, List.length_cons]
      omega
  rw [Wasm.vector, List.length_append]
  omega

lemma length_encode_le_vector (encode : α → Bytes) {xs : List α} {x : α} (hx : x ∈ xs) :
    (encode x).length ≤ (Wasm.vector encode xs).length := by
  obtain ⟨before, rest, rfl⟩ := List.append_of_mem hx
  simp only [Wasm.vector, List.flatMap_append, List.flatMap_cons, List.length_append]
  omega

lemma reads_vector {read : Reader β} {encode : α → Bytes} {f : α → β} {xs : List α}
    (hne : ∀ x, encode x ≠ []) (hsize : (Wasm.vector encode xs).length < 2 ^ 32)
    (h : ∀ x ∈ xs, (encode x).length < 2 ^ 32 → Reads read (encode x) (f x)) :
    Reads (vector read) (Wasm.vector encode xs) (xs.map f) := by
  have hcount := length_le_vector hne xs
  refine (reads_u32 (by omega)).bind (reads_times xs fun x hx => ?_)
  have hle := length_encode_le_vector encode hx
  exact h x hx (by omega)

lemma reads_single {read : Reader β} {encode : α → Bytes} {x : α} {y : β}
    (h : Reads read (encode x) y) : Reads (single read) (Wasm.vector encode [x]) y := by
  have hvector : Reads (vector read) (Wasm.vector encode [x]) [y] :=
    (reads_u32 (by simp)).bind (reads_times (f := fun _ => y) [x] (by simpa using h))
  exact hvector.bind_nil (reads_pure y)

lemma reads_block {read : Reader α} {xs : Bytes} {a : α} (hsize : xs.length < 2 ^ 32)
    (h : Reads read xs a) : Reads (block read) (sized xs) a := by
  have hread : read xs = some (a, []) := by simpa using h []
  refine (reads_u32 hsize).bind ((reads_bytes xs).bind_nil ?_)
  rw [hread]
  exact reads_pure a

lemma reads_name {s : String} (hsize : (encodeName s).length < 2 ^ 32) :
    Reads name (encodeName s) s := by
  have hlen : (utf8 s).length < 2 ^ 32 := by
    rw [encodeName, sized, List.length_append] at hsize
    omega
  refine (reads_u32 hlen).bind ((reads_bytes _).bind_nil ?_)
  rw [decodeUtf8?_utf8]
  exact reads_pure s

lemma reads_sectionOf (id : UInt8) {read : Reader α} {xs : Bytes} {a : α}
    (hsize : xs.length < 2 ^ 32) (h : Reads read xs a) :
    Reads (sectionOf id read) (encodeSection id xs) a :=
  (reads_byte id).bind (reads_block hsize h)

/-! ### The parts of a module -/

lemma reads_valueTypes (count : Nat)
    (hsize : (Wasm.vector (fun _ => [i32]) (List.replicate count ())).length < 2 ^ 32) :
    Reads (vector valueType) (Wasm.vector (fun _ => [i32]) (List.replicate count ()))
      (List.replicate count ()) := by
  have hread := reads_vector (f := id) (by simp) hsize fun _ _ _ => reads_byte i32
  rwa [List.map_id] at hread

lemma reads_functionType {parameters : Nat} (hsize : (encodeType parameters).length < 2 ^ 32) :
    Reads functionType (encodeType parameters) ⟨parameters, 1⟩ := by
  rw [encodeType, List.cons_append, List.length_cons, List.length_append] at hsize
  have hone : (Wasm.vector (fun _ => [i32]) [()]).length < 2 ^ 32 := by omega
  have hresults : Reads (vector valueType) (Wasm.vector (fun _ => [i32]) [()]) [()] :=
    reads_valueTypes 1 hone
  have htype : Reads (pure ⟨(List.replicate parameters ()).length, 1⟩ : Reader FunctionType) []
      ⟨parameters, 1⟩ := by
    rw [List.length_replicate]
    exact reads_pure _
  rw [encodeType, List.cons_append]
  exact (reads_byte 0x60).bind
    ((reads_valueTypes parameters (by omega)).bind (hresults.bind_nil htype))

lemma reads_importEntry {i : Import} (hsize : i.encode.length < 2 ^ 32) (htype : i.type < 2 ^ 32) :
    Reads importEntry i.encode i := by
  rw [Import.encode, List.append_assoc, List.length_append, List.length_append] at hsize
  rw [Import.encode, List.append_assoc]
  exact (reads_name (by omega)).bind ((reads_name (by omega)).bind
    ((reads_byte 0x00).bind ((reads_u32 htype).bind_nil (reads_pure _))))

lemma reads_memory {pages : Nat} (h : pages < 2 ^ 32) : Reads memory (encodeMemory pages) pages :=
  (reads_byte 0x00).bind (reads_u32 h)

lemma reads_exportEntry {e : Export} (hsize : e.encode.length < 2 ^ 32)
    (hindex : ∀ name index, e = .function name index → index < 2 ^ 32) :
    Reads exportEntry e.encode e := by
  cases e with
  | function name index =>
    rw [Export.encode, List.length_append] at hsize
    exact (reads_name (by omega)).bind ((reads_anyByte 0x00).bind
      ((reads_u32 (hindex name index rfl)).bind_nil (reads_pure _)))
  | memory name =>
    rw [Export.encode, List.length_append] at hsize
    exact (reads_name (by omega)).bind ((reads_anyByte 0x02).bind
      ((reads_u32 (by decide)).bind_nil ((reads_guard rfl).bind_nil (reads_pure _))))

lemma exists_opcode {i : Instruction} (h : i.Narrow) :
    ∃ opcode operand, i.encode = opcode :: operand ∧ opcode ≠ 0x0b ∧
      Reads (instruction opcode) operand i := by
  cases i with
  | const value =>
    exact ⟨0x41, _, rfl, by decide, (reads_s32 h).bind_nil (reads_pure _)⟩
  | localGet index =>
    exact ⟨0x20, _, rfl, by decide, (reads_u32 h).bind_nil (reads_pure _)⟩
  | localSet index =>
    exact ⟨0x21, _, rfl, by decide, (reads_u32 h).bind_nil (reads_pure _)⟩
  | call index =>
    exact ⟨0x10, _, rfl, by decide, (reads_u32 h).bind_nil (reads_pure _)⟩

lemma reads_instructions {code : List Instruction} (hcode : ∀ i ∈ code, i.Narrow) {most : Nat}
    (hmost : code.length ≤ most) :
    Reads (instructions most) (code.flatMap Instruction.encode ++ [endMark]) code := by
  induction code generalizing most with
  | nil =>
    cases most with
    | zero => exact (reads_byte endMark).bind_nil (reads_pure [])
    | succ most => exact (reads_anyByte endMark).bind_nil (reads_pure [])
  | cons i code ih =>
    cases most with
    | zero => cases hmost
    | succ most =>
      obtain ⟨opcode, operand, hencode, hne, hread⟩ := exists_opcode (hcode i List.mem_cons_self)
      have hrest := ih (fun j hj => hcode j (List.mem_cons_of_mem i hj))
        (Nat.le_of_succ_le_succ hmost)
      rw [List.flatMap_cons, hencode, List.cons_append, List.cons_append, List.append_assoc]
      refine (reads_anyByte opcode).bind ?_
      rw [if_neg hne]
      exact hread.bind (hrest.bind_nil (reads_pure _))

lemma length_le_code (code : List Instruction) :
    code.length ≤ (code.flatMap Instruction.encode).length := by
  induction code with
  | nil => exact Nat.le_refl 0
  | cons i code ih =>
    have hpos : 1 ≤ i.encode.length := by cases i <;> exact Nat.succ_pos _
    rw [List.flatMap_cons, List.length_append, List.length_cons]
    omega

lemma reads_expression {code : List Instruction} (hcode : ∀ i ∈ code, i.Narrow) :
    Reads expression (code.flatMap Instruction.encode ++ [endMark]) code := by
  intro rest
  refine reads_instructions hcode ?_ rest
  have hle := length_le_code code
  simp only [List.length_append]
  omega

lemma reads_preamble : Reads preamble header () :=
  (reads_bytes header).bind_nil (reads_guard rfl)

lemma reads_locals {count : Nat} (h : count < 2 ^ 32) :
    ∃ runs, runs.sum = count ∧ Reads (vector localRun) (encodeLocals count) runs := by
  have hrun (n : Nat) (hn : n < 2 ^ 32) : Reads localRun (leb128 n ++ [i32]) n :=
    (reads_u32 hn).bind ((reads_byte i32).bind_nil (reads_pure n))
  unfold encodeLocals
  split
  · rename_i hzero
    exact ⟨[], hzero.symm, (reads_u32 (by decide)).bind (reads_pure [])⟩
  · refine ⟨[count], by simp, (reads_u32 (by simp)).bind ?_⟩
    exact reads_times (f := id) [count] (by simpa using hrun count h)

lemma reads_body {b : Body} (hsize : b.encode.length < 2 ^ 32) (hlocals : b.locals < 2 ^ 32)
    (hcode : ∀ i ∈ b.code, i.Narrow) : Reads body b.encode b := by
  rw [Body.encode, sized, List.length_append] at hsize
  obtain ⟨runs, hsum, hruns⟩ := reads_locals hlocals
  refine reads_block (by omega) ?_
  rw [List.append_assoc]
  refine hruns.bind ((reads_expression hcode).bind_nil ?_)
  rw [hsum]
  exact reads_pure b

lemma reads_segment {data : Bytes} (hsize : (encodeSegment data).length < 2 ^ 32) :
    Reads segment (encodeSegment data) ⟨0, 0, data⟩ := by
  have hlen : data.length < 2 ^ 32 := by
    simp only [encodeSegment, sized, List.length_append, List.length_cons] at hsize
    omega
  rw [encodeSegment, List.append_assoc]
  exact (reads_u32 (by decide)).bind ((reads_byte 0x41).bind ((reads_s32 (by decide)).bind
    ((reads_byte endMark).bind ((reads_u32 hlen).bind ((reads_bytes data).bind_nil
      (reads_pure _))))))

end Reader

open Reader

/-! ### Whole modules -/

/-- What a module says. -/
def Module.contents (m : Module) : Contents where
  types := m.types.map fun parameters => ⟨parameters, 1⟩
  imports := m.imports
  functions := m.functions
  pages := m.pages
  exports := m.exports
  bodies := m.bodies
  segment := if m.data.isEmpty then none else some ⟨0, 0, m.data⟩

/-- An index that an instruction names. -/
def Instruction.index? : Instruction → Option Nat
  | const _ => none
  | localGet index | localSet index | call index => some index

/-- The counts, the indices and the sizes of a module have 32 bits. The size of a section bounds
the counts and the sizes inside it. -/
structure Module.Fits (m : Module) : Prop where
  typeSection : (vector encodeType m.types).length < 2 ^ 32
  importSection : (vector Import.encode m.imports).length < 2 ^ 32
  functionSection : (vector leb128 m.functions).length < 2 ^ 32
  exportSection : (vector Export.encode m.exports).length < 2 ^ 32
  codeSection : (vector Body.encode m.bodies).length < 2 ^ 32
  dataSection : (vector encodeSegment [m.data]).length < 2 ^ 32
  pages : m.pages < 2 ^ 32
  importTypes : ∀ i ∈ m.imports, i.type < 2 ^ 32
  functionTypes : ∀ type ∈ m.functions, type < 2 ^ 32
  exported : ∀ name index, .function name index ∈ m.exports → index < 2 ^ 32
  locals : ∀ b ∈ m.bodies, b.locals < 2 ^ 32
  indices : ∀ b ∈ m.bodies, ∀ i ∈ b.code, ∀ index ∈ i.index?, index < 2 ^ 32

lemma leb128_ne_nil (n : Nat) : leb128 n ≠ [] := by
  rw [leb128]
  split
  · exact List.cons_ne_nil _ _
  · exact List.cons_ne_nil _ _

lemma sized_ne_nil (xs : Bytes) : sized xs ≠ [] :=
  List.append_ne_nil_of_left_ne_nil (leb128_ne_nil _) _

lemma length_leb128_le {width n : Nat} (h : n < 128 ^ (width + 1)) :
    (leb128 n).length ≤ width + 1 := by
  induction width generalizing n with
  | zero =>
    have hlt : n < 128 := by simpa using h
    simp [leb128, hlt]
  | succ width ih =>
    rw [leb128]
    split
    · exact Nat.le_add_left _ _
    · -- the first byte takes seven bits off the number
      have hhigh : n / 128 < 128 ^ (width + 1) := by
        rw [Nat.div_lt_iff_lt_mul (by decide)]
        exact h
      have hrest := ih hhigh
      rw [List.length_cons]
      omega

lemma memorySection {pages : Nat} (h : pages < 2 ^ 32) :
    (vector encodeMemory [pages]).length < 2 ^ 32 := by
  have hone : (leb128 1).length ≤ 0 + 1 := length_leb128_le (by decide)
  have hpages : (leb128 pages).length ≤ 4 + 1 := length_leb128_le (by omega)
  rw [vector, List.flatMap_singleton, encodeMemory, List.length_append, List.length_singleton,
    List.length_cons]
  omega

lemma dataSection_encode {data : Bytes} (hsize : (vector encodeSegment [data]).length < 2 ^ 32) :
    dataSection (if data.isEmpty then [] else encodeSection 11 (vector encodeSegment [data])) =
      some (if data.isEmpty then none else some ⟨0, 0, data⟩, []) := by
  split
  · rfl
  · have hsegment : (encodeSegment data).length < 2 ^ 32 :=
      Nat.lt_of_le_of_lt (length_encode_le_vector _ List.mem_cons_self) hsize
    have hread := reads_sectionOf 11 hsize (reads_single (reads_segment hsegment))
    rw [dataSection, if_neg (by simp [encodeSection]), ← List.append_nil (encodeSection 11 _)]
    rw [bind_of_read (hread [])]
    rfl

/-- A module is read back from its bytes, to the last of them. -/
theorem decode?_encode {m : Module} (h : m.Fits)
    (hcode : ∀ b ∈ m.bodies, ∀ i ∈ b.code, i.Narrow) : decode? m.encode = some m.contents := by
  have htypes : Reads (Reader.vector functionType) (vector encodeType m.types) m.contents.types :=
    reads_vector (by simp [encodeType]) h.typeSection fun _ _ hsize => reads_functionType hsize
  have himports : Reads (Reader.vector importEntry) (vector Import.encode m.imports)
      m.imports := by
    have hread := reads_vector (f := id) (fun i => ?_) h.importSection fun i hi hsize =>
      reads_importEntry hsize (h.importTypes i hi)
    · rwa [List.map_id] at hread
    · exact List.append_ne_nil_of_right_ne_nil _ (List.cons_ne_nil _ _)
  have hfunctions : Reads (Reader.vector u32) (vector leb128 m.functions) m.functions := by
    simpa using reads_vector (f := id) leb128_ne_nil h.functionSection fun type htype _ =>
      reads_u32 (h.functionTypes type htype)
  have hexports : Reads (Reader.vector exportEntry) (vector Export.encode m.exports) m.exports := by
    have hread := reads_vector (f := id) (fun e => ?_) h.exportSection fun e he hsize =>
      reads_exportEntry hsize fun name index heq => h.exported name index (heq ▸ he)
    · rwa [List.map_id] at hread
    · cases e <;> exact List.append_ne_nil_of_left_ne_nil (sized_ne_nil _) _
  have hbodies : Reads (Reader.vector body) (vector Body.encode m.bodies) m.bodies := by
    have hread := reads_vector (f := id) (fun b => sized_ne_nil _) h.codeSection fun b hb hsize =>
      reads_body hsize (h.locals b hb) (hcode b hb)
    rwa [List.map_id] at hread
  have hcontents : Reader.contents m.encode = some (m.contents, []) := by
    unfold Module.encode Reader.contents
    simp only [List.append_assoc]
    have htypes := reads_sectionOf 1 h.typeSection htypes
    have himports := reads_sectionOf 2 h.importSection himports
    have hfunctions := reads_sectionOf 3 h.functionSection hfunctions
    have hmemory := reads_sectionOf 5 (memorySection h.pages) (reads_single (reads_memory h.pages))
    have hexports := reads_sectionOf 7 h.exportSection hexports
    have hbodies := reads_sectionOf 10 h.codeSection hbodies
    rw [bind_of_read (reads_preamble _), bind_of_read (htypes _),
      bind_of_read (himports _), bind_of_read (hfunctions _), bind_of_read (hmemory _),
      bind_of_read (hexports _), bind_of_read (hbodies _),
      bind_of_read (dataSection_encode h.dataSection)]
    rfl
  rw [decode?, hcontents]

/-! ### Generated modules -/

/-- Every constant is an offset or a length within the limit. -/
def ConstantsWithin (code : List Instruction) : Prop :=
  ∀ value : Int, .const value ∈ code → 0 ≤ value ∧ value ≤ LiteralPool.limit

lemma ConstantsWithin.append {xs ys : List Instruction} (hx : ConstantsWithin xs)
    (hy : ConstantsWithin ys) : ConstantsWithin (xs ++ ys) := by
  intro value hvalue
  rcases List.mem_append.mp hvalue with h | h
  · exact hx value h
  · exact hy value h

lemma IsCode.constantsWithin {l : Layout} {data : Bytes} {op : Operation}
    {code : List Instruction} (h : IsCode l data op code) : ConstantsWithin code := by
  intro value hvalue
  cases h with
  | literal _ hnarrow =>
    obtain ⟨hoffset, hlength⟩ := hnarrow
    simp only [List.mem_cons, Instruction.const.injEq, reduceCtorEq, List.not_mem_nil,
      or_false] at hvalue
    omega
  | builtin _ => simp [getOperand] at hvalue
  | invoke _ => simp [getOperand] at hvalue
  | join => simp [getOperand] at hvalue

lemma AreCode.constantsWithin {l : Layout} {data : Bytes} {bs : List Binding}
    {code : List Instruction} (h : AreCode l data bs code) : ConstantsWithin code := by
  induction h with
  | nil => simp [ConstantsWithin]
  | cons hop _ ih =>
    refine hop.constantsWithin.append fun value hvalue => ih value ?_
    simpa using hvalue

lemma Generated.constantsWithin {a : Assembly} {m : Module} (g : Generated a m) :
    ∀ b ∈ m.bodies, ConstantsWithin b.code := by
  intro b hb
  obtain ⟨p, -, code, hcode, rfl⟩ := exists_of_forall₂ g.bodies.flip hb
  exact hcode.constantsWithin.append (by simp [ConstantsWithin, getOperand])

lemma narrow_of_constantsWithin {code : List Instruction} (hconstants : ConstantsWithin code)
    (hindices : ∀ i ∈ code, ∀ index ∈ i.index?, index < 2 ^ 32) : ∀ i ∈ code, i.Narrow := by
  intro i hi
  cases i with
  | const value =>
    have hvalue := hconstants value hi
    simp only [LiteralPool.limit] at hvalue
    simp only [Instruction.Narrow]
    omega
  | localGet index => exact hindices _ hi index rfl
  | localSet index => exact hindices _ hi index rfl
  | call index => exact hindices _ hi index rfl

lemma Generated.map_locals {a : Assembly} {m : Module} (g : Generated a m) :
    m.bodies.map Body.locals = a.procedures.map (·.bindings.length) := by
  symm
  refine map_eq_of_forall₂ g.bodies fun p body hbody => ?_
  obtain ⟨code, -, rfl⟩ := hbody
  rfl

/-- **The bytes of a generated module decode to the module**, to the last byte: as long as its
counts, indices and sizes have 32 bits, for every assembly that has a module. It imports the host's
functions for literals, joins and the builtins that are used, it has a function and a body for each
procedure, the body with a local for each binding, and it exports the function of the entry
procedure and the memory. -/
theorem decode?_encode_of_ofAssembly {a : Assembly} {m : Module}
    (h : Module.ofAssembly a = .ok m) (hfits : m.Fits) :
    decode? m.encode = some m.contents ∧
      m.imports.map (fun i => (i.origin, i.name)) =
        (hostModule, literalName) :: (hostModule, joinName) ::
          a.usedBuiltins.map (fun b => (hostModule, b.name)) ∧
      m.functions.length = a.procedures.length ∧
      m.exports = [.function a.entry.name (m.imports.length + a.functions.length),
        .memory memoryName] ∧
      m.bodies.map Body.locals = a.procedures.map (·.bindings.length) := by
  have g := generated_of_ofAssembly h
  refine ⟨decode?_encode hfits fun b hb => ?_, g.map_imports, ?_, ?_, g.map_locals⟩
  · exact narrow_of_constantsWithin (g.constantsWithin b hb) (hfits.indices b hb)
  · rw [g.functions, List.length_map]
  · rw [g.exports, g.length_imports]

/-- A procedure with a literal so long that its length takes two bytes. -/
def longAssembly : Assembly where
  functions := []
  entry := {
    name := "run"
    parameter := "input"
    bindings := [
      ⟨0, .literal "0123456789abcdef0123456789abcdef0123456789abcdef0123456789abcdef"⟩,
      ⟨1, .builtin .append [.param, .temp 0]⟩]
    result := .temp 1 }

/-- The module of that procedure. -/
def longModule : Module where
  types := [2, 1]
  imports := [⟨"nalgae", "literal", 0⟩, ⟨"nalgae", "join_lines", 0⟩, ⟨"nalgae", "append", 0⟩]
  functions := [1]
  pages := 1
  exports := [.function "run" 3, .memory "memory"]
  bodies := [⟨2, [.const 0, .const 64, .call 0, .localSet 1, .localGet 0, .localGet 1, .call 2,
    .localSet 2, .localGet 2]⟩]
  data := utf8 "0123456789abcdef0123456789abcdef0123456789abcdef0123456789abcdef"

lemma longModule_fits : longModule.Fits where
  typeSection := by decide +kernel
  importSection := by decide +kernel
  functionSection := by decide +kernel
  exportSection := by decide +kernel
  codeSection := by decide +kernel
  dataSection := by decide +kernel
  pages := by decide
  importTypes := by decide
  functionTypes := by decide
  exported := by
    intro name index h
    simp [longModule] at h
    omega
  locals := by decide
  indices := by decide

theorem longModule_decodes :
    Module.ofAssembly longAssembly = .ok longModule ∧ longModule.Fits ∧
      decode? longModule.encode = some longModule.contents := by
  have h : Module.ofAssembly longAssembly = .ok longModule := by decide +kernel
  exact ⟨h, longModule_fits, (decode?_encode_of_ofAssembly h longModule_fits).1⟩

end TextPipeline.Wasm
