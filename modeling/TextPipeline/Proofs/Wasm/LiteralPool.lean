import Mathlib.Algebra.Order.BigOperators.Group.Finset
import TextPipeline.Proofs.Outcome
import TextPipeline.Proofs.Text.Encoding
import TextPipeline.Wasm.LiteralPool

/-!
Literals stay where they were put. Interning only ever adds bytes at the end, so that a
location which selects a text keeps selecting it while the pool grows, and the host reads that
text back from a memory that starts with the data. What the table and the data of a pool have to do
with each other (`Packed`) holds of the empty pool and is kept by interning (`intern_ok`).
-/

namespace TextPipeline

open Wasm

/-- The bytes of the texts, each text counted once. -/
def bytesOf (texts : List String) : Nat := ∑ text ∈ texts.toFinset, (utf8 text).length

lemma bytesOf_le_of_subset {texts more : List String} (h : texts ⊆ more) :
    bytesOf texts ≤ bytesOf more := by
  refine Finset.sum_le_sum_of_subset fun text htext => ?_
  exact List.mem_toFinset.mpr (h (List.mem_toFinset.mp htext))

lemma bytesOf_cons {text : String} {texts : List String} (h : text ∉ texts) :
    bytesOf (text :: texts) = (utf8 text).length + bytesOf texts := by
  have hnew : text ∉ texts.toFinset := fun hmem => h (List.mem_toFinset.mp hmem)
  rw [bytesOf, bytesOf, List.toFinset_cons, Finset.sum_insert hnew]

namespace Wasm

structure Stored (data : Bytes) (location : Location) (text : String) : Prop where
  inside : location.offset + location.length ≤ data.length
  bytes : (data.drop location.offset).take location.length = utf8 text

lemma Stored.of_longer {data final : Bytes} {location : Location} {text : String}
    (h : Stored data location text) (hp : data <+: final) : Stored final location text := by
  obtain ⟨more, rfl⟩ := hp
  obtain ⟨hin, hbytes⟩ := h
  refine ⟨by rw [List.length_append]; omega, ?_⟩
  rw [List.drop_append_of_le_length (by omega), List.take_append_of_le_length
    (by rw [List.length_drop]; omega), hbytes]

lemma stored_append (data : Bytes) (text : String) :
    Stored (data ++ utf8 text) ⟨data.length, (utf8 text).length⟩ text := by
  refine ⟨Nat.le_of_eq List.length_append.symm, ?_⟩
  rw [List.drop_left, List.take_length]

namespace Location

/-- The stretches have no byte in common. -/
def Apart (l l' : Location) : Prop :=
  l.offset + l.length ≤ l'.offset ∨ l'.offset + l'.length ≤ l.offset

/-- Offset and length are signed integers of 32 bits. -/
def Narrow (l : Location) : Prop := l.offset ≤ LiteralPool.limit ∧ l.length ≤ LiteralPool.limit

end Location

namespace LiteralPool

def texts (pool : LiteralPool) : List String := pool.locations.map Prod.fst

lemma find?_eq_none {pool : LiteralPool} {text : String} :
    pool.find? text = none ↔ text ∉ pool.texts := by
  rw [find?, List.lookup_eq_none_iff, texts, List.mem_map]
  constructor
  · rintro h ⟨entry, hentry, rfl⟩
    simpa using h entry hentry
  · intro h entry hentry
    have hne : text ≠ entry.1 := fun heq => h ⟨entry, hentry, heq.symm⟩
    simpa using hne

/-! ### One call -/

/-- The place of a new text: the end of the data. -/
def place (pool : LiteralPool) (text : String) : Location :=
  ⟨pool.data.length, (utf8 text).length⟩

/-- The pool with a new text. -/
def extended (pool : LiteralPool) (text : String) : LiteralPool :=
  ⟨(text, pool.place text) :: pool.locations, pool.data ++ utf8 text⟩

/-- The data or the text is longer than an offset or a length can be. -/
def Exceeds (pool : LiteralPool) (text : String) : Prop :=
  limit < pool.data.length ∨ limit < (utf8 text).length

lemma limited_of_le {pool : LiteralPool} {n : Nat} (h : n ≤ limit) :
    limited n pool = (.ok n, pool) := by
  rw [limited, if_pos h]
  rfl

lemma limited_of_lt {pool : LiteralPool} {n : Nat} (h : limit < n) :
    limited n pool = (.error (.generation .literalsTooLarge), pool) := by
  rw [limited, if_neg (Nat.not_le_of_lt h)]
  rfl

/-- All that interning can do: the text is there already, or it is put at the end, or there is no
room for it. -/
lemma intern_cases (pool : LiteralPool) (text : String) :
    (∃ location, pool.find? text = some location ∧ pool.intern text = (.ok location, pool)) ∨
      (pool.find? text = none ∧ ¬ pool.Exceeds text ∧
        pool.intern text = (.ok (pool.place text), pool.extended text)) ∨
      (pool.find? text = none ∧ pool.Exceeds text ∧
        pool.intern text = (.error (.generation .literalsTooLarge), pool)) := by
  have hget : (get : Pooling LiteralPool) pool = (.ok pool, pool) := rfl
  have hintern : pool.intern text = locate text pool := rfl
  rw [hintern, locate, run_bind_ok hget]
  cases hfind : pool.find? text with
  | some location => exact .inl ⟨location, rfl, rfl⟩
  | none =>
    simp only
    -- the offset is checked before the length, and both before anything is written
    by_cases hoffset : pool.data.length ≤ limit
    · by_cases hlength : (utf8 text).length ≤ limit
      · refine .inr (.inl ⟨trivial, by unfold Exceeds; omega, ?_⟩)
        rw [add, run_bind_ok hget, run_bind_ok (limited_of_le hoffset),
          run_bind_ok (limited_of_le hlength)]
        rfl
      · have hlength := Nat.lt_of_not_le hlength
        refine .inr (.inr ⟨trivial, .inr hlength, ?_⟩)
        rw [add, run_bind_ok hget, run_bind_ok (limited_of_le hoffset),
          run_bind_error (limited_of_lt hlength)]
    · have hoffset := Nat.lt_of_not_le hoffset
      refine .inr (.inr ⟨trivial, .inl hoffset, ?_⟩)
      rw [add, run_bind_ok hget, run_bind_error (limited_of_lt hoffset)]

lemma find?_extended (pool : LiteralPool) (text other : String) :
    (pool.extended text).find? other =
      if other = text then some (pool.place text) else pool.find? other := by
  by_cases hsame : other = text
  · simp [find?, extended, hsame]
  · have hne : (other == text) = false := beq_eq_false_iff_ne.mpr hsame
    simp only [find?, extended, List.lookup_cons, hne, if_neg hsame]

lemma stored_extended (pool : LiteralPool) (text : String) :
    Stored (pool.extended text).data (pool.place text) text := stored_append _ _

lemma data_le_extended (pool : LiteralPool) (text : String) :
    pool.data <+: (pool.extended text).data := List.prefix_append _ _

lemma length_data_extended (pool : LiteralPool) (text : String) :
    (pool.extended text).data.length = pool.data.length + (utf8 text).length :=
  List.length_append

lemma length_extended {pool : LiteralPool} {text : String}
    (hsize : pool.data.length = bytesOf pool.texts) (hnew : pool.find? text = none) :
    (pool.extended text).data.length = bytesOf (pool.extended text).texts := by
  have htexts : (pool.extended text).texts = text :: pool.texts := rfl
  rw [length_data_extended, htexts, bytesOf_cons (find?_eq_none.mp hnew), hsize, Nat.add_comm]

/-! ### The table and the data -/

/-- The table and the data fit together. -/
structure Packed (pool : LiteralPool) : Prop where
  stored : ∀ text l, pool.find? text = some l → Stored pool.data l text
  apart : ∀ text other l l', pool.find? text = some l → pool.find? other = some l' →
    text ≠ other → l.Apart l'
  narrow : ∀ text l, pool.find? text = some l → l.Narrow
  size : pool.data.length = bytesOf pool.texts
  room : pool.data.length ≤ 2 * limit

lemma packed_empty : empty.Packed where
  stored := fun _ _ h => by cases h
  apart := fun _ _ _ _ h => by cases h
  narrow := fun _ _ h => by cases h
  size := rfl
  room := Nat.zero_le _

namespace Packed

variable {pool : LiteralPool} {text : String} (h : pool.Packed)
include h

lemma extended (hnone : pool.find? text = none) (hroom : ¬ pool.Exceeds text) :
    (pool.extended text).Packed := by
  have hlimit : (pool.place text).Narrow := by
    unfold Exceeds at hroom
    exact ⟨by simp only [place]; omega, by simp only [place]; omega⟩
  -- every text that was there ends where the new one starts, or before
  have hbefore (other : String) (l : Location) (hl : pool.find? other = some l) :
      l.offset + l.length ≤ (pool.place text).offset := (h.stored other l hl).inside
  refine ⟨?_, ?_, ?_, length_extended h.size hnone, ?_⟩
  · intro other l hl
    rw [find?_extended] at hl
    split at hl
    · rename_i hsame
      cases hl
      exact hsame ▸ pool.stored_extended text
    · exact (h.stored other l hl).of_longer (pool.data_le_extended text)
  · intro first second l l' hl hl' hne
    rw [find?_extended] at hl hl'
    split at hl
    · rename_i hfirst
      rw [if_neg (fun hsecond => hne (hfirst.trans hsecond.symm))] at hl'
      cases hl
      exact .inr (hbefore second l' hl')
    · split at hl'
      · cases hl'
        exact .inl (hbefore first l hl)
      · exact h.apart first second l l' hl hl' hne
  · intro other l hl
    rw [find?_extended] at hl
    split at hl
    · cases hl
      exact hlimit
    · exact h.narrow other l hl
  · obtain ⟨hoffset, hlength⟩ := hlimit
    simp only [place] at hoffset hlength
    rw [length_data_extended]
    omega

lemma pages_le : pool.pages * pageSize ≤ 2 ^ 32 := by
  have hroom := h.room
  unfold limit at hroom
  unfold pages pageSize
  omega

end Packed

lemma intern_ok {pool grown : LiteralPool} {text : String} {location : Location}
    (hp : pool.Packed) (h : pool.intern text = (.ok location, grown)) :
    grown.Packed ∧ pool.data <+: grown.data ∧ Stored grown.data location text ∧
      location.Narrow := by
  obtain ⟨found, hfound, hintern⟩ | ⟨hnone, hroom, hintern⟩ | ⟨-, -, hintern⟩ :=
    pool.intern_cases text
  · cases hintern.symm.trans h
    exact ⟨hp, List.prefix_rfl, hp.stored text _ hfound, hp.narrow text _ hfound⟩
  · cases hintern.symm.trans h
    have hgrown := hp.extended hnone hroom
    exact ⟨hgrown, pool.data_le_extended text, pool.stored_extended text,
      hgrown.narrow text _ (by rw [find?_extended, if_pos rfl])⟩
  · cases hintern.symm.trans h

lemma length_le_pages (pool : LiteralPool) : pool.data.length ≤ pool.pages * pageSize := by
  unfold pages pageSize
  omega

end LiteralPool

/-! ### Reading a literal back -/

lemma read?_of_stored {m : Memory} {location : Location} {text : String}
    (h : Stored m.data location text) (hsize : m.data.length ≤ m.size) :
    m.read? location.offset location.length = some (utf8 text) := by
  obtain ⟨hin, hbytes⟩ := h
  have hlen : (utf8 text).length = location.length := by
    rw [← hbytes, List.length_take, List.length_drop]
    omega
  unfold Memory.read?
  rw [if_pos (by omega), hbytes, List.rightpad, hlen]
  simp

lemma literal_of_stored {m : Memory} {location : Location} {text : String}
    (h : Stored m.data location text) (hsize : m.data.length ≤ m.size) :
    Host.literal (some m) location.offset location.length = Builtin.ofLiteral text := by
  unfold Host.literal
  simp only
  rw [if_neg (by omega), Int.toNat_natCast, Int.toNat_natCast, read?_of_stored h hsize]
  simp only [decodeUtf8?_utf8]

end Wasm

end TextPipeline
