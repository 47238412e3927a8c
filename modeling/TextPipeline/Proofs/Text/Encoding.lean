import Mathlib.Data.List.TakeWhile
import TextPipeline.Host

/-!
Characters and their bytes. An ASCII character is one byte, which stands for nothing else: the
bytes of any other character are above all of them. So what ASCII characters delimit is found on
bytes as it is on characters (`takeWhile_encoded`, `dropWhile_encoded_until`).
-/

namespace TextPipeline

open Wasm

/-- The bytes of the characters. -/
def encoded (s : List Char) : Bytes := s.flatMap String.utf8EncodeChar

lemma encoded_cons (c : Char) (s : List Char) :
    encoded (c :: s) = String.utf8EncodeChar c ++ encoded s := List.flatMap_cons

lemma utf8_ofList (s : List Char) : utf8 (String.ofList s) = encoded s := by
  rw [utf8, String.toList_ofList]
  rfl

lemma decodeUtf8?_utf8 (text : String) : decodeUtf8? (utf8 text) = some text := by
  have hbytes : (utf8 text).toByteArray = text.toByteArray := String.utf8Encode_toList
  unfold decodeUtf8? String.fromUTF8?
  rw [hbytes, dif_pos text.isValidUTF8]
  rfl

def IsAscii (c : Char) : Prop := c.toNat < 128

lemma ofUInt8_of_ascii {c : Char} (h : IsAscii c) :
    ∃ b, String.utf8EncodeChar c = [b] ∧ Char.ofUInt8 b = c := by
  have hval : c.val ≤ 127 := by
    rw [UInt32.le_iff_toNat_le]
    exact Nat.le_of_lt_succ h
  refine ⟨_, String.utf8EncodeChar_eq_singleton (Char.utf8Size_eq_one_iff.mpr hval), ?_⟩
  refine Char.ext (UInt32.toNat_inj.mp ?_)
  change c.val.toNat % 2 ^ 8 = c.val.toNat
  exact Nat.mod_eq_of_lt (Nat.lt_trans h (by decide))

lemma ofUInt8_injective {b b' : UInt8} (h : Char.ofUInt8 b = Char.ofUInt8 b') : b = b' := by
  have hval : b.toUInt32 = b'.toUInt32 := congrArg Char.val h
  exact UInt8.toUInt32_inj.mp hval

lemma encoded_cons_of_ascii {c : Char} {b : UInt8} (hb : Char.ofUInt8 b = c) (hc : IsAscii c)
    (s : List Char) : encoded (c :: s) = b :: encoded s := by
  obtain ⟨b', hbytes, hb'⟩ := ofUInt8_of_ascii hc
  obtain rfl := ofUInt8_injective (hb.trans hb'.symm)
  rw [encoded_cons, hbytes, List.singleton_append]

lemma not_isAscii_ofUInt8 {c : Char} (h : ¬ IsAscii c) {b : UInt8}
    (hb : b ∈ String.utf8EncodeChar c) : ¬ IsAscii (Char.ofUInt8 b) := by
  have hval : ¬ c.val.toNat ≤ 127 := fun hc => h (Nat.lt_succ_of_le hc)
  have hnat : (Char.ofUInt8 b).toNat = b.toNat := UInt8.toNat_toUInt32 b
  have hhigh : 128 ≤ b.toNat := by
    unfold String.utf8EncodeChar at hb
    simp only [hval, if_false] at hb
    split at hb
    · -- two bytes
      simp only [List.mem_cons, List.not_mem_nil, or_false] at hb
      rcases hb with rfl | rfl <;> simp <;> omega
    split at hb
    · -- three bytes
      simp only [List.mem_cons, List.not_mem_nil, or_false] at hb
      rcases hb with rfl | rfl | rfl <;> simp <;> omega
    · -- four bytes
      simp only [List.mem_cons, List.not_mem_nil, or_false] at hb
      rcases hb with rfl | rfl | rfl | rfl <;> simp <;> omega
  unfold IsAscii
  omega

/-- How bytes start with the character `c`, before the characters `s`. -/
inductive Front (c : Char) (s : List Char) : Bytes → Prop
  | ascii {b : UInt8} : Char.ofUInt8 b = c → IsAscii c → Front c s (b :: encoded s)
  | other {b : UInt8} {bs : Bytes} : ¬ IsAscii (Char.ofUInt8 b) → ¬ IsAscii c → Front c s (b :: bs)

lemma front_encoded (c : Char) (s : List Char) : Front c s (encoded (c :: s)) := by
  rw [encoded_cons]
  by_cases h : IsAscii c
  · obtain ⟨b, hb, hc⟩ := ofUInt8_of_ascii h
    rw [hb]
    exact .ascii hc h
  · cases hbytes : String.utf8EncodeChar c with
    | nil => exact absurd hbytes String.utf8EncodeChar_ne_nil
    | cons b bs => exact .other (not_isAscii_ofUInt8 h (hbytes ▸ List.mem_cons_self)) h

/-! ### Stretches -/

lemma encoded_prefix_iff {t s : List Char} (ht : ∀ c ∈ t, IsAscii c) :
    encoded t <+: encoded s ↔ t <+: s := by
  induction t generalizing s with
  | nil => exact ⟨fun _ => List.nil_prefix, fun _ => List.nil_prefix⟩
  | cons d t ih =>
    have hascii := ht d List.mem_cons_self
    obtain ⟨b, _, hd⟩ := ofUInt8_of_ascii hascii
    rw [encoded_cons_of_ascii hd hascii]
    cases s with
    | nil => simp [encoded]
    | cons c s =>
      have hfront := front_encoded c s
      generalize encoded (c :: s) = bytes at hfront ⊢
      rw [List.cons_prefix_cons]
      cases hfront with
      | ascii hc _ =>
        rw [List.cons_prefix_cons, ih fun c hc => ht c (List.mem_cons_of_mem _ hc), ← hc, ← hd]
        exact and_congr_left fun _ => ⟨fun h => h ▸ rfl, ofUInt8_injective⟩
      | other hb hc =>
        rw [List.cons_prefix_cons]
        constructor
        · -- an ASCII character is not the first byte of another character
          rintro ⟨rfl, -⟩
          exact absurd (hd ▸ hascii) hb
        · rintro ⟨rfl, -⟩
          exact absurd hascii hc

section Span

variable {p : Char → Bool} (hp : ∀ c, p c → IsAscii c)
include hp

lemma takeWhile_encoded (s : List Char) :
    (encoded s).takeWhile (fun b => p (Char.ofUInt8 b)) = encoded (s.takeWhile p) := by
  induction s with
  | nil => rfl
  | cons c s ih =>
    by_cases h : p c
    · obtain ⟨b, _, hc⟩ := ofUInt8_of_ascii (hp c h)
      rw [encoded_cons_of_ascii hc (hp c h), List.takeWhile_cons_of_pos h,
        encoded_cons_of_ascii hc (hp c h), List.takeWhile_cons_of_pos (by rwa [hc]), ih]
    · -- the stretch ends with this character, whose first byte shows it
      have hfront := front_encoded c s
      generalize encoded (c :: s) = bytes at hfront ⊢
      rw [List.takeWhile_cons_of_neg h]
      obtain ⟨hb, _⟩ | ⟨hb, _⟩ := hfront
      · exact List.takeWhile_cons_of_neg (by rwa [hb])
      · exact List.takeWhile_cons_of_neg fun h => hb (hp _ h)

lemma dropWhile_encoded (s : List Char) :
    (encoded s).dropWhile (fun b => p (Char.ofUInt8 b)) = encoded (s.dropWhile p) := by
  have hs : encoded (s.takeWhile p) ++ encoded (s.dropWhile p) = encoded s := by
    rw [encoded, encoded, ← List.flatMap_append, List.takeWhile_append_dropWhile]
    rfl
  have hall := List.takeWhile_append_dropWhile (p := fun b => p (Char.ofUInt8 b)) (l := encoded s)
  rw [takeWhile_encoded hp] at hall
  exact List.append_cancel_left (hall.trans hs.symm)

end Span

lemma dropWhile_encoded_until {p : Char → Bool} (hp : ∀ c, ¬ IsAscii c → p c) (s : List Char) :
    (encoded s).dropWhile (fun b => p (Char.ofUInt8 b)) = encoded (s.dropWhile p) := by
  induction s with
  | nil => rfl
  | cons c s ih =>
    by_cases h : IsAscii c
    · obtain ⟨b, _, hc⟩ := ofUInt8_of_ascii h
      rw [encoded_cons_of_ascii hc h, List.dropWhile_cons, List.dropWhile_cons, hc, ih]
      split
      · rfl
      · rw [encoded_cons_of_ascii hc h]
    · -- none of the bytes of the character ends the stretch
      rw [encoded_cons, List.dropWhile_cons_of_pos (hp c h), ← ih]
      exact List.dropWhile_append_of_pos fun b hb => hp _ (not_isAscii_ofUInt8 h hb)

end TextPipeline
