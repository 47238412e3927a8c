/-!
LEB128: a number as bytes of seven bits each, lowest first, every byte but the last with its
high bit set. Both forms below are the shortest; in the signed one the second highest bit of
the last byte is the sign.
-/

namespace TextPipeline.Wasm

/-- An unsigned number. -/
def leb128 (n : Nat) : List UInt8 :=
  if n < 128 then [UInt8.ofNat n]
  else UInt8.ofNat (n % 128 + 128) :: leb128 (n / 128)
termination_by n
decreasing_by omega

/-- A signed number. -/
def signedLeb128 (z : Int) : List UInt8 :=
  if -64 ≤ z ∧ z < 64 then [UInt8.ofNat (z % 128).toNat]
  else UInt8.ofNat ((z % 128).toNat + 128) :: signedLeb128 (z / 128)
termination_by z.natAbs
decreasing_by omega

end TextPipeline.Wasm
