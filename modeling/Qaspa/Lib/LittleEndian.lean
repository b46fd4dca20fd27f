import Mathlib.Tactic.Ring

/-! # Little-endian byte strings

Fixed-width little-endian encodings of natural numbers. Decoding inverts
encoding on numbers that fit, and encoding inverts decoding on byte strings of
the declared width, so the two are a bijection between the numbers below
`256 ^ width` and the byte strings of length `width`.
-/

namespace Qaspa.LittleEndian

/-- The `width` least significant bytes of a number, lowest byte first. -/
def encode : Nat → Nat → List UInt8
  | 0, _ => []
  | width + 1, value => UInt8.ofNat value :: encode width (value / 256)

/-- The number whose little-endian bytes are given. -/
def decode : List UInt8 → Nat
  | [] => 0
  | byte :: rest => byte.toNat + 256 * decode rest

@[simp] theorem encode_length (width value : Nat) : (encode width value).length = width := by
  induction width generalizing value with
  | zero => rfl
  | succ width ih => simp [encode, ih]

theorem decode_lt (bytes : List UInt8) : decode bytes < 256 ^ bytes.length := by
  induction bytes with
  | nil => simp [decode]
  | cons byte rest ih =>
    have hbyte : byte.toNat < 256 := byte.toNat_lt
    simp only [decode, List.length_cons]
    omega

/-- Decoding recovers the encoded number modulo the width. -/
theorem decode_encode_mod (width value : Nat) :
    decode (encode width value) = value % 256 ^ width := by
  induction width generalizing value with
  | zero => simp [encode, decode, Nat.mod_one]
  | succ width ih =>
    have hbyte : (UInt8.ofNat value).toNat = value % 256 := by simp
    rw [encode, decode, ih, hbyte, pow_succ, Nat.mul_comm, Nat.mul_comm (256 ^ width), Nat.mod_mul]
    ring

theorem decode_encode {width value : Nat} (hfits : value < 256 ^ width) :
    decode (encode width value) = value := by
  rw [decode_encode_mod, Nat.mod_eq_of_lt hfits]

/-- Every byte string of the declared width is the encoding of its value. -/
theorem encode_decode (bytes : List UInt8) : encode bytes.length (decode bytes) = bytes := by
  induction bytes with
  | nil => rfl
  | cons byte rest ih =>
    have hbyte : byte.toNat < 256 := byte.toNat_lt
    have hdiv : (byte.toNat + 256 * decode rest) / 256 = decode rest := by omega
    have hlow : UInt8.ofNat (byte.toNat + 256 * decode rest) = byte := by
      apply UInt8.toNat_inj.mp
      simp only [UInt8.toNat_ofNat']
      omega
    simp only [List.length_cons, encode, decode, hdiv, hlow, ih]

theorem encode_decode_of_length {bytes : List UInt8} {width : Nat}
    (hlength : bytes.length = width) : encode width (decode bytes) = bytes := by
  rw [← hlength, encode_decode]

end Qaspa.LittleEndian
