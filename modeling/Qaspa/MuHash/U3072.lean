import Qaspa.Lib.Limbs
import Qaspa.Lib.LittleEndian

/-! # Arithmetic modulo 2^3072 - 1103717

The field arithmetic of the multiset hash on 48 limbs. Values are kept possibly
non-reduced; multiplication computes the product column by column, folding the
columns above the top limb back in with the difference between the modulus and
the power of two. Every operation is followed here down to the carries, so the
assertions and the overflow checks of the code are part of the model.
-/

namespace Qaspa.MuHash

open Limbs LittleEndian List

def elementBitSize : Nat := 3072

def elementByteSize : Nat := elementBitSize / 8

def limbSizeBytes : Nat := 8

/-- The number of limbs, 48. -/
def limbCount : Nat := elementByteSize / limbSizeBytes

def limbMax : UInt64 := 0xFFFFFFFFFFFFFFFF

def primeDiff : UInt64 := 1103717

/-- The modulus, as a number. -/
def prime : Nat := radix ^ limbCount - primeDiff.toNat

@[ext]
structure U3072 where
  limbs : List UInt64
  length_limbs : limbs.length = limbCount
  deriving DecidableEq

/-- The low, high and carry limbs of a column sum. -/
@[ext]
structure Column where
  low : UInt64
  high : UInt64
  carry : UInt64
  deriving DecidableEq

/-- Code that returns or panics. -/
abbrev Checked := Outcome Empty

/-- Add a product of two limbs to a column sum. -/
def muladd3 (a b : UInt64) (column : Column) : Checked Column := do
  let product := mulWide a b
  let low := overflowingAdd column.low product.1
  let high ← checkedAdd product.2 low.2
  let high := overflowingAdd column.high high
  let carry ← checkedAdd column.carry high.2
  .ok ⟨low.1, high.1, carry⟩

/-- Add `n` times a column sum to a two-limb number. The intermediate sums fit the
128-bit words in which they are computed. -/
def mulnadd3 (c0 c1 : UInt64) (d : Column) (n : UInt64) : Checked Column := do
  let lowSum := d.low.toNat * n.toNat + c0.toNat
  let highSum := lowSum / radix + (d.high.toNat * n.toNat + c1.toNat)
  let product ← checkedMul d.carry n
  let carry ← checkedAdd (UInt64.ofNat (highSum / radix)) product
  .ok ⟨UInt64.ofNat lowSum, UInt64.ofNat highSum, carry⟩

/-- The two low limbs of `n` times a two-limb number. -/
def muln2 (low high n : UInt64) : UInt64 × UInt64 :=
  (UInt64.ofNat (low.toNat * n.toNat),
    UInt64.ofNat (low.toNat * n.toNat / radix + high.toNat * n.toNat))

namespace U3072

def value (x : U3072) : Nat := Limbs.value x.limbs

def zero : U3072 := ⟨List.replicate limbCount 0, List.length_replicate⟩

def one : U3072 := ⟨zero.limbs.set 0 1, by rw [List.length_set, zero.length_limbs]⟩

/-- Whether the value is at least the modulus. -/
def isOverflow (x : U3072) : Bool :=
  match x.limbs with
  | [] => false
  | first :: rest => if first ≤ limbMax - primeDiff then false else rest.all (· == limbMax)

/-- Add a two-limb carry, returning the carry out of the top limb. -/
def addCarry (x : U3072) (low high : UInt64) : U3072 × UInt64 × UInt64 :=
  (⟨(propagate low high x.limbs).1, by rw [propagate_length, x.length_limbs]⟩,
    (propagate low high x.limbs).2)

def fullReduce (x : U3072) : U3072 := (x.addCarry primeDiff 0).1

/-- The limb at an index, which must be in range. -/
def limb (x : U3072) (index : Nat) : Checked UInt64 := Outcome.unwrap x.limbs[index]?

def setLimb (x : U3072) (index : Nat) (limb : UInt64) : Checked U3072 :=
  if index < limbCount then
    .ok ⟨x.limbs.set index limb, by rw [List.length_set, x.length_limbs]⟩
  else .error .panic

/-- Add the products of the limbs from `start` to `stop` whose indices add up to
`sum`. -/
def addProducts (x y : U3072) (start stop sum : Nat) (column : Column) : Checked Column :=
  (List.range' start (stop - start)).foldlM (fun column index => do
    muladd3 (← x.limb index) (← y.limb (sum - index)) column) column

/-- One column of the product: the products above the top limb, times the
difference, and those of the column itself. The lowest limb goes to the result and
the column moves on by one limb. -/
def mulStep (x y : U3072) (state : U3072 × Column) (index : Nat) : Checked (U3072 × Column) := do
  let first := mulWide (← x.limb (index + 1)) (← y.limb (limbCount + index - (1 + index)))
  let above ← addProducts x y (2 + index) limbCount (limbCount + index) ⟨first.1, first.2, 0⟩
  let column ← mulnadd3 state.2.low state.2.high above primeDiff
  let column ← addProducts x y 0 (index + 1) index column
  let result ← state.1.setLimb index column.low
  .ok (result, ⟨column.high, column.carry, 0⟩)

/-- The reductions after the last carry. -/
def finish (x : U3072) (carry : UInt64) : U3072 :=
  let x := if x.isOverflow then x.fullReduce else x
  if carry != 0 then x.fullReduce else x

def mul (x y : U3072) : Checked U3072 :=
  if x = one then .ok y else do
    let state ← (List.range (limbCount - 1)).foldlM (mulStep x y) (one, ⟨0, 0, 0⟩)
    Outcome.assert (state.2.carry == 0)
    let column ← addProducts x y 0 limbCount (limbCount - 1) state.2
    let result ← state.1.setLimb (limbCount - 1) column.low
    -- the second reduction folds the carry out of the top limb back in
    let carry := muln2 column.high column.carry primeDiff
    let sum := result.addCarry carry.1 carry.2
    Outcome.assert (sum.2.2 == 0)
    Outcome.assert (sum.2.1 == 0 || sum.2.1 == 1)
    .ok (finish sum.1 sum.2.1)

/-! ## Inverse and division -/

/-- The modulus as limbs. -/
def uintPrime : U3072 :=
  ⟨(List.replicate limbCount limbMax).set 0 (limbMax - (primeDiff - 1)), by simp⟩

/-- The modular inverse of arbitrary-precision naturals, by its specification: it
takes a positive reduced argument and finds the inverse if there is one. -/
def naturalModInverse (x modulus : Nat) : Checked (Option Nat) :=
  if x = 0 ∨ modulus ≤ x then .error .panic
  else if x.Coprime modulus then .ok (some (x.gcdA modulus % modulus).toNat)
  else .ok none

/-- Copy the limbs of a natural into a zeroed array, which must hold them. -/
def ofNatural (n : Nat) : Checked U3072 :=
  if hfits : n < radix ^ limbCount then
    .ok ⟨(Nat.digitsAppend radix limbCount n).map UInt64.ofNat, by
      rw [List.length_map, Nat.length_digitsAppend (by decide) _ hfits]⟩
  else .error .panic

def modInverse (x modulus : U3072) : Checked (Option U3072) := do
  match ← naturalModInverse x.value modulus.value with
  | some inverse => .ok (some (← ofNatural inverse))
  | none => .ok none

def inverse (x : U3072) : Checked U3072 :=
  let reduced := if x.isOverflow then x.fullReduce else x
  if reduced = zero then .ok reduced
  else do Outcome.unwrap (← modInverse reduced uintPrime)

def div (x y : U3072) : Checked U3072 := do
  let inverse ← if y.isOverflow then y.fullReduce.inverse else y.inverse
  let x := if x.isOverflow then x.fullReduce else x
  let quotient ← x.mul inverse
  .ok (if quotient.isOverflow then quotient.fullReduce else quotient)

end U3072

/-! ## Bytes -/

/-- The byte array of an element. -/
abbrev ElementBytes := { bytes : List UInt8 // bytes.length = elementByteSize }

/-- Read limbs from consecutive chunks of eight bytes. -/
def limbsOfBytes : Nat → List UInt8 → List UInt64
  | 0, _ => []
  | count + 1, bytes =>
    UInt64.ofNat (decode (bytes.take limbSizeBytes)) ::
      limbsOfBytes count (bytes.drop limbSizeBytes)

def bytesOfLimbs (limbs : List UInt64) : List UInt8 :=
  limbs.flatMap fun limb => encode limbSizeBytes limb.toNat

theorem limbsOfBytes_length (count : Nat) (bytes : List UInt8) :
    (limbsOfBytes count bytes).length = count := by
  induction count generalizing bytes with
  | zero => rfl
  | succ count ih => simp [limbsOfBytes, ih]

theorem bytesOfLimbs_length (limbs : List UInt64) :
    (bytesOfLimbs limbs).length = limbSizeBytes * limbs.length := by
  induction limbs with
  | nil => rfl
  | cons limb limbs ih =>
    rw [bytesOfLimbs, flatMap_cons, length_append, encode_length,
      ← bytesOfLimbs, ih, length_cons, Nat.mul_succ, Nat.add_comm]

/-- Reading back the bytes of limbs gives the limbs. -/
theorem limbsOfBytes_bytesOfLimbs (limbs : List UInt64) :
    limbsOfBytes limbs.length (bytesOfLimbs limbs) = limbs := by
  induction limbs with
  | nil => rfl
  | cons limb limbs ih =>
    have hencode := encode_length limbSizeBytes limb.toNat
    have hlimb : UInt64.ofNat (decode
        (encode limbSizeBytes limb.toNat)) = limb := by
      rw [decode_encode limb.toNat_lt, UInt64.ofNat_toNat]
    rw [length_cons, limbsOfBytes, bytesOfLimbs, flatMap_cons,
      take_left' hencode, drop_left' hencode, hlimb, ← bytesOfLimbs, ih]

namespace U3072

def fromLeBytes (bytes : ElementBytes) : U3072 :=
  ⟨limbsOfBytes limbCount bytes.1, limbsOfBytes_length limbCount bytes.1⟩

def toLeBytes (x : U3072) : ElementBytes :=
  ⟨bytesOfLimbs x.limbs, by rw [bytesOfLimbs_length, x.length_limbs]; rfl⟩

theorem fromLeBytes_toLeBytes (x : U3072) : fromLeBytes x.toLeBytes = x := by
  ext1
  rw [fromLeBytes, toLeBytes]
  simp only
  rw [← x.length_limbs, limbsOfBytes_bytesOfLimbs]

end U3072

end Qaspa.MuHash
