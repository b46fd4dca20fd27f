import Mathlib.Tactic.LinearCombination
import Qaspa.Lib.Limbs

/-! # Multiplication of fixed-width integers

`overflowing_mul` of the types that `construct_uint!` builds, for any number of limbs. The rows of
the schoolbook product are cut at the top limb: a pair of limbs whose product lies above it is not
multiplied, and the flag sees only the carries out of the rows.
-/

namespace Qaspa.Math

open Limbs Outcome List Nat

/-- An integer of `n` limbs, lowest limb first. -/
structure Uint (n : Nat) where
  limbs : List UInt64
  length_eq : limbs.length = n
deriving DecidableEq

/-- The inner loop: add the products of the limbs with one factor to the limbs of the result from
the row's position on. The returned word is the carry out of the top limb. -/
def mulRow (factor : UInt64) : List UInt64 → List UInt64 → UInt64 → List UInt64 × UInt64
  | result :: results, limb :: limbs, carry =>
    let n := limb.toNat * factor.toNat + result.toNat + carry.toNat
    let (results, carry) := mulRow factor results limbs (.ofNat (n / radix))
    (.ofNat n :: results, carry)
  | results, _, carry => (results, carry)

/-- The outer loop, from row `j` on. -/
def mulRows (self : List UInt64) : List UInt64 → Nat → List UInt64 → Bool → List UInt64 × Bool
  | [], _, result, carryOut => (result, carryOut)
  | factor :: other, j, result, carryOut =>
    let (row, carry) := mulRow factor (result.drop j) self 0
    mulRows self other (j + 1) (result.take j ++ row) (carryOut || carry != 0)

theorem length_mulRow (factor : UInt64) (results limbs : List UInt64) (carry : UInt64) :
    (mulRow factor results limbs carry).1.length = results.length := by
  fun_induction mulRow factor results limbs carry with
  | case1 result results limb limbs carry n row last heq ih => simp_all
  | case2 => rfl

theorem length_mulRows (self other : List UInt64) (j : Nat) (result : List UInt64)
    (carryOut : Bool) : (mulRows self other j result carryOut).1.length = result.length := by
  induction other generalizing j result carryOut with
  | nil => rfl
  | cons factor other ih =>
    rw [mulRows, ih, length_append, length_mulRow, ← length_append, take_append_drop]

theorem mulRow_value (factor : UInt64) (results limbs : List UInt64) (carry : UInt64)
    (hlength : results.length ≤ limbs.length) :
    value (mulRow factor results limbs carry).1 +
        radix ^ results.length * (mulRow factor results limbs carry).2.toNat =
      value results + factor.toNat * value (limbs.take results.length) + carry.toNat := by
  induction results generalizing limbs carry with
  | nil => simp [mulRow]
  | cons result results ih =>
    obtain ⟨limb, limbs, rfl⟩ := exists_cons_of_length_pos ((succ_pos _).trans_le hlength)
    have hproduct := mul_le_of_words limb factor
    have hresult := result.toNat_lt
    have hcarry := carry.toNat_lt
    set n := limb.toNat * factor.toNat + result.toNat + carry.toNat with hn
    -- The sum fits two words, so that no bit is lost between them.
    have hhigh : (UInt64.ofNat (n / radix)).toNat = n / radix := by
      simp only [radix, UInt64.toNat_ofNat'] at hproduct ⊢
      omega
    have hlow : (UInt64.ofNat n).toNat = n % radix := UInt64.toNat_ofNat'
    have hrow := ih limbs (.ofNat (n / radix)) (le_of_succ_le_succ hlength)
    have hsplit := mod_add_div n radix
    rw [hhigh] at hrow
    simp only [mulRow, ← hn, value_cons, hlow, take_succ_cons, length_cons, pow_succ']
    linear_combination radix * hrow + hsplit + hn

theorem mul_value_drop_eq_zero {limbs : List UInt64} {m factor : Nat} :
    factor * value (limbs.drop m) = 0 ↔
      ∀ i < limbs.length, m ≤ i → digit limbs i * factor = 0 := by
  have hdigit : ∀ i, digit (limbs.drop m) i = digit limbs (m + i) := by
    simp [digit, getD_eq_getElem?_getD]
  rw [value_eq_sum, Finset.mul_sum, Finset.sum_eq_zero_iff]
  constructor
  · intro hzero i hi hm
    have hterm := hzero (i - m) (by rw [length_drop, Finset.mem_range]; omega)
    rw [hdigit, Nat.add_sub_cancel' hm, ← mul_assoc, mul_comm factor] at hterm
    exact (Nat.mul_eq_zero.mp hterm).resolve_right (by simp [radix])
  · intro hpairs i hi
    rw [length_drop, Finset.mem_range] at hi
    rw [hdigit, ← mul_assoc, mul_comm factor, hpairs _ (by omega) (le_add_right m i), zero_mul]

/-- The rows from `j` on add their part of the product, but for the carries out of the rows and the
pairs of limbs above the top limb. -/
theorem mulRows_value {n lost : Nat} {self result : List UInt64} (hself : self.length = n)
    (other : List UInt64) (j : Nat) (carryOut : Bool) (hresult : result.length = n)
    (hj : j + other.length = n) (hlost : carryOut = true ↔ lost ≠ 0) :
    ∃ lost' skipped, value (mulRows self other j result carryOut).1 +
      radix ^ n * (lost' + skipped) =
        value result + radix ^ n * lost + radix ^ j * (value self * value other) ∧
      ((mulRows self other j result carryOut).2 = true ↔ lost' ≠ 0) ∧
      (skipped = 0 ↔
        ∀ i < n, ∀ k < other.length, n ≤ i + (j + k) → digit self i * digit other k = 0) := by
  induction other generalizing j result carryOut lost with
  | nil => exact ⟨lost, 0, by simp [mulRows], hlost, by simp⟩
  | cons factor other ih =>
    rw [length_cons] at hj
    have hlength := length_mulRow factor (result.drop j) self 0
    have hrow := mulRow_value factor (result.drop j) self 0 (by simp; omega)
    rw [mulRows]
    generalize mulRow factor (result.drop j) self 0 = row at hlength hrow ⊢
    rw [length_drop, hresult] at hlength hrow
    rw [UInt64.toNat_zero, add_zero] at hrow
    have htake : (result.take j).length = j := by simp; omega
    have hcarry : (carryOut || row.2 != 0) = true ↔ lost + row.2.toNat ≠ 0 := by
      simp [hlost, ← UInt64.toNat_inj]
      omega
    have hlength' : (result.take j ++ row.1).length = n := by
      rw [length_append, htake, hlength]
      omega
    obtain ⟨lost', skipped, hvalue, hflag, hskipped⟩ := ih (j + 1) _ hlength' (by omega) hcarry
    have hsplit := value_append (result.take j) (result.drop j)
    have hself' := value_append (self.take (n - j)) (self.drop (n - j))
    have hpow : radix ^ j * radix ^ (n - j) = radix ^ n := by
      rw [← pow_add, Nat.add_sub_cancel' (by omega)]
    rw [take_append_drop, htake] at hsplit
    rw [take_append_drop, length_take_of_le (by omega)] at hself'
    rw [value_append, htake] at hvalue
    refine ⟨lost', skipped + factor.toNat * value (self.drop (n - j)), ?_, hflag, ?_⟩
    · rw [hsplit, value_cons]
      linear_combination hvalue + radix ^ j * hrow + radix ^ j * factor.toNat * hself'.symm +
        (factor.toNat * value (self.drop (n - j)) + row.2.toNat) * hpow.symm
    · rw [Nat.add_eq_zero_iff, hskipped, mul_value_drop_eq_zero, hself]
      constructor
      · rintro ⟨hrest, hfirst⟩ i hi k hk hik
        cases k with
        | zero => exact hfirst i hi (by omega)
        | succ k => exact hrest i hi k (lt_of_succ_lt_succ hk) (by omega)
      · intro hpairs
        exact ⟨fun i hi k hk hik => hpairs i hi (k + 1) (succ_lt_succ hk) (by omega),
          fun i hi hij => hpairs i hi 0 (succ_pos _) (by omega)⟩

namespace Uint

variable {n : Nat}

def overflowingMul (self other : Uint n) : Uint n × Bool :=
  let product := mulRows self.limbs other.limbs 0 (List.replicate n 0) false
  (⟨product.1, (length_mulRows ..).trans List.length_replicate⟩, product.2)

/-- The operator `*`, whose check of the flag is compiled in debug builds. -/
def mul (self other : Uint n) : Outcome Empty (Uint n) := do
  let (product, carry) := self.overflowingMul other
  assert !carry
  pure product

/-- The number the limbs stand for. -/
def value (self : Uint n) : Nat := Limbs.value self.limbs

theorem value_lt (self : Uint n) : self.value < 2 ^ (64 * n) := by
  have hlt := Limbs.value_lt self.limbs
  rw [self.length_eq, radix, ← pow_mul] at hlt
  exact hlt

/-- No two limbs that are not multiplied with each other are both non-zero. -/
def LowPairs (self other : Uint n) : Prop :=
  ∀ i < n, ∀ j < n, n ≤ i + j → digit self.limbs i * digit other.limbs j = 0

instance (self other : Uint n) : Decidable (LowPairs self other) := by
  unfold LowPairs
  infer_instance

theorem overflowingMul_split (self other : Uint n) :
    ∃ lost skipped, (self.overflowingMul other).1.value + 2 ^ (64 * n) * (lost + skipped) =
        self.value * other.value ∧
      ((self.overflowingMul other).2 = true ↔ lost ≠ 0) ∧ (skipped = 0 ↔ LowPairs self other) := by
  have hzero : Limbs.value (replicate n 0) = 0 := by
    simp [Limbs.value, ofDigits_replicate_zero]
  obtain ⟨lost, skipped, hvalue, hflag, hskipped⟩ :=
    mulRows_value self.length_eq other.limbs 0 false length_replicate
      ((zero_add _).trans other.length_eq) (iff_of_false (by simp) (not_not.mpr rfl))
  rw [hzero, mul_zero, zero_add, zero_add, pow_zero, one_mul, radix, ← pow_mul] at hvalue
  simp only [other.length_eq, zero_add] at hskipped
  exact ⟨lost, skipped, hvalue, hflag, hskipped⟩

/-- The product is right up to the width. -/
theorem value_overflowingMul (self other : Uint n) :
    (self.overflowingMul other).1.value = self.value * other.value % 2 ^ (64 * n) := by
  obtain ⟨lost, skipped, hvalue, _⟩ := overflowingMul_split self other
  rw [← hvalue, add_mul_mod_self_left, mod_eq_of_lt (value_lt _)]

theorem le_value_mul_iff (self other : Uint n) :
    2 ^ (64 * n) ≤ self.value * other.value ↔
      (self.overflowingMul other).2 = true ∨ ¬ LowPairs self other := by
  have hlt := (self.overflowingMul other).1.value_lt
  obtain ⟨lost, skipped, hvalue, hflag, hskipped⟩ := overflowingMul_split self other
  rw [hflag, ← hskipped, ← hvalue]
  by_cases hzero : lost + skipped = 0
  · obtain ⟨rfl, rfl⟩ := Nat.add_eq_zero_iff.mp hzero
    simpa using hlt
  · have hle := Nat.le_mul_of_pos_right (2 ^ (64 * n)) (Nat.pos_of_ne_zero hzero)
    exact iff_of_true (Nat.le_add_left_of_le hle) (by omega)

theorem mul_eq_ok {self other product : Uint n} :
    self.mul other = .ok product ↔
      (self.overflowingMul other).2 = false ∧ (self.overflowingMul other).1 = product := by
  simp [mul, bind_eq_ok, assert_eq_ok]

end Uint

end Qaspa.Math
