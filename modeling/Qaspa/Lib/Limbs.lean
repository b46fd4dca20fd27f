import Mathlib.Algebra.BigOperators.Ring.Finset
import Mathlib.Data.Nat.Digits.Lemmas
import Qaspa.Lib.Outcome

/-! # Multi-limb numbers

A number of arbitrary size is a list of 64-bit limbs, lowest limb first. This is
the arithmetic that limb code rests on: the value of a limb list, the primitive
word operations with their exact values, the propagation of a two-limb carry
through a list, and the schoolbook product sorted by columns.
-/

namespace Qaspa.Limbs

open Finset Nat

/-- The number of values of a limb. -/
def radix : Nat := 2 ^ 64

/-! ## Values of limb lists -/

/-- The number a limb list stands for. -/
def value (limbs : List UInt64) : Nat := Nat.ofDigits radix (limbs.map UInt64.toNat)

/-- The limb at an index, zero beyond the end. -/
def digit (limbs : List UInt64) (index : Nat) : Nat := (limbs.getD index 0).toNat

@[simp] theorem value_nil : value [] = 0 := rfl

@[simp] theorem value_cons (limb : UInt64) (limbs : List UInt64) :
    value (limb :: limbs) = limb.toNat + radix * value limbs := by
  simp [value, ofDigits_cons]

theorem digits_lt (limbs : List UInt64) : ∀ limb ∈ limbs.map UInt64.toNat, limb < radix := by
  intro limb hlimb
  obtain ⟨word, _, rfl⟩ := List.mem_map.mp hlimb
  exact word.toNat_lt

theorem value_lt (limbs : List UInt64) : value limbs < radix ^ limbs.length := by
  simpa [value] using ofDigits_lt_base_pow_length (by decide) (digits_lt limbs)

theorem value_append (low high : List UInt64) :
    value (low ++ high) = value low + radix ^ low.length * value high := by
  simp [value, ofDigits_append]

/-- Limb lists of one length are determined by their value. -/
theorem value_injective {left right : List UInt64} (hlength : left.length = right.length)
    (hvalue : value left = value right) : left = right := by
  have hdigits := ofDigits_inj_of_len_eq (by decide) (by simpa using hlength)
    (digits_lt left) (digits_lt right) hvalue
  exact List.map_injective_iff.mpr (fun _ _ => UInt64.toNat_inj.mp) hdigits

theorem value_eq_sum (limbs : List UInt64) :
    value limbs = ∑ index ∈ range limbs.length, digit limbs index * radix ^ index := by
  induction limbs with
  | nil => simp
  | cons limb limbs ih =>
    rw [value_cons, List.length_cons, sum_range_succ', ih, mul_sum]
    simp only [digit, List.getD_cons_succ, List.getD_cons_zero, pow_succ, pow_zero, mul_one]
    rw [add_comm]
    congr 1
    refine sum_congr rfl fun index _ => ?_
    ring

variable {limbs : List UInt64} (left right : UInt64)

theorem digit_set {index : Nat} (hindex : index < limbs.length) (limb : UInt64) (other : Nat) :
    digit (limbs.set index limb) other =
      if other = index then limb.toNat else digit limbs other := by
  unfold digit
  by_cases heq : other = index
  · subst heq
    simp [hindex]
  · simp [heq, List.getElem?_set_ne (Ne.symm heq)]

/-- The value when all limbs are the largest word, one below the next power. -/
theorem value_add_one_of_all_max (hmax : ∀ limb ∈ limbs, limb.toNat = radix - 1) :
    value limbs + 1 = radix ^ limbs.length := by
  induction limbs with
  | nil => rfl
  | cons limb limbs ih =>
    have hrest := ih fun word hword => hmax word (.tail _ hword)
    have hlimb := hmax limb (.head _)
    rw [value_cons, List.length_cons, pow_succ, ← hrest, hlimb]
    simp only [radix]
    omega

/-- Otherwise the value stays below that by at least one more. -/
theorem value_add_one_lt_of_not_max (hmax : ¬ ∀ limb ∈ limbs, limb.toNat = radix - 1) :
    value limbs + 1 < radix ^ limbs.length := by
  induction limbs with
  | nil => exact absurd (by simp) hmax
  | cons limb limbs ih =>
    have hlimb := limb.toNat_lt
    have hlt := value_lt limbs
    rw [value_cons, List.length_cons]
    by_cases hrest : ∀ word ∈ limbs, word.toNat = radix - 1
    · have hne : limb.toNat ≠ radix - 1 := fun heq => hmax (by simpa [heq] using hrest)
      simp only [radix] at hlt hne ⊢
      omega
    · have hrest := ih hrest
      simp only [radix] at hrest ⊢
      omega

/-! ## Word operations -/

/-- Addition with the overflow as a separate limb. -/
def overflowingAdd (left right : UInt64) : UInt64 × UInt64 :=
  (left + right, if left.toNat + right.toNat < radix then 0 else 1)

theorem overflowingAdd_value :
    (overflowingAdd left right).1.toNat + radix * (overflowingAdd left right).2.toNat =
      left.toNat + right.toNat := by
  have hleft := left.toNat_lt
  have hright := right.toNat_lt
  by_cases hfits : left.toNat + right.toNat < radix
  · simp only [overflowingAdd, if_pos hfits, UInt64.toNat_add, UInt64.toNat_zero]
    simp only [radix] at hfits ⊢
    omega
  · simp only [overflowingAdd, if_neg hfits, UInt64.toNat_add, UInt64.toNat_one]
    simp only [radix] at hfits ⊢
    omega

theorem overflowingAdd_overflow_le : (overflowingAdd left right).2.toNat ≤ 1 := by
  simp only [overflowingAdd]
  split <;> simp

/-- The two limbs of a product. -/
def mulWide (left right : UInt64) : UInt64 × UInt64 :=
  (UInt64.ofNat (left.toNat * right.toNat), UInt64.ofNat (left.toNat * right.toNat / radix))

theorem mul_le_of_words : left.toNat * right.toNat ≤ (radix - 1) * (radix - 1) :=
  Nat.mul_le_mul (Nat.le_pred_of_lt left.toNat_lt) (Nat.le_pred_of_lt right.toNat_lt)

theorem mulWide_value :
    (mulWide left right).1.toNat + radix * (mulWide left right).2.toNat =
      left.toNat * right.toNat := by
  have hle := mul_le_of_words left right
  simp only [mulWide, radix, UInt64.toNat_ofNat'] at hle ⊢
  omega

/-- The high limb of a product leaves room for one overflow. -/
theorem mulWide_high_lt : (mulWide left right).2.toNat + 1 < radix := by
  have hle := mul_le_of_words left right
  simp only [mulWide, radix, UInt64.toNat_ofNat'] at hle ⊢
  omega

variable {ε : Type}

/-- Addition that panics when the sum does not fit a limb. -/
def checkedAdd (left right : UInt64) : Outcome ε UInt64 :=
  if left.toNat + right.toNat < radix then .ok (left + right) else .error .panic

def checkedMul (left right : UInt64) : Outcome ε UInt64 :=
  if left.toNat * right.toNat < radix then .ok (left * right) else .error .panic

theorem checkedAdd_eq_ok {left right : UInt64} (hfits : left.toNat + right.toNat < radix) :
    ∃ sum, (checkedAdd left right : Outcome ε UInt64) = .ok sum ∧
      sum.toNat = left.toNat + right.toNat := by
  refine ⟨left + right, by simp only [checkedAdd, if_pos hfits], ?_⟩
  exact (UInt64.toNat_add _ _).trans (mod_eq_of_lt hfits)

theorem checkedMul_eq_ok {left right : UInt64} (hfits : left.toNat * right.toNat < radix) :
    ∃ product, (checkedMul left right : Outcome ε UInt64) = .ok product ∧
      product.toNat = left.toNat * right.toNat := by
  refine ⟨left * right, by simp only [checkedMul, if_pos hfits], ?_⟩
  exact (UInt64.toNat_mul _ _).trans (mod_eq_of_lt hfits)

/-! ## Carry propagation -/

/-- Add a two-limb carry to a limb list. Returns the new limbs and the carry that is
left over. -/
def propagate (low high : UInt64) : List UInt64 → List UInt64 × UInt64 × UInt64
  | [] => ([], low, high)
  | limb :: limbs =>
    let lowSum := overflowingAdd low limb
    let highSum := overflowingAdd high lowSum.2
    let rest := propagate highSum.1 highSum.2 limbs
    (lowSum.1 :: rest.1, rest.2)

@[simp] theorem propagate_length (low high : UInt64) (limbs : List UInt64) :
    (propagate low high limbs).1.length = limbs.length := by
  induction limbs generalizing low high with
  | nil => rfl
  | cons limb limbs ih => simp [propagate, ih]

theorem propagate_value (low high : UInt64) (limbs : List UInt64) :
    value (propagate low high limbs).1 + radix ^ limbs.length *
        ((propagate low high limbs).2.1.toNat + radix * (propagate low high limbs).2.2.toNat) =
      value limbs + (low.toNat + radix * high.toNat) := by
  induction limbs generalizing low high with
  | nil => simp [propagate]
  | cons limb limbs ih =>
    have hlow := overflowingAdd_value low limb
    have hhigh := overflowingAdd_value high (overflowingAdd low limb).2
    have hrest := ih (overflowingAdd high (overflowingAdd low limb).2).1
      (overflowingAdd high (overflowingAdd low limb).2).2
    simp only [propagate, value_cons, List.length_cons, pow_succ] at hrest ⊢
    rw [mul_comm (radix ^ limbs.length) radix, mul_assoc]
    simp only [radix] at hlow hhigh hrest ⊢
    omega

/-! ## The schoolbook product by columns -/

section Columns

variable (left right : Nat → Nat) (count : Nat)

/-- The products of limbs whose indices add up to `column`. -/
def lowColumn (column : Nat) : Nat :=
  ∑ index ∈ Finset.range (column + 1), left index * right (column - index)

/-- The products of limbs whose indices add up to `count + column`. -/
def highColumn (column : Nat) : Nat :=
  ∑ index ∈ Finset.Ico (column + 1) count, left index * right (count + column - index)

/-- The columns below `count` and those above it together make the product. -/
theorem sum_columns (base : Nat) :
    (∑ column ∈ range count, lowColumn left right column * base ^ column) +
        base ^ count * ∑ column ∈ range count, highColumn left right count column *
          base ^ column =
      (∑ index ∈ range count, left index * base ^ index) *
        ∑ index ∈ range count, right index * base ^ index := by
  have hlow : (∑ column ∈ range count, lowColumn left right column * base ^ column) =
      ∑ index ∈ range count, ∑ other ∈ range (count - index),
        left index * base ^ index * (right other * base ^ other) := by
    simp only [lowColumn, sum_mul]
    have hswap : ∀ column index, column ∈ range count ∧ index ∈ range (column + 1) ↔
        column ∈ Finset.Ico index count ∧ index ∈ range count := by
      simp only [mem_range, mem_Ico]
      omega
    rw [sum_comm' hswap]
    refine sum_congr rfl fun index _ => ?_
    rw [sum_Ico_eq_sum_range]
    refine sum_congr rfl fun other _ => ?_
    rw [Nat.add_sub_cancel_left]
    ring
  have hhigh : (base ^ count * ∑ column ∈ range count,
        highColumn left right count column * base ^ column) =
      ∑ index ∈ range count, ∑ other ∈ Finset.Ico (count - index) count,
        left index * base ^ index * (right other * base ^ other) := by
    simp only [highColumn, sum_mul, mul_sum]
    have hswap : ∀ column index,
        column ∈ range count ∧ index ∈ Finset.Ico (column + 1) count ↔
          column ∈ range index ∧ index ∈ range count := by
      simp only [mem_range, mem_Ico]
      omega
    rw [sum_comm' hswap]
    refine sum_congr rfl fun index hindex => ?_
    have hindex := mem_range.mp hindex
    rw [sum_Ico_eq_sum_range, Nat.sub_sub_self hindex.le]
    refine sum_congr rfl fun column _ => ?_
    rw [show count + column - index = count - index + column by omega]
    have hsplit : base ^ count = base ^ index * base ^ (count - index) := by
      rw [← pow_add, Nat.add_sub_cancel' hindex.le]
    rw [hsplit]
    ring
  rw [hlow, hhigh, ← sum_add_distrib, sum_mul]
  refine sum_congr rfl fun index _ => ?_
  rw [mul_sum, range_eq_Ico, range_eq_Ico,
    sum_Ico_consecutive _ (zero_le _) (sub_le _ _)]

end Columns

end Qaspa.Limbs
