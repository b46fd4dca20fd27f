import Qaspa.MuHash.U3072

/-! # Correctness of the limb arithmetic

Multiplication never panics and returns the product up to a multiple of the
modulus, whatever the carries; the overflow test recognises the values that are
not reduced; and division by a unit returns the reduced quotient. The proofs
follow the loops: one lemma for what a column accumulates, one for a step of the
column loop, and the sum over all columns.
-/

namespace Qaspa.MuHash

open Limbs Outcome List UInt64 Nat

/-! ## Column sums -/

def Column.value (column : Column) : Nat :=
  column.low.toNat + radix * (column.high.toNat + radix * column.carry.toNat)

theorem muladd3_eq_ok (a b : UInt64) {column : Column} (hroom : column.carry.toNat + 1 < radix) :
    ∃ next, muladd3 a b column = .ok next ∧ next.value = column.value + a.toNat * b.toNat ∧
      next.carry.toNat ≤ column.carry.toNat + 1 := by
  have hproduct := mulWide_value a b
  have hlow := overflowingAdd_value column.low (mulWide a b).1
  obtain ⟨carried, hcarried, hcarriedValue⟩ :=
    checkedAdd_eq_ok (ε := Empty) (lt_of_le_of_lt
      (Nat.add_le_add_left (overflowingAdd_overflow_le column.low (mulWide a b).1) _)
      (mulWide_high_lt a b))
  have hhigh := overflowingAdd_value column.high carried
  have hoverflow := overflowingAdd_overflow_le column.high carried
  obtain ⟨carry, hcarry, hcarryValue⟩ :=
    checkedAdd_eq_ok (ε := Empty) (Nat.lt_of_le_of_lt (Nat.add_le_add_left hoverflow _) hroom)
  refine ⟨⟨(overflowingAdd column.low (mulWide a b).1).1, (overflowingAdd column.high carried).1,
    carry⟩, by simp [muladd3, hcarried, hcarry], ?_,
    hcarryValue.le.trans (Nat.add_le_add_left hoverflow _)⟩
  simp only [Column.value]
  simp only [radix] at *
  omega

theorem mulnadd3_eq_ok (c0 c1 : UInt64) {d : Column} {n : UInt64}
    (hroom : (d.carry.toNat + 1) * n.toNat < radix) :
    ∃ next, mulnadd3 c0 c1 d n = .ok next ∧
      next.value = c0.toNat + radix * c1.toNat + n.toNat * d.value ∧
      next.carry.toNat ≤ (d.carry.toNat + 1) * n.toNat := by
  have hc0 := c0.toNat_lt
  have hc1 := c1.toNat_lt
  have hlow : d.low.toNat * n.toNat ≤ (radix - 1) * n.toNat :=
    mul_le_mul_right _ (le_pred_of_lt d.low.toNat_lt)
  have hhigh : d.high.toNat * n.toNat ≤ (radix - 1) * n.toNat :=
    mul_le_mul_right _ (le_pred_of_lt d.high.toNat_lt)
  have hvalue : n.toNat * d.value =
      d.low.toNat * n.toNat + radix * (d.high.toNat * n.toNat +
        radix * (d.carry.toNat * n.toNat)) := by
    rw [Column.value]
    ring
  rw [succ_mul] at hroom ⊢
  rw [hvalue]
  obtain ⟨lowSum, hlowSum⟩ : ∃ sum, sum = d.low.toNat * n.toNat + c0.toNat := ⟨_, rfl⟩
  obtain ⟨highSum, hhighSum⟩ :
    ∃ sum, sum = lowSum / radix + (d.high.toNat * n.toNat + c1.toNat) := ⟨_, rfl⟩
  have hquotient : highSum / radix ≤ n.toNat := by
    simp only [radix] at *
    omega
  have hquotientWord : (ofNat (highSum / radix)).toNat = highSum / radix := by
    rw [toNat_ofNat', mod_eq_of_lt (lt_of_le_of_lt hquotient n.toNat_lt)]
  obtain ⟨product, hproduct, hproductValue⟩ := checkedMul_eq_ok (ε := Empty) (show
    d.carry.toNat * n.toNat < radix from lt_of_le_of_lt (le_add_right _ _) hroom)
  obtain ⟨carry, hcarry, hcarryValue⟩ := checkedAdd_eq_ok (ε := Empty) (show
    (ofNat (highSum / radix)).toNat + product.toNat < radix by omega)
  refine ⟨⟨ofNat lowSum, ofNat highSum, carry⟩, ?_, ?_, ?_⟩
  · simp [mulnadd3, ← hlowSum, ← hhighSum, hproduct, hcarry]
  · simp only [Column.value, toNat_ofNat']
    simp only [radix] at *
    omega
  · change carry.toNat ≤ _
    omega

/-- The product of a two-limb carry with the difference fits two limbs. -/
theorem muln2_value {low high n : UInt64} (hroom : (high.toNat + 1) * n.toNat < radix) :
    (muln2 low high n).1.toNat + radix * (muln2 low high n).2.toNat =
      n.toNat * (low.toNat + radix * high.toNat) := by
  have hlow : low.toNat * n.toNat ≤ (radix - 1) * n.toNat :=
    mul_le_mul_right _ (le_pred_of_lt low.toNat_lt)
  have hvalue : n.toNat * (low.toNat + radix * high.toNat) =
      low.toNat * n.toNat + radix * (high.toNat * n.toNat) := by ring
  rw [succ_mul] at hroom
  simp only [muln2, toNat_ofNat']
  simp only [radix] at *
  omega

namespace U3072

variable {x y : U3072}

/-! ## The product -/

/-- The limb at an index as a number. -/
def digit (x : U3072) (index : Nat) : Nat := Limbs.digit x.limbs index

theorem value_eq_sum_digit (x : U3072) :
    x.value = ∑ index ∈ Finset.range limbCount, x.digit index * radix ^ index := by
  rw [value, value_eq_sum, x.length_limbs]
  rfl

theorem limb_eq_ok (x : U3072) {index : Nat} (hindex : index < limbCount) :
    ∃ limb, x.limb index = .ok limb ∧ limb.toNat = x.digit index := by
  have hlength : index < x.limbs.length := x.length_limbs ▸ hindex
  refine ⟨x.limbs[index], ?_, ?_⟩
  · rw [limb, unwrap_eq_ok, getElem?_eq_getElem hlength]
  · rw [digit, Limbs.digit, getD_eq_getElem?_getD, getElem?_eq_getElem hlength,
      Option.getD_some]

theorem setLimb_eq_ok (x : U3072) {index : Nat} (hindex : index < limbCount) (limb : UInt64) :
    ∃ next, x.setLimb index limb = .ok next ∧
      ∀ other, next.digit other = if other = index then limb.toNat else x.digit other := by
  refine ⟨_, by rw [setLimb, if_pos hindex], fun other => ?_⟩
  exact digit_set (x.length_limbs ▸ hindex) limb other

/-- What a run over index pairs of one sum accumulates. -/
theorem addProducts_eq_ok (x y : U3072) (start stop sum : Nat) (column : Column)
    (hstop : stop ≤ limbCount) (hsum : stop ≤ sum + 1) (hother : sum < limbCount + start)
    (hroom : column.carry.toNat + (stop - start) < radix) :
    ∃ next, addProducts x y start stop sum column = .ok next ∧
      next.value = column.value +
        ∑ index ∈ Finset.Ico start stop, x.digit index * y.digit (sum - index) ∧
      next.carry.toNat ≤ column.carry.toNat + (stop - start) := by
  unfold addProducts
  obtain ⟨count, hcount⟩ : ∃ count, count = stop - start := ⟨_, rfl⟩
  rw [← hcount] at hroom ⊢
  induction count generalizing start column with
  | zero =>
    refine ⟨column, rfl, ?_, le_add_right _ _⟩
    rw [Finset.Ico_eq_empty_of_le (by omega), Finset.sum_empty, add_zero]
  | succ count ih =>
    obtain ⟨a, ha, haDigit⟩ := x.limb_eq_ok (show start < limbCount by omega)
    obtain ⟨b, hb, hbDigit⟩ := y.limb_eq_ok (show sum - start < limbCount by omega)
    obtain ⟨added, hadded, haddedValue, haddedCarry⟩ :=
      muladd3_eq_ok a b (show column.carry.toNat + 1 < radix by omega)
    obtain ⟨next, hnext, hnextValue, hnextCarry⟩ := ih (start + 1) added (by omega)
      (by omega) (by omega)
    refine ⟨next, ?_, ?_, by omega⟩
    · simp only [range'_succ, foldlM_cons, ha, hb, ok_bind, hadded]
      exact hnext
    · rw [hnextValue, haddedValue, haDigit, hbDigit, add_assoc,
        ← Finset.sum_eq_sum_Ico_succ_bot (by omega)
          fun index => x.digit index * y.digit (sum - index)]

theorem limbCount_eq : limbCount = 48 := rfl

theorem primeDiff_toNat : primeDiff.toNat = 1103717 := rfl

/-- What one column contributes: its own products and, times the difference, the
products of the column that lies a whole number above it. -/
def column (x y : U3072) (index : Nat) : Nat :=
  lowColumn x.digit y.digit index + primeDiff.toNat * highColumn x.digit y.digit limbCount index

/-- One step of the column loop moves the value of a column into the result. -/
theorem mulStep_eq_ok (x y result : U3072) (carried : Column) {index : Nat}
    (hindex : index + 1 < limbCount) :
    ∃ next moved, mulStep x y (result, carried) index = .ok (next, moved) ∧ moved.carry = 0 ∧
      (∀ other, other ≠ index → next.digit other = result.digit other) ∧
      next.digit index + radix * (moved.low.toNat + radix * moved.high.toNat) =
        carried.low.toNat + radix * carried.high.toNat + column x y index := by
  have hcount := limbCount_eq
  have hdiff := primeDiff_toNat
  obtain ⟨a, ha, haDigit⟩ := x.limb_eq_ok hindex
  obtain ⟨b, hb, hbDigit⟩ :=
    y.limb_eq_ok (show limbCount + index - (1 + index) < limbCount by omega)
  obtain ⟨above, habove, haboveValue, haboveCarry⟩ := addProducts_eq_ok x y (2 + index) limbCount
    (limbCount + index) ⟨(mulWide a b).1, (mulWide a b).2, 0⟩ le_rfl (by omega) (by omega)
    (by simp only [radix, UInt64.toNat_zero]; omega)
  have haboveCarry' : above.carry.toNat ≤ 48 := by
    simp only [UInt64.toNat_zero] at haboveCarry
    omega
  have hscaled : (above.carry.toNat + 1) * primeDiff.toNat ≤ 49 * 1103717 :=
    Nat.mul_le_mul (by omega) hdiff.le
  obtain ⟨scaled, hscaledOk, hscaledValue, hscaledCarry⟩ :=
    mulnadd3_eq_ok carried.low carried.high (show (above.carry.toNat + 1) * primeDiff.toNat < radix
      by simp only [radix]; omega)
  obtain ⟨full, hfull, hfullValue, hfullCarry⟩ := addProducts_eq_ok x y 0 (index + 1) index scaled
    (by omega) le_rfl (by omega) (by simp only [radix]; omega)
  obtain ⟨next, hnext, hnextDigit⟩ := result.setLimb_eq_ok
    (show index < limbCount by omega) full.low
  refine ⟨next, ⟨full.high, full.carry, 0⟩, ?_, rfl, ?_, ?_⟩
  · refine bind_eq_ok.mpr ⟨a, ha, bind_eq_ok.mpr ⟨b, hb, ?_⟩⟩
    refine bind_eq_ok.mpr ⟨above, habove, bind_eq_ok.mpr ⟨scaled, hscaledOk, ?_⟩⟩
    exact bind_eq_ok.mpr ⟨full, hfull, bind_eq_ok.mpr ⟨next, hnext, rfl⟩⟩
  · intro other hother
    rw [hnextDigit, if_neg hother]
  · have hfirst := mulWide_value a b
    have hhigh : above.value = highColumn x.digit y.digit limbCount index := by
      rw [haboveValue, highColumn, Finset.sum_eq_sum_Ico_succ_bot hindex, Column.value,
        UInt64.toNat_zero, Nat.mul_zero, Nat.add_zero, hfirst, haDigit, hbDigit,
        Nat.add_comm 1 index, Nat.add_comm 2 index]
    rw [hnextDigit, if_pos rfl]
    simp only [Column.value] at hfullValue hscaledValue ⊢
    rw [hfullValue, hscaledValue, ← Column.value, hhigh, column, lowColumn, Finset.range_eq_Ico]
    ring

/-- The columns moved into the result and the carry make up the sum of all columns
so far. -/
structure ColumnsDone (x y : U3072) (count : Nat) (state : U3072 × Column) : Prop where
  carry : state.2.carry = 0
  value : (∑ index ∈ Finset.range count, state.1.digit index * radix ^ index) +
      radix ^ count * (state.2.low.toNat + radix * state.2.high.toNat) =
    ∑ index ∈ Finset.range count, column x y index * radix ^ index

theorem mulLoop_eq_ok (x y : U3072) {count : Nat} (hcount : count < limbCount) :
    ∃ state, (range count).foldlM (mulStep x y) (one, ⟨0, 0, 0⟩) = .ok state ∧
      ColumnsDone x y count state := by
  induction count with
  | zero => exact ⟨(one, ⟨0, 0, 0⟩), rfl, ⟨rfl, by simp⟩⟩
  | succ count ih =>
    obtain ⟨⟨result, carried⟩, hstate, hdone⟩ := ih (by omega)
    obtain ⟨next, moved, hstep, hcarry, hkept, hvalue⟩ := mulStep_eq_ok x y result carried hcount
    refine ⟨(next, moved), ?_, hcarry, ?_⟩
    · rw [range_succ, foldlM_append, hstate]
      simp [hstep]
    · have hprevious : ∀ index ∈ Finset.range count,
          next.digit index * radix ^ index = result.digit index * radix ^ index := by
        intro index hindex
        rw [hkept index (Finset.mem_range.mp hindex).ne]
      rw [Finset.sum_range_succ, Finset.sum_range_succ, ← hdone.value,
        Finset.sum_congr rfl hprevious]
      calc _ = (∑ index ∈ Finset.range count, result.digit index * radix ^ index) +
            radix ^ count * (next.digit count +
              radix * (moved.low.toNat + radix * moved.high.toNat)) := by ring
        _ = _ := by
          rw [hvalue]
          ring

/-- The modulus is the power of the radix less the difference. -/
theorem prime_add_primeDiff : prime + primeDiff.toNat = radix ^ limbCount :=
  Nat.sub_add_cancel (by decide)

theorem primeDiff_lt_prime : primeDiff.toNat < prime := by decide

theorem pow_limbCount_modEq : radix ^ limbCount ≡ primeDiff.toNat [MOD prime] := by
  rw [← prime_add_primeDiff]
  exact add_modEq_left

theorem sum_column_modEq (x y : U3072) :
    ∑ index ∈ Finset.range limbCount, column x y index * radix ^ index ≡
      x.value * y.value [MOD prime] := by
  rw [value_eq_sum_digit x, value_eq_sum_digit y, ← sum_columns x.digit y.digit limbCount radix]
  have hsplit : (∑ index ∈ Finset.range limbCount, column x y index * radix ^ index) =
      (∑ index ∈ Finset.range limbCount, lowColumn x.digit y.digit index * radix ^ index) +
        primeDiff.toNat * ∑ index ∈ Finset.range limbCount,
          highColumn x.digit y.digit limbCount index * radix ^ index := by
    rw [Finset.mul_sum, ← Finset.sum_add_distrib]
    refine Finset.sum_congr rfl fun index _ => ?_
    rw [column]
    ring
  rw [hsplit]
  exact (pow_limbCount_modEq.symm.mul_right _).add_left _

/-! ## Reductions -/

theorem value_lt (x : U3072) : x.value < radix ^ limbCount := by
  have hlt := Limbs.value_lt x.limbs
  rwa [x.length_limbs] at hlt

theorem value_injective (hvalue : x.value = y.value) : x = y :=
  U3072.ext (Limbs.value_injective (x.length_limbs.trans y.length_limbs.symm) hvalue)

theorem addCarry_value (x : U3072) (low high : UInt64) :
    (x.addCarry low high).1.value + radix ^ limbCount *
        ((x.addCarry low high).2.1.toNat + radix * (x.addCarry low high).2.2.toNat) =
      x.value + (low.toNat + radix * high.toNat) := by
  have hvalue := propagate_value low high x.limbs
  rwa [x.length_limbs] at hvalue

theorem isOverflow_iff (x : U3072) : x.isOverflow = true ↔ prime ≤ x.value := by
  have hprime := prime_add_primeDiff
  have hdiff := primeDiff_toNat
  obtain ⟨limbs, hlength⟩ := x
  cases limbs with
  | nil => exact absurd hlength (by decide)
  | cons first rest =>
    have hfirst := first.toNat_lt
    have hpow : radix ^ limbCount = radix ^ rest.length * radix := by
      rw [← hlength, length_cons, pow_succ]
    have hbound : first ≤ limbMax - primeDiff ↔ first.toNat ≤ radix - 1 - 1103717 :=
      le_iff_toNat_le
    have hall : rest.all (· == limbMax) = true ↔ ∀ limb ∈ rest, limb.toNat = radix - 1 := by
      simp only [all_eq_true, beq_iff_eq, ← UInt64.toNat_inj]
      rfl
    have htest : isOverflow ⟨first :: rest, hlength⟩ = true ↔
        ¬ first.toNat ≤ radix - 1 - 1103717 ∧ ∀ limb ∈ rest, limb.toNat = radix - 1 := by
      rw [← hbound, ← hall, isOverflow]
      by_cases hsmall : first ≤ limbMax - primeDiff <;> simp [hsmall]
    rw [htest, value, value_cons]
    by_cases hrest : ∀ limb ∈ rest, limb.toNat = radix - 1
    · have hvalue := value_add_one_of_all_max hrest
      rw [and_iff_left hrest]
      simp only [radix] at *
      omega
    · have hvalue := value_add_one_lt_of_not_max hrest
      refine iff_of_false (fun htrue => hrest htrue.2) ?_
      simp only [radix] at *
      omega

theorem fullReduce_value (x : U3072) :
    x.fullReduce.value = (x.value + primeDiff.toNat) % radix ^ limbCount := by
  have hvalue := x.addCarry_value primeDiff 0
  rw [UInt64.toNat_zero, Nat.mul_zero, Nat.add_zero] at hvalue
  rw [← hvalue, Nat.add_mul_mod_self_left, Nat.mod_eq_of_lt (value_lt _)]
  rfl

/-- A conditional reduction returns the residue, as values are below twice the
modulus. -/
theorem reduce_value (x : U3072) :
    (if x.isOverflow then x.fullReduce else x).value = x.value % prime := by
  have hprime := prime_add_primeDiff
  have hlt := x.value_lt
  split
  next hoverflow =>
    have hle := x.isOverflow_iff.mp hoverflow
    have htwice : x.value - prime < prime := by
      have := primeDiff_lt_prime
      omega
    rw [fullReduce_value, mod_eq_sub_mod hle, mod_eq_of_lt htwice,
      show x.value + primeDiff.toNat = x.value - prime + radix ^ limbCount by omega,
      add_mod_right, mod_eq_of_lt (by omega)]
  next hoverflow =>
    have hlt := mt x.isOverflow_iff.mpr hoverflow
    rw [mod_eq_of_lt (by omega)]

theorem prime_pos : 0 < prime := zero_lt_of_lt primeDiff_lt_prime

theorem finish_zero (x : U3072) : (finish x 0).value = x.value % prime := by
  simp only [finish, bne_self_eq_false, Bool.false_eq_true, if_false, reduce_value]

theorem finish_one (x : U3072) : (finish x 1).value = x.value % prime + primeDiff.toNat := by
  have hprime := prime_add_primeDiff
  have hlt := mod_lt x.value prime_pos
  simp only [finish, show ((1 : UInt64) != 0) = true by decide, if_true]
  rw [fullReduce_value, reduce_value, mod_eq_of_lt (by omega)]

theorem finish_modEq (x : U3072) {carry : UInt64} (hcarry : carry = 0 ∨ carry = 1) :
    (finish x carry).value ≡ x.value + radix ^ limbCount * carry.toNat [MOD prime] := by
  have hmod : x.value % prime ≡ x.value [MOD prime] := mod_modEq _ _
  rcases hcarry with rfl | rfl
  · rw [finish_zero]
    exact hmod
  · rw [finish_one, toNat_one]
    exact hmod.add pow_limbCount_modEq.symm

/-- The last column completes the sum of all columns; what is left of it is small. -/
theorem topColumn_eq_ok {lower : U3072} {carried : Column}
    (hdone : ColumnsDone x y (limbCount - 1) (lower, carried)) :
    ∃ top result, addProducts x y 0 limbCount (limbCount - 1) carried = .ok top ∧
      lower.setLimb (limbCount - 1) top.low = .ok result ∧ top.carry.toNat ≤ limbCount ∧
      result.value + radix ^ limbCount * (top.high.toNat + radix * top.carry.toNat) =
        ∑ index ∈ Finset.range limbCount, column x y index * radix ^ index := by
  have hcount : limbCount - 1 + 1 = limbCount := rfl
  have hcarried : carried.carry.toNat = 0 := congrArg toNat hdone.carry
  obtain ⟨top, htop, htopValue, htopCarry⟩ := addProducts_eq_ok x y 0 limbCount (limbCount - 1)
    carried le_rfl (by omega) (by omega)
    (by rw [hcarried]; simp only [radix, limbCount_eq]; omega)
  obtain ⟨result, hresult, hdigit⟩ :=
    lower.setLimb_eq_ok (show limbCount - 1 < limbCount by omega) top.low
  refine ⟨top, result, htop, hresult, by omega, ?_⟩
  have hlower : ∀ index ∈ Finset.range (limbCount - 1),
      result.digit index * radix ^ index = lower.digit index * radix ^ index := by
    intro index hindex
    rw [hdigit, if_neg (Finset.mem_range.mp hindex).ne]
  have hcolumn : column x y (limbCount - 1) =
      ∑ index ∈ Finset.Ico 0 limbCount, x.digit index * y.digit (limbCount - 1 - index) := by
    rw [column, lowColumn, highColumn, hcount, Finset.Ico_self, Finset.sum_empty, Nat.mul_zero,
      Nat.add_zero, Finset.range_eq_Ico]
  rw [Column.value, Column.value, hcarried, ← hcolumn] at htopValue
  rw [value_eq_sum_digit, ← hcount, Finset.sum_range_succ, Finset.sum_range_succ, ← hdone.value,
    Finset.sum_congr rfl hlower, hdigit, if_pos rfl]
  calc _ = (∑ index ∈ Finset.range (limbCount - 1), lower.digit index * radix ^ index) +
        radix ^ (limbCount - 1) *
          (top.low.toNat + radix * (top.high.toNat + radix * top.carry.toNat)) := by
        ring
    _ = _ := by
        rw [htopValue]
        ring

theorem twoLimbs_lt (low high : UInt64) : low.toNat + radix * high.toNat < radix ^ 2 := by
  have hlow := low.toNat_lt
  have hhigh := high.toNat_lt
  simp only [radix]
  omega

/-- A two-limb carry overflows the top limb at most once. -/
theorem addCarry_carry_le (x : U3072) (low high : UInt64) :
    (x.addCarry low high).2.1.toNat + radix * (x.addCarry low high).2.2.toNat ≤ 1 := by
  have hsum := x.addCarry_value low high
  have hvalue := x.value_lt
  have hcarry : low.toNat + radix * high.toNat < radix ^ limbCount :=
    (twoLimbs_lt low high).trans_le (Nat.pow_le_pow_right (by decide) (by decide))
  refine Nat.le_of_lt_succ (Nat.lt_of_mul_lt_mul_left (a := radix ^ limbCount) ?_)
  omega

/-- The long way returns the reduced product, whatever the carries. -/
theorem mul_of_ne_one (y : U3072) (hone : x ≠ one) :
    ∃ product, x.mul y = .ok product ∧ product.value ≡ x.value * y.value [MOD prime] ∧
      product.value < prime := by
  obtain ⟨⟨lower, carried⟩, hloop, hdone⟩ :=
    mulLoop_eq_ok x y (show limbCount - 1 < limbCount by decide)
  obtain ⟨top, result, htop, hresult, hcarry, hcolumns⟩ := topColumn_eq_ok hdone
  have hroom : (top.carry.toNat + 1) * primeDiff.toNat ≤ 49 * 1103717 :=
    Nat.mul_le_mul (Nat.succ_le_succ hcarry) primeDiff_toNat.le
  obtain ⟨carry, hcarryEq⟩ : ∃ carry, carry = muln2 top.high top.carry primeDiff := ⟨_, rfl⟩
  have hfold : carry.1.toNat + radix * carry.2.toNat =
      primeDiff.toNat * (top.high.toNat + radix * top.carry.toNat) :=
    hcarryEq ▸ muln2_value (lt_of_le_of_lt hroom (by decide))
  have hsum := result.addCarry_value carry.1 carry.2
  have hsmall := addCarry_carry_le result carry.1 carry.2
  obtain ⟨⟨sum, low, high⟩, hsumEq⟩ : ∃ sum, sum = result.addCarry carry.1 carry.2 := ⟨_, rfl⟩
  rw [← hsumEq] at hsum hsmall
  dsimp only at hsum hsmall
  have hcarried : carried.carry = 0 := hdone.carry
  have hhigh : high = 0 := UInt64.toNat_inj.mp (by simp only [radix] at hsmall; simp; omega)
  have hlow : low = 0 ∨ low = 1 := by
    rw [← UInt64.toNat_inj, ← UInt64.toNat_inj, UInt64.toNat_zero, UInt64.toNat_one]
    omega
  rw [hhigh, UInt64.toNat_zero, Nat.mul_zero, Nat.add_zero] at hsum
  refine ⟨finish sum low, ?_, ?_, ?_⟩
  · have hlowTest : (low == 0 || low == 1) = true := by simpa using hlow
    simp only [mul, if_neg hone, hloop, ok_bind, htop, hresult, ← hcarryEq, ← hsumEq,
      hcarried, hhigh, hlowTest, assert, beq_self_eq_true, if_true]
  · calc (finish sum low).value
        ≡ sum.value + radix ^ limbCount * low.toNat [MOD prime] := sum.finish_modEq hlow
      _ = result.value + primeDiff.toNat * (top.high.toNat + radix * top.carry.toNat) := by
          rw [hsum, hfold]
      _ ≡ result.value + radix ^ limbCount * (top.high.toNat + radix * top.carry.toNat)
          [MOD prime] := (pow_limbCount_modEq.symm.mul_right _).add_left _
      _ = ∑ index ∈ Finset.range limbCount, column x y index * radix ^ index := hcolumns
      _ ≡ x.value * y.value [MOD prime] := sum_column_modEq x y
  · rcases hlow with rfl | rfl
    · rw [finish_zero]
      exact mod_lt _ prime_pos
    · -- After a carry out of the top limb only the two lowest limbs are left.
      have hprime : radix ^ 2 + primeDiff.toNat < prime := by decide
      have hresult := result.value_lt
      have hcarry := twoLimbs_lt carry.1 carry.2
      rw [toNat_one, Nat.mul_one] at hsum
      have hmod := Nat.mod_le sum.value prime
      rw [finish_one]
      omega

/-- Multiplication returns the product modulo the modulus, for all limbs. -/
theorem mul_eq_ok (x y : U3072) :
    ∃ product, x.mul y = .ok product ∧ product.value ≡ x.value * y.value [MOD prime] := by
  by_cases hone : x = one
  · refine ⟨y, by rw [mul, if_pos hone], ?_⟩
    rw [hone, show one.value = 1 from rfl, Nat.one_mul]
  · obtain ⟨product, hproduct, hmod, -⟩ := mul_of_ne_one y hone
    exact ⟨product, hproduct, hmod⟩

/-- Multiplication never fails an assertion or overflows a limb, and what it computes is reduced
although its operands need not be. -/
theorem mul_reduced (x y : U3072) :
    ∃ product, x.mul y = .ok product ∧ product.value ≡ x.value * y.value [MOD prime] ∧
      (x ≠ one → product.value < prime) := by
  obtain ⟨product, hproduct, hmod⟩ := mul_eq_ok x y
  refine ⟨product, hproduct, hmod, fun hone => ?_⟩
  obtain ⟨reduced, hreduced, -, hlt⟩ := mul_of_ne_one y hone
  rwa [Except.ok.inj (hproduct.symm.trans hreduced)]

/-! ## Division by units -/

theorem uintPrime_value : uintPrime.value = prime := by decide

theorem naturalModInverse_eq_ok {n modulus : Nat} (hpos : 0 < n) (hlt : n < modulus)
    (hcoprime : n.Coprime modulus) :
    ∃ inverse, naturalModInverse n modulus = .ok (some inverse) ∧ inverse < modulus ∧
      n * inverse ≡ 1 [MOD modulus] := by
  have hmodulus : (0 : ℤ) < modulus := by omega
  have hnonneg := Int.emod_nonneg (n.gcdA modulus) hmodulus.ne'
  have hbound := Int.emod_lt_of_pos (n.gcdA modulus) hmodulus
  refine ⟨(n.gcdA modulus % modulus).toNat, ?_, by omega, ?_⟩
  · rw [naturalModInverse, if_neg (by omega), if_pos hcoprime]
  · have hbezout := gcd_eq_gcd_ab n modulus
    rw [hcoprime] at hbezout
    rw [← Int.natCast_modEq_iff, cast_mul, Int.toNat_of_nonneg hnonneg]
    calc (n : ℤ) * (n.gcdA modulus % modulus) ≡ n * n.gcdA modulus [ZMOD modulus] :=
          (Int.mod_modEq _ _).mul_left _
      _ ≡ n * n.gcdA modulus + modulus * n.gcdB modulus [ZMOD modulus] :=
          (Int.modEq_add_fac_self).symm
      _ = 1 := hbezout.symm

theorem ofNatural_eq_ok {n : Nat} (hfits : n < radix ^ limbCount) :
    ∃ x, ofNatural n = .ok x ∧ x.value = n := by
  refine ⟨_, by rw [ofNatural, dif_pos hfits], ?_⟩
  have hdigits : ((digitsAppend radix limbCount n).map ofNat).map toNat =
      digitsAppend radix limbCount n := by
    rw [map_map]
    refine (map_congr_left fun digit hdigit => ?_).trans (map_id _)
    exact toNat_ofNat_of_lt (lt_of_mem_digitsAppend (by decide) _ _ hdigit)
  rw [value, Limbs.value, hdigits, digitsAppend, ofDigits_append_replicate_zero,
    ofDigits_digits]

/-- Units have inverses: neither the conversions nor the expected result can fail. -/
theorem inverse_eq_ok (hcoprime : x.value.Coprime prime) :
    ∃ inverse, x.inverse = .ok inverse ∧ x.value * inverse.value ≡ 1 [MOD prime] := by
  have hreduced := x.reduce_value
  obtain ⟨reduced, hreducedEq⟩ :
    ∃ reduced, reduced = if x.isOverflow then x.fullReduce else x := ⟨_, rfl⟩
  rw [← hreducedEq] at hreduced
  have hlt : reduced.value < prime := hreduced ▸ mod_lt _ prime_pos
  have hmod : reduced.value ≡ x.value [MOD prime] := hreduced ▸ mod_modEq _ _
  have hunit : reduced.value.Coprime prime := hmod.gcd_eq.trans hcoprime
  have hpos : 0 < reduced.value := by
    refine pos_of_ne_zero fun hzero => ?_
    rw [hzero] at hunit
    exact absurd hunit (by decide)
  have hzero : reduced ≠ zero := by
    rintro rfl
    exact absurd hpos (by decide)
  obtain ⟨natural, hnatural, hnaturalLt, hnaturalMod⟩ := naturalModInverse_eq_ok hpos hlt hunit
  obtain ⟨word, hword, hwordValue⟩ := ofNatural_eq_ok (hnaturalLt.trans_le
    (prime_add_primeDiff ▸ le_add_right _ _ : prime ≤ radix ^ limbCount))
  refine ⟨word, ?_, ?_⟩
  · simp [inverse, ← hreducedEq, hzero, modInverse, uintPrime_value, hnatural, hword]
  · rw [hwordValue]
    exact (hmod.symm.mul_right _).trans hnaturalMod

/-- Division by a unit returns the reduced quotient. -/
theorem div_eq_ok (x : U3072) (hcoprime : y.value.Coprime prime) :
    ∃ quotient, x.div y = .ok quotient ∧ quotient.value < prime ∧
      quotient.value * y.value ≡ x.value [MOD prime] := by
  have hdivisor : (if y.isOverflow then y.fullReduce else y).value ≡ y.value [MOD prime] :=
    y.reduce_value ▸ mod_modEq _ _
  have hdividend : (if x.isOverflow then x.fullReduce else x).value ≡ x.value [MOD prime] :=
    x.reduce_value ▸ mod_modEq _ _
  obtain ⟨inverse, hinverse, hinverseMod⟩ := inverse_eq_ok (hdivisor.gcd_eq.trans hcoprime)
  obtain ⟨product, hproduct, hproductMod⟩ :=
    mul_eq_ok (if x.isOverflow then x.fullReduce else x) inverse
  refine ⟨if product.isOverflow then product.fullReduce else product, ?_, ?_, ?_⟩
  · by_cases hoverflow : y.isOverflow = true
    · rw [if_pos hoverflow] at hinverse
      simp only [div, if_pos hoverflow, hinverse, ok_bind, hproduct]
    · rw [if_neg hoverflow] at hinverse
      simp only [div, if_neg hoverflow, hinverse, ok_bind, hproduct]
  · rw [reduce_value]
    exact mod_lt _ prime_pos
  · rw [reduce_value]
    calc product.value % prime * y.value
        ≡ product.value * y.value [MOD prime] := (mod_modEq _ _).mul_right _
      _ ≡ x.value * inverse.value * y.value [MOD prime] :=
          (hproductMod.trans (hdividend.mul_right _)).mul_right _
      _ = x.value * (y.value * inverse.value) := by ring
      _ ≡ x.value * 1 [MOD prime] := ((hdivisor.symm.mul_right _).trans hinverseMod).mul_left _
      _ = x.value := mul_one _

end U3072

end Qaspa.MuHash
