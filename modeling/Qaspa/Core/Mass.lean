import Qaspa.Core.Tx
import Qaspa.Lib.Outcome

/-! # Storage mass

The mass of a transaction for the storage it takes: the harmonic part of its outputs less a part
of its inputs. A mass that is incomputable is an error, a fault of the arithmetic a panic.
-/

namespace Qaspa.Mass

open Outcome

/-- The units of 100 bytes that an entry takes, of which 63 bytes are fixed. -/
def utxoPlurality (spk : ScriptPublicKey) : Nat := (63 + spk.script.length + 99) / 100

structure UtxoCell where
  plurality : Nat
  amount : Nat

def orNone : Option Nat → Outcome Unit Nat
  | some value => .ok value
  | none => .error (.err ())

def addOutput (stormParam : Nat) (acc : Nat × Nat) (cell : UtxoCell) :
    Outcome Unit (Nat × Nat) := do
  let plurality ← U64.add acc.1 cell.plurality
  let scaled ← orNone (U64.checkedMul stormParam cell.plurality)
  let scaled ← orNone (U64.checkedMul scaled cell.plurality)
  return (plurality, ← orNone (U64.checkedAdd acc.2 (← U64.div scaled cell.amount)))

def addHarmonic (stormParam total : Nat) (cell : UtxoCell) : Outcome Unit Nat := do
  let scaled ← U64.mul (← U64.mul stormParam cell.plurality) cell.plurality
  return min (total + (← U64.div scaled cell.amount)) u64Max

def addInput (acc : Nat × Nat) (cell : UtxoCell) : Outcome Unit (Nat × Nat) := do
  return (← U64.add acc.1 cell.plurality, ← U64.add acc.2 cell.amount)

/-- One output, one input, or two of each, counted by plurality. -/
def relaxedFormulaPath (inputs : List UtxoCell) (outsPlurality : Nat) : Outcome Unit Bool :=
  if outsPlurality = 1 then .ok true
  else if 2 < inputs.length then .ok false
  else do
    let insPlurality ← inputs.foldlM (fun total cell => U64.add total cell.plurality) 0
    return insPlurality = 1 || outsPlurality = 2 && insPlurality = 2

def arithmeticIns (stormParam : Nat) (inputs : List UtxoCell) : Outcome Unit Nat := do
  let (insPlurality, sumIns) ← inputs.foldlM addInput (0, 0)
  let meanIns ← U64.div sumIns insPlurality
  return min (insPlurality * (← U64.div stormParam meanIns)) u64Max

def calcStorageMass (isCoinbase : Bool) (inputs outputs : List UtxoCell) (stormParam : Nat) :
    Outcome Unit Nat :=
  if isCoinbase then .ok 0
  else do
    let (outsPlurality, harmonicOuts) ← outputs.foldlM (addOutput stormParam) (0, 0)
    if ← relaxedFormulaPath inputs outsPlurality then
      return harmonicOuts - (← inputs.foldlM (addHarmonic stormParam) 0)
    else return harmonicOuts - (← arithmeticIns stormParam inputs)

def totalPlurality : List UtxoCell → Nat
  | [] => 0
  | cell :: cells => cell.plurality + totalPlurality cells

def totalAmount : List UtxoCell → Nat
  | [] => 0
  | cell :: cells => cell.amount + totalAmount cells

def harmonicTotal (stormParam : Nat) : List UtxoCell → Nat
  | [] => 0
  | cell :: cells => stormParam * cell.plurality ^ 2 / cell.amount + harmonicTotal stormParam cells

/-- The harmonic part of the outputs is counted by a word. -/
def Computable (stormParam : Nat) (outputs : List UtxoCell) : Prop :=
  (∀ cell ∈ outputs, stormParam * cell.plurality ^ 2 < wordBound 64) ∧
    harmonicTotal stormParam outputs < wordBound 64

/-- The units of the outputs are counted by a word, up to one that makes the mass incomputable. -/
def OutputsFit (stormParam : Nat) : Nat → Nat → List UtxoCell → Prop
  | _, _, [] => True
  | plurality, harmonic, cell :: cells => plurality + cell.plurality < wordBound 64 ∧
    (stormParam * cell.plurality ^ 2 < wordBound 64 →
      harmonic + stormParam * cell.plurality ^ 2 / cell.amount < wordBound 64 →
      OutputsFit stormParam (plurality + cell.plurality)
        (harmonic + stormParam * cell.plurality ^ 2 / cell.amount) cells)

/-- One output, one input, or two of each. -/
def Relaxed (inputs outputs : List UtxoCell) : Prop :=
  totalPlurality outputs = 1 ∨ totalPlurality inputs = 1 ∨
    totalPlurality outputs = 2 ∧ totalPlurality inputs = 2

variable {stormParam : Nat} {acc : Nat × Nat} {cell : UtxoCell} {inputs outputs : List UtxoCell}

theorem faultless_orNone (value : Option Nat) : Faultless (orNone value) := by
  cases value with
  | none => exact returns_err
  | some value => exact returns_ok trivial

theorem orNone_eq_ok {value : Option Nat} {result : Nat} :
    orNone value = .ok result ↔ value = some result := by
  cases value <;> simp [orNone]

theorem faultless_addOutput (hamount : cell.amount ≠ 0) :
    Faultless (addOutput stormParam acc cell) ↔ acc.1 + cell.plurality < wordBound 64 := by
  rw [addOutput, faultless_bind, U64.add, faultless_ite]
  refine and_iff_left fun _ _ => (faultless_orNone _).bind fun _ _ =>
    (faultless_orNone _).bind fun _ _ => (returns_of_holds hamount).bind fun _ _ => ?_
  exact (faultless_orNone _).bind fun _ _ => returns_ok trivial

theorem addOutput_eq_ok (hcell : cell.amount ≠ 0 ∧ 1 ≤ cell.plurality) {next : Nat × Nat} :
    addOutput stormParam acc cell = .ok next ↔ acc.1 + cell.plurality < wordBound 64 ∧
      stormParam * cell.plurality ^ 2 < wordBound 64 ∧
      acc.2 + stormParam * cell.plurality ^ 2 / cell.amount < wordBound 64 ∧
      next = (acc.1 + cell.plurality, acc.2 + stormParam * cell.plurality ^ 2 / cell.amount) := by
  have hle : stormParam * cell.plurality ≤ stormParam * cell.plurality * cell.plurality :=
    Nat.le_mul_of_pos_right _ hcell.2
  rw [Nat.pow_two, ← Nat.mul_assoc]
  simp only [addOutput, bind_eq_ok, U64.add_eq_ok, orNone_eq_ok, U64.checkedMul, U64.checkedAdd,
    U64.div, if_pos hcell.1, Option.ite_none_right_eq_some]
  constructor
  · rintro ⟨_, ⟨hfits, rfl⟩, _, ⟨_, ⟨⟩⟩, _, ⟨hscaled, ⟨⟩⟩, _, ⟨⟩, _, ⟨htotal, ⟨⟩⟩, ⟨⟩⟩
    exact ⟨hfits, hscaled, htotal, rfl⟩
  · rintro ⟨hfits, hscaled, htotal, rfl⟩
    exact ⟨_, ⟨hfits, rfl⟩, _, ⟨Nat.lt_of_le_of_lt hle hscaled, rfl⟩, _, ⟨hscaled, rfl⟩, _, rfl, _,
      ⟨htotal, rfl⟩, rfl⟩

/-- The pass over the outputs panics unless their units are counted by a word, and otherwise sums
them up or finds the mass incomputable. -/
theorem addOutputs_spec (stormParam : Nat) (acc : Nat × Nat)
    (houtputs : ∀ cell ∈ outputs, cell.amount ≠ 0 ∧ 1 ≤ cell.plurality) :
    (Faultless (outputs.foldlM (addOutput stormParam) acc) ↔
      OutputsFit stormParam acc.1 acc.2 outputs) ∧
    (OutputsFit stormParam acc.1 acc.2 outputs → acc.2 < wordBound 64 → ∀ next,
      outputs.foldlM (addOutput stormParam) acc = .ok next ↔
        ((∀ cell ∈ outputs, stormParam * cell.plurality ^ 2 < wordBound 64) ∧
          acc.2 + harmonicTotal stormParam outputs < wordBound 64) ∧
        next = (acc.1 + totalPlurality outputs, acc.2 + harmonicTotal stormParam outputs)) := by
  induction outputs generalizing acc with
  | nil =>
    refine ⟨iff_of_true (returns_ok trivial) trivial, fun _ hacc next => ?_⟩
    simpa [harmonicTotal, totalPlurality, hacc] using eq_comm
  | cons cell outputs ih =>
    obtain ⟨hcell, hcells⟩ := List.forall_mem_cons.mp houtputs
    rw [List.foldlM_cons, OutputsFit, faultless_bind, faultless_addOutput hcell.1]
    simp only [bind_eq_ok, addOutput_eq_ok hcell]
    constructor
    · refine and_congr_right fun hfits => ⟨fun hrest hscaled htotal => ?_, ?_⟩
      · exact (ih _ hcells).1.mp (hrest _ ⟨hfits, hscaled, htotal, rfl⟩)
      · rintro hrest _ ⟨_, hscaled, htotal, rfl⟩
        exact (ih _ hcells).1.mpr (hrest hscaled htotal)
    · rintro ⟨hfits, hrest⟩ hacc next
      rw [harmonicTotal, totalPlurality, List.forall_mem_cons, ← Nat.add_assoc, ← Nat.add_assoc]
      constructor
      · rintro ⟨_, ⟨_, hscaled, htotal, rfl⟩, hnext⟩
        obtain ⟨⟨hall, hsum⟩, hnext⟩ :=
          ((ih _ hcells).2 (hrest hscaled htotal) htotal next).mp hnext
        exact ⟨⟨⟨hscaled, hall⟩, hsum⟩, hnext⟩
      · rintro ⟨⟨⟨hscaled, hall⟩, hsum⟩, hnext⟩
        have htotal := Nat.lt_of_le_of_lt (Nat.le_add_right _ _) hsum
        exact ⟨_, ⟨hfits, hscaled, htotal, rfl⟩,
          ((ih _ hcells).2 (hrest hscaled htotal) htotal next).mpr ⟨⟨hall, hsum⟩, hnext⟩⟩

theorem faultless_addHarmonic
    (hcells : ∀ cell ∈ inputs, cell.amount ≠ 0 ∧ 1 ≤ cell.plurality ∧
      stormParam * cell.plurality ^ 2 < wordBound 64) :
    Faultless (inputs.foldlM (addHarmonic stormParam) 0) := by
  refine (returns_foldlM (fun rest _ => rest ⊆ inputs) ?_ (List.Subset.refl _)).mono
    fun _ _ => trivial
  intro cell rest acc hsubset
  obtain ⟨hcell, hrest⟩ := List.cons_subset.mp hsubset
  obtain ⟨hamount, hplurality, hfits⟩ := hcells cell hcell
  rw [Nat.pow_two, ← Nat.mul_assoc] at hfits
  have hscaled := Nat.lt_of_le_of_lt (Nat.le_mul_of_pos_right _ hplurality) hfits
  refine (returns_of_holds hscaled).bind ?_
  rintro _ rfl
  refine (returns_of_holds hfits).bind fun _ _ => (returns_of_holds hamount).bind fun _ _ => ?_
  exact returns_ok hrest

/-- A sum of pluralities is counted by a word or panics. -/
theorem sum_pluralities {total : Nat} (htotal : total < wordBound 64) :
    (inputs.foldlM (fun total cell => U64.add total cell.plurality) total : Outcome Unit Nat) =
      U64.add total (totalPlurality inputs) := by
  induction inputs generalizing total with
  | nil => exact (if_pos htotal).symm
  | cons cell inputs ih =>
    rw [List.foldlM_cons, U64.add, U64.add, totalPlurality, ← Nat.add_assoc]
    split
    next hfits => exact ih hfits
    next hfits =>
      rw [if_neg (by omega)]
      rfl

theorem sum_inputs (acc : Nat × Nat) (hplurality : acc.1 < wordBound 64)
    (hamount : acc.2 + totalAmount inputs < wordBound 64) :
    inputs.foldlM addInput acc = do
      return (← U64.add acc.1 (totalPlurality inputs), acc.2 + totalAmount inputs) := by
  induction inputs generalizing acc with
  | nil =>
    rw [totalPlurality, totalAmount, U64.add, Nat.add_zero, Nat.add_zero, if_pos hplurality]
    rfl
  | cons cell inputs ih =>
    rw [totalAmount, ← Nat.add_assoc] at hamount
    rw [List.foldlM_cons, addInput, U64.add, U64.add, U64.add, totalPlurality, totalAmount,
      ← Nat.add_assoc, ← Nat.add_assoc, if_pos (by omega : acc.2 + cell.amount < wordBound 64)]
    split
    next hfits => exact ih _ hfits hamount
    next hfits =>
      rw [if_neg (by omega)]
      rfl

theorem length_le_totalPlurality (hplurality : ∀ cell ∈ inputs, 1 ≤ cell.plurality) :
    inputs.length ≤ totalPlurality inputs := by
  induction inputs with
  | nil => exact Nat.le_refl 0
  | cons cell inputs ih =>
    obtain ⟨hcell, hcells⟩ := List.forall_mem_cons.mp hplurality
    rw [List.length_cons, totalPlurality, Nat.add_comm]
    exact Nat.add_le_add hcell (ih hcells)

/-- The test of the path sums the units of one or two inputs. -/
theorem relaxedFormulaPath_spec (outputs : List UtxoCell)
    (hplurality : ∀ cell ∈ inputs, 1 ≤ cell.plurality) :
    relaxedFormulaPath inputs (totalPlurality outputs) = .error .panic ∧
        wordBound 64 ≤ totalPlurality inputs ∧ ¬ Relaxed inputs outputs ∨
      ∃ relaxed, relaxedFormulaPath inputs (totalPlurality outputs) = .ok relaxed ∧
        (relaxed = true ↔ Relaxed inputs outputs) := by
  have hlength := length_le_totalPlurality hplurality
  unfold relaxedFormulaPath Relaxed
  rw [sum_pluralities (by decide)]
  split_ifs with hone hmany
  · exact .inr ⟨true, rfl, by simp [hone]⟩
  · exact .inr ⟨false, rfl, by simp; omega⟩
  · rw [U64.add, Nat.zero_add]
    split
    · exact .inr ⟨_, rfl, by simp [hone]⟩
    next hlarge =>
      have hbound : 2 < wordBound 64 := by decide
      exact .inl ⟨rfl, by omega, by omega⟩

/-- The mean of the inputs is a divisor. -/
theorem faultless_arithmeticIns (hpos : 1 ≤ totalPlurality inputs)
    (hfits : totalAmount inputs < wordBound 64) :
    Faultless (arithmeticIns stormParam inputs) ↔ totalPlurality inputs ≤ totalAmount inputs := by
  have hsum := sum_inputs (0, 0) (by decide) (by rwa [Nat.zero_add])
  rw [arithmeticIns, hsum, U64.add, Nat.zero_add, Nat.zero_add]
  by_cases hle : totalPlurality inputs ≤ totalAmount inputs
  · rw [if_pos (Nat.lt_of_le_of_lt hle hfits)]
    refine iff_of_true ((returns_of_holds (Nat.ne_of_gt hpos)).bind ?_) hle
    rintro _ rfl
    have hmean := Nat.div_pos hle hpos
    exact (returns_of_holds (Nat.ne_of_gt hmean)).bind fun _ _ => returns_ok trivial
  · refine iff_of_false ?_ hle
    split
    · simp [U64.div, Nat.ne_of_gt hpos, Nat.div_eq_of_lt (Nat.lt_of_not_le hle),
        not_faultless_panic]
    · exact not_faultless_panic

theorem faultless_inputs (outputs : List UtxoCell) (harmonicOuts : Nat)
    (hcells : ∀ cell ∈ inputs, cell.amount ≠ 0 ∧ 1 ≤ cell.plurality ∧
      stormParam * cell.plurality ^ 2 < wordBound 64)
    (hpos : 1 ≤ totalPlurality inputs) (hfits : totalAmount inputs < wordBound 64) :
    Faultless (do
      if ← relaxedFormulaPath inputs (totalPlurality outputs) then
        return harmonicOuts - (← inputs.foldlM (addHarmonic stormParam) 0)
      else return harmonicOuts - (← arithmeticIns stormParam inputs)) ↔
    (¬ Relaxed inputs outputs → totalPlurality inputs ≤ totalAmount inputs) := by
  rcases relaxedFormulaPath_spec outputs fun cell hcell => (hcells cell hcell).2.1 with
    ⟨hpath, hlarge, hstrict⟩ | ⟨relaxed, hpath, hrelaxed⟩
  · rw [hpath]
    refine iff_of_false not_faultless_panic fun hmean => ?_
    exact absurd (hmean hstrict) (by omega)
  rw [hpath, ok_bind]
  cases relaxed with
  | true =>
    refine iff_of_true ?_ fun hstrict => absurd (hrelaxed.mp rfl) hstrict
    exact (faultless_addHarmonic hcells).bind fun _ _ => returns_ok trivial
  | false =>
    have hstrict := fun hpath => Bool.false_ne_true (hrelaxed.mpr hpath)
    rw [if_neg Bool.false_ne_true, faultless_bind, faultless_arithmeticIns hpos hfits,
      imp_iff_right hstrict]
    exact and_iff_left fun _ _ => returns_ok trivial

/-- The mass is computed or found incomputable if and only if the units of the outputs are counted
by a word and, where the mean of the inputs is taken, they hold a sompi for each unit. -/
theorem calcStorageMass_faultless (hinputs : inputs ≠ [])
    (hamount : ∀ cell ∈ inputs ++ outputs, cell.amount ≠ 0)
    (hplurality : ∀ cell ∈ inputs ++ outputs, 1 ≤ cell.plurality)
    (hstorm : ∀ cell ∈ inputs, stormParam * cell.plurality ^ 2 < 2 ^ 64)
    (hamounts : totalAmount inputs < 2 ^ 64) :
    Faultless (calcStorageMass false inputs outputs stormParam) ↔
      OutputsFit stormParam 0 0 outputs ∧
        (Computable stormParam outputs → ¬ Relaxed inputs outputs →
          totalPlurality inputs ≤ totalAmount inputs) := by
  rw [List.forall_mem_append] at hamount hplurality
  have hpos : 1 ≤ totalPlurality inputs :=
    Nat.le_trans (List.length_pos_iff.mpr hinputs) (length_le_totalPlurality hplurality.1)
  obtain ⟨hfaultless, hsum⟩ := addOutputs_spec stormParam (0, 0) fun cell hcell =>
    ⟨hamount.2 cell hcell, hplurality.2 cell hcell⟩
  rw [calcStorageMass, if_neg Bool.false_ne_true, faultless_bind, hfaultless]
  refine and_congr_right fun hfit => ?_
  simp only [hsum hfit (by decide), Nat.zero_add]
  have hrest := faultless_inputs outputs (harmonicTotal stormParam outputs) (fun cell hcell =>
    ⟨hamount.1 cell hcell, hplurality.1 cell hcell, hstorm cell hcell⟩) hpos hamounts
  constructor
  · intro houts hcomputable
    exact hrest.mp (houts _ ⟨hcomputable, rfl⟩)
  · rintro hmean _ ⟨hcomputable, rfl⟩
    exact hrest.mpr (hmean hcomputable)

/-- A script with an ML-DSA key takes 14 units. -/
def mlDsaScript : ScriptPublicKey := ⟨0, List.replicate 1316 0⟩

/-- Three sompi under such a script, spent to three outputs, have a mean of zero. -/
theorem calcStorageMass_panics :
    calcStorageMass false [⟨utxoPlurality mlDsaScript, 3⟩] [⟨1, 1⟩, ⟨1, 1⟩, ⟨1, 1⟩] (10 ^ 12) =
      .error .panic := by
  rw [show utxoPlurality mlDsaScript = 14 by rw [utxoPlurality, mlDsaScript, List.length_replicate]]
  decide

theorem calcStorageMass_faultless_mlDsa :
    Faultless (calcStorageMass false [⟨14, 14⟩] [⟨1, 1⟩, ⟨1, 1⟩, ⟨1, 1⟩] (10 ^ 12)) := by
  refine (calcStorageMass_faultless (by decide) (by decide) (by decide) (by decide)
    (by decide)).mpr ⟨by simp [OutputsFit, wordBound], fun _ _ => by decide⟩

end Qaspa.Mass
