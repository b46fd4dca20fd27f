import Mathlib.Algebra.BigOperators.Finsupp.Basic
import Mathlib.Data.ZMod.Basic
import Qaspa.MuHash.Arithmetic

/-! # The multiset hash

An accumulator is a fraction: elements are added by multiplying the numerator and
removed by multiplying the denominator, and only serialization carries out the
division. In any sequence of calls on any number of accumulators, an accumulator
stands for the product of its elements to the power of their net multiplicities,
and its serialization is the reduced form of that product.
-/

namespace Qaspa

open Function ZMod Outcome

structure MuHash where
  numerator : MuHash.U3072
  denominator : MuHash.U3072
  deriving DecidableEq

namespace MuHash

inductive OverflowError where
  | overflow
  deriving DecidableEq, Repr

def new : MuHash := ⟨.one, .one⟩

variable {Data Hash : Type} (elementStream : Data → ElementBytes)

/-- The element of some data: a stream of bytes seeded with its hash. -/
def dataToElement (data : Data) : U3072 := .fromLeBytes (elementStream data)

def addElement (self : MuHash) (data : Data) : Checked MuHash := do
  .ok { self with numerator := ← self.numerator.mul (dataToElement elementStream data) }

def removeElement (self : MuHash) (data : Data) : Checked MuHash := do
  .ok { self with denominator := ← self.denominator.mul (dataToElement elementStream data) }

def combine (self other : MuHash) : Checked MuHash := do
  let numerator ← self.numerator.mul other.numerator
  let denominator ← self.denominator.mul other.denominator
  .ok ⟨numerator, denominator⟩

def normalize (self : MuHash) : Checked MuHash := do
  .ok ⟨← self.numerator.div self.denominator, .one⟩

def serialize (self : MuHash) : Checked (ElementBytes × MuHash) := do
  let self ← self.normalize
  .ok (self.numerator.toLeBytes, self)

def finalize (finalizeHash : ElementBytes → Hash) (self : MuHash) : Checked (Hash × MuHash) := do
  let serialized ← self.serialize
  .ok (finalizeHash serialized.1, serialized.2)

def deserialize (data : ElementBytes) : Except OverflowError MuHash :=
  let numerator := U3072.fromLeBytes data
  if numerator.isOverflow then .error .overflow else .ok ⟨numerator, .one⟩

/-! ## Sequences of calls -/

/-- A call on one of the accumulators. -/
inductive Call (Name Data : Type) where
  | addElement (target : Name) (data : Data)
  | removeElement (target : Name) (data : Data)
  | combine (target source : Name)
  | serialize (target : Name)
  | finalize (target : Name)

/-- What a call returns. -/
inductive Reply (Hash : Type) where
  | unit
  | bytes (bytes : ElementBytes)
  | hash (hash : Hash)

variable {Name : Type} [DecidableEq Name] (finalizeHash : ElementBytes → Hash)

def step (accumulators : Name → MuHash) : Call Name Data → Checked (Reply Hash × (Name → MuHash))
  | .addElement target data => do
    let result ← (accumulators target).addElement elementStream data
    .ok (.unit, Function.update accumulators target result)
  | .removeElement target data => do
    let result ← (accumulators target).removeElement elementStream data
    .ok (.unit, Function.update accumulators target result)
  | .combine target source => do
    let result ← (accumulators target).combine (accumulators source)
    .ok (.unit, Function.update accumulators target result)
  | .serialize target => do
    let result ← (accumulators target).serialize
    .ok (.bytes result.1, Function.update accumulators target result.2)
  | .finalize target => do
    let result ← (accumulators target).finalize finalizeHash
    .ok (.hash result.1, Function.update accumulators target result.2)

/-- The replies to a sequence of calls and the accumulators after it. -/
def run : (Name → MuHash) → List (Call Name Data) → Checked (List (Reply Hash) × (Name → MuHash))
  | accumulators, [] => .ok ([], accumulators)
  | accumulators, call :: calls => do
    let first ← step elementStream finalizeHash accumulators call
    let rest ← run first.2 calls
    .ok (first.1 :: rest.1, rest.2)

/-! ## Net multiplicities -/

/-- How often each accumulator holds each element, adds less removes, after a call. -/
def Call.count [DecidableEq Data] (held : Name → Data → ℤ) : Call Name Data → Name → Data → ℤ
  | .addElement target data =>
    Function.update held target fun other => held target other + if other = data then 1 else 0
  | .removeElement target data =>
    Function.update held target fun other => held target other - if other = data then 1 else 0
  | .combine target source =>
    Function.update held target fun other => held target other + held source other
  | .serialize _ | .finalize _ => held

/-- The net multiplicities after a sequence of calls on new accumulators. -/
def multiplicity [DecidableEq Data] (calls : List (Call Name Data)) : Name → Data → ℤ :=
  calls.foldl Call.count fun _ _ => 0

/-! ## What an accumulator stands for -/

section Represents

variable (hunits : ∀ data, (dataToElement elementStream data).value.Coprime prime)

/-- The product of all elements to the power of their multiplicities. -/
noncomputable def product (held : Data →₀ ℤ) : (ZMod prime)ˣ :=
  held.prod fun data count => ZMod.unitOfCoprime _ (hunits data) ^ count

/-- The fraction equals the product of the elements held. -/
structure Represents (accumulator : MuHash) (held : Data →₀ ℤ) : Prop where
  isUnit : IsUnit (accumulator.denominator.value : ZMod prime)
  numerator : (accumulator.numerator.value : ZMod prime) =
    accumulator.denominator.value * product elementStream hunits held

/-- Every accumulator stands for its net multiplicities. -/
def AllRepresent (accumulators : Name → MuHash) (counts : Name → Data → ℤ) : Prop :=
  ∀ name, ∃ held : Data →₀ ℤ, ⇑held = counts name ∧
    (accumulators name).Represents elementStream hunits held

variable {elementStream hunits} {self other : MuHash} {held held' : Data →₀ ℤ}

theorem product_add : product elementStream hunits (held + held') =
    product elementStream hunits held * product elementStream hunits held' :=
  Finsupp.prod_add_index' (fun _ => zpow_zero _) fun _ _ _ => zpow_add _ _ _

theorem product_single (data : Data) (count : ℤ) :
    product elementStream hunits (Finsupp.single data count) =
      unitOfCoprime _ (hunits data) ^ count :=
  Finsupp.prod_single_index (zpow_zero _)

theorem U3072.mul_cast (x y : U3072) : ∃ result, x.mul y = .ok result ∧
    (result.value : ZMod prime) = x.value * y.value := by
  obtain ⟨result, hresult, hmod⟩ := x.mul_eq_ok y
  refine ⟨result, hresult, ?_⟩
  rw [(natCast_eq_natCast_iff _ _ _).mpr hmod, Nat.cast_mul]

theorem represents_new : (new : MuHash).Represents elementStream hunits 0 where
  isUnit := by
    exact isUnit_one
  numerator := by
    rfl

section

variable (hself : self.Represents elementStream hunits held)

include hself

theorem Represents.addElement (data : Data) :
    ∃ next, self.addElement elementStream data = .ok next ∧
      next.Represents elementStream hunits (held + Finsupp.single data 1) := by
  obtain ⟨result, hresult, hcast⟩ := self.numerator.mul_cast (dataToElement elementStream data)
  refine ⟨⟨result, self.denominator⟩, by simp [MuHash.addElement, hresult], hself.isUnit, ?_⟩
  rw [hcast, hself.numerator, product_add, product_single, zpow_one, Units.val_mul,
    coe_unitOfCoprime, mul_assoc]

theorem Represents.removeElement (data : Data) :
    ∃ next, self.removeElement elementStream data = .ok next ∧
      next.Represents elementStream hunits (held + Finsupp.single data (-1)) := by
  obtain ⟨result, hresult, hcast⟩ := self.denominator.mul_cast (dataToElement elementStream data)
  have helement : (unitOfCoprime _ (hunits data) : ZMod prime) =
      (dataToElement elementStream data).value := coe_unitOfCoprime _ _
  refine ⟨⟨self.numerator, result⟩, by simp [MuHash.removeElement, hresult], ?_, ?_⟩
  · rw [hcast, ← helement]
    exact hself.isUnit.mul (Units.isUnit _)
  · rw [hcast, hself.numerator, product_add, product_single, zpow_neg_one, Units.val_mul,
      ← helement]
    calc _ = (self.denominator.value : ZMod prime) * product elementStream hunits held *
          (unitOfCoprime _ (hunits data) *
            ((unitOfCoprime _ (hunits data))⁻¹ : (ZMod prime)ˣ)) := by
          rw [Units.mul_inv, mul_one]
      _ = _ := by ring

theorem Represents.combine (hother : other.Represents elementStream hunits held') :
    ∃ next, self.combine other = .ok next ∧
      next.Represents elementStream hunits (held + held') := by
  obtain ⟨numerator, hnumerator, hnumeratorCast⟩ := self.numerator.mul_cast other.numerator
  obtain ⟨denominator, hdenominator, hdenominatorCast⟩ :=
    self.denominator.mul_cast other.denominator
  refine ⟨⟨numerator, denominator⟩, by simp [MuHash.combine, hnumerator, hdenominator], ?_, ?_⟩
  · rw [hdenominatorCast]
    exact hself.isUnit.mul hother.isUnit
  · rw [hnumeratorCast, hdenominatorCast, hself.numerator, hother.numerator, product_add,
      Units.val_mul]
    ring

/-- Normalization yields the reduced form of the product, whatever the fraction was. -/
theorem Represents.normalize :
    ∃ numerator, self.normalize = .ok ⟨numerator, .one⟩ ∧ numerator.value < prime ∧
      (numerator.value : ZMod prime) = product elementStream hunits held := by
  have hcoprime := (isUnit_iff_coprime _ _).mp hself.isUnit
  obtain ⟨quotient, hquotient, hlt, hmod⟩ := U3072.div_eq_ok self.numerator hcoprime
  refine ⟨quotient, by simp [MuHash.normalize, hquotient], hlt, ?_⟩
  have hcast := (natCast_eq_natCast_iff _ _ _).mpr hmod
  rw [Nat.cast_mul, hself.numerator, mul_comm] at hcast
  exact hself.isUnit.mul_left_cancel hcast

/-- Serialization returns the bytes of the reduced product and keeps the value. -/
theorem Represents.serialize :
    ∃ numerator, self.serialize = .ok (numerator.toLeBytes, ⟨numerator, .one⟩) ∧
      numerator.value < prime ∧ (numerator.value : ZMod prime) = product elementStream hunits held ∧
      Represents elementStream hunits ⟨numerator, .one⟩ held := by
  obtain ⟨numerator, hnormalize, hlt, hcast⟩ := hself.normalize
  refine ⟨numerator, by simp [MuHash.serialize, hnormalize], hlt, hcast, ?_, ?_⟩
  · exact isUnit_one
  · rw [hcast, show U3072.one.value = 1 from rfl, Nat.cast_one, one_mul]

/-- Accumulators of one product serialize to the same bytes. -/
theorem Represents.serialize_eq (hother : other.Represents elementStream hunits held) :
    ∃ bytes next next', self.serialize = .ok (bytes, next) ∧
      other.serialize = .ok (bytes, next') := by
  obtain ⟨numerator, hserialize, hlt, hcast, _⟩ := hself.serialize
  obtain ⟨numerator', hserialize', hlt', hcast', _⟩ := hother.serialize
  have hmod := (natCast_eq_natCast_iff _ _ _).mp (hcast.trans hcast'.symm)
  obtain rfl := U3072.value_injective (hmod.eq_of_lt_of_lt hlt hlt')
  exact ⟨_, _, _, hserialize, hserialize'⟩

end

/-! ## Whole runs -/

section Run

variable {accumulators : Name → MuHash} {counts : Name → Data → ℤ}

section

variable (hall : AllRepresent elementStream hunits accumulators counts)

include hall

theorem AllRepresent.update (target : Name) {result : MuHash}
    (hresult : result.Represents elementStream hunits held) {count : Data → ℤ}
    (hcount : ⇑held = count) :
    AllRepresent elementStream hunits (update accumulators target result)
      (update counts target count) := by
  intro name
  by_cases hname : name = target
  · subst hname
    exact ⟨held, by rwa [update_self], by rwa [update_self]⟩
  · rw [update_of_ne hname, update_of_ne hname]
    exact hall name

variable [DecidableEq Data]

/-- Every call returns and changes the multiplicities as it should. -/
theorem AllRepresent.step (call : Call Name Data) :
    ∃ reply next, step elementStream finalizeHash accumulators call = .ok (reply, next) ∧
      AllRepresent elementStream hunits next (call.count counts) := by
  cases call with
  | addElement target data =>
    obtain ⟨held, hheld, hrepresents⟩ := hall target
    obtain ⟨result, hresult, hnext⟩ := hrepresents.addElement data
    refine ⟨.unit, _, by simp only [MuHash.step, hresult, ok_bind],
      hall.update target hnext ?_⟩
    funext other
    simp [Finsupp.single_apply, hheld, eq_comm]
  | removeElement target data =>
    obtain ⟨held, hheld, hrepresents⟩ := hall target
    obtain ⟨result, hresult, hnext⟩ := hrepresents.removeElement data
    refine ⟨.unit, _, by simp only [MuHash.step, hresult, ok_bind],
      hall.update target hnext ?_⟩
    funext other
    by_cases hother : other = data
    · simp [hother, hheld, Int.sub_eq_add_neg]
    · simp [hother, hheld]
  | combine target source =>
    obtain ⟨held, hheld, hrepresents⟩ := hall target
    obtain ⟨held', hheld', hrepresents'⟩ := hall source
    obtain ⟨result, hresult, hnext⟩ := hrepresents.combine hrepresents'
    refine ⟨.unit, _, by simp only [MuHash.step, hresult, ok_bind],
      hall.update target hnext ?_⟩
    funext other
    rw [Finsupp.add_apply, hheld, hheld']
  | serialize target =>
    obtain ⟨held, hheld, hrepresents⟩ := hall target
    obtain ⟨numerator, hserialize, _, _, hnext⟩ := hrepresents.serialize
    refine ⟨.bytes numerator.toLeBytes, Function.update accumulators target ⟨numerator, .one⟩,
      by simp only [MuHash.step, hserialize, ok_bind], ?_⟩
    have hupdate := hall.update target hnext hheld
    rwa [Function.update_eq_self] at hupdate
  | finalize target =>
    obtain ⟨held, hheld, hrepresents⟩ := hall target
    obtain ⟨numerator, hserialize, _, _, hnext⟩ := hrepresents.serialize
    refine ⟨.hash (finalizeHash numerator.toLeBytes),
      Function.update accumulators target ⟨numerator, .one⟩,
      by simp only [MuHash.step, MuHash.finalize, hserialize, ok_bind], ?_⟩
    have hupdate := hall.update target hnext hheld
    rwa [Function.update_eq_self] at hupdate

theorem AllRepresent.run (calls : List (Call Name Data)) :
    ∃ replies next, run elementStream finalizeHash accumulators calls = .ok (replies, next) ∧
      AllRepresent elementStream hunits next (calls.foldl Call.count counts) := by
  induction calls generalizing accumulators counts with
  | nil => exact ⟨[], accumulators, rfl, hall⟩
  | cons call calls ih =>
    obtain ⟨reply, middle, hstep, hmiddle⟩ := hall.step finalizeHash call
    obtain ⟨replies, next, hrun, hnext⟩ := ih hmiddle
    exact ⟨reply :: replies, next, by simp only [MuHash.run, hstep, hrun, ok_bind], hnext⟩

end

end Run

end Represents

/-- Two fractions are equal modulo the prime. -/
def SameValue (left right : MuHash) : Prop :=
  left.numerator.value * right.denominator.value ≡
    right.numerator.value * left.denominator.value [MOD prime]

theorem Represents.deserialize_serialize {elementStream : Data → ElementBytes}
    {hunits : ∀ data, (dataToElement elementStream data).value.Coprime prime} {self : MuHash}
    {held : Data →₀ ℤ} (hself : self.Represents elementStream hunits held) :
    ∃ bytes next restored, self.serialize = .ok (bytes, next) ∧
      deserialize bytes = .ok restored ∧ restored.SameValue self := by
  obtain ⟨numerator, hserialize, hlt, hcast, hnext⟩ := hself.serialize
  have hreduced : ¬ numerator.isOverflow = true := by
    rw [U3072.isOverflow_iff]
    omega
  refine ⟨_, _, ⟨numerator, .one⟩, hserialize, ?_, ?_⟩
  · rw [deserialize, U3072.fromLeBytes_toLeBytes]
    exact if_neg hreduced
  · rw [SameValue, ← natCast_eq_natCast_iff, Nat.cast_mul, Nat.cast_mul, hcast,
      hself.numerator,
      show U3072.one.value = 1 from rfl, Nat.cast_one, mul_one, mul_comm]

/-- Every sequence of calls returns, and what an accumulator serializes to depends
only on the net multiplicities of its elements; deserializing it gives back the
value. The elements are units modulo the prime, that is, not congruent to zero. -/
theorem serialize_multiplicity [DecidableEq Data]
    (hunits : ∀ data, (dataToElement elementStream data).value.Coprime prime)
    (calls calls' : List (Call Name Data)) :
    ∃ replies accumulators replies' accumulators',
      run elementStream finalizeHash (fun _ => new) calls = .ok (replies, accumulators) ∧
      run elementStream finalizeHash (fun _ => new) calls' = .ok (replies', accumulators') ∧
      (∀ name name', (∀ data, multiplicity calls name data = multiplicity calls' name' data) →
        ∃ bytes next next', (accumulators name).serialize = .ok (bytes, next) ∧
          (accumulators' name').serialize = .ok (bytes, next')) ∧
      ∀ name, ∃ bytes next restored, (accumulators name).serialize = .ok (bytes, next) ∧
        deserialize bytes = .ok restored ∧ restored.SameValue (accumulators name) := by
  have hnew : AllRepresent elementStream hunits (fun _ : Name => new) fun _ _ => 0 :=
    fun _ => ⟨0, rfl, represents_new⟩
  obtain ⟨replies, accumulators, hrun, hall⟩ := hnew.run finalizeHash calls
  obtain ⟨replies', accumulators', hrun', hall'⟩ := hnew.run finalizeHash calls'
  refine ⟨replies, accumulators, replies', accumulators', hrun, hrun', ?_, ?_⟩
  · intro name name' hcounts
    obtain ⟨held, hheld, hrepresents⟩ := hall name
    obtain ⟨held', hheld', hrepresents'⟩ := hall' name'
    obtain rfl : held = held' := Finsupp.ext fun data => by rw [hheld, hheld']; exact hcounts data
    exact hrepresents.serialize_eq hrepresents'
  · intro name
    obtain ⟨held, _, hrepresents⟩ := hall name
    exact hrepresents.deserialize_serialize

/-- Two elements, of the values two and three. -/
def sampleStream (data : Bool) : ElementBytes :=
  U3072.toLeBytes ⟨U3072.zero.limbs.set 0 (if data then 2 else 3), by
    rw [List.length_set, U3072.zero.length_limbs]⟩

/-- Adding one element with a detour over a combined accumulator, or directly. -/
theorem serialize_multiplicity_detour :
    (∀ data, (dataToElement sampleStream data).value.Coprime prime) ∧
      ∃ replies accumulators replies' accumulators',
        run sampleStream id (fun _ : Bool => new) [.removeElement false false, .serialize false,
          .addElement true true, .addElement true false, .combine false true] =
            .ok (replies, accumulators) ∧
        run sampleStream id (fun _ : Bool => new) [.finalize true, .addElement true true] =
          .ok (replies', accumulators') ∧
        ∃ bytes next next', (accumulators false).serialize = .ok (bytes, next) ∧
          (accumulators' true).serialize = .ok (bytes, next') := by
  have hunits : ∀ data, (dataToElement sampleStream data).value.Coprime prime := by decide
  obtain ⟨replies, accumulators, replies', accumulators', hrun, hrun', hsame, _⟩ :=
    serialize_multiplicity sampleStream id hunits
      [.removeElement false false, .serialize false, .addElement true true,
        .addElement true false, .combine false true]
      [.finalize true, .addElement true true]
  exact ⟨hunits, replies, accumulators, replies', accumulators', hrun, hrun',
    hsame false true (by decide)⟩

end MuHash

end Qaspa
