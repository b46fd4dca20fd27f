import Qaspa.Lib.HashMap
import Qaspa.Core.Tx

/-! # UTXO collections

Collections of UTXO entries and the set operators the diff algebra is built
from. The operators compare entries by DAA score only: an entry counts as common
to two collections when both hold the outpoint with the same score.
-/

namespace Qaspa.Utxo

open HashMap

abbrev UtxoCollection := HashMap TransactionOutpoint UtxoEntry

namespace UtxoCollection

def containsWithDaaScore (self : UtxoCollection) (outpoint : TransactionOutpoint)
    (daaScore : UInt64) : Bool :=
  match self.lookup outpoint with
  | some entry => entry.blockDaaScore == daaScore
  | none => false

/-- Erase every outpoint of `other`. -/
def removeCollection (self other : UtxoCollection) : UtxoCollection := eraseKeys other self

def intersects (self other : UtxoCollection) : Bool :=
  (findCommon (fun _ _ _ => true) self other).isSome

def intersectsWithRule (self other : UtxoCollection)
    (rule : TransactionOutpoint → UtxoEntry → UtxoEntry → Bool) : Option TransactionOutpoint :=
  findCommon rule self other

/-- `result ∪ (this ∩ other)` and `remainder ∪ (this ∖ other)`. -/
def intersectionWithRemainderHavingDaaScoreInPlace (this other result remainder : UtxoCollection) :
    UtxoCollection × UtxoCollection :=
  this.entries.foldl
    (fun acc entry =>
      if other.containsWithDaaScore entry.1 entry.2.blockDaaScore then
        (acc.1.insert entry.1 entry.2, acc.2)
      else (acc.1, acc.2.insert entry.1 entry.2))
    (result, remainder)

/-- `result ∪ (this ∖ other)`. -/
def subtractionHavingDaaScoreInPlace (this other result : UtxoCollection) : UtxoCollection :=
  this.entries.foldl
    (fun result entry =>
      if !other.containsWithDaaScore entry.1 entry.2.blockDaaScore then
        result.insert entry.1 entry.2
      else result)
    result

/-- `result ∪ (this ∖ other)` and `remainder ∪ (this ∩ other)`. -/
def subtractionWithRemainderHavingDaaScoreInPlace (this other result remainder : UtxoCollection) :
    UtxoCollection × UtxoCollection :=
  this.entries.foldl
    (fun acc entry =>
      if !other.containsWithDaaScore entry.1 entry.2.blockDaaScore then
        (acc.1.insert entry.1 entry.2, acc.2)
      else (acc.1, acc.2.insert entry.1 entry.2))
    (result, remainder)

/-! ## Lookups after each operator -/

variable {self other this result remainder : UtxoCollection} {outpoint : TransactionOutpoint}

/-- Whether a collection that answers `held` at an outpoint holds the score there. -/
def heldWithScore (held : Option UtxoEntry) (daaScore : UInt64) : Bool :=
  match held with
  | some entry => entry.blockDaaScore == daaScore
  | none => false

@[simp] theorem heldWithScore_none (daaScore : UInt64) : heldWithScore none daaScore = false := rfl

theorem intersects_eq_true :
    self.intersects other = true ↔
      ∃ outpoint, (self.lookup outpoint).isSome ∧ (other.lookup outpoint).isSome := by
  rw [intersects, Option.isSome_iff_ne_none, Ne, findCommon_eq_none]
  simp [Option.isSome_iff_exists]

theorem intersectsWithRule_eq_none
    {rule : TransactionOutpoint → UtxoEntry → UtxoEntry → Bool} :
    self.intersectsWithRule other rule = none ↔
      ∀ outpoint left right, self.lookup outpoint = some left →
        other.lookup outpoint = some right → rule outpoint left right = false :=
  findCommon_eq_none

theorem lookup_intersectionWithRemainder :
    let split := intersectionWithRemainderHavingDaaScoreInPlace this other result remainder
    split.1.lookup outpoint = overwrite (this.lookup outpoint) (result.lookup outpoint)
        (fun entry => heldWithScore (other.lookup outpoint) entry.blockDaaScore) ∧
      split.2.lookup outpoint = overwrite (this.lookup outpoint) (remainder.lookup outpoint)
        (fun entry => !heldWithScore (other.lookup outpoint) entry.blockDaaScore) := by
  have hsplit : intersectionWithRemainderHavingDaaScoreInPlace this other result remainder = _ :=
    foldl_partition
      (fun outpoint (entry : UtxoEntry) => other.containsWithDaaScore outpoint entry.blockDaaScore)
      this result remainder
  rw [hsplit]
  exact ⟨lookup_extendWhere _ _ _ _, lookup_extendWhere _ _ _ _⟩

theorem lookup_subtraction :
    (subtractionHavingDaaScoreInPlace this other result).lookup outpoint =
      overwrite (this.lookup outpoint) (result.lookup outpoint)
        (fun entry => !heldWithScore (other.lookup outpoint) entry.blockDaaScore) :=
  lookup_extendWhere
    (fun outpoint (entry : UtxoEntry) => !other.containsWithDaaScore outpoint entry.blockDaaScore)
    this result outpoint

theorem lookup_subtractionWithRemainder :
    let split := subtractionWithRemainderHavingDaaScoreInPlace this other result remainder
    split.1.lookup outpoint = overwrite (this.lookup outpoint) (result.lookup outpoint)
        (fun entry => !heldWithScore (other.lookup outpoint) entry.blockDaaScore) ∧
      split.2.lookup outpoint = overwrite (this.lookup outpoint) (remainder.lookup outpoint)
        (fun entry => !!heldWithScore (other.lookup outpoint) entry.blockDaaScore) := by
  have hsplit : subtractionWithRemainderHavingDaaScoreInPlace this other result remainder = _ :=
    foldl_partition
      (fun outpoint (entry : UtxoEntry) => !other.containsWithDaaScore outpoint entry.blockDaaScore)
      this result remainder
  rw [hsplit]
  exact ⟨lookup_extendWhere _ _ _ _, lookup_extendWhere _ _ _ _⟩

end UtxoCollection

/-! ## Sample collections -/

/-- An entry that differs from its kind only in its score. -/
def sampleEntry (score : UInt64) : UtxoEntry := ⟨1000, ⟨0, []⟩, score, false⟩

/-- A collection of sample entries, given by output index and score. -/
def sampleOutputs (outputs : List (UInt32 × UInt64)) : UtxoCollection :=
  ofList (outputs.map fun output => (⟨0, output.1⟩, sampleEntry output.2))

theorem eq_sampleEntry_of_lookup {outputs : List (UInt32 × UInt64)}
    {outpoint : TransactionOutpoint} {entry : UtxoEntry}
    (hlookup : (sampleOutputs outputs).lookup outpoint = some entry) :
    entry = sampleEntry entry.blockDaaScore := by
  obtain ⟨output, _, houtput⟩ := List.mem_map.mp (mem_of_lookup_ofList hlookup)
  cases houtput
  rfl

end Qaspa.Utxo
