import Qaspa.Lib.Change
import Qaspa.Utxo.Collection

/-! # UTXO diffs

A diff collects the entries added to and removed from a UTXO set. Composition
and difference of diffs are computed collection by collection, in passes that
read what earlier passes wrote. Each of them nevertheless acts outpoint by
outpoint: the only fact that is not local to one outpoint is a consistency check
of the difference, which compares two intersection flags of whole collections.
-/

namespace Qaspa.Utxo

open UtxoCollection

structure UtxoDiff where
  add : UtxoCollection
  remove : UtxoCollection

inductive UtxoAlgebraError where
  | duplicateRemovePoint (outpoint : TransactionOutpoint)
  | duplicateAddPoint (outpoint : TransactionOutpoint)
  | doubleRemoveCall (outpoint : TransactionOutpoint)
  | doubleAddCall (outpoint : TransactionOutpoint)
  | diffIntersectionPoint (outpoint : TransactionOutpoint) (description : String)
  | general (description : String)
  deriving DecidableEq, Repr

abbrev UtxoResult := Except UtxoAlgebraError

/-- A read-only view of a UTXO set. -/
abbrev UtxoView := TransactionOutpoint → Option UtxoEntry

/-- The view of a base set under a diff: added entries first, then removed
outpoints, then the base. -/
def UtxoView.compose (base : UtxoView) (diff : UtxoDiff) : UtxoView := fun outpoint =>
  match diff.add.lookup outpoint with
  | some entry => some entry
  | none => if (diff.remove.lookup outpoint).isSome then none else base outpoint

namespace UtxoDiff

/-- Two diffs are equal when both of their collections are. -/
def Same (left right : UtxoDiff) : Prop := left.add.Same right.add ∧ left.remove.Same right.remove

/-- The diff that leads back. -/
def asReversed (diff : UtxoDiff) : UtxoDiff := ⟨diff.remove, diff.add⟩

/-- An outpoint both diffs remove, unless this one re-added the entry that the
other removes. -/
def duplicateRemovePoint (self other : UtxoDiff) : Option TransactionOutpoint :=
  other.remove.intersectsWithRule self.remove fun outpoint entryToAdd _ =>
    !self.add.containsWithDaaScore outpoint entryToAdd.blockDaaScore

/-- An outpoint both diffs add, unless the other one first removes the existing
entry. -/
def duplicateAddPoint (self other : UtxoDiff) : Option TransactionOutpoint :=
  other.add.intersectsWithRule self.add fun outpoint _ existingEntry =>
    !other.remove.containsWithDaaScore outpoint existingEntry.blockDaaScore

def withDiff (self other : UtxoDiff) : UtxoResult UtxoDiff :=
  match self.duplicateRemovePoint other with
  | some offending => .error (.duplicateRemovePoint offending)
  | none =>
    match self.duplicateAddPoint other with
    | some offending => .error (.duplicateAddPoint offending)
    | none =>
      let removal := intersectionWithRemainderHavingDaaScoreInPlace
        other.remove self.add ∅ self.remove
      let add := self.add.removeCollection removal.1
      -- the second pass reads `remove` as the first pass left it
      let addition := intersectionWithRemainderHavingDaaScoreInPlace
        other.add removal.2 ∅ add
      .ok ⟨addition.2, removal.2.removeCollection addition.1⟩

def ruleNotAddedOutputRemovedWithDaaScore (self other : UtxoDiff)
    (outpoint : TransactionOutpoint) (thisEntry otherEntry : UtxoEntry) : Bool :=
  !(otherEntry.blockDaaScore != thisEntry.blockDaaScore &&
    (self.add.containsWithDaaScore outpoint otherEntry.blockDaaScore ||
      other.remove.containsWithDaaScore outpoint thisEntry.blockDaaScore))

def ruleNotRemovedOutputAddedWithDaaScore (self other : UtxoDiff)
    (outpoint : TransactionOutpoint) (thisEntry otherEntry : UtxoEntry) : Bool :=
  !(otherEntry.blockDaaScore != thisEntry.blockDaaScore &&
    (self.remove.containsWithDaaScore outpoint otherEntry.blockDaaScore ||
      other.add.containsWithDaaScore outpoint thisEntry.blockDaaScore))

/-- Whether some outpoint that both diffs add with the same score is in the given
removals. -/
def inBothToAddIntersects (self other : UtxoDiff) (removed : UtxoCollection) : Bool :=
  (subtractionWithRemainderHavingDaaScoreInPlace
    self.add other.add ∅ ∅).2.intersects removed

def diffFrom (self other : UtxoDiff) : UtxoResult UtxoDiff :=
  match self.remove.intersectsWithRule other.add
      (self.ruleNotAddedOutputRemovedWithDaaScore other) with
  | some offending =>
    .error (.diffIntersectionPoint offending "both in self.add and in other.remove")
  | none =>
    match self.add.intersectsWithRule other.remove
        (self.ruleNotRemovedOutputAddedWithDaaScore other) with
    | some offending =>
      .error (.diffIntersectionPoint offending "both in self.remove and in other.add")
    | none =>
      match self.remove.intersectsWithRule other.remove fun _ thisEntry otherEntry =>
          otherEntry.blockDaaScore != thisEntry.blockDaaScore with
      | some offending =>
        .error (.diffIntersectionPoint offending
          ("both in self.remove and other.remove with different DAA scores, " ++
            "with no corresponding entry in self.add"))
      | none =>
        if self.inBothToAddIntersects other self.remove !=
            self.inBothToAddIntersects other other.remove then
          .error (.general ("diff_from: outpoint both in self.add, other.add, " ++
            "and only one of self.remove and other.remove"))
        else
          let remove := (subtractionWithRemainderHavingDaaScoreInPlace
            self.add other.add ∅ ∅).1
          let add := subtractionHavingDaaScoreInPlace
            self.remove other.remove ∅
          .ok ⟨subtractionHavingDaaScoreInPlace other.add self.add add,
            subtractionHavingDaaScoreInPlace other.remove self.remove remove⟩

end UtxoDiff

/-! ## One outpoint at a time

The code recognises an entry by its DAA score. These are its checks and passes at
a single outpoint, still in terms of scores. -/

open UtxoCollection (heldWithScore)
open HashMap (overwrite)

/-- What a diff says about one outpoint. -/
def UtxoDiff.slot (diff : UtxoDiff) (outpoint : TransactionOutpoint) : Change UtxoEntry :=
  ⟨diff.add.lookup outpoint, diff.remove.lookup outpoint⟩

namespace Slot

/-- The sanity checks of composition at one outpoint. -/
structure Composable (this other : Change UtxoEntry) : Prop where
  remove : ∀ entry existing, other.remove = some entry → this.remove = some existing →
    heldWithScore this.add entry.blockDaaScore = true
  add : ∀ entry existing, other.add = some entry → this.add = some existing →
    heldWithScore other.remove existing.blockDaaScore = true

/-- The removals of `this` after the first pass of composition. -/
def removeAfterPass (this other : Change UtxoEntry) : Option UtxoEntry :=
  overwrite other.remove this.remove fun entry => !heldWithScore this.add entry.blockDaaScore

/-- Both passes of composition at one outpoint. -/
def withDiff (this other : Change UtxoEntry) : Change UtxoEntry :=
  ⟨overwrite other.add
      (if (overwrite other.remove none fun entry =>
        heldWithScore this.add entry.blockDaaScore).isSome then none else this.add)
      fun entry => !heldWithScore (removeAfterPass this other) entry.blockDaaScore,
    if (overwrite other.add none fun entry =>
      heldWithScore (removeAfterPass this other) entry.blockDaaScore).isSome then none
    else removeAfterPass this other⟩

/-- The per-outpoint rules of the difference. -/
structure Comparable (this other : Change UtxoEntry) : Prop where
  removeAdd : ∀ thisEntry otherEntry, this.remove = some thisEntry → other.add = some otherEntry →
    otherEntry.blockDaaScore ≠ thisEntry.blockDaaScore ∧
      (heldWithScore this.add otherEntry.blockDaaScore = true ∨
        heldWithScore other.remove thisEntry.blockDaaScore = true)
  addRemove : ∀ thisEntry otherEntry, this.add = some thisEntry → other.remove = some otherEntry →
    otherEntry.blockDaaScore ≠ thisEntry.blockDaaScore ∧
      (heldWithScore this.remove otherEntry.blockDaaScore = true ∨
        heldWithScore other.add thisEntry.blockDaaScore = true)
  removeRemove : ∀ thisEntry otherEntry, this.remove = some thisEntry →
    other.remove = some otherEntry → otherEntry.blockDaaScore = thisEntry.blockDaaScore

/-- Both diffs add the outpoint with the same score. -/
def AddedByBoth (this other : Change UtxoEntry) : Prop :=
  ∃ entry, this.add = some entry ∧ heldWithScore other.add entry.blockDaaScore = true

/-- The four subtractions of the difference at one outpoint. -/
def diffFrom (this other : Change UtxoEntry) : Change UtxoEntry :=
  ⟨overwrite other.add
      (overwrite this.remove none fun entry => !heldWithScore other.remove entry.blockDaaScore)
      fun entry => !heldWithScore this.add entry.blockDaaScore,
    overwrite other.remove
      (overwrite this.add none fun entry => !heldWithScore other.add entry.blockDaaScore)
      fun entry => !heldWithScore this.remove entry.blockDaaScore⟩

end Slot

namespace UtxoDiff

variable {self other result : UtxoDiff}

theorem same_iff_slot {left right : UtxoDiff} :
    left.Same right ↔ ∀ outpoint, left.slot outpoint = right.slot outpoint := by
  simp only [Same, HashMap.Same, slot, Change.mk.injEq, forall_and]

/-- The two sanity checks of composition pass exactly when no outpoint clashes. -/
theorem withDiff_checks :
    (self.duplicateRemovePoint other = none ∧ self.duplicateAddPoint other = none) ↔
      ∀ outpoint, Slot.Composable (self.slot outpoint) (other.slot outpoint) := by
  simp only [duplicateRemovePoint, duplicateAddPoint, intersectsWithRule_eq_none,
    Bool.not_eq_false']
  constructor
  · rintro ⟨hremove, hadd⟩ outpoint
    exact ⟨hremove outpoint, hadd outpoint⟩
  · intro hcomposable
    exact ⟨fun outpoint => (hcomposable outpoint).remove,
      fun outpoint => (hcomposable outpoint).add⟩

theorem withDiff_eq_ok_iff :
    (∃ result, self.withDiff other = .ok result) ↔
      ∀ outpoint, Slot.Composable (self.slot outpoint) (other.slot outpoint) := by
  rw [← withDiff_checks]
  unfold withDiff
  split
  next offending hremove => simp [hremove]
  next hremove =>
    split
    next offending hadd => simp [hadd]
    next hadd => exact ⟨fun _ => ⟨hremove, hadd⟩, fun _ => ⟨_, rfl⟩⟩

/-- Composition acts on every outpoint separately, although its second pass reads
what the first one wrote. -/
theorem slot_withDiff (hresult : self.withDiff other = .ok result)
    (outpoint : TransactionOutpoint) :
    result.slot outpoint = Slot.withDiff (self.slot outpoint) (other.slot outpoint) := by
  unfold withDiff at hresult
  split at hresult
  · cases hresult
  split at hresult
  · cases hresult
  cases hresult
  simp only [slot, lookup_intersectionWithRemainder, removeCollection, HashMap.lookup_eraseKeys]
  rfl

/-- The three per-outpoint rules of the difference. -/
theorem diffFrom_checks :
    (self.remove.intersectsWithRule other.add
        (self.ruleNotAddedOutputRemovedWithDaaScore other) = none ∧
      self.add.intersectsWithRule other.remove
        (self.ruleNotRemovedOutputAddedWithDaaScore other) = none ∧
      self.remove.intersectsWithRule other.remove (fun _ thisEntry otherEntry =>
        otherEntry.blockDaaScore != thisEntry.blockDaaScore) = none) ↔
      ∀ outpoint, Slot.Comparable (self.slot outpoint) (other.slot outpoint) := by
  simp only [intersectsWithRule_eq_none, ruleNotAddedOutputRemovedWithDaaScore,
    ruleNotRemovedOutputAddedWithDaaScore, Bool.not_eq_false', Bool.and_eq_true, Bool.or_eq_true,
    bne_iff_ne, bne_eq_false_iff_eq]
  constructor
  · rintro ⟨hremoveAdd, haddRemove, hremoveRemove⟩ outpoint
    exact ⟨hremoveAdd outpoint, haddRemove outpoint, hremoveRemove outpoint⟩
  · intro hcomparable
    exact ⟨fun outpoint => (hcomparable outpoint).removeAdd,
      fun outpoint => (hcomparable outpoint).addRemove,
      fun outpoint => (hcomparable outpoint).removeRemove⟩

theorem inBothToAddIntersects_eq_true (removed : UtxoCollection) :
    self.inBothToAddIntersects other removed = true ↔
      ∃ outpoint, Slot.AddedByBoth (self.slot outpoint) (other.slot outpoint) ∧
        (removed.lookup outpoint).isSome := by
  rw [inBothToAddIntersects, intersects_eq_true]
  refine exists_congr fun outpoint => and_congr_left fun _ => ?_
  rw [lookup_subtractionWithRemainder.2]
  simp only [Slot.AddedByBoth, slot]
  cases self.add.lookup outpoint with
  | none | some entry => simp [overwrite]

/-- The set-level consistency check: each diff removes some outpoint that both add,
or neither does. The two outpoints need not be the same. -/
def FlagsAgree (self other : UtxoDiff) : Prop :=
  (∃ outpoint, Slot.AddedByBoth (self.slot outpoint) (other.slot outpoint) ∧
      (self.slot outpoint).remove.isSome) ↔
    ∃ outpoint, Slot.AddedByBoth (self.slot outpoint) (other.slot outpoint) ∧
      (other.slot outpoint).remove.isSome

theorem diffFrom_eq_ok_iff :
    (∃ result, self.diffFrom other = .ok result) ↔
      (∀ outpoint, Slot.Comparable (self.slot outpoint) (other.slot outpoint)) ∧
        self.FlagsAgree other := by
  have hflags : self.FlagsAgree other ↔ self.inBothToAddIntersects other self.remove =
      self.inBothToAddIntersects other other.remove := by
    rw [Bool.eq_iff_iff, inBothToAddIntersects_eq_true, inBothToAddIntersects_eq_true]
    rfl
  rw [← diffFrom_checks, hflags]
  unfold diffFrom
  split
  next offending hrule => simp [hrule]
  next hremoveAdd =>
    split
    next offending hrule => simp [hrule]
    next haddRemove =>
      split
      next offending hrule => simp [hrule]
      next hremoveRemove =>
        split
        next hdiffer => simpa [hremoveAdd, haddRemove, hremoveRemove] using hdiffer
        next hagree => simpa [hremoveAdd, haddRemove, hremoveRemove] using hagree

theorem slot_diffFrom (hresult : self.diffFrom other = .ok result)
    (outpoint : TransactionOutpoint) :
    result.slot outpoint = Slot.diffFrom (self.slot outpoint) (other.slot outpoint) := by
  unfold diffFrom at hresult
  split at hresult
  · cases hresult
  split at hresult
  · cases hresult
  split at hresult
  · cases hresult
  split at hresult
  · cases hresult
  cases hresult
  simp only [slot, Slot.diffFrom, lookup_subtraction,
    lookup_subtractionWithRemainder, AList.lookup_empty]

end UtxoDiff

end Qaspa.Utxo
