import Qaspa.Lib.Ledger
import Qaspa.Lib.Outcome
import Qaspa.Utxo.Composition

/-! # Adding transactions to a diff

A diff collects the transactions that a block accepts on top of a UTXO set. As
long as no transaction creates an outpoint of that set, every legal move of the
ledger succeeds on the diff and changes the composed view by exactly that move.
-/

namespace Qaspa

open Ledger

/-- The moves of a transaction: its inputs are spent, then its outputs created. -/
def PopulatedTransaction.moves (transaction : PopulatedTransaction) (blockDaaScore : UInt64) :
    List (Move TransactionOutpoint UtxoEntry) :=
  Ledger.spends transaction.spentEntries ++
    Ledger.creates (transaction.tx.createdEntries blockDaaScore)

namespace Utxo

open UtxoCollection (containsWithDaaScore)

namespace UtxoDiff

def removeEntry (self : UtxoDiff) (outpoint : TransactionOutpoint) (entry : UtxoEntry) :
    UtxoResult UtxoDiff :=
  if self.add.containsWithDaaScore outpoint entry.blockDaaScore then
    .ok { self with add := self.add.erase outpoint }
  else if (self.remove.lookup outpoint).isNone then
    .ok { self with remove := self.remove.insert outpoint entry }
  else .error (.doubleRemoveCall outpoint)

def addEntry (self : UtxoDiff) (outpoint : TransactionOutpoint) (entry : UtxoEntry) :
    UtxoResult UtxoDiff :=
  if self.remove.containsWithDaaScore outpoint entry.blockDaaScore then
    .ok { self with remove := self.remove.erase outpoint }
  else if (self.add.lookup outpoint).isNone then
    .ok { self with add := self.add.insert outpoint entry }
  else .error (.doubleAddCall outpoint)

def addTransaction (self : UtxoDiff) (transaction : PopulatedTransaction)
    (blockDaaScore : UInt64) : UtxoResult UtxoDiff := do
  let self ← transaction.populatedInputs.foldlM
    (fun self input => self.removeEntry input.1.previousOutpoint input.2) self
  (transaction.tx.createdEntries blockDaaScore).foldlM
    (fun self created => self.addEntry created.1 created.2) self

def default : UtxoDiff := ⟨∅, ∅⟩

@[simp] theorem compose_default (base : UtxoView) : base.compose default = base := by
  funext outpoint
  simp [UtxoView.compose, default]

/-! ## One move at a time -/

/-- A move of the ledger, on the diff. -/
def move (self : UtxoDiff) : Move TransactionOutpoint UtxoEntry → UtxoResult UtxoDiff
  | .spend outpoint entry => self.removeEntry outpoint entry
  | .create outpoint entry => self.addEntry outpoint entry

theorem addTransaction_eq (self : UtxoDiff) (transaction : PopulatedTransaction)
    (blockDaaScore : UInt64) :
    self.addTransaction transaction blockDaaScore =
      (transaction.moves blockDaaScore).foldlM move self := by
  rw [PopulatedTransaction.moves, List.foldlM_append, spends, creates,
    PopulatedTransaction.spentEntries]
  simp only [List.foldlM_map]
  rfl

/-- A diff over a base set: it removes entries of the set, and what it adds is at
outpoints the set does not have. -/
structure Tracks (base : UtxoView) (diff : UtxoDiff) : Prop where
  remove : ∀ outpoint entry, diff.remove.lookup outpoint = some entry → base outpoint = some entry
  add : ∀ outpoint entry, diff.add.lookup outpoint = some entry → base outpoint = none

variable {base : UtxoView} {diff : UtxoDiff} {outpoint : TransactionOutpoint} {entry : UtxoEntry}

theorem tracks_default (base : UtxoView) : Tracks base default where
  remove outpoint entry hentry := by simp [default] at hentry
  add outpoint entry hentry := by simp [default] at hentry

namespace Tracks

variable (htracks : Tracks base diff)

include htracks

/-- An entry of the composed view can be removed, whether the diff added it or it
belongs to the base. -/
theorem removeEntry (hpresent : base.compose diff outpoint = some entry) :
    ∃ next, diff.removeEntry outpoint entry = .ok next ∧ Tracks base next ∧
      base.compose next = Function.update (base.compose diff) outpoint none := by
  cases hadd : diff.add.lookup outpoint with
  | some added =>
    obtain rfl : added = entry := by simpa [UtxoView.compose, hadd] using hpresent
    have hbase := htracks.add outpoint added hadd
    refine ⟨{ diff with add := diff.add.erase outpoint },
      by simp [UtxoDiff.removeEntry, containsWithDaaScore, hadd],
      ⟨htracks.remove, fun other existing hother =>
        htracks.add other existing (HashMap.lookup_erase_eq_some.mp hother).2⟩, ?_⟩
    refine Function.eq_update_iff.mpr ⟨by simp [UtxoView.compose, hbase], fun other hne => ?_⟩
    simp [UtxoView.compose, AList.lookup_erase_ne hne]
  | none =>
    have hremove : diff.remove.lookup outpoint = none := by
      by_contra hsome
      obtain ⟨removed, hremoved⟩ := Option.ne_none_iff_exists'.mp hsome
      simp [UtxoView.compose, hadd, hremoved] at hpresent
    have hbase : base outpoint = some entry := by
      simpa [UtxoView.compose, hadd, hremove] using hpresent
    refine ⟨{ diff with remove := diff.remove.insert outpoint entry },
      by simp [UtxoDiff.removeEntry, containsWithDaaScore, hadd, hremove],
      ⟨fun other existing hother => ?_, htracks.add⟩, ?_⟩
    · rcases HashMap.lookup_insert_eq_some.mp hother with ⟨rfl, rfl⟩ | ⟨-, hother⟩
      · exact hbase
      · exact htracks.remove other existing hother
    · refine Function.eq_update_iff.mpr ⟨by simp [UtxoView.compose, hadd], fun other hne => ?_⟩
      simp [UtxoView.compose, AList.lookup_insert_ne hne]

/-- An entry can be added at an outpoint that neither the base nor the view has. -/
theorem addEntry (hbase : base outpoint = none) (habsent : base.compose diff outpoint = none) :
    ∃ next, diff.addEntry outpoint entry = .ok next ∧ Tracks base next ∧
      base.compose next = Function.update (base.compose diff) outpoint (some entry) := by
  have hadd : diff.add.lookup outpoint = none := by
    by_contra hsome
    obtain ⟨added, hadded⟩ := Option.ne_none_iff_exists'.mp hsome
    simp [UtxoView.compose, hadded] at habsent
  have hremove : diff.remove.lookup outpoint = none := by
    by_contra hsome
    obtain ⟨removed, hremoved⟩ := Option.ne_none_iff_exists'.mp hsome
    simp [htracks.remove outpoint removed hremoved] at hbase
  refine ⟨{ diff with add := diff.add.insert outpoint entry },
    by simp [UtxoDiff.addEntry, containsWithDaaScore, hadd, hremove],
    ⟨htracks.remove, fun other existing hother => ?_⟩, ?_⟩
  · rcases HashMap.lookup_insert_eq_some.mp hother with ⟨rfl, -⟩ | ⟨-, hother⟩
    · exact hbase
    · exact htracks.add other existing hother
  · refine Function.eq_update_iff.mpr ⟨by simp [UtxoView.compose], fun other hne => ?_⟩
    simp [UtxoView.compose, AList.lookup_insert_ne hne]

/-- A legal move succeeds on the diff and is the same move of the composed view. -/
theorem move {move : Move TransactionOutpoint UtxoEntry} (hlegal : move.Legal (base.compose diff))
    (hfresh : ∀ outpoint entry, move = .create outpoint entry → base outpoint = none) :
    ∃ next, diff.move move = .ok next ∧ Tracks base next ∧
      base.compose next = move.applyTo (base.compose diff) := by
  cases move with
  | spend outpoint entry => exact htracks.removeEntry hlegal
  | create outpoint entry => exact htracks.addEntry (hfresh outpoint entry rfl) hlegal

theorem moves {moves : List (Move TransactionOutpoint UtxoEntry)}
    (hlegal : Ledger.Legal (base.compose diff) moves)
    (hfresh : ∀ outpoint entry, .create outpoint entry ∈ moves → base outpoint = none) :
    ∃ next, moves.foldlM UtxoDiff.move diff = .ok next ∧ Tracks base next ∧
      base.compose next = play (base.compose diff) moves := by
  induction moves generalizing diff with
  | nil => exact ⟨diff, rfl, htracks, rfl⟩
  | cons move moves ih =>
    obtain ⟨middle, hmiddle, hmiddleTracks, hview⟩ := htracks.move hlegal.1
      fun outpoint entry heq => hfresh outpoint entry (by simp [heq])
    obtain ⟨next, hnext, hnextTracks, hnextView⟩ := ih hmiddleTracks (by rw [hview]; exact hlegal.2)
      fun outpoint entry hmem => hfresh outpoint entry (.tail _ hmem)
    refine ⟨next, ?_, hnextTracks, ?_⟩
    · rw [List.foldlM_cons, hmiddle, Outcome.ok_bind, hnext]
    · rw [hnextView, hview, play_cons]

end Tracks

end UtxoDiff

end Utxo

end Qaspa
