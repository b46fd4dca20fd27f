import Qaspa.Utxo.Composition

/-! # Round trips of diffs without a common base

Composition and difference undo each other on diffs of one UTXO set. On diffs
that need not be of one set, the checks of the two operations do not suffice: the
difference compares flags of whole collections, so what is wrong at one outpoint
can be hidden by another one. The exact conditions are given here.
-/

namespace Qaspa.Utxo.UtxoDiff

variable {self other result : UtxoDiff}

/-- Whenever the difference exists, composing it yields the second diff. -/
def DifferenceComposes (self other : UtxoDiff) : Prop :=
  ∀ difference, self.diffFrom other = .ok difference →
    ∃ composed, self.withDiff difference = .ok composed ∧ composed.Same other

/-- Whenever the composition exists, its difference is the second diff. -/
def CompositionDiffers (self other : UtxoDiff) : Prop :=
  ∀ composed, self.withDiff other = .ok composed →
    ∃ difference, self.diffFrom composed = .ok difference ∧ difference.Same other

/-- Some rule of the difference rejects the pair, or no outpoint that both add is
removed by `self` only, or none is removed by `other`. -/
def DifferenceSound (self other : UtxoDiff) : Prop :=
  (∃ outpoint, ¬ (self.slot outpoint).Comparable (other.slot outpoint)) ∨
    (∀ outpoint, ¬ (self.slot outpoint).RemovedByThisOnly (other.slot outpoint)) ∨
    ∀ outpoint, (self.slot outpoint).AddedByBoth (other.slot outpoint) →
      (other.slot outpoint).remove = none

/-- Some rule of composition rejects the pair, or no outpoint is added by `self` and
removed by `other` as another entry, or an untouched replaced outpoint hides it. -/
def CompositionSound (self other : UtxoDiff) : Prop :=
  (∃ outpoint, ¬ (self.slot outpoint).Composable (other.slot outpoint)) ∨
    (∀ outpoint, ¬ (self.slot outpoint).RemovesAnother (other.slot outpoint)) ∨
    ∃ outpoint, (self.slot outpoint).ReplacedAndKept (other.slot outpoint)

section WellFormed

variable {known : TransactionOutpoint → UtxoEntry → Prop}
  (hscored : ∀ outpoint, Slot.Scored (known outpoint) (self.slot outpoint) (other.slot outpoint))
  (hself : self.ScoresDiffer) (hother : other.ScoresDiffer)

include hscored

include hself in
/-- The difference can be composed again exactly when no outpoint that both add is
removed by `self` only. -/
theorem withDiff_difference_iff (hresult : self.diffFrom other = .ok result) :
    (∃ composed, self.withDiff result = .ok composed) ↔
      ∀ outpoint, ¬ (self.slot outpoint).RemovedByThisOnly (other.slot outpoint) := by
  have hcomparable := ((diffFrom_ok_iff_comparable hscored).mp ⟨result, hresult⟩).1
  rw [withDiff_ok_iff_composable (scored_diffFrom hscored hresult)]
  refine forall_congr' fun outpoint => ?_
  rw [slot_diffFrom_eq_difference hscored hresult]
  exact ⟨fun hcomposable honly => honly.not_composable_difference hcomposable,
    (hcomparable outpoint).composable_difference (hself.slot_valuesDiffer outpoint)⟩

include hself hother

theorem differenceComposes_iff : self.DifferenceComposes other ↔ self.DifferenceSound other := by
  have hok := diffFrom_ok_iff_comparable hscored
  constructor
  · intro hcomposes
    by_contra hunsound
    simp only [DifferenceSound, not_or, not_exists, not_not, not_forall] at hunsound
    obtain ⟨hcomparable, ⟨outpoint, honly⟩, outpoint', hboth, hremove⟩ := hunsound
    -- the flags agree because another outpoint raises the second one
    obtain ⟨difference, hdifference⟩ := hok.mpr ⟨hcomparable,
      fun _ => ⟨outpoint', hboth, Option.isSome_iff_ne_none.mpr hremove⟩,
      fun _ => ⟨outpoint, honly.1, honly.2.1⟩⟩
    obtain ⟨composed, hcomposed, _⟩ := hcomposes difference hdifference
    exact (withDiff_difference_iff hscored hself hdifference).mp
      ⟨composed, hcomposed⟩ outpoint honly
  · intro hsound difference hdifference
    obtain ⟨hcomparable, hflags⟩ := hok.mp ⟨difference, hdifference⟩
    have honly : ∀ outpoint, ¬ (self.slot outpoint).RemovedByThisOnly (other.slot outpoint) := by
      rcases hsound with ⟨outpoint, hclash⟩ | honly | hkept
      · exact absurd (hcomparable outpoint) hclash
      · exact honly
      · rintro outpoint ⟨hboth, hsome, _⟩
        obtain ⟨outpoint', hboth', hsome'⟩ := hflags.mp ⟨outpoint, hboth, hsome⟩
        simp [hkept outpoint' hboth'] at hsome'
    obtain ⟨composed, hcomposed⟩ :=
      (withDiff_difference_iff hscored hself hdifference).mpr honly
    refine ⟨composed, hcomposed, same_iff_slot.mpr fun outpoint => ?_⟩
    rw [slot_withDiff_eq_compose (scored_diffFrom hscored hdifference) hcomposed,
      slot_diffFrom_eq_difference hscored hdifference]
    exact (hcomparable outpoint).compose_difference (hself.slot_valuesDiffer outpoint)
      (hother.slot_valuesDiffer outpoint) (honly outpoint)

/-- The difference of a composition exists exactly when the flags of the set-level
check agree on it. -/
theorem diffFrom_composition_iff (hresult : self.withDiff other = .ok result) :
    (∃ difference, self.diffFrom result = .ok difference) ↔
      (∀ outpoint, ¬ (self.slot outpoint).RemovesAnother (other.slot outpoint)) ∨
        ∃ outpoint, (self.slot outpoint).ReplacedAndKept (other.slot outpoint) := by
  have hcomposable := (withDiff_ok_iff_composable hscored).mp ⟨result, hresult⟩
  have hother' := hother.slot_valuesDiffer
  rw [diffFrom_ok_iff_comparable (scored_withDiff hscored hresult)]
  simp only [slot_withDiff_eq_compose hscored hresult,
    fun outpoint => (hcomposable outpoint).addedByBoth_compose_removed (hother' outpoint),
    fun outpoint => (hcomposable outpoint).addedByBoth_compose_remove (hother' outpoint)]
  constructor
  · rintro ⟨_, hflags⟩
    by_cases hanother : ∀ outpoint, ¬ (self.slot outpoint).RemovesAnother (other.slot outpoint)
    · exact .inl hanother
    · obtain ⟨outpoint, hanother⟩ := not_forall_not.mp hanother
      exact .inr (hflags.mpr ⟨outpoint, .inr hanother⟩)
  · intro hagree
    refine ⟨fun outpoint => (hcomposable outpoint).comparable_compose
      (hself.slot_valuesDiffer outpoint) (hother' outpoint), ?_⟩
    constructor
    · rintro ⟨outpoint, hkept⟩
      exact ⟨outpoint, .inl hkept⟩
    · rintro ⟨outpoint, hkept | hanother⟩
      · exact ⟨outpoint, hkept⟩
      · exact hagree.resolve_left fun hnone => hnone outpoint hanother

theorem compositionDiffers_iff : self.CompositionDiffers other ↔ self.CompositionSound other := by
  have hok := withDiff_ok_iff_composable hscored
  constructor
  · intro hdiffers
    by_cases hcomposable : ∀ outpoint, (self.slot outpoint).Composable (other.slot outpoint)
    · obtain ⟨composed, hcomposed⟩ := hok.mpr hcomposable
      obtain ⟨difference, hdifference, _⟩ := hdiffers composed hcomposed
      exact .inr ((diffFrom_composition_iff hscored hself hother hcomposed).mp
        ⟨difference, hdifference⟩)
    · exact .inl (not_forall.mp hcomposable)
  · intro hsound composed hcomposed
    have hcomposable := hok.mp ⟨composed, hcomposed⟩
    have hagree := hsound.resolve_left fun ⟨outpoint, hclash⟩ => hclash (hcomposable outpoint)
    obtain ⟨difference, hdifference⟩ :=
      (diffFrom_composition_iff hscored hself hother hcomposed).mpr hagree
    refine ⟨difference, hdifference, same_iff_slot.mpr fun outpoint => ?_⟩
    rw [slot_diffFrom_eq_difference (scored_withDiff hscored hcomposed) hdifference,
      slot_withDiff_eq_compose hscored hcomposed]
    exact (hcomposable outpoint).difference_compose (hself.slot_valuesDiffer outpoint)
      (hother.slot_valuesDiffer outpoint)

end WellFormed

/-- An entry of one of two diffs. -/
def MentionedIn (self other : UtxoDiff) (outpoint : TransactionOutpoint) (entry : UtxoEntry) :
    Prop :=
  self.Mentions outpoint entry ∨ other.Mentions outpoint entry

/-- Difference and composition undo each other exactly under the two conditions. -/
theorem roundTrip_iff (hdetermined : Determined (MentionedIn self other))
    (hself : self.ScoresDiffer) (hother : other.ScoresDiffer) :
    self.DifferenceComposes other ∧ self.CompositionDiffers other ↔
      self.DifferenceSound other ∧ self.CompositionSound other := by
  have hscored : ∀ outpoint, Slot.Scored (MentionedIn self other outpoint) (self.slot outpoint)
      (other.slot outpoint) := fun outpoint => ⟨hdetermined outpoint,
    within_of_mentions fun _ => .inl, within_of_mentions fun _ => .inr⟩
  exact and_congr (differenceComposes_iff hscored hself hother)
    (compositionDiffers_iff hscored hself hother)

theorem determined_mentionedIn_samples {added removed added' removed' : List (UInt32 × UInt64)} :
    Determined (MentionedIn (sampleDiff added removed) (sampleDiff added' removed')) :=
  determined_of_samples fun _ _ hmentioned =>
    hmentioned.elim sampleDiff_mentions sampleDiff_mentions

theorem roundTrip_iff_added_removed :
    (sampleDiff [(0, 2)] []).ScoresDiffer ∧ (sampleDiff [] [(0, 1)]).ScoresDiffer ∧
      ((sampleDiff [(0, 2)] []).DifferenceComposes (sampleDiff [] [(0, 1)]) ∧
          (sampleDiff [(0, 2)] []).CompositionDiffers (sampleDiff [] [(0, 1)]) ↔
        (sampleDiff [(0, 2)] []).DifferenceSound (sampleDiff [] [(0, 1)]) ∧
          (sampleDiff [(0, 2)] []).CompositionSound (sampleDiff [] [(0, 1)])) := by
  have hself : (sampleDiff [(0, 2)] []).ScoresDiffer := by decide
  have hother : (sampleDiff [] [(0, 1)]).ScoresDiffer := by decide
  exact ⟨hself, hother, roundTrip_iff determined_mentionedIn_samples hself hother⟩

/-- Neither round trip holds of all well-formed diffs. Two outpoints that both diffs
add, one removed by each, get past the flags, and the difference then cannot be
composed; and adding an entry where another one is removed composes to a diff that
the flags reject. -/
theorem roundTrip_fails :
    (¬ ∀ self other : UtxoDiff, Determined (MentionedIn self other) → self.ScoresDiffer →
        other.ScoresDiffer → self.DifferenceComposes other) ∧
      ¬ ∀ self other : UtxoDiff, Determined (MentionedIn self other) → self.ScoresDiffer →
        other.ScoresDiffer → self.CompositionDiffers other := by
  constructor
  · intro hcomposes
    have hdifference : (sampleDiff [(0, 2), (1, 2)] [(0, 1)]).diffFrom
        (sampleDiff [(0, 2), (1, 2)] [(1, 1)]) = .ok (sampleDiff [(0, 1)] [(1, 1)]) := by rfl
    obtain ⟨composed, hcomposed, _⟩ := hcomposes (sampleDiff [(0, 2), (1, 2)] [(0, 1)])
      (sampleDiff [(0, 2), (1, 2)] [(1, 1)]) determined_mentionedIn_samples (by decide) (by decide)
      _ hdifference
    have hclash : (sampleDiff [(0, 2), (1, 2)] [(0, 1)]).withDiff (sampleDiff [(0, 1)] [(1, 1)]) =
        .error (.duplicateAddPoint ⟨0, 0⟩) := by rfl
    exact absurd (hclash.symm.trans hcomposed) (by simp)
  · intro hdiffers
    have hcomposed : (sampleDiff [(0, 2)] []).withDiff (sampleDiff [] [(0, 1)]) =
        .ok (sampleDiff [(0, 2)] [(0, 1)]) := by rfl
    obtain ⟨difference, hdifference, _⟩ := hdiffers (sampleDiff [(0, 2)] [])
      (sampleDiff [] [(0, 1)]) determined_mentionedIn_samples (by decide) (by decide) _ hcomposed
    have hflags : (sampleDiff [(0, 2)] []).diffFrom (sampleDiff [(0, 2)] [(0, 1)]) =
        .error (.general ("diff_from: outpoint both in self.add, other.add, " ++
          "and only one of self.remove and other.remove")) := by rfl
    exact absurd (hflags.symm.trans hdifference) (by simp)

end Qaspa.Utxo.UtxoDiff
