import Qaspa.Utxo.Diff

/-! # Composition and difference of applicable diffs

When the entries of an outpoint are determined by their DAA score, comparing
scores is comparing entries, and the code's operations are the algebra of
changes. Diffs that fit a UTXO set in a row then compose to one diff of that set,
and the difference of two diffs of one set leads from the first to the second.
-/

namespace Qaspa.Utxo

open Option Change

open UtxoCollection (heldWithScore)
open HashMap (overwrite)

/-! ## Scores determine entries -/

/-- Known entries of one outpoint with the same DAA score are equal. -/
def Determined (known : TransactionOutpoint → UtxoEntry → Prop) : Prop :=
  ∀ outpoint left right, known outpoint left → known outpoint right →
    left.blockDaaScore = right.blockDaaScore → left = right

/-- The diff mentions an entry at an outpoint. -/
def UtxoDiff.Mentions (diff : UtxoDiff) (outpoint : TransactionOutpoint) (entry : UtxoEntry) :
    Prop :=
  diff.add.lookup outpoint = some entry ∨ diff.remove.lookup outpoint = some entry

namespace Slot

variable {known : UtxoEntry → Prop} {this other : Change UtxoEntry}

/-- All entries of a change are known. -/
def Within (known : UtxoEntry → Prop) (change : Change UtxoEntry) : Prop :=
  (∀ entry, change.add = some entry → known entry) ∧
    ∀ entry, change.remove = some entry → known entry

section Known

variable {incoming present excluded : Option UtxoEntry}

theorem prefer_known (hincoming : ∀ entry ∈ incoming, known entry)
    (hpresent : ∀ entry ∈ present, known entry) (entry : UtxoEntry)
    (hentry : prefer incoming present excluded = some entry) : known entry := by
  unfold prefer at hentry
  split at hentry
  next value =>
    split at hentry
    · exact hpresent entry hentry
    · exact hincoming entry hentry
  · exact hpresent entry hentry

theorem dropIf_known (hpresent : ∀ entry ∈ present, known entry) (entry : UtxoEntry)
    (hentry : dropIf incoming excluded present = some entry) : known entry := by
  unfold dropIf at hentry
  split at hentry
  next value =>
    split at hentry
    · cases hentry
    · exact hpresent entry hentry
  · exact hpresent entry hentry

end Known

section Determined

variable (hdetermined : ∀ left right, known left → known right →
  left.blockDaaScore = right.blockDaaScore → left = right)

include hdetermined

section Entries

variable {left right held held' present : Option UtxoEntry} {entry existing : UtxoEntry}
  (hleft : ∀ entry ∈ left, known entry) (hright : ∀ entry ∈ right, known entry)
  (hheld : ∀ entry ∈ held, known entry) (hheld' : ∀ entry ∈ held', known entry)
  (hentry : known entry) (hexisting : known existing)

include hheld hentry in
theorem heldWithScore_eq :
    heldWithScore held entry.blockDaaScore = decide (held = some entry) := by
  cases held with
  | none => rfl
  | some existing =>
    rw [heldWithScore, Bool.eq_iff_iff]
    simp only [beq_iff_eq, decide_eq_true_eq, some.injEq]
    exact ⟨hdetermined _ _ (hheld existing rfl) hentry, fun heq => congrArg _ heq⟩

include hheld hentry in
theorem heldWithScore_iff : heldWithScore held entry.blockDaaScore = true ↔ held = some entry := by
  rw [heldWithScore_eq hdetermined hheld hentry, decide_eq_true_eq]

include hentry hexisting in
theorem score_eq_iff :
    existing.blockDaaScore = entry.blockDaaScore ↔ some existing = some entry :=
  ⟨fun hscore => congrArg some (hdetermined _ _ hexisting hentry hscore),
    fun heq => congrArg _ (some.inj heq)⟩

include hheld hheld' hentry hexisting in
theorem scoresClash_iff :
    (existing.blockDaaScore ≠ entry.blockDaaScore ∧
      (heldWithScore held existing.blockDaaScore = true ∨
        heldWithScore held' entry.blockDaaScore = true)) ↔
      some existing ≠ some entry ∧ (held = some existing ∨ held' = some entry) := by
  rw [ne_eq, score_eq_iff hdetermined hentry hexisting,
    heldWithScore_iff hdetermined hheld hexisting, heldWithScore_iff hdetermined hheld' hentry]

omit hdetermined in
include hleft hright in
/-- A rule about the entries on two sides, in terms of the sides. -/
theorem rule_iff {P : UtxoEntry → UtxoEntry → Prop}
    {Q : Option UtxoEntry → Option UtxoEntry → Prop}
    (hrule : ∀ {entry existing}, known entry → known existing →
      (P entry existing ↔ Q (some entry) (some existing))) :
    (∀ entry existing, left = some entry → right = some existing → P entry existing) ↔
      (left.isSome → right.isSome → Q left right) := by
  rcases left with _ | entry
  · simp
  rcases right with _ | existing
  · simp
  simp [hrule (hleft _ rfl) (hright _ rfl)]

include hleft hheld

/-- Overwriting by score keeps an incoming entry exactly when it is not the
excluded one. -/
theorem overwrite_eq_prefer :
    (overwrite left present fun entry => !heldWithScore held entry.blockDaaScore) =
      prefer left present held := by
  cases left with
  | none => rfl
  | some entry =>
    simp only [overwrite, prefer, heldWithScore_eq hdetermined hheld (hleft entry rfl)]
    by_cases heq : held = some entry <;> simp [heq]

theorem overwrite_eq_dropIf :
    (if (overwrite left none fun entry => heldWithScore held entry.blockDaaScore).isSome
      then none else present) = dropIf left held present := by
  cases left with
  | none => rfl
  | some entry =>
    simp only [overwrite, dropIf, heldWithScore_eq hdetermined hheld (hleft entry rfl)]
    by_cases heq : held = some entry <;> simp [heq]

end Entries

end Determined

/-- Two changes of known entries, which their scores determine. -/
structure Scored (known : UtxoEntry → Prop) (this other : Change UtxoEntry) : Prop where
  determined : ∀ left right, known left → known right →
    left.blockDaaScore = right.blockDaaScore → left = right
  left : Within known this
  right : Within known other

namespace Scored

variable (hscored : Scored known this other)

include hscored

theorem removeAfterPass_eq :
    removeAfterPass this other = prefer other.remove this.remove this.add :=
  overwrite_eq_prefer hscored.determined hscored.right.2 hscored.left.1

theorem withDiff_eq : withDiff this other = this.compose other := by
  have hremoved := hscored.removeAfterPass_eq
  obtain ⟨hdetermined, hthis, hother⟩ := hscored
  have hpass : ∀ entry ∈ removeAfterPass this other, known entry := by
    rw [hremoved]
    exact prefer_known hother.2 hthis.2
  rw [withDiff, overwrite_eq_prefer hdetermined hother.1 hpass,
    overwrite_eq_dropIf hdetermined hother.2 hthis.1,
    overwrite_eq_dropIf hdetermined hother.1 hpass, hremoved]
  rfl

theorem diffFrom_eq : diffFrom this other = this.difference other := by
  obtain ⟨hdetermined, hthis, hother⟩ := hscored
  rw [diffFrom, overwrite_eq_prefer hdetermined hother.1 hthis.1,
    overwrite_eq_prefer hdetermined hthis.2 hother.2,
    overwrite_eq_prefer hdetermined hother.2 hthis.2,
    overwrite_eq_prefer hdetermined hthis.1 hother.1]
  rfl

theorem composable_iff : Composable this other ↔ this.Composable other := by
  obtain ⟨hdetermined, hthis, hother⟩ := hscored
  have hremove := rule_iff hother.2 hthis.2 (Q := fun removed _ => this.add = removed)
    fun hentry _ => heldWithScore_iff hdetermined hthis.1 hentry
  have hadd := rule_iff hother.1 hthis.1 (Q := fun _ added => other.remove = added)
    fun _ hexisting => heldWithScore_iff hdetermined hother.2 hexisting
  constructor
  · intro hcomposable
    exact ⟨hremove.mp hcomposable.remove, hadd.mp hcomposable.add⟩
  · intro hcomposable
    exact ⟨hremove.mpr hcomposable.remove, hadd.mpr hcomposable.add⟩

theorem comparable_iff : Comparable this other ↔ this.Comparable other := by
  obtain ⟨hdetermined, hthis, hother⟩ := hscored
  have hremoveAdd := rule_iff hthis.2 hother.1
    (Q := fun removed added => added ≠ removed ∧ (this.add = added ∨ other.remove = removed))
    (scoresClash_iff hdetermined hthis.1 hother.2)
  have haddRemove := rule_iff hthis.1 hother.2
    (Q := fun added removed => removed ≠ added ∧ (this.remove = removed ∨ other.add = added))
    (scoresClash_iff hdetermined hthis.2 hother.1)
  have hremoveRemove := rule_iff hthis.2 hother.2 (Q := fun left right => right = left)
    (score_eq_iff hdetermined)
  constructor
  · intro hcomparable
    exact ⟨hremoveAdd.mp hcomparable.removeAdd, haddRemove.mp hcomparable.addRemove,
      hremoveRemove.mp hcomparable.removeRemove⟩
  · intro hcomparable
    exact ⟨hremoveAdd.mpr hcomparable.removeAdd, haddRemove.mpr hcomparable.addRemove,
      hremoveRemove.mpr hcomparable.removeRemove⟩

theorem addedByBoth_iff : AddedByBoth this other ↔ this.AddedByBoth other := by
  have hheld : ∀ entry, this.add = some entry →
      (heldWithScore other.add entry.blockDaaScore = true ↔ other.add = some entry) :=
    fun entry hentry =>
      heldWithScore_iff hscored.determined hscored.right.1 (hscored.left.1 entry hentry)
  constructor
  · rintro ⟨entry, hentry, hscore⟩
    exact ⟨by simp [hentry], ((hheld entry hentry).mp hscore).trans hentry.symm⟩
  · rintro ⟨hsome, heq⟩
    obtain ⟨entry, hentry⟩ := isSome_iff_exists.mp hsome
    exact ⟨entry, hentry, (hheld entry hentry).mpr (heq.trans hentry)⟩

theorem compose : Scored known this (this.compose other) :=
  { hscored with
    right := ⟨prefer_known hscored.right.1 (dropIf_known hscored.left.1),
      dropIf_known (prefer_known hscored.right.2 hscored.left.2)⟩ }

theorem difference : Scored known this (this.difference other) :=
  { hscored with
    right := ⟨prefer_known hscored.right.1 (prefer_known hscored.left.2 nofun),
      prefer_known hscored.right.2 (prefer_known hscored.left.1 nofun)⟩ }

end Scored

end Slot

/-! ## Diffs -/

namespace UtxoDiff

variable {self other result : UtxoDiff} {base : UtxoView}

/-- No outpoint is added and removed with the same DAA score. -/
def ScoresDiffer (diff : UtxoDiff) : Prop :=
  ∀ outpoint added, diff.add.lookup outpoint = some added →
    ∀ removed ∈ diff.remove.lookup outpoint, added.blockDaaScore ≠ removed.blockDaaScore

instance (diff : UtxoDiff) : Decidable diff.ScoresDiffer :=
  inferInstanceAs (Decidable (∀ _ _, _ → _))

/-- A diff fits a UTXO set: every removed entry is present, every added outpoint is
absent after the removals, and no outpoint is added and removed with one score. -/
structure Applicable (base : UtxoView) (diff : UtxoDiff) : Prop where
  removePresent : ∀ outpoint entry, diff.remove.lookup outpoint = some entry →
    base outpoint = some entry
  addAbsent : ∀ outpoint entry, diff.add.lookup outpoint = some entry →
    base outpoint = none ∨ (diff.remove.lookup outpoint).isSome
  scoresDiffer : diff.ScoresDiffer

instance (base : UtxoView) (diff : UtxoDiff) : Decidable (diff.Applicable base) :=
  decidable_of_iff
    ((∀ outpoint entry, diff.remove.lookup outpoint = some entry → base outpoint = some entry) ∧
      (∀ outpoint entry, diff.add.lookup outpoint = some entry →
        base outpoint = none ∨ (diff.remove.lookup outpoint).isSome) ∧ diff.ScoresDiffer)
    ⟨fun ⟨hremove, hadd, hscores⟩ => ⟨hremove, hadd, hscores⟩,
      fun happlicable =>
        ⟨happlicable.removePresent, happlicable.addAbsent, happlicable.scoresDiffer⟩⟩

variable {outpoint : TransactionOutpoint}

theorem within_of_mentions {known : UtxoEntry → Prop}
    (hknown : ∀ entry, self.Mentions outpoint entry → known entry) :
    Slot.Within known (self.slot outpoint) :=
  ⟨fun entry hadd => hknown entry (.inl hadd), fun entry hremove => hknown entry (.inr hremove)⟩

theorem ScoresDiffer.slot_valuesDiffer (hdiffer : self.ScoresDiffer)
    (outpoint : TransactionOutpoint) : (self.slot outpoint).ValuesDiffer := by
  cases hadd : self.add.lookup outpoint with
  | none => exact Or.inl hadd
  | some added =>
    refine Or.inr fun hremove => ?_
    exact hdiffer outpoint added hadd added (hremove.symm.trans hadd) rfl

theorem Applicable.slot (happlicable : self.Applicable base) (outpoint : TransactionOutpoint) :
    (self.slot outpoint).Applicable (base outpoint) where
  removePresent hsome := by
    obtain ⟨entry, hentry⟩ := isSome_iff_exists.mp hsome
    rw [hentry, happlicable.removePresent outpoint entry hentry]
  addAbsent hsome := by
    obtain ⟨entry, hentry⟩ := isSome_iff_exists.mp hsome
    exact happlicable.addAbsent outpoint entry hentry
  valuesDiffer := happlicable.scoresDiffer.slot_valuesDiffer outpoint

theorem compose_eq_applyTo (base : UtxoView) (diff : UtxoDiff) (outpoint : TransactionOutpoint) :
    base.compose diff outpoint = (diff.slot outpoint).applyTo (base outpoint) := by
  simp only [UtxoView.compose, UtxoDiff.slot]
  cases diff.add.lookup outpoint <;> rfl

section Scored

variable {known : TransactionOutpoint → UtxoEntry → Prop}
  (hscored : ∀ outpoint, Slot.Scored (known outpoint) (self.slot outpoint) (other.slot outpoint))

include hscored

/-- Conversely, a diff fits a set when it does so at every outpoint, scores of known
entries being as good as the entries. -/
theorem applicable_of_slot (hslot : ∀ outpoint, (other.slot outpoint).Applicable (base outpoint)) :
    other.Applicable base where
  removePresent outpoint entry hentry := by
    rw [(hslot outpoint).removePresent (by simp [UtxoDiff.slot, hentry])]
    exact hentry
  addAbsent outpoint entry hentry := (hslot outpoint).addAbsent (by simp [UtxoDiff.slot, hentry])
  scoresDiffer outpoint added hadded removed hremoved hscores := by
    obtain ⟨hdetermined, _, hadd, hremove⟩ := hscored outpoint
    have heq := hdetermined added removed (hadd added hadded) (hremove removed hremoved) hscores
    rcases (hslot outpoint).valuesDiffer with hnone | hne
    · exact absurd (hnone.symm.trans hadded) (by simp)
    · exact hne (hadded.trans (heq ▸ hremoved.symm))

theorem withDiff_ok_iff_composable :
    (∃ result, self.withDiff other = .ok result) ↔
      ∀ outpoint, (self.slot outpoint).Composable (other.slot outpoint) := by
  rw [withDiff_eq_ok_iff]
  exact forall_congr' fun outpoint => (hscored outpoint).composable_iff

theorem slot_withDiff_eq_compose (hresult : self.withDiff other = .ok result)
    (outpoint : TransactionOutpoint) :
    result.slot outpoint = (self.slot outpoint).compose (other.slot outpoint) := by
  rw [slot_withDiff hresult outpoint]
  exact (hscored outpoint).withDiff_eq

theorem scored_withDiff (hresult : self.withDiff other = .ok result)
    (outpoint : TransactionOutpoint) :
    Slot.Scored (known outpoint) (self.slot outpoint) (result.slot outpoint) := by
  rw [slot_withDiff_eq_compose hscored hresult]
  exact (hscored outpoint).compose

theorem diffFrom_ok_iff_comparable :
    (∃ result, self.diffFrom other = .ok result) ↔
      (∀ outpoint, (self.slot outpoint).Comparable (other.slot outpoint)) ∧
        ((∃ outpoint, (self.slot outpoint).AddedByBoth (other.slot outpoint) ∧
            (self.slot outpoint).remove.isSome) ↔
          ∃ outpoint, (self.slot outpoint).AddedByBoth (other.slot outpoint) ∧
            (other.slot outpoint).remove.isSome) := by
  simp only [diffFrom_eq_ok_iff, FlagsAgree, fun outpoint => (hscored outpoint).addedByBoth_iff,
    fun outpoint => (hscored outpoint).comparable_iff]

theorem slot_diffFrom_eq_difference (hresult : self.diffFrom other = .ok result)
    (outpoint : TransactionOutpoint) :
    result.slot outpoint = (self.slot outpoint).difference (other.slot outpoint) := by
  rw [slot_diffFrom hresult outpoint]
  exact (hscored outpoint).diffFrom_eq

theorem scored_diffFrom (hresult : self.diffFrom other = .ok result)
    (outpoint : TransactionOutpoint) :
    Slot.Scored (known outpoint) (self.slot outpoint) (result.slot outpoint) := by
  rw [slot_diffFrom_eq_difference hscored hresult]
  exact (hscored outpoint).difference

/-- Diffs of known entries that fit a set in a row compose to a diff of known entries
that fits the set. -/
theorem exists_withDiff (happlicable : self.Applicable base)
    (hnext : other.Applicable (base.compose self)) :
    ∃ result, self.withDiff other = .ok result ∧ result.Applicable base ∧
      base.compose result = (base.compose self).compose other ∧
      ∀ outpoint, Slot.Within (known outpoint) (result.slot outpoint) := by
  have hslot : ∀ outpoint,
      (other.slot outpoint).Applicable ((self.slot outpoint).applyTo (base outpoint)) :=
    fun outpoint => compose_eq_applyTo base self outpoint ▸ hnext.slot outpoint
  obtain ⟨result, hresult⟩ := (withDiff_ok_iff_composable hscored).mpr fun outpoint =>
    (happlicable.slot outpoint).composable (hslot outpoint)
  have hcompose := slot_withDiff_eq_compose hscored hresult
  have hscored' := scored_withDiff hscored hresult
  refine ⟨result, hresult, applicable_of_slot hscored' fun outpoint => ?_, ?_,
    fun outpoint => (hscored' outpoint).right⟩
  · rw [hcompose]
    exact (happlicable.slot outpoint).compose (hslot outpoint)
  · funext outpoint
    rw [compose_eq_applyTo, compose_eq_applyTo, compose_eq_applyTo, hcompose]
    exact (happlicable.slot outpoint).applyTo_compose (hslot outpoint)

end Scored

/-! ## Reversal -/

theorem Applicable.asReversed (happlicable : self.Applicable base) :
    self.asReversed.Applicable (base.compose self) where
  removePresent outpoint entry hentry := by
    rw [compose_eq_applyTo, (happlicable.slot outpoint).reverse.removePresent
      (isSome_iff_exists.mpr ⟨entry, hentry⟩)]
    exact hentry
  addAbsent outpoint entry hentry := by
    rw [compose_eq_applyTo]
    exact (happlicable.slot outpoint).reverse.addAbsent
      (isSome_iff_exists.mpr ⟨entry, hentry⟩)
  scoresDiffer outpoint added hadded removed hremoved hscores :=
    happlicable.scoresDiffer outpoint removed hremoved added hadded hscores.symm

/-- A diff and its reverse lead back to the set. -/
theorem Applicable.compose_asReversed (happlicable : self.Applicable base) :
    (base.compose self).compose self.asReversed = base := by
  funext outpoint
  rw [compose_eq_applyTo, compose_eq_applyTo]
  exact (happlicable.slot outpoint).applyTo_reverse

/-! ## Composition and difference over a base -/

/-- Entries of the base and of two diffs. -/
def KnownTo (base : UtxoView) (self other : UtxoDiff) (outpoint : TransactionOutpoint)
    (entry : UtxoEntry) : Prop :=
  base outpoint = some entry ∨ self.Mentions outpoint entry ∨ other.Mentions outpoint entry

theorem scored_of_determined (hdetermined : Determined (KnownTo base self other))
    (outpoint : TransactionOutpoint) :
    Slot.Scored (KnownTo base self other outpoint) (self.slot outpoint) (other.slot outpoint) where
  determined := hdetermined outpoint
  left := within_of_mentions fun _ hmentions => .inr (.inl hmentions)
  right := within_of_mentions fun _ hmentions => .inr (.inr hmentions)

/-- A view of sample entries and a diff of them. -/
def sampleView (outputs : List (UInt32 × UInt64)) : UtxoView := (sampleOutputs outputs).lookup

def sampleDiff (added removed : List (UInt32 × UInt64)) : UtxoDiff :=
  ⟨sampleOutputs added, sampleOutputs removed⟩

theorem sampleDiff_mentions {added removed : List (UInt32 × UInt64)} {entry : UtxoEntry}
    (hmentions : (sampleDiff added removed).Mentions outpoint entry) :
    entry = sampleEntry entry.blockDaaScore :=
  hmentions.elim eq_sampleEntry_of_lookup eq_sampleEntry_of_lookup

theorem determined_of_samples {known : TransactionOutpoint → UtxoEntry → Prop}
    (hsamples : ∀ outpoint entry, known outpoint entry →
      entry = sampleEntry entry.blockDaaScore) : Determined known := by
  intro outpoint left right hleft hright hscores
  rw [hsamples outpoint left hleft, hsamples outpoint right hright, hscores]

theorem determined_samples {outputs added removed added' removed' : List (UInt32 × UInt64)} :
    Determined (KnownTo (sampleView outputs) (sampleDiff added removed)
      (sampleDiff added' removed')) := by
  refine determined_of_samples fun outpoint entry hknown => ?_
  rcases hknown with hbase | hself | hother
  · exact eq_sampleEntry_of_lookup hbase
  · exact sampleDiff_mentions hself
  · exact sampleDiff_mentions hother

/-- Diffs that fit a set in a row compose, the composition fits the set, and its
view is the view through both. -/
theorem withDiff_of_applicable (hdetermined : Determined (KnownTo base self other))
    (hself : self.Applicable base) (hother : other.Applicable (base.compose self)) :
    ∃ result, self.withDiff other = .ok result ∧ result.Applicable base ∧
      ∀ outpoint, base.compose result outpoint = (base.compose self).compose other outpoint := by
  obtain ⟨result, hresult, happlicable, hview, _⟩ :=
    exists_withDiff (scored_of_determined hdetermined) hself hother
  exact ⟨result, hresult, happlicable, congrFun hview⟩

/-- A composition in which the second diff takes back what the first one did. -/
theorem withDiff_undo_applicable :
    ∃ result, (sampleDiff [(0, 2)] [(0, 1)]).withDiff (sampleDiff [(0, 1)] [(0, 2)]) = .ok result ∧
      result.Applicable (sampleView [(0, 1), (1, 1)]) ∧
      ∀ outpoint, (sampleView [(0, 1), (1, 1)]).compose result outpoint =
        ((sampleView [(0, 1), (1, 1)]).compose (sampleDiff [(0, 2)] [(0, 1)])).compose
          (sampleDiff [(0, 1)] [(0, 2)]) outpoint :=
  withDiff_of_applicable determined_samples (by decide) (by decide)

/-- The difference of two diffs of one set leads from the first to the second. -/
theorem diffFrom_of_applicable (hdetermined : Determined (KnownTo base self other))
    (hself : self.Applicable base) (hother : other.Applicable base) :
    ∃ result, self.diffFrom other = .ok result ∧
      ∃ composed, self.withDiff result = .ok composed ∧ composed.Same other := by
  have hremoved := fun outpoint => (hself.slot outpoint).remove_isSome_iff (hother.slot outpoint)
  have hcomparable := fun outpoint => (hself.slot outpoint).comparable (hother.slot outpoint)
  have honly : ∀ outpoint, ¬ (self.slot outpoint).RemovedByThisOnly (other.slot outpoint) := by
    rintro outpoint ⟨hboth, hsome, hnone⟩
    simpa [hnone] using (hremoved outpoint hboth).mp hsome
  have hscored := scored_of_determined hdetermined
  obtain ⟨result, hresult⟩ := (diffFrom_ok_iff_comparable hscored).mpr ⟨hcomparable,
    exists_congr fun outpoint => and_congr_right fun hboth => hremoved outpoint hboth⟩
  have hdifference := slot_diffFrom_eq_difference hscored hresult
  have hscored' := scored_diffFrom hscored hresult
  obtain ⟨composed, hcomposed⟩ := (withDiff_ok_iff_composable hscored').mpr fun outpoint => by
    rw [hdifference]
    exact (hcomparable outpoint).composable_difference (hself.slot outpoint).valuesDiffer
      (honly outpoint)
  refine ⟨result, hresult, composed, hcomposed, same_iff_slot.mpr fun outpoint => ?_⟩
  rw [slot_withDiff_eq_compose hscored' hcomposed, hdifference]
  exact (hcomparable outpoint).compose_difference (hself.slot outpoint).valuesDiffer
    (hother.slot outpoint).valuesDiffer (honly outpoint)

/-- Two diffs that replace the same entry, by different ones. -/
theorem diffFrom_replaced_applicable :
    (sampleDiff [(0, 2), (1, 5)] [(0, 1)]).Applicable (sampleView [(0, 1)]) ∧
      (sampleDiff [(0, 3)] [(0, 1)]).Applicable (sampleView [(0, 1)]) ∧
      ∃ result, (sampleDiff [(0, 2), (1, 5)] [(0, 1)]).diffFrom (sampleDiff [(0, 3)] [(0, 1)]) =
          .ok result ∧
        ∃ composed, (sampleDiff [(0, 2), (1, 5)] [(0, 1)]).withDiff result = .ok composed ∧
          composed.Same (sampleDiff [(0, 3)] [(0, 1)]) := by
  have hself : (sampleDiff [(0, 2), (1, 5)] [(0, 1)]).Applicable (sampleView [(0, 1)]) := by decide
  have hother : (sampleDiff [(0, 3)] [(0, 1)]).Applicable (sampleView [(0, 1)]) := by decide
  exact ⟨hself, hother, diffFrom_of_applicable determined_samples hself hother⟩

end UtxoDiff

end Qaspa.Utxo
