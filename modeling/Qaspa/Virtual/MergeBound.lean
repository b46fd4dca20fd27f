import Qaspa.Depth.Manager
import Qaspa.Virtual.ParentSelection

/-! # Parents that break the merge bound

Of the selected parents, those that lead to merging a forbidden red block are removed, and
GHOSTDAG is run again on the rest. The blocks that excused other red blocks may be removed
on the way, so the remaining mergeset need not obey the bound. It does if no block needs an excuse
in order to be merged.
-/

namespace Qaspa.Virtual

open Ghostdag Outcome Depth Reachability List BlockDepthManager

variable {Hash : Type} [LinearOrder Hash]

/-- What the selection of parents reads. -/
structure ParentPicker (Hash : Type) where
  ghostdagManager : GhostdagManager Hash
  stores : Stores Hash
  depthManager : BlockDepthManager Hash
  limits : BlockLimits

namespace ParentPicker

variable (self : ParentPicker Hash)

/-- The parents that do not lead to merging one of the red blocks. -/
def withoutBadReds (badReds virtualParents : List Hash) : List Hash :=
  virtualParents.filter fun h => !badReds.any (self.stores.isDagAncestorOf · h)

def removeBoundedMergeBreakingParents (virtualParents : List Hash) (currentPruningPoint : Hash) :
    Checked (List Hash × GhostdagData Hash) := do
  let ghostdagData ← self.ghostdagManager.ghostdag self.stores virtualParents
  let mergeDepthRoot ← self.depthManager.calcMergeDepthRoot self.stores ghostdagData
    currentPruningPoint
  let badReds := ghostdagData.mergesetReds.filter
    (self.depthManager.violatesMergeBound self.stores ghostdagData mergeDepthRoot)
  if badReds.isEmpty then return (virtualParents, ghostdagData)
  else do
    let virtualParents := self.withoutBadReds badReds virtualParents
    return (virtualParents, ← self.ghostdagManager.ghostdag self.stores virtualParents)

def pickVirtualParents (draw : Nat → Nat) (selectedParent : Hash) (candidates : List Hash)
    (pruningPoint : Hash) : Checked (List Hash × GhostdagData Hash) := do
  let (virtualParents, _) ← self.limits.selectParents self.stores draw selectedParent candidates
  self.removeBoundedMergeBreakingParents virtualParents pruningPoint

end ParentPicker

/-! ## Blocks that need no excuse -/

namespace ParentPicker

variable (picker : ParentPicker Hash)

/-- The merge depth root of a block with the given selected parent and blue score. -/
def rootAt (selected : Hash) (blueScore : Nat) (pruningPoint : Hash) : Checked Hash :=
  picker.depthManager.calcMergeDepthRoot picker.stores
    { GhostdagData.newWithSelectedParent selected with blueScore := blueScore } pruningPoint

/-- A block that the parents merge although it is forbidden. It is not above the root, no merged
block that has the root on its selected chain is above it, and there are so many blue blocks above
the root that it cannot be blue itself. -/
structure Foreign (selected : Hash) (mergeset : List Hash) (low high x : Hash) : Prop where
  not_above : ¬ picker.stores.InPast low x
  unexcused : ∀ y ∈ mergeset,
    picker.depthManager.reachabilityService.isChainAncestorOf low y = true →
    ¬ picker.stores.InPast x y
  crowded : (picker.ghostdagManager.k : ℕ∞) <
    {b ∈ blueSet picker.ghostdagManager picker.stores (.newWithSelectedParent selected) |
      picker.stores.InPast high b}.encard

/-- Each merged block is either in the future of the root or foreign, whatever the colours. These
decide on the blue score, and it on the root, which is between `low` and `high`. -/
structure Decided (parents : List Hash) (pruningPoint selected : Hash) (mergeset : List Hash)
    (low high : Hash) : Prop where
  selection : Selection picker.stores parents selected mergeset
  low_eq : picker.rootAt selected (picker.stores.scoreOf selected + 1) pruningPoint = .ok low
  high_eq :
    picker.rootAt selected (picker.stores.scoreOf selected + 1 + mergeset.length) pruningPoint =
    .ok high
  block : ∀ x ∈ mergeset, picker.stores.InPast high x ∨ picker.Foreign selected mergeset low high x

end ParentPicker

section Mergeset

variable {manager : GhostdagManager Hash} {stores : Stores Hash} {depths : BlockDepthManager Hash}
  {parents : List Hash} {data : GhostdagData Hash} {pruningPoint : Hash}
  (hordered : Ordered manager stores)

include hordered

/-- What the data of checked parents says. -/
theorem mergeset_known (hparents : ParentsOk manager stores parents)
    (hdata : manager.ghostdag stores parents = .ok data) :
    (∀ x ∈ data.mergesetBlues, stores.Known x ∧ x ≠ manager.origin) ∧
      ∀ x ∈ data.mergesetReds, stores.Known x ∧ x ≠ manager.origin ∧
        ¬ stores.InPast x data.selectedParent := by
  obtain ⟨mergeset, blues, hselection, hblues, hsubBlues, hsubReds, _⟩ :=
    ghostdag_eq_ok hordered hparents hdata
  have hselected := hparents.known _ hselection.mem
  have hselectedNe := hparents.ne_origin _ hselection.mem
  have hmergeset : ∀ x ∈ mergeset, stores.Known x ∧ x ≠ manager.origin ∧
      ¬ stores.InPast x data.selectedParent := by
    intro x hx
    obtain ⟨⟨parent, hparent, hpast⟩, hnot⟩ := (hselection.mem_mergeset x).mp hx
    refine ⟨hordered.closed.known_of_inPast hpast (hparents.known parent hparent), ?_, hnot⟩
    rintro rfl
    exact hnot (hordered.origin_inPast hselectedNe hselected)
  constructor
  · intro x hx
    rw [hblues] at hx
    rcases mem_cons.mp hx with rfl | hx
    · exact ⟨hselected, hselectedNe⟩
    · exact ⟨(hmergeset x (hsubBlues.subset hx)).1, (hmergeset x (hsubBlues.subset hx)).2.1⟩
  · exact fun x hx => hmergeset x (hsubReds.subset hx)

variable (hchain : OnChain manager stores depths) (hpruning : stores.Known pruningPoint)
  (hpruningNe : pruningPoint ≠ manager.origin)

include hchain hpruning hpruningNe

/-- Data without violations passes the check of a header. -/
theorem checkBoundedMergeDepth_eq_ok (hknown : stores.Known data.selectedParent)
    (hne : data.selectedParent ≠ manager.origin) {root : Hash}
    (hroot : depths.calcMergeDepthRoot stores data pruningPoint = .ok root)
    (hnone : ∀ red ∈ data.mergesetReds, depths.violatesMergeBound stores data root red = false) :
    ∃ points, depths.checkBoundedMergeDepth stores data pruningPoint = .ok points := by
  obtain ⟨finality, hfinality, _⟩ := calculateBlockAtDepth_eq_ok hordered hchain hknown hne
    hpruning hpruningNe .finality rfl
  refine ⟨(root, finality), ?_⟩
  rw [checkBoundedMergeDepth, hroot, widen_ok, ok_bind,
    calcFinalityPoint, hfinality, widen_ok, ok_bind]
  simpa using hnone

end Mergeset

/-! ## Removing parents -/

namespace ParentPicker

variable {self : ParentPicker Hash} {maxBlockParents : Nat} {parents : List Hash}
  {pruningPoint : Hash} {data : GhostdagData Hash}

/-- The selected parent is never removed. -/
theorem withoutBadReds_parentsOk (hordered : Ordered self.ghostdagManager self.stores)
    (hparents : ParentsOk self.ghostdagManager self.stores parents)
    (hdata : self.ghostdagManager.ghostdag self.stores parents = .ok data) {badReds : List Hash}
    (hbad : badReds ⊆ data.mergesetReds) :
    ParentsOk self.ghostdagManager self.stores (self.withoutBadReds badReds parents) ∧
      data.selectedParent ∈ self.withoutBadReds badReds parents := by
  obtain ⟨_, _, hselection, _⟩ := ghostdag_eq_ok hordered hparents hdata
  obtain ⟨_, hreds⟩ := mergeset_known hordered hparents hdata
  have hselected := hparents.known _ hselection.mem
  have hsubset : self.withoutBadReds badReds parents ⊆ parents := filter_subset_self _
  have hkept : data.selectedParent ∈ self.withoutBadReds badReds parents := by
    refine mem_filter.mpr ⟨hselection.mem, ?_⟩
    rw [Bool.not_eq_true', any_eq_false]
    intro red hred hanswer
    obtain ⟨hknown, _, hnot⟩ := hreds red (hbad hred)
    exact hnot ((hordered.oracle red _ hknown hselected).mp hanswer)
  exact ⟨{
    nonempty := ne_nil_of_mem hkept
    known := fun parent hparent => hparents.known parent (hsubset hparent)
    ne_origin := fun parent hparent => hparents.ne_origin parent (hsubset hparent)
    antichain := fun left hleft right hright =>
      hparents.antichain left (hsubset hleft) right (hsubset hright) }, hkept⟩

section

variable (hbuilt : Built self.ghostdagManager maxBlockParents self.stores)
  (hchain : OnChain self.ghostdagManager self.stores self.depthManager)
  (hparents : ParentsOk self.ghostdagManager self.stores parents)
  (hpruning : self.stores.Known pruningPoint)
  (hpruningNe : pruningPoint ≠ self.ghostdagManager.origin)

include hbuilt hchain hparents hpruning hpruningNe

/-- On checked parents the removal returns. -/
theorem removeBoundedMergeBreakingParents_eq_ok :
    ∃ data root badReds, self.ghostdagManager.ghostdag self.stores parents = .ok data ∧
      self.depthManager.calcMergeDepthRoot self.stores data pruningPoint = .ok root ∧
      self.stores.Known root ∧ badReds = data.mergesetReds.filter
        (self.depthManager.violatesMergeBound self.stores data root) ∧
      ((badReds = [] ∧ self.removeBoundedMergeBreakingParents parents pruningPoint =
          .ok (parents, data)) ∨
        ∃ data', self.ghostdagManager.ghostdag self.stores (self.withoutBadReds badReds parents) =
            .ok data' ∧ self.removeBoundedMergeBreakingParents parents pruningPoint =
              .ok (self.withoutBadReds badReds parents, data')) := by
  have hordered := hbuilt.ordered
  obtain ⟨data, hdata, _⟩ := ghostdag_counted hordered hbuilt.allCounted hparents
  obtain ⟨_, _, hselection, _⟩ := ghostdag_eq_ok hordered hparents hdata
  obtain ⟨root, hroot, hrootKnown⟩ := calculateBlockAtDepth_eq_ok hordered hchain
    (hparents.known _ hselection.mem) (hparents.ne_origin _ hselection.mem) hpruning hpruningNe
    .mergeRoot rfl
  refine ⟨data, root, _, hdata, hroot, hrootKnown, rfl, ?_⟩
  rw [removeBoundedMergeBreakingParents, hdata, ok_bind, calcMergeDepthRoot,
    hroot, ok_bind]
  dsimp only
  split
  next hempty => exact .inl ⟨isEmpty_iff.mp hempty, rfl⟩
  · have hsubset : data.mergesetReds.filter
        (self.depthManager.violatesMergeBound self.stores data root) ⊆ data.mergesetReds :=
      filter_subset_self _
    obtain ⟨hok, _⟩ := withoutBadReds_parentsOk hordered hparents hdata hsubset
    obtain ⟨data', hdata', _⟩ := ghostdag_counted hordered hbuilt.allCounted hok
    exact .inr ⟨data', hdata', by rw [hdata']; rfl⟩

variable {selected low high : Hash} {mergeset : List Hash}
  (hdecided : self.Decided parents pruningPoint selected mergeset low high)

include hdecided

omit hparents in
/-- A run of GHOSTDAG on the parents or on some of them. -/
theorem Decided.run {kept : List Hash} (hkept : kept ⊆ parents) (hselected : selected ∈ kept)
    (hok : ParentsOk self.ghostdagManager self.stores kept)
    (hdata : self.ghostdagManager.ghostdag self.stores kept = .ok data) :
    data.selectedParent = selected ∧ (∀ x ∈ data.mergesetBlues, x = selected ∨ x ∈ mergeset) ∧
      (∀ x ∈ data.mergesetReds, x ∈ mergeset ∧ ∃ parent ∈ kept, self.stores.InPast x parent) ∧
      ∃ root, self.depthManager.calcMergeDepthRoot self.stores data pruningPoint = .ok root ∧
        Lower self.stores self.depthManager self.ghostdagManager.origin low root ∧
        Lower self.stores self.depthManager self.ghostdagManager.origin root high := by
  have hordered := hbuilt.ordered
  obtain ⟨merged, blues, hselection, hblues, hsubBlues, hsubReds, _, hscore, _⟩ :=
    ghostdag_eq_ok hordered hok hdata
  obtain rfl : data.selectedParent = selected := by
    apply self.stores.blockKey_injective
    exact le_antisymm (hdecided.selection.max _ (hkept hselection.mem))
      (hselection.max _ hselected)
  have hsub : merged ⊆ mergeset := by
    intro x hx
    obtain ⟨⟨parent, hparent, hpast⟩, hnot⟩ := (hselection.mem_mergeset x).mp hx
    exact (hdecided.selection.mem_mergeset x).mpr ⟨⟨parent, hkept hparent, hpast⟩, hnot⟩
  have hknown := hok.known _ hselected
  have hne := hok.ne_origin _ hselected
  obtain ⟨root, hroot, _⟩ := calculateBlockAtDepth_eq_ok hordered hchain hknown hne hpruning
    hpruningNe .mergeRoot (Eq.refl data.selectedParent)
  have hlength : blues.length ≤ mergeset.length :=
    hsubBlues.length_le.trans ((hselection.nodup_mergeset.subperm hsub).length_le)
  rw [hblues, length_cons] at hscore
  refine ⟨rfl, fun x hx => ?_, fun x hx => ?_, root, hroot, ?_, ?_⟩
  · rw [hblues] at hx
    exact (mem_cons.mp hx).imp_right fun hx => hsub (hsubBlues.subset hx)
  · have hx := hsubReds.subset hx
    exact ⟨hsub hx, ((hselection.mem_mergeset x).mp hx).1⟩
  · refine calculateBlockAtDepth_lower hordered hchain hknown hne hpruning hpruningNe .mergeRoot
      rfl ?_ ?_ hroot hdecided.low_eq
    · rfl
    · dsimp only
      omega
  · refine calculateBlockAtDepth_lower hordered hchain hknown hne hpruning hpruningNe .mergeRoot
      ?_ rfl ?_ hdecided.high_eq hroot
    · rfl
    · dsimp only
      omega

/-- A foreign block is red and forbidden. -/
theorem Decided.violates (hdata : self.ghostdagManager.ghostdag self.stores parents = .ok data)
    {root x : Hash} (hroot : self.depthManager.calcMergeDepthRoot self.stores data pruningPoint =
      .ok root) (hx : x ∈ mergeset) (hforeign : self.Foreign selected mergeset low high x) :
    x ∈ data.mergesetReds.filter
      (self.depthManager.violatesMergeBound self.stores data root) := by
  have hordered := hbuilt.ordered
  obtain ⟨rfl, hblues, hreds, root', hroot', hlow, hhigh⟩ := hdecided.run hbuilt hchain hpruning
    hpruningNe (List.Subset.refl _) hdecided.selection.mem hparents hdata
  cases hroot.symm.trans hroot'
  obtain ⟨hbluesKnown, hredsKnown⟩ := mergeset_known hordered hparents hdata
  obtain ⟨merged, blues, hselection, heq, _, _, hperm, _⟩ := ghostdag_eq_ok hordered hparents hdata
  obtain ⟨hcovered, hnot⟩ := (hdecided.selection.mem_mergeset x).mp hx
  have hmem := hperm.mem_iff.mpr ((hselection.mem_mergeset x).mpr ⟨hcovered, hnot⟩)
  rcases mem_append.mp hmem with hblue | hred
  · -- the blue blocks above the root are too many for the anticone of a blue block
    have hblue : x ∈ data.mergesetBlues := heq ▸ .tail _ hblue
    obtain ⟨hknown, hne⟩ := hbluesKnown x hblue
    obtain ⟨data', hdata', hprogress⟩ := ghostdag_counted hordered hbuilt.allCounted hparents
    cases hdata.symm.trans hdata'
    obtain ⟨size, hle, _, hcard⟩ := hprogress.counted x (.own hblue)
    obtain ⟨next, hlink⟩ := hprogress.link
    have hsubset : {b ∈ blueSet self.ghostdagManager self.stores
        (.newWithSelectedParent data.selectedParent) | self.stores.InPast high b} ⊆
          blueAnticone self.ghostdagManager self.stores data x := by
      rintro b ⟨hb, habove⟩
      have hpast := inPast_of_mem_blueSet hordered hlink.ne_origin hlink.lookup hb
      refine ⟨?_, fun hbelow => ?_, fun hbelow => hnot (hbelow.trans hpast)⟩
      · rw [blueSet_newWithSelectedParent hlink.ne_origin hlink.lookup] at hb
        rcases hb with rfl | hb
        · exact .own (heq ▸ .head _)
        · exact .chain hlink.ne_origin hlink.lookup hb
      · have hroot := hhigh.inPast x hknown hne (habove.trans hbelow)
        exact hforeign.not_above (hlow.inPast x hknown hne hroot)
    have hlarge := hforeign.crowded.trans_le (Set.encard_le_encard hsubset)
    rw [hcard, Nat.cast_lt] at hlarge
    omega
  · obtain ⟨hknown, hne, _⟩ := hredsKnown x hred
    have hdeep : ¬ self.stores.isDagAncestorOf root x = true := by
      rw [hordered.oracle root x hhigh.known hknown]
      exact fun hpast => hforeign.not_above (hlow.inPast x hknown hne hpast)
    have hnone : ¬ (self.depthManager.kosherizingBlues data root).any
        (self.stores.isDagAncestorOf x) = true := by
      rw [any_eq_true]
      rintro ⟨blue, hblue, hbelow⟩
      obtain ⟨hblue, honChain⟩ := mem_filter.mp hblue
      obtain ⟨hblueKnown, hblueNe⟩ := hbluesKnown blue hblue
      rw [hordered.oracle x blue hknown hblueKnown] at hbelow
      rcases hblues blue hblue with rfl | hblue
      · exact hnot hbelow
      · exact hforeign.unexcused blue hblue (hlow.onChain blue hblueKnown hblueNe honChain) hbelow
    exact mem_filter.mpr ⟨hred, by simp [violatesMergeBound, hdeep, hnone]⟩

end

/-! ## Picking the parents -/

variable {sink : Hash} {candidates : List Hash} {size : Nat}

/-- GHOSTDAG selects the sink and counts the same mergeset, if the sink is the greatest
candidate. -/
theorem ghostdag_selecting {limits : BlockLimits} {rest : List Hash}
    (hbuilt : Built self.ghostdagManager maxBlockParents self.stores)
    (hselecting : CorrectDag.Selecting limits self.stores sink parents size rest)
    (hcovered : ∀ x ∈ parents, x ∈ [sink] ∨ CorrectDag.Covered self.stores candidates x)
    (hparents : ParentsOk self.ghostdagManager self.stores parents)
    (hgreatest : ∀ x ∈ candidates, self.stores.blockKey x < self.stores.blockKey sink) :
    ∃ data, self.ghostdagManager.ghostdag self.stores parents = .ok data ∧
      data.selectedParent = sink ∧
      (data.mergesetBlues ++ data.mergesetReds).length = size := by
  have hordered := hbuilt.ordered
  obtain ⟨data, hdata, _⟩ := ghostdag_counted hordered hbuilt.allCounted hparents
  obtain ⟨mergeset, blues, hselection, hblues, _, _, hperm, _⟩ :=
    ghostdag_eq_ok hordered hparents hdata
  have hle : ∀ x ∈ parents, self.stores.blockKey x ≤ self.stores.blockKey sink := by
    intro x hx
    rcases hcovered x hx with hsink | ⟨candidate, hcandidate, hpast⟩
    · rw [mem_singleton.mp hsink]
    · refine le_trans ?_ (hgreatest candidate hcandidate).le
      rcases Dag.inPast_iff.mp hpast with rfl | hstrict
      · exact le_rfl
      · exact (SortableBlock.lt_iff.mpr
          (.inl (hordered.work_lt (hparents.ne_origin x hx) hstrict))).le
  have hselected : data.selectedParent = sink := by
    apply self.stores.blockKey_injective
    exact le_antisymm (hle _ hselection.mem) (hselection.max sink hselecting.sink_mem)
  refine ⟨data, hdata, hselected, ?_⟩
  -- both lists hold the same blocks, each once
  obtain ⟨counted, hcounted, rfl⟩ := hselecting.mergeset
  have hcons : (data.selectedParent :: mergeset).Perm counted := by
    refine (perm_ext_iff_of_nodup (nodup_cons.mpr
      ⟨hselection.notMem_mergeset, hselection.nodup_mergeset⟩) hcounted.nodup).mpr fun x => ?_
    rw [hselection.mem_cons hordered, hcounted.mem_iff, hselected]
    rfl
  rw [hblues, cons_append, (hperm.cons _).length_eq, hcons.length_eq]

/-- For a sink and candidates that form an antichain together, and for all draws, the
selection returns parents that are an antichain with the sink within the limits, and the
counter is the size of their mergeset. On the stores of header processing, the whole call
returns, and if the sink is the greatest of the blocks, the mergeset of GHOSTDAG has this
size. -/
theorem pickVirtualParents_selects (hdag : CorrectDag self.stores)
    (hknown : ∀ x ∈ sink :: candidates, self.stores.Known x)
    (hantichain : Dag.Antichain self.stores.relations.lookup (sink :: candidates))
    (draw : Nat → Nat) :
    ∃ parents size, self.limits.selectParents self.stores draw sink candidates =
        .ok (parents, size) ∧
      Dag.Antichain self.stores.relations.lookup parents ∧ sink ∈ parents ∧
      parents.length ≤ self.limits.maxBlockParents ∧
      (∃ mergeset, CorrectDag.IsMergeset self.stores sink parents mergeset ∧
        mergeset.length = size) ∧
      size ≤ self.limits.mergesetSizeLimit ∧
      ∀ maxBlockParents, Built self.ghostdagManager maxBlockParents self.stores →
        sink ≠ self.ghostdagManager.origin →
        (∀ pruningPoint, OnChain self.ghostdagManager self.stores self.depthManager →
          self.stores.Known pruningPoint → pruningPoint ≠ self.ghostdagManager.origin →
          ∃ result, self.pickVirtualParents draw sink candidates pruningPoint = .ok result) ∧
        ((∀ x ∈ candidates, self.stores.blockKey x < self.stores.blockKey sink) →
          ∃ data, self.ghostdagManager.ghostdag self.stores parents = .ok data ∧
            data.selectedParent = sink ∧
            (data.mergesetBlues ++ data.mergesetReds).length = size) := by
  obtain ⟨parents, size, rest, hselect, hselecting, hcovered⟩ :=
    hdag.selectParents_eq_ok self.limits hknown hantichain draw
  have hparentsAntichain := (List.pairwise_append.mp hselecting.antichain).1
  refine ⟨parents, size, hselect, hparentsAntichain, hselecting.sink_mem, hselecting.length_le,
    hselecting.mergeset, hselecting.size_le, fun maxBlockParents hbuilt hne => ?_⟩
  have hknown (x : Hash) (hx : x ∈ parents) := hselecting.known x (List.mem_append_left _ hx)
  have hparents : ParentsOk self.ghostdagManager self.stores parents := {
    nonempty := List.ne_nil_of_mem hselecting.sink_mem
    known := hknown
    ne_origin := by
      intro parent hparent horigin
      have hdifferent : parent ≠ sink := fun heq => hne (heq ▸ horigin)
      refine (List.Pairwise.forall hparentsAntichain hparent hselecting.sink_mem hdifferent).1 ?_
      rw [horigin]
      exact hbuilt.ordered.origin_inPast hne (hknown sink hselecting.sink_mem)
    antichain := fun left hleft right hright hdifferent =>
      (List.Pairwise.forall hparentsAntichain hleft hright hdifferent).1 }
  constructor
  · intro pruningPoint hchain hpruning hpruningNe
    obtain ⟨_, _, _, _, _, _, _, hcases⟩ :=
      removeBoundedMergeBreakingParents_eq_ok hbuilt hchain hparents hpruning hpruningNe
    rw [pickVirtualParents, hselect]
    rcases hcases with ⟨_, hresult⟩ | ⟨_, _, hresult⟩
    · exact ⟨_, hresult⟩
    · exact ⟨_, hresult⟩
  · exact ghostdag_selecting hbuilt hselecting hcovered hparents

end ParentPicker

/-! ## A lost excuse

Above the chain 1, 2, 3, 5 of a DAG with `k = 2` and merge depth 4 there are the side blocks
6 and 7 on genesis. Block 8 merges 6, block 9 merges 6 too, block 10 is above 8 and merges 7,
and block 11 merges 4 and 5. -/

def boundManager : GhostdagManager Nat := ⟨1, 0, 99, 2, 0, Nat.one_ne_zero, by decide⟩

def boundData (blueScore selectedParent : Nat) (mergesetBlues mergesetReds : List Nat)
    (sizes : List (Nat × Nat)) : GhostdagData Nat :=
  ⟨blueScore, 2 * blueScore, selectedParent, mergesetBlues, mergesetReds, HashMap.ofList sizes⟩

def boundBlocks : List (Nat × List Nat × GhostdagData Nat) :=
  [(2, [1], boundData 1 1 [1] [] [(1, 0)]), (3, [2], boundData 2 2 [2] [] [(2, 0)]),
    (4, [3], boundData 3 3 [3] [] [(3, 0)]),
    (5, [3], boundData 3 3 [3] [] [(3, 0)]),
    (6, [1], boundData 1 1 [1] [] [(1, 0)]),
    (7, [1], boundData 1 1 [1] [] [(1, 0)]),
    (8, [5, 6], boundData 4 5 [5] [6] [(5, 0)]),
    (9, [3, 6], boundData 4 3 [3, 6] [] [(3, 1), (2, 1), (6, 2)]),
    (10, [8, 7], boundData 5 8 [8] [7] [(8, 0)]),
    (11, [4, 5], boundData 5 5 [5, 4] [] [(5, 1), (4, 1)])]

def boundGenesis : Stores Nat :=
  (boundManager.initialStores (fun _ => sampleTarget) fun _ _ => false).withSearch

def boundStores : Stores Nat :=
  boundBlocks.foldl (fun stores block => stores.commitSample block.1 block.2.1 block.2.2)
    boundGenesis

/-- The roots and finality points that the check of each header returned. -/
def boundPicker : ParentPicker Nat where
  ghostdagManager := boundManager
  stores := boundStores
  depthManager :=
    { mergeDepth := 4
      finalityDepth := 100
      genesisHash := 1
      mergeDepthRoot := fun x => if x = 1 then some 0 else some 1
      finalityPoint := fun x => if x = 1 then some 0 else some 1
      reachabilityService := chainService boundManager boundStores }
  limits := ⟨10, 100, by decide, by decide⟩

theorem built_boundStores : Built boundManager 10 boundStores := by
  have hgenesis : Built boundManager 10 boundGenesis :=
    .init _ _ (oracleCorrect_searchService closed_initialStores rfl)
  iterate 9 apply Built.commitSample _ rfl rfl rfl
  exact hgenesis.commitSample rfl rfl rfl

theorem onChain_bound : OnChain boundManager boundStores boundPicker.depthManager := by
  refine onChain_chainService built_boundStores.ordered rfl rfl fun depthType x _ _ => ?_
  cases depthType <;>
  · by_cases hx : x = 1
    · exact .inl (if_pos hx)
    · exact .inr (if_neg hx)

theorem parentsOk_bound {parents : List Nat}
    (hchecked : boundManager.checkParents 10 boundStores parents = .ok ()) :
    ParentsOk boundManager boundStores parents :=
  checkParents_eq_ok built_boundStores.ordered.oracle hchecked

theorem correctDag_bound : CorrectDag boundStores where
  closed := built_boundStores.ordered.closed
  oracle := built_boundStores.ordered.oracle
  acyclic := fun _ => built_boundStores.ordered.not_inStrictPast_self
  parents_nodup := by
    intro x parents hlookup
    have hentries : ∀ entry ∈ boundStores.relations.entries, entry.2.Nodup := by decide
    exact hentries ⟨x, parents⟩ (AList.mem_lookup_iff.mp hlookup)

namespace ParentPicker

theorem inPast_bound (x y : Nat) (hx : boundStores.Known x) (hy : boundStores.Known y) :
    boundStores.isDagAncestorOf x y = true ↔ boundStores.InPast x y :=
  built_boundStores.ordered.oracle x y hx hy

/-- Block 7 is not above the chain block 2 and excused by no block. -/
theorem decided_bound : boundPicker.Decided [11, 7] 1 11 [7] 2 3 where
  selection := by
    have hdata : boundManager.ghostdag boundStores [11, 7] =
        .ok (boundData 6 11 [11] [7] [(11, 0)]) := rfl
    obtain ⟨mergeset, blues, hselection, hblues, _, _, hperm, _⟩ :=
      ghostdag_eq_ok built_boundStores.ordered (parentsOk_bound rfl) hdata
    cases hblues
    rwa [← List.singleton_perm.mp hperm] at hselection
  low_eq := rfl
  high_eq := rfl
  block x hx := by
    rw [mem_singleton.mp hx]
    refine .inr ⟨(inPast_bound 2 7 rfl rfl).not.mp (by decide), fun y hy honChain => ?_, ?_⟩
    · rw [mem_singleton.mp hy] at honChain
      exact absurd honChain (by decide)
    · have hblues : (({11, 5, 4} : Finset Nat) : Set Nat) ⊆ {b ∈ blueSet boundManager boundStores
          (.newWithSelectedParent 11) | boundStores.InPast 3 b} := by
        intro b hb
        rcases (by simpa using hb : b = 11 ∨ b = 5 ∨ b = 4) with rfl | rfl | rfl
        · exact ⟨.own (.head _), (inPast_bound 3 11 rfl rfl).mp rfl⟩
        · exact ⟨.chain (by decide) rfl (.own (.head _)), (inPast_bound 3 5 rfl rfl).mp rfl⟩
        · exact ⟨.chain (by decide) rfl (.own (.tail _ (.head _))),
            (inPast_bound 3 4 rfl rfl).mp rfl⟩
      refine lt_of_lt_of_le ?_ (Set.encard_le_encard hblues)
      rw [Set.encard_coe_eq_coe_finsetCard]
      exact Nat.cast_lt.mpr (by decide)

/-- The sink 11 with the candidates 9 and 10. -/
theorem pickVirtualParents_selects_bound : ∃ parents size,
    boundPicker.limits.selectParents boundStores id 11 [9, 10] = .ok (parents, size) ∧
      Dag.Antichain boundStores.relations.lookup parents ∧
      (∃ result, boundPicker.pickVirtualParents id 11 [9, 10] 1 = .ok result) ∧
      ∃ data, boundManager.ghostdag boundStores parents = .ok data ∧
        (data.mergesetBlues ++ data.mergesetReds).length = size := by
  have hparents : ParentsOk boundManager boundStores [11, 9, 10] := parentsOk_bound rfl
  have hdag : CorrectDag boundPicker.stores := correctDag_bound
  have hantichain : Dag.Antichain boundPicker.stores.relations.lookup [11, 9, 10] := by
    have hdistinct : [11, 9, 10].Pairwise (· ≠ ·) := by decide
    refine hdistinct.imp_of_mem fun hleft hright hne => ?_
    exact ⟨hparents.antichain _ hleft _ hright hne, hparents.antichain _ hright _ hleft hne.symm⟩
  obtain ⟨parents, size, hselect, hchosen, _, _, _, _, hwhole⟩ :=
    pickVirtualParents_selects hdag hparents.known hantichain id
  obtain ⟨hreturns, hcounts⟩ := hwhole 10 built_boundStores (by decide)
  obtain ⟨data, hdata, _, hlength⟩ := hcounts (by decide)
  exact ⟨parents, size, hselect, hchosen, hreturns 1 onChain_bound rfl (by decide), data, hdata,
    hlength⟩

/-- A candidate in the past of the sink is accepted as a parent next to the sink, and counted
a second time: the mergeset of block 2 has one block. -/
theorem selectParents_ancestor : CorrectDag boundStores ∧
    Dag.Antichain boundStores.relations.lookup [1] ∧
    (∀ draw, boundPicker.limits.selectParents boundStores draw 2 [1] = .ok ([2, 1], 2)) ∧
    boundStores.InPast 1 2 ∧ CorrectDag.IsMergeset boundStores 2 [2, 1] [2] := by
  have hpast : boundStores.InPast 1 2 := (built_boundStores.ordered.oracle 1 2 rfl rfl).mp rfl
  refine ⟨correctDag_bound, List.pairwise_singleton _ _, fun draw => rfl, hpast,
    List.nodup_singleton 2, fun x => ?_⟩
  rw [List.mem_singleton]
  constructor
  · rintro rfl
    exact ⟨⟨2, .head _, .refl 2⟩, correctDag_bound.acyclic 2⟩
  · rintro ⟨⟨block, hblock, hbelow⟩, hnot⟩
    have htwo : boundStores.InPast x 2 := by
      rcases List.mem_cons.mp hblock with rfl | hblock
      · exact hbelow
      · rw [List.mem_singleton.mp hblock] at hbelow
        exact hbelow.trans hpast
    exact (Dag.inPast_iff.mp htwo).resolve_right hnot

end ParentPicker

end Qaspa.Virtual
