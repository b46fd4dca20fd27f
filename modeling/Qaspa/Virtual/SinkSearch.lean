import Qaspa.Virtual.Replay

/-! # The search for the sink

The sink is the heaviest block with a valid chain through the finality point. The search
takes the heaviest block of a heap; a block that is rejected is replaced by those of its
parents that are above the finality point and not below another block of the heap. The
heap covers everything that has not been rejected, so the first block that is accepted is
the greatest one.
-/

namespace Qaspa.Virtual

open Utxo Ghostdag Coinbase Outcome Reachability List SortableBlock Dag Stores

/-- The chain processor with the store of merge depth roots. -/
structure VirtualProcessor (Hash Digest : Type) extends ChainProcessor Hash Digest where
  mergeDepthRoot : Hash → Option Hash

variable {Hash Digest : Type} [LinearOrder Hash]

namespace VirtualProcessor

variable [DecidableEq Digest] (self : VirtualProcessor Hash Digest)

/-- Resolve the state of a candidate if the finality point is on its chain. The candidate
is valid if its state was reached. -/
def tryCandidate (fuel : Nat) (finalityPoint : Hash) (point : DiffPoint Hash) (candidate : Hash) :
    Checked (DiffPoint Hash × Bool) :=
  if self.reachabilityService.isChainAncestorOf finalityPoint candidate then do
    let point ← self.calculateUtxoStateRelatively fuel point.stores point.diff point.diffPoint
      candidate
    return (point, point.diffPoint = candidate)
  else .ok (point, false)

/-- Push the parents that are above the finality point and not below the heap. The heap
is kept in descending order. -/
def pushParents (finalityPoint : Hash) : List (SortableBlock Hash) → List Hash →
    Checked (List (SortableBlock Hash))
  | heap, [] => .ok heap
  | heap, parent :: parents =>
    if self.stores.isDagAncestorOf finalityPoint parent &&
        !heap.any (fun block => self.stores.isDagAncestorOf parent block.hash) then do
      let block ← self.stores.sortable parent
      pushParents finalityPoint (heap.orderedInsert (· ≥ ·) block) parents
    else pushParents finalityPoint heap parents

/-- Blocks lighter than the merge depth root of the sink could never be merged. -/
def virtualParentCandidates (sink : Hash) (heap : List (SortableBlock Hash)) :
    Checked (List Hash) := do
  let filteringRoot ← unwrap (self.mergeDepthRoot sink)
  return (heap.takeWhile (·.blueWork ≥ self.stores.workOf filteringRoot)).map SortableBlock.hash

/-- The loop of the search. -/
def searchSink (fuel : Nat) (finalityPoint : Hash) : Nat → DiffPoint Hash →
    List (SortableBlock Hash) → Checked (Hash × List Hash × DiffPoint Hash)
  | 0, _, _ => .error .outOfFuel
  | _ + 1, _, [] => .error .panic
  | rounds + 1, point, candidate :: heap => do
    let (point, valid) ← self.tryCandidate fuel finalityPoint point candidate.hash
    if valid then
      return (candidate.hash, ← self.virtualParentCandidates candidate.hash heap, point)
    else do
      let parents ← unwrap (self.stores.relations.lookup candidate.hash)
      let heap ← self.pushParents finalityPoint heap parents
      searchSink fuel finalityPoint rounds point heap

/-- No block is a candidate twice, so there are at most as many rounds as blocks. -/
def sinkSearchAlgorithm (fuel : Nat) (point : DiffPoint Hash) (tips : List Hash)
    (finalityPoint : Hash) : Checked (Hash × List Hash × DiffPoint Hash) := do
  let blocks ← tips.mapM self.stores.sortable
  self.searchSink fuel finalityPoint (self.stores.relations.keys.length + 1) point
    (blocks.insertionSort (· ≥ ·))

end VirtualProcessor

/-! ## The block DAG -/

/-- A block DAG over the selected-parent tree: queries are answered correctly, work grows
along parent edges, and the parent in the tree is a parent. -/
structure BlockDag (processor : VirtualProcessor Hash Digest) (tree : UtxoTree Hash) : Prop where
  closed : Dag.Closed processor.stores.relations.lookup
  oracle : processor.stores.OracleCorrect
  data : ∀ x, processor.stores.Known x → (processor.stores.ghostdag.lookup x).isSome
  origin_parents : ∀ x, ¬ processor.stores.ParentOf x tree.service.origin
  work_lt : ∀ x y, processor.stores.ParentOf x y → x ≠ tree.service.origin →
    processor.stores.workOf x < processor.stores.workOf y
  block_iff : ∀ x, tree.Block x ↔ processor.stores.Known x ∧ x ≠ tree.service.origin
  chainParent : ∀ x parent, tree.Block x → tree.service.getChainParent x = some parent →
    processor.stores.ParentOf parent x
  mergeDepthRoot : ∀ x, tree.Block x → (processor.mergeDepthRoot x).isSome

namespace BlockDag

variable {processor : VirtualProcessor Hash Digest} {tree : UtxoTree Hash} {x y : Hash}

theorem key_lt (hdag : BlockDag processor tree) (hx : x ≠ tree.service.origin)
    (hpast : processor.stores.InStrictPast x y) :
    processor.stores.blockKey x < processor.stores.blockKey y := by
  have hwork : processor.stores.workOf x < processor.stores.workOf y := by
    induction hpast with
    | single hedge => exact hdag.work_lt _ _ hedge hx
    | @tail middle last hpath hedge ih =>
      refine ih.trans (hdag.work_lt _ _ hedge ?_)
      rintro rfl
      obtain ⟨_, hparent, _⟩ := inStrictPast_iff.mp hpath
      exact hdag.origin_parents _ hparent
  exact lt_iff.mpr (.inl hwork)

theorem inPast_of_chainAncestor (hdag : BlockDag processor tree) (hx : tree.Block x)
    (hancestor : tree.service.ChainAncestor x y) : processor.stores.InPast x y := by
  induction hancestor with
  | refl => exact .refl x
  | tail hbelow hstep ih =>
    have hblock := (hx.trans hbelow).tail hstep
    exact ih.tail (hdag.chainParent _ _ hblock hstep)

end BlockDag

/-! ## Candidates -/

/-- One walk after the other, each from where the last one ended. -/
def ChainProcessor.visit [DecidableEq Digest] (self : ChainProcessor Hash Digest) (fuel : Nat) :
    DiffPoint Hash → List Hash → Checked (DiffPoint Hash) :=
  List.foldlM fun point target =>
    self.calculateUtxoStateRelatively fuel point.stores point.diff point.diffPoint target

namespace UtxoTree

variable [DecidableEq Digest] (tree : UtxoTree Hash)

/-- A block with the finality point on its chain and all chain blocks above it valid. -/
def SinkCandidate (finalityPoint block : Hash) : Prop :=
  tree.service.ChainAncestor finalityPoint block ∧
    ∀ x, tree.service.ChainAncestor finalityPoint x → x ≠ finalityPoint →
      tree.service.ChainAncestor x block → tree.valid x

/-- The exact diff of a stored block. -/
structure Resolved (known : TransactionOutpoint → UtxoEntry → Prop) (utxoSet : UtxoView)
    (point : DiffPoint Hash) : Prop where
  consistent : tree.Consistent point.stores
  diff : tree.Exact known utxoSet point.diff point.diffPoint
  stored : (point.stores.utxoDiffs.lookup point.diffPoint).isSome

variable {tree} {processor : VirtualProcessor Hash Digest} {rank : Hash → Nat}
  {known : TransactionOutpoint → UtxoEntry → Prop} {finalityPoint block : Hash}
  (hlawful : tree.Lawful processor.toChainProcessor rank known)

include hlawful

/-- Above a finality point with a valid chain, the candidates are the blocks with a valid
chain. -/
theorem sinkCandidate_iff (hfinality : tree.Replayable finalityPoint) :
    tree.SinkCandidate finalityPoint block ↔
      tree.service.ChainAncestor finalityPoint block ∧ tree.Replayable block := by
  obtain ⟨_, hreplay⟩ := hfinality
  have hblock := hreplay.block
  refine and_congr_right fun hancestor => ⟨fun hvalid => ?_, fun hreplayable x hx hne hxBlock => ?_⟩
  · apply replayable_of_valid hlawful ⟨_, hreplay⟩ (hblock.trans hancestor)
    intro y hy hyBlock hyFinality
    rcases hyBlock.total hancestor with hbelow | habove
    · exact absurd hbelow hyFinality
    · refine hvalid y habove ?_ hyBlock
      rintro rfl
      exact hyFinality (.refl y)
  · refine valid_of_replayable hlawful (hblock.trans hx)
      (hreplayable.mono hlawful.correct (hblock.trans hx) hxBlock) ?_
    rintro rfl
    exact hne (hx.antisymm hlawful.correct.rank_lt hblock).symm

section

variable {fuel : Nat} (hfuel : ∀ x, tree.Block x → rank x < fuel) {point : DiffPoint Hash}
  (hpoint : tree.Resolved known processor.utxoSet point)

include hfuel hpoint

/-- The state of a block is reached if and only if its chain is valid. -/
theorem Resolved.move (hblock : tree.Block block) :
    ∃ next, processor.calculateUtxoStateRelatively fuel point.stores point.diff point.diffPoint
        block = .ok next ∧
      tree.Resolved known processor.utxoSet next ∧
      (next.diffPoint = block ↔ tree.Replayable block) := by
  obtain ⟨next, hnext, hcases⟩ := calculateUtxoStateRelatively_reached hlawful
    hpoint.consistent hpoint.diff hpoint.stored hblock
    (hfuel _ hpoint.diff.replay.block) (hfuel _ hblock)
  have hresolved : tree.Resolved known processor.utxoSet next := by
    rcases hcases with ⟨_, rfl⟩ | ⟨_, hreached⟩
    · exact hpoint
    · exact ⟨hreached.consistent, hreached.diff, hreached.stored⟩
  refine ⟨next, hnext, hresolved, fun heq => heq ▸ ⟨_, hresolved.diff.replay⟩, ?_⟩
  intro hreplayable
  rcases hcases with ⟨hstatus, _⟩ | ⟨_, hreached⟩
  · exact absurd hreplayable (hpoint.consistent.disqualified block hstatus)
  · exact hreached.diffPoint_eq_target hlawful hreplayable

/-- After any walks over the tree, a walk to a block with a valid chain ends at the block, with
the UTXO set that replaying its chain from genesis gives. -/
theorem visit_replays {targets : List Hash} (htargets : ∀ target ∈ targets, tree.Block target)
    {view : UtxoView} (hview : tree.Replay block view) :
    ∃ next, processor.visit fuel point (targets ++ [block]) = .ok next ∧
      next.diffPoint = block ∧ processor.utxoSet.compose next.diff = view ∧
      tree.Consistent next.stores := by
  induction targets generalizing point with
  | nil =>
    obtain ⟨next, hnext, hresolved, hend⟩ := hpoint.move hlawful hfuel hview.block
    have hdiffPoint := hend.mpr ⟨view, hview⟩
    refine ⟨next, by rw [List.nil_append, ChainProcessor.visit, List.foldlM_cons, hnext]; rfl,
      hdiffPoint, ?_, hresolved.consistent⟩
    exact (hdiffPoint ▸ hresolved.diff.replay).unique hlawful.correct hview
  | cons target targets ih =>
    obtain ⟨htarget, htargets⟩ := List.forall_mem_cons.mp htargets
    obtain ⟨middle, hmiddle, hresolved, _⟩ := hpoint.move hlawful hfuel htarget
    obtain ⟨next, hnext, hspec⟩ := ih hresolved htargets
    refine ⟨next, ?_, hspec⟩
    rw [List.cons_append, ChainProcessor.visit, List.foldlM_cons, hmiddle]
    exact hnext

/-- A candidate is accepted, and its state is reached. -/
theorem tryCandidate_eq_ok (hfinality : tree.Replayable finalityPoint) (hblock : tree.Block block) :
    ∃ next valid, processor.tryCandidate fuel finalityPoint point block = .ok (next, valid) ∧
      tree.Resolved known processor.utxoSet next ∧
      (valid = true ↔ tree.SinkCandidate finalityPoint block) ∧
      (valid = true → next.diffPoint = block) := by
  have hfinalityBlock : tree.Block finalityPoint := hfinality.choose_spec.block
  have hanswer := hlawful.correct.isChainAncestorOf_iff _ _ hfinalityBlock hblock
  rw [VirtualProcessor.tryCandidate, hlawful.service, sinkCandidate_iff hlawful hfinality]
  split
  next hancestor =>
    obtain ⟨next, hnext, hresolved, hend⟩ := hpoint.move hlawful hfuel hblock
    refine ⟨next, decide (next.diffPoint = block), by rw [hnext]; rfl, hresolved, ?_, by simp⟩
    rw [decide_eq_true_iff, and_iff_right (hanswer.mp hancestor), hend]
  next hancestor =>
    refine ⟨point, false, rfl, hpoint, ?_, by simp⟩
    rw [← hanswer]
    simp [hancestor]

end

end UtxoTree

/-! ## The heap -/

namespace BlockDag

variable {processor : VirtualProcessor Hash Digest} {tree : UtxoTree Hash}
  {finalityPoint block : Hash} {tips : List Hash}

/-- The heap holds blocks with their work, the greatest first and none twice. -/
structure Heap (stores : Stores Hash) (heap : List (SortableBlock Hash)) : Prop where
  keyed : ∀ block ∈ heap, block = stores.blockKey block.hash
  sorted : heap.Pairwise (· > ·)

/-- The hashes of a heap form an antichain. -/
abbrev HeapAntichain (stores : Stores Hash) (heap : List (SortableBlock Hash)) : Prop :=
  Dag.Antichain stores.relations.lookup (heap.map SortableBlock.hash)

variable {heap : List (SortableBlock Hash)} {rejected : List Hash}

theorem Heap.push {stores : Stores Hash} (hheap : Heap stores heap)
    (hnew : stores.blockKey block ∉ heap) :
    Heap stores (heap.orderedInsert (· ≥ ·) (stores.blockKey block)) where
  keyed := by
    intro other hother
    rcases mem_orderedInsert _ |>.mp hother with rfl | hmem
    · rfl
    · exact hheap.keyed other hmem
  sorted := by
    have hge : heap.Pairwise (· ≥ ·) := hheap.sorted.imp le_of_lt
    have hnodup : (heap.orderedInsert (· ≥ ·) (stores.blockKey block)).Nodup := by
      rw [(perm_orderedInsert _ _ _).nodup_iff, nodup_cons]
      exact ⟨hnew, hheap.sorted.imp ne_of_gt⟩
    exact (hge.orderedInsert _ _).imp₂ (fun _ _ hle hne => lt_of_le_of_ne hle hne.symm) hnodup

/-- What pushing some blocks adds to a heap: only such blocks above the finality point,
and enough to cover all of them. -/
structure Pushed (stores : Stores Hash) (finalityPoint : Hash) (blocks : List Hash)
    (heap pushed : List (SortableBlock Hash)) : Prop where
  ordered : Heap stores pushed
  kept : heap ⊆ pushed
  added : ∀ block ∈ pushed, block ∈ heap ∨
    block.hash ∈ blocks ∧ stores.InPast finalityPoint block.hash
  covers : ∀ block ∈ blocks, stores.InPast finalityPoint block →
    ∃ above ∈ pushed, stores.InPast block above.hash

section Pushed

variable {stores : Stores Hash} {parent : Hash} {parents : List Hash}
  {pushed : List (SortableBlock Hash)}

/-- The first block is pushed, and then the others. -/
theorem Pushed.push (habove : stores.InPast finalityPoint parent)
    (hspec : Pushed stores finalityPoint parents
      (heap.orderedInsert (· ≥ ·) (stores.blockKey parent)) pushed) :
    Pushed stores finalityPoint (parent :: parents) heap pushed where
  ordered := hspec.ordered
  kept _ hblock := hspec.kept ((mem_orderedInsert _).mpr (.inr hblock))
  added := by
    intro block hblock
    rcases hspec.added block hblock with hold | ⟨hmem, hpast⟩
    · rcases (mem_orderedInsert _).mp hold with rfl | hold
      · exact .inr ⟨.head _, habove⟩
      · exact .inl hold
    · exact .inr ⟨.tail _ hmem, hpast⟩
  covers := by
    intro block hblock hpast
    rcases mem_cons.mp hblock with rfl | hrest
    · exact ⟨_, hspec.kept ((mem_orderedInsert _).mpr (.inl rfl)), .refl block⟩
    · exact hspec.covers block hrest hpast

/-- The first block is covered by the heap or not above the finality point. -/
theorem Pushed.skip
    (hcovered : stores.InPast finalityPoint parent →
      ∃ block ∈ heap, stores.InPast parent block.hash)
    (hspec : Pushed stores finalityPoint parents heap pushed) :
    Pushed stores finalityPoint (parent :: parents) heap pushed where
  ordered := hspec.ordered
  kept := hspec.kept
  added block hblock := (hspec.added block hblock).imp_right fun ⟨hmem, hpast⟩ =>
    ⟨.tail _ hmem, hpast⟩
  covers := by
    intro block hblock hpast
    rcases mem_cons.mp hblock with rfl | hrest
    · obtain ⟨above, habove, hcover⟩ := hcovered hpast
      exact ⟨above, hspec.kept habove, hcover⟩
    · exact hspec.covers block hrest hpast

/-- A block unrelated to the blocks of the heap joins their antichain. -/
theorem HeapAntichain.push (hantichain : HeapAntichain stores heap)
    (hfree : ¬ ∃ block ∈ heap, stores.InPast parent block.hash)
    (hbelow : ∀ block ∈ heap, ¬ stores.InPast block.hash parent) :
    HeapAntichain stores (heap.orderedInsert (· ≥ ·) (stores.blockKey parent)) := by
  have hperm := (perm_orderedInsert (· ≥ ·) (stores.blockKey parent) heap).map hash
  apply Dag.Antichain.perm _ hperm.symm
  refine antichain_cons.mpr ⟨?_, hantichain⟩
  rintro _ hnode
  obtain ⟨block, hblock, rfl⟩ := mem_map.mp hnode
  exact ⟨fun hpast => hfree ⟨block, hblock, hpast⟩, hbelow block hblock⟩

end Pushed

/-- The answers of the reachability service decide whether a parent is pushed. -/
theorem pushes_iff (hdag : BlockDag processor tree)
    (hfinality : processor.stores.Known finalityPoint) {parent : Hash}
    (hparent : processor.stores.Known parent)
    (hknown : ∀ block ∈ heap, processor.stores.Known block.hash) :
    (processor.stores.isDagAncestorOf finalityPoint parent &&
      !heap.any fun block => processor.stores.isDagAncestorOf parent block.hash) = true ↔
        processor.stores.InPast finalityPoint parent ∧
          ¬ ∃ block ∈ heap, processor.stores.InPast parent block.hash := by
  have hcovered : (heap.any fun block => processor.stores.isDagAncestorOf parent block.hash) =
      true ↔ ∃ block ∈ heap, processor.stores.InPast parent block.hash := by
    rw [any_eq_true]
    refine exists_congr fun block => and_congr_right fun hblock => ?_
    exact hdag.oracle parent block.hash hparent (hknown block hblock)
  rw [Bool.and_eq_true, Bool.not_eq_true', ← Bool.not_eq_true, hcovered]
  exact and_congr_left' (hdag.oracle _ _ hfinality hparent)

theorem pushParents_eq_ok (hdag : BlockDag processor tree)
    (hfinality : processor.stores.Known finalityPoint) {parents : List Hash}
    (hparents : ∀ parent ∈ parents, processor.stores.Known parent)
    (hheap : Heap processor.stores heap)
    (hknown : ∀ block ∈ heap, processor.stores.Known block.hash) :
    ∃ pushed, processor.pushParents finalityPoint heap parents = .ok pushed ∧
      Pushed processor.stores finalityPoint parents heap pushed ∧
      (HeapAntichain processor.stores heap →
        Dag.Antichain processor.stores.relations.lookup parents →
        (∀ block ∈ heap, ∀ parent ∈ parents, ¬ processor.stores.InPast block.hash parent) →
        HeapAntichain processor.stores pushed) := by
  induction parents generalizing heap with
  | nil =>
    refine ⟨heap, rfl, ⟨hheap, List.Subset.refl _, fun _ hblock => .inl hblock, ?_⟩, ?_⟩
    · intro _ hblock
      cases hblock
    · exact fun hantichain _ _ => hantichain
  | cons parent parents ih =>
    obtain ⟨hparent, hparents⟩ := forall_mem_cons.mp hparents
    have hpushes := pushes_iff hdag hfinality hparent hknown
    rw [VirtualProcessor.pushParents]
    split
    next hpush =>
      obtain ⟨habove, hfree⟩ := hpushes.mp hpush
      have hnew : processor.stores.blockKey parent ∉ heap := fun hmem =>
        hfree ⟨_, hmem, .refl parent⟩
      rw [sortable_eq_ok (hdag.data parent hparent)]
      obtain ⟨pushed, hpushed, hspec, hantichain⟩ := ih hparents (hheap.push hnew) (by
        intro block hblock
        rcases (mem_orderedInsert _).mp hblock with rfl | hold
        · exact hparent
        · exact hknown block hold)
      refine ⟨pushed, hpushed, hspec.push habove, ?_⟩
      -- the pushed parent is unrelated to the heap and to the other parents
      intro hheapAntichain hparentsAntichain hbelow
      obtain ⟨hunrelated, hrest⟩ := antichain_cons.mp hparentsAntichain
      refine hantichain (hheapAntichain.push hfree fun block hblock =>
        hbelow block hblock parent (.head _)) hrest ?_
      intro block hblock other hother
      rcases (mem_orderedInsert _).mp hblock with rfl | hold
      · exact (hunrelated other hother).1
      · exact hbelow block hold other (.tail _ hother)
    next hskip =>
      obtain ⟨pushed, hpushed, hspec, hantichain⟩ := ih hparents hheap hknown
      refine ⟨pushed, hpushed, hspec.skip fun hpast => ?_, ?_⟩
      · exact not_not.mp fun hfree => hskip (hpushes.mpr ⟨hpast, hfree⟩)
      · intro hheapAntichain hparentsAntichain hbelow
        exact hantichain hheapAntichain (antichain_cons.mp hparentsAntichain).2
          fun block hblock other hother => hbelow block hblock other (.tail _ hother)

/-! ## The search -/

/-- In the inclusive past of the tips. -/
def BelowTips (stores : Stores Hash) (tips : List Hash) (block : Hash) : Prop :=
  ∃ tip ∈ tips, stores.InPast block tip

/-- Between two rounds: every block above the finality point is rejected or covered by the
heap, which holds smaller blocks than the rejected ones. -/
structure Frontier (processor : VirtualProcessor Hash Digest) (tree : UtxoTree Hash)
    (tips : List Hash) (finalityPoint : Hash) (rejected : List Hash)
    (heap : List (SortableBlock Hash)) : Prop where
  ordered : Heap processor.stores heap
  scope : ∀ block ∈ heap, tree.Block block.hash ∧ BelowTips processor.stores tips block.hash
  covers : ∀ block, processor.stores.InPast finalityPoint block →
    BelowTips processor.stores tips block →
      block ∈ rejected ∨ ∃ above ∈ heap, processor.stores.InPast block above.hash
  smaller : ∀ block ∈ heap, ∀ old ∈ rejected, block < processor.stores.blockKey old
  failed : ∀ old ∈ rejected, processor.stores.Known old ∧ ¬ tree.SinkCandidate finalityPoint old
  nodup : rejected.Nodup

/-- The assumptions on which the candidates form an antichain. -/
structure AntichainParents (stores : Stores Hash) (tips : List Hash) : Prop where
  start : Dag.Antichain stores.relations.lookup tips
  parents : ∀ block list, stores.relations.lookup block = some list →
    Dag.Antichain stores.relations.lookup list

/-- The origin is below every block and above none. -/
theorem block_of_inPast (hdag : BlockDag processor tree) {start : Hash} (hstart : tree.Block start)
    (hpast : processor.stores.InPast start block) (hknown : processor.stores.Known block) :
    tree.Block block := by
  refine (hdag.block_iff block).mpr ⟨hknown, ?_⟩
  rintro rfl
  rcases inPast_iff.mp hpast with heq | hstrict
  · exact ((hdag.block_iff start).mp hstart).2 heq
  · obtain ⟨_, hparent, _⟩ := inStrictPast_iff.mp hstrict
    exact hdag.origin_parents _ hparent

/-- The tips are the first frontier. -/
theorem Frontier.initial (htips : ∀ tip ∈ tips, tree.Block tip) (hnodup : tips.Nodup) :
    Frontier processor tree tips finalityPoint []
      ((tips.map processor.stores.blockKey).insertionSort (· ≥ ·)) where
  ordered := by
    have hperm := perm_insertionSort (· ≥ ·) (tips.map processor.stores.blockKey)
    constructor
    · intro block hblock
      obtain ⟨tip, _, rfl⟩ := mem_map.mp (hperm.subset hblock)
      rfl
    · have hne := hperm.nodup_iff.mpr (hnodup.map processor.stores.blockKey_injective)
      exact (pairwise_insertionSort (· ≥ ·) _).imp₂
        (fun _ _ hle hne => lt_of_le_of_ne hle hne.symm) hne
  scope := by
    intro block hblock
    obtain ⟨tip, htip, rfl⟩ := mem_map.mp ((perm_insertionSort _ _).subset hblock)
    exact ⟨htips tip htip, tip, htip, .refl tip⟩
  covers := by
    rintro block _ ⟨tip, htip, hpast⟩
    refine .inr ⟨processor.stores.blockKey tip, ?_, hpast⟩
    exact (perm_insertionSort _ _).symm.subset (mem_map_of_mem htip)
  smaller := by simp
  failed := by simp
  nodup := nodup_nil

/-- A rejected block is replaced by its parents. -/
theorem Frontier.reject (hdag : BlockDag processor tree) (hfinality : tree.Block finalityPoint)
    {candidate : SortableBlock Hash} {pushed : List (SortableBlock Hash)}
    (hfrontier : Frontier processor tree tips finalityPoint rejected (candidate :: heap))
    (hcandidate : ¬ tree.SinkCandidate finalityPoint candidate.hash) {parents : List Hash}
    (hparents : processor.stores.relations.lookup candidate.hash = some parents)
    (hpushed : Pushed processor.stores finalityPoint parents heap pushed) :
    Frontier processor tree tips finalityPoint (candidate.hash :: rejected) pushed := by
  obtain ⟨hblock, tip, htip, hbelow⟩ := hfrontier.scope candidate (.head _)
  have hkey := hfrontier.ordered.keyed candidate (.head _)
  have hparentOf : ∀ parent ∈ parents, processor.stores.ParentOf parent candidate.hash :=
    fun parent hparent => ⟨parents, hparents, hparent⟩
  -- what is pushed is a parent above the finality point
  have hblocks : ∀ block ∈ pushed, block ∈ heap ∨
      tree.Block block.hash ∧ processor.stores.ParentOf block.hash candidate.hash := by
    intro block hpush
    refine (hpushed.added block hpush).imp_right fun ⟨hparent, hpast⟩ => ?_
    have hedge := hparentOf _ hparent
    exact ⟨hdag.block_of_inPast hfinality hpast (hdag.closed _ _ hedge), hedge⟩
  have hsmaller : ∀ block ∈ pushed, block < candidate := by
    intro block hpush
    rcases hblocks block hpush with hold | ⟨hnewBlock, hedge⟩
    · exact (pairwise_cons.mp hfrontier.ordered.sorted).1 block hold
    · rw [hpushed.ordered.keyed block hpush, hkey]
      exact hdag.key_lt ((hdag.block_iff _).mp hnewBlock).2 (.of_parentOf hedge)
  exact {
    ordered := hpushed.ordered
    scope := by
      intro block hpush
      rcases hblocks block hpush with hold | ⟨hnewBlock, hedge⟩
      · exact hfrontier.scope block (.tail _ hold)
      · exact ⟨hnewBlock, tip, htip, (Dag.InStrictPast.of_parentOf hedge).inPast.trans hbelow⟩
    covers := by
      intro block habove hscope
      rcases hfrontier.covers block habove hscope with hold | ⟨above, hmem, hpast⟩
      · exact .inl (.tail _ hold)
      · rcases mem_cons.mp hmem with rfl | hrest
        · rcases inPast_iff.mp hpast with rfl | hstrict
          · exact .inl (.head _)
          · obtain ⟨parent, ⟨list, hlist, hmem⟩, hpast⟩ := inStrictPast_iff.mp hstrict
            cases hparents.symm.trans hlist
            obtain ⟨cover, hcover, hparentPast⟩ := hpushed.covers parent hmem (habove.trans hpast)
            exact .inr ⟨cover, hcover, hpast.trans hparentPast⟩
        · exact .inr ⟨above, hpushed.kept hrest, hpast⟩
    smaller := by
      intro block hpush old hold
      rcases mem_cons.mp hold with rfl | hrest
      · rw [← hkey]
        exact hsmaller block hpush
      · exact (hsmaller block hpush).trans (hfrontier.smaller candidate mem_cons_self old hrest)
    failed := by
      intro old hold
      rcases mem_cons.mp hold with rfl | hrest
      · exact ⟨((hdag.block_iff _).mp hblock).1, hcandidate⟩
      · exact hfrontier.failed old hrest
    nodup := by
      refine nodup_cons.mpr ⟨fun hmem => ?_, hfrontier.nodup⟩
      have hlt := hfrontier.smaller candidate mem_cons_self _ hmem
      rw [← hkey] at hlt
      exact lt_irrefl candidate hlt }

/-- A candidate at the head of the heap is the greatest one. -/
theorem Frontier.greatest (hdag : BlockDag processor tree) (hfinality : tree.Block finalityPoint)
    {sink : SortableBlock Hash}
    (hfrontier : Frontier processor tree tips finalityPoint rejected (sink :: heap))
    (hbelow : BelowTips processor.stores tips block)
    (hcandidate : tree.SinkCandidate finalityPoint block) :
    processor.stores.blockKey block ≤ processor.stores.blockKey sink.hash := by
  have habove := hdag.inPast_of_chainAncestor hfinality hcandidate.1
  have hne : block ≠ tree.service.origin :=
    ((hdag.block_iff block).mp (hfinality.trans hcandidate.1)).2
  rcases hfrontier.covers block habove hbelow with hold | ⟨cover, hmem, hpast⟩
  · exact absurd hcandidate (hfrontier.failed block hold).2
  · have hle : cover ≤ sink := by
      rcases mem_cons.mp hmem with rfl | hrest
      · exact le_rfl
      · exact ((pairwise_cons.mp hfrontier.ordered.sorted).1 cover hrest).le
    rw [hfrontier.ordered.keyed cover hmem, hfrontier.ordered.keyed sink (.head _)] at hle
    rcases inPast_iff.mp hpast with rfl | hstrict
    · exact hle
    · exact (hdag.key_lt hne hstrict).le.trans hle

/-- There are at most as many rejected blocks as known ones. -/
theorem Frontier.length_le (hfrontier : Frontier processor tree tips finalityPoint rejected heap) :
    rejected.length ≤ processor.stores.relations.keys.length := by
  refine (hfrontier.nodup.subperm fun old hold => ?_).length_le
  exact AList.mem_keys.mp (AList.lookup_isSome.mp (hfrontier.failed old hold).1)

variable [DecidableEq Digest] {rank : Hash → Nat} {known : TransactionOutpoint → UtxoEntry → Prop}

/-- The loop ends with a candidate at the head of a frontier. -/
theorem searchSink_eq_ok (hlawful : tree.Lawful processor.toChainProcessor rank known)
    (hdag : BlockDag processor tree) (hfinality : tree.Replayable finalityPoint)
    (hbelow : BelowTips processor.stores tips finalityPoint) {fuel : Nat}
    (hfuel : ∀ x, tree.Block x → rank x < fuel) {rounds : Nat} {point : DiffPoint Hash}
    (hrounds : processor.stores.relations.keys.length < rejected.length + rounds)
    (hfrontier : Frontier processor tree tips finalityPoint rejected heap)
    (hpoint : tree.Resolved known processor.utxoSet point)
    (hantichain : AntichainParents processor.stores tips → HeapAntichain processor.stores heap) :
    ∃ sink candidates next rejected' rest,
      processor.searchSink fuel finalityPoint rounds point heap =
        .ok (sink.hash, candidates, next) ∧
      Frontier processor tree tips finalityPoint rejected' (sink :: rest) ∧
      tree.SinkCandidate finalityPoint sink.hash ∧
      tree.Resolved known processor.utxoSet next ∧ next.diffPoint = sink.hash ∧
      candidates.Sublist (rest.map hash) ∧
      (AntichainParents processor.stores tips →
        HeapAntichain processor.stores (sink :: rest)) := by
  have hfinalityBlock : tree.Block finalityPoint := hfinality.choose_spec.block
  induction rounds generalizing rejected heap point with
  | zero => exact absurd hfrontier.length_le (by omega)
  | succ rounds ih =>
    cases heap with
    | nil =>
      -- the finality point is a candidate
      rcases hfrontier.covers finalityPoint (.refl _) hbelow with hold | ⟨_, hmem, _⟩
      · refine absurd ?_ (hfrontier.failed finalityPoint hold).2
        rw [UtxoTree.sinkCandidate_iff hlawful hfinality]
        exact ⟨.refl _, hfinality⟩
      · cases hmem
    | cons candidate heap =>
      obtain ⟨hblock, _⟩ := hfrontier.scope candidate (.head _)
      obtain ⟨hknown, _⟩ := (hdag.block_iff _).mp hblock
      obtain ⟨next, valid, htry, hnext, hvalid, hdiffPoint⟩ :=
        UtxoTree.tryCandidate_eq_ok hlawful hfuel hpoint hfinality hblock
      rw [VirtualProcessor.searchSink, htry, ok_bind]
      dsimp only
      split
      next haccepted =>
        obtain ⟨root, hroot⟩ := Option.isSome_iff_exists.mp (hdag.mergeDepthRoot _ hblock)
        rw [VirtualProcessor.virtualParentCandidates, hroot]
        exact ⟨candidate, _, next, rejected, heap, rfl, hfrontier, hvalid.mp haccepted, hnext,
          hdiffPoint haccepted, (takeWhile_sublist _).map _, hantichain⟩
      next hrejected =>
        have hnot : ¬ tree.SinkCandidate finalityPoint candidate.hash :=
          fun hcandidate => hrejected (hvalid.mpr hcandidate)
        obtain ⟨parents, hparents⟩ := Option.isSome_iff_exists.mp hknown
        have hparentsKnown : ∀ parent ∈ parents, processor.stores.Known parent :=
          fun parent hparent => hdag.closed _ _ ⟨parents, hparents, hparent⟩
        have hheap : Heap processor.stores heap :=
          ⟨(forall_mem_cons.mp hfrontier.ordered.keyed).2,
            (pairwise_cons.mp hfrontier.ordered.sorted).2⟩
        have hheapKnown : ∀ block ∈ heap, processor.stores.Known block.hash :=
          fun block hmem => ((hdag.block_iff _).mp
            (hfrontier.scope block (.tail _ hmem)).1).1
        obtain ⟨pushed, hpushed, hspec, hpushedAntichain⟩ := pushParents_eq_ok hdag
          ((hdag.block_iff _).mp hfinalityBlock).1 hparentsKnown hheap hheapKnown
        rw [hparents, unwrap, ok_bind, hpushed]
        have hlength : processor.stores.relations.keys.length <
            (candidate.hash :: rejected).length + rounds := by
          rw [length_cons]
          omega
        refine ih hlength (hfrontier.reject hdag hfinalityBlock hnot hparents hspec) hnext
          fun hparentsAntichain => ?_
        -- a heap block below a parent would be below the rejected block
        obtain ⟨hunrelated, hrest⟩ := antichain_cons.mp (hantichain hparentsAntichain)
        apply hpushedAntichain hrest (hparentsAntichain.parents _ _ hparents)
        intro block hmem parent hparent hpast
        refine (hunrelated block.hash (mem_map_of_mem hmem)).2 (hpast.trans ?_)
        exact (Dag.InStrictPast.of_parentOf ⟨parents, hparents, hparent⟩).inPast

/-- The search ends with the greatest block of the past of the tips that has a valid chain
through the finality point, and with its exact diff. The further candidates come in
descending order. Where the tips, and the parents of every block, are antichains, so are the
candidates with the sink. -/
theorem sinkSearchAlgorithm_greatest (hlawful : tree.Lawful processor.toChainProcessor rank known)
    (hdag : BlockDag processor tree) {fuel : Nat} (hfuel : ∀ x, tree.Block x → rank x < fuel)
    {point : DiffPoint Hash} (hpoint : tree.Resolved known processor.utxoSet point)
    (htips : ∀ tip ∈ tips, tree.Block tip) (hnodup : tips.Nodup)
    (hfinality : tree.Replayable finalityPoint)
    (hbelow : BelowTips processor.stores tips finalityPoint) :
    ∃ sink candidates next,
      processor.sinkSearchAlgorithm fuel point tips finalityPoint = .ok (sink, candidates, next) ∧
      (BelowTips processor.stores tips sink ∧ tree.SinkCandidate finalityPoint sink ∧
        ∀ block, BelowTips processor.stores tips block → tree.SinkCandidate finalityPoint block →
          processor.stores.blockKey block ≤ processor.stores.blockKey sink) ∧
      tree.Exact known processor.utxoSet next.diff sink ∧
      candidates.Pairwise
        (fun left right => processor.stores.blockKey left > processor.stores.blockKey right) ∧
      (AntichainParents processor.stores tips →
        Dag.Antichain processor.stores.relations.lookup (sink :: candidates)) := by
  have hdata : ∀ tip ∈ tips, (processor.stores.ghostdag.lookup tip).isSome :=
    fun tip htip => hdag.data tip ((hdag.block_iff tip).mp (htips tip htip)).1
  have hrounds : processor.stores.relations.keys.length <
      ([] : List Hash).length + (processor.stores.relations.keys.length + 1) := by
    omega
  have hperm := (List.perm_insertionSort (· ≥ ·)
    (tips.map processor.stores.blockKey)).map SortableBlock.hash
  rw [Stores.map_hash_blockKey] at hperm
  obtain ⟨sink, candidates, next, rejected, rest, hsearch, hfrontier, hcandidate, hnext,
    hdiffPoint, hsublist, hantichain⟩ := searchSink_eq_ok hlawful hdag hfinality hbelow hfuel
      hrounds (Frontier.initial htips hnodup) hpoint fun hparents => hparents.start.perm hperm.symm
  obtain ⟨_, hsink⟩ := hfrontier.scope sink (.head _)
  refine ⟨sink.hash, candidates, next, ?_, ⟨hsink, hcandidate, ?_⟩, hdiffPoint ▸ hnext.diff, ?_, ?_⟩
  · rw [VirtualProcessor.sinkSearchAlgorithm, Stores.mapM_sortable_eq_ok hdata]
    exact hsearch
  · intro block hblock hother
    exact hfrontier.greatest hdag hfinality.choose_spec.block hblock hother
  · have hsorted : (rest.map SortableBlock.hash).Pairwise
        (fun left right => processor.stores.blockKey left > processor.stores.blockKey right) := by
      rw [List.pairwise_map]
      refine (List.pairwise_cons.mp hfrontier.ordered.sorted).2.imp_of_mem ?_
      intro left right hleft hright hgt
      rwa [hfrontier.ordered.keyed left (.tail _ hleft),
        hfrontier.ordered.keyed right (.tail _ hright)] at hgt
    exact hsorted.sublist hsublist
  · intro hparents
    exact (hantichain hparents).sublist (hsublist.cons_cons _)

end BlockDag

/-! ## Merging the two blocks of a fork

Block 4 has the invalid block 3 as its selected parent and may merge the valid block 2. -/

def mergeProcessor (parents : List Nat) : VirtualProcessor Nat (List TransactionOutput) where
  toChainProcessor := forkProcessor parents
  mergeDepthRoot := fun _ => some 0

variable {numerator : MuHash.U3072}

/-- The parents of every block. -/
theorem lookup_mergeRelations {parents list : List Nat} {x : Nat}
    (hlookup : (mergeProcessor parents).stores.relations.lookup x = some list) :
    x = 4 ∧ list = parents ∨ (x = 3 ∨ x = 2) ∧ list = [1] ∨ x = 1 ∧ list = [0] ∨
      x = 0 ∧ list = [] := by
  simp only [mergeProcessor, forkProcessor, commitSample, commit, sampleSecond, sampleFirst,
    sampleGenesis, withSearch, GhostdagManager.initialStores,
    HashMap.lookup_insert_eq_ite] at hlookup
  split_ifs at hlookup with hfour hthree htwo hone hzero <;> cases hlookup
  · exact .inl ⟨hfour, rfl⟩
  · exact .inr (.inl ⟨.inl hthree, rfl⟩)
  · exact .inr (.inl ⟨.inr htwo, rfl⟩)
  · exact .inr (.inr (.inl ⟨hone, rfl⟩))
  · exact .inr (.inr (.inr ⟨hzero, rfl⟩))

theorem merge_dag {parents : List Nat} (hthree : 3 ∈ parents)
    (hparents : ∀ parent ∈ parents, 1 ≤ parent ∧ parent ≤ 3) (numerator : MuHash.U3072) :
    BlockDag (mergeProcessor parents) (forkTree numerator) := by
  have hedge : ∀ x y, (mergeProcessor parents).stores.ParentOf x y →
      y = 4 ∧ 1 ≤ x ∧ x ≤ 3 ∨ (y = 3 ∨ y = 2) ∧ x = 1 ∨ y = 1 ∧ x = 0 := by
    rintro x y ⟨list, hlookup, hmem⟩
    rcases lookup_mergeRelations hlookup with ⟨rfl, rfl⟩ | ⟨hy, rfl⟩ | ⟨rfl, rfl⟩ | ⟨rfl, rfl⟩
    · exact .inl ⟨rfl, hparents x hmem⟩
    · exact .inr (.inl ⟨hy, mem_singleton.mp hmem⟩)
    · exact .inr (.inr ⟨rfl, mem_singleton.mp hmem⟩)
    · cases hmem
  have hknown : ∀ x, (mergeProcessor parents).stores.Known x ↔ x ≤ 4 := by
    intro x
    constructor
    · intro hx
      obtain ⟨list, hlookup⟩ := Option.isSome_iff_exists.mp hx
      have hcases := lookup_mergeRelations hlookup
      omega
    · intro hx
      interval_cases x <;> rfl
  have hclosed : Dag.Closed (mergeProcessor parents).stores.relations.lookup := by
    intro x y hparent
    apply (hknown x).mpr
    have hcases := hedge x y hparent
    omega
  exact {
    closed := hclosed
    oracle := oracleCorrect_searchService hclosed rfl
    data := by
      intro x hx
      have hx := (hknown x).mp hx
      interval_cases x <;> rfl
    origin_parents := by
      intro x hparent
      have hcases := hedge x 0 hparent
      omega
    work_lt := by
      intro x y hparent hx
      obtain ⟨hwork1, hwork2, hwork3, hwork4⟩ : (mergeProcessor parents).stores.workOf 1 = 0 ∧
          (mergeProcessor parents).stores.workOf 2 = 2 ∧
          (mergeProcessor parents).stores.workOf 3 = 2 ∧
          (mergeProcessor parents).stores.workOf 4 = 6 := ⟨rfl, rfl, rfl, rfl⟩
      rcases hedge x y hparent with ⟨rfl, hone, hle⟩ | ⟨rfl | rfl, rfl⟩ | ⟨rfl, rfl⟩
      · interval_cases x <;> omega
      · omega
      · omega
      · exact absurd rfl hx
    block_iff := by
      intro x
      rw [hknown]
      refine fork_block_iff.trans ?_
      change _ ↔ _ ∧ x ≠ 0
      omega
    chainParent := by
      intro x parent _ hparent
      rcases ReachabilityService.fork_parent hparent with ⟨rfl, rfl⟩ | ⟨rfl | rfl, rfl⟩ | ⟨rfl, rfl⟩
      · exact ⟨[0], rfl, mem_singleton_self 0⟩
      · exact ⟨[1], rfl, mem_singleton_self 1⟩
      · exact ⟨[1], rfl, mem_singleton_self 1⟩
      · exact ⟨parents, rfl, hthree⟩
    mergeDepthRoot := fun _ _ => rfl }

/-- Block 2 is the previous sink. -/
def mergePoint (numerator : MuHash.U3072) : DiffPoint Nat :=
  ⟨forkStores .disqualifiedFromChain numerator, .default, 2⟩

theorem fork_resolved {multiset : MuHash} (hcombine : MuHash.new.combine .new = .ok multiset)
    (hserialize : multiset.serialize = .ok (numerator.toLeBytes, ⟨numerator, .one⟩))
    (status : BlockStatus) :
    (forkTree numerator).Resolved (fun _ _ => False) (fun _ => none)
      ⟨forkStores status numerator, .default, 2⟩ :=
  ⟨fork_consistent status numerator, fork_exact hcombine hserialize, rfl⟩

/-- To block 4, which fails with block 3, and back to block 2. -/
theorem UtxoTree.visit_replays_merge : ∃ numerator next,
    (forkTree numerator).Lawful (mergeProcessor [2, 3]).toChainProcessor id (fun _ _ => False) ∧
    (mergeProcessor [2, 3]).visit 5 ⟨forkStores .utxoPendingVerification numerator, .default, 2⟩
        [4, 3, 2] = .ok next ∧
      next.diffPoint = 2 := by
  obtain ⟨multiset, numerator, hcombine, hserialize⟩ := exists_supplyMultiset
  have hlawful : (forkTree numerator).Lawful (mergeProcessor [2, 3]).toChainProcessor id _ :=
    fork_lawful hcombine hserialize [2, 3]
  have htargets : ∀ target ∈ [4, 3], (forkTree numerator).Block target := by
    intro target htarget
    refine fork_block_iff.mpr ?_
    rcases mem_pair.mp htarget with rfl | rfl <;> decide
  have hview : (forkTree numerator).Replay 2 _ := .child .genesis rfl rfl
  obtain ⟨next, hnext, hend, _⟩ := UtxoTree.visit_replays hlawful
    (fun x hx => Nat.lt_succ_of_le (fork_block_iff.mp hx).2)
    (fork_resolved hcombine hserialize .utxoPendingVerification) htargets hview
  exact ⟨numerator, next, hlawful, hnext, hend⟩

theorem merge_antichainParents (numerator : MuHash.U3072)
    (hdag : BlockDag (mergeProcessor [2, 3]) (forkTree numerator)) :
    BlockDag.AntichainParents (mergeProcessor [2, 3]).stores [4] where
  start := pairwise_singleton _ _
  parents := by
    intro block list hlookup
    rcases lookup_mergeRelations hlookup with ⟨_, rfl⟩ | ⟨_, rfl⟩ | ⟨_, rfl⟩ | ⟨_, rfl⟩
    · have hsiblings : Dag.Unrelated (mergeProcessor [2, 3]).stores.relations.lookup 2 3 := by
        rw [Dag.Unrelated, ← hdag.oracle 2 3 rfl rfl, ← hdag.oracle 3 2 rfl rfl]
        exact ⟨Bool.false_ne_true, Bool.false_ne_true⟩
      exact pairwise_pair.mpr hsiblings
    · exact pairwise_singleton _ _
    · exact pairwise_singleton _ _
    · exact List.Pairwise.nil

/-- If block 4 has the parents 2 and 3, the search leads from it to block 2. -/
theorem BlockDag.sinkSearchAlgorithm_merge : ∃ numerator candidates next,
    BlockDag (mergeProcessor [2, 3]) (forkTree numerator) ∧
    (mergeProcessor [2, 3]).sinkSearchAlgorithm 5 (mergePoint numerator) [4] 1 =
      .ok (2, candidates, next) ∧
    (forkTree numerator).SinkCandidate 1 2 ∧
    Dag.Antichain (mergeProcessor [2, 3]).stores.relations.lookup (2 :: candidates) := by
  obtain ⟨multiset, numerator, hcombine, hserialize⟩ := exists_supplyMultiset
  have hdag := merge_dag (show 3 ∈ [2, 3] by decide) (by decide) numerator
  have hfuel : ∀ x, (forkTree numerator).Block x → id x < 5 :=
    fun x hx => Nat.lt_succ_of_le (fork_block_iff.mp hx).2
  have htips : ∀ tip ∈ [4], (forkTree numerator).Block tip := by
    intro tip htip
    exact fork_block_iff.mpr (by simp_all)
  have hbelow : BlockDag.BelowTips (mergeProcessor [2, 3]).stores [4] 1 :=
    ⟨4, List.mem_singleton_self 4, (hdag.oracle 1 4 rfl rfl).mp rfl⟩
  obtain ⟨sink, candidates, next, hsearch, ⟨_, hcandidate, _⟩, _, _, hantichain⟩ :=
    BlockDag.sinkSearchAlgorithm_greatest (fork_lawful hcombine hserialize [2, 3]) hdag hfuel
      (fork_resolved hcombine hserialize _) htips (List.nodup_singleton 4) ⟨_, .genesis⟩ hbelow
  -- the run itself, on any multiset
  have hrun : (mergeProcessor [2, 3]).sinkSearchAlgorithm 5 (mergePoint numerator) [4] 1 =
      .ok (2, [], mergePoint numerator) := rfl
  obtain ⟨rfl, _⟩ := Prod.mk.inj (Except.ok.inj (hsearch.symm.trans hrun))
  exact ⟨numerator, candidates, next, hdag, hsearch, hcandidate,
    hantichain (merge_antichainParents numerator hdag)⟩

/-- If genesis is a parent of block 4 next to its children 2 and 3, it stays in the heap:
the sink is block 2 and its ancestor is a candidate for a virtual parent. -/
theorem BlockDag.sinkSearchAlgorithm_ancestor : ∃ numerator next,
    (forkTree numerator).Lawful (mergeProcessor [1, 2, 3]).toChainProcessor id
      (fun _ _ => False) ∧
    BlockDag (mergeProcessor [1, 2, 3]) (forkTree numerator) ∧
    (forkTree numerator).Resolved (fun _ _ => False) (mergeProcessor [1, 2, 3]).utxoSet
      (mergePoint numerator) ∧
    (forkTree numerator).Block 4 ∧ (forkTree numerator).Replayable 1 ∧
    BlockDag.BelowTips (mergeProcessor [1, 2, 3]).stores [4] 1 ∧
    (mergeProcessor [1, 2, 3]).sinkSearchAlgorithm 5 (mergePoint numerator) [4] 1 =
      .ok (2, [1], next) ∧
    (mergeProcessor [1, 2, 3]).stores.InPast 1 2 := by
  obtain ⟨multiset, numerator, hcombine, hserialize⟩ := exists_supplyMultiset
  have hdag := merge_dag (show 3 ∈ [1, 2, 3] by decide) (by decide) numerator
  exact ⟨numerator, mergePoint numerator, fork_lawful hcombine hserialize _, hdag,
    fork_resolved hcombine hserialize _, fork_block_iff.mpr (by decide), ⟨_, .genesis⟩,
    ⟨4, List.mem_singleton_self 4, (hdag.oracle 1 4 rfl rfl).mp rfl⟩, rfl,
    (hdag.oracle 1 2 rfl rfl).mp rfl⟩

end Qaspa.Virtual
