import Qaspa.Ghostdag.Iteration
import Qaspa.Window.Manager

/-! # Windows do not depend on the caches

Without caches, the window of a block holds the greatest sampled blocks along its
chain. A cached window of a chain block holds the greatest samples below that block,
so merging it in gives the same heap as walking on. The early exits leave out blocks
that the heap would reject.
-/

namespace Qaspa.Window

open Ghostdag Greatest Outcome List SampledWindowManager Except Stores

variable {Hash : Type} [LinearOrder Hash] {manager : SampledWindowManager Hash}
  {stores : Stores Hash} {daaScore : Hash → Nat} {data : GhostdagData Hash}

/-! ## Samples along the chain -/

/-- The sampled blocks in a list of outcomes. -/
def samplesOf (samples : List (SampledBlock Hash)) : List (SortableBlock Hash) :=
  samples.filterMap fun
    | .sampled block => some block
    | .nonDaa _ => none

/-- The hashes that an inserter is called with. -/
def nonDaaOf (samples : List (SampledBlock Hash)) : List Hash :=
  samples.filterMap fun
    | .sampled _ => none
    | .nonDaa hash => some hash

inductive ChainEnd where
  | genesis
  | origin

/-- The sampled blocks of the mergesets along the chain of a block, down to the chain
block above the genesis block or the origin. -/
inductive ChainSamples (manager : SampledWindowManager Hash) (stores : Stores Hash)
    (daaScore : Hash → Nat) (sampleRate : Nat) :
    GhostdagData Hash → List (SortableBlock Hash) → ChainEnd → Prop
  | genesis {data : GhostdagData Hash} (hparent : data.selectedParent = manager.genesisHash) :
      ChainSamples manager stores daaScore sampleRate data [] .genesis
  | origin {data : GhostdagData Hash} (hparent : data.selectedParent = manager.origin) :
      ChainSamples manager stores daaScore sampleRate data [] .origin
  | step {data next : GhostdagData Hash} {samples : List (SampledBlock Hash)}
      {rest : List (SortableBlock Hash)} {chainEnd : ChainEnd}
      (hgenesis : data.selectedParent ≠ manager.genesisHash)
      (horigin : data.selectedParent ≠ manager.origin)
      (hnext : stores.ghostdag.lookup data.selectedParent = some next)
      (hsamples : manager.sampledMergesetIterator stores daaScore sampleRate data next.blueWork =
        .ok samples)
      (hrest : ChainSamples manager stores daaScore sampleRate next rest chainEnd) :
      ChainSamples manager stores daaScore sampleRate data (samplesOf samples ++ rest) chainEnd

/-- The window of the given samples. A chain that ends at the origin must have filled
the window. -/
def expectedWindow (windowSize : Nat) (samples : List (SortableBlock Hash)) :
    ChainEnd → Except RuleError (BlockWindowHeap Hash)
  | .genesis => .ok (.ofGreatest windowSize samples)
  | .origin =>
    if windowSize ≤ samples.length then .ok (.ofGreatest windowSize samples)
    else .error (.insufficientDaaWindowSize samples.length)

/-! ## The order along the chain -/

/-- What windows rely on: the mergeset of a chain block is listed in descending order
below its selected parent, which is below the block itself. -/
structure WindowBlock (stores : Stores Hash) (block : Hash) (data : GhostdagData Hash) : Prop where
  selectedParent_known : (stores.ghostdag.lookup data.selectedParent).isSome
  descending : ∃ list, data.descendingMergesetWithoutSelectedParent stores = .ok list ∧
    list.Pairwise (· > ·) ∧ ∀ merged ∈ list, merged < stores.blockKey data.selectedParent ∧
      (stores.ghostdag.lookup merged.hash).isSome
  key_lt : stores.blockKey data.selectedParent < stores.blockKey block
  score_lt : stores.scoreOf data.selectedParent < stores.scoreOf block

/-- A DAG in which every block either starts a chain at the genesis block or the origin
or is above a stored selected parent. -/
def WindowDag (manager : SampledWindowManager Hash) (stores : Stores Hash) : Prop :=
  ∀ block data, block ≠ manager.origin → block ≠ manager.genesisHash →
    stores.ghostdag.lookup block = some data → data.selectedParent ≠ manager.origin →
      WindowBlock stores block data

theorem sampleBlocks_eq_ok (sampleRate start threshold index : Nat)
    {blocks : List (SortableBlock Hash)}
    (hknown : ∀ block ∈ blocks, (stores.ghostdag.lookup block.hash).isSome) :
    ∃ samples, sampleBlocks stores sampleRate start threshold index blocks =
      .ok samples ∧ (samplesOf samples).Sublist blocks := by
  induction blocks generalizing index with
  | nil => exact ⟨[], rfl, List.Sublist.refl _⟩
  | cons block rest ih =>
    obtain ⟨hblock, hrest⟩ := forall_mem_cons.mp hknown
    rw [sampleBlocks, getBlueScore_eq_ok hblock, ok_bind]
    by_cases hscore : stores.scoreOf block.hash < threshold
    · obtain ⟨samples, hsamples, hsublist⟩ := ih index hrest
      refine ⟨.nonDaa block.hash :: samples, ?_, hsublist.cons block⟩
      rw [if_pos hscore, hsamples]
      rfl
    · obtain ⟨samples, hsamples, hsublist⟩ := ih (index + 1) hrest
      rw [if_neg hscore, hsamples]
      by_cases hsampled : (start + (index + 1)) % sampleRate = 0
      · refine ⟨.sampled block :: samples, if_pos hsampled, ?_⟩
        exact hsublist.cons_cons block
      · exact ⟨samples, if_neg hsampled, hsublist.cons block⟩

variable {block : Hash}

/-- The samples of a chain block are listed in descending order, at or below its
selected parent. -/
theorem WindowBlock.samples (hblock : WindowBlock stores block data)
    (manager : SampledWindowManager Hash) (daaScore : Hash → Nat) (sampleRate : Nat) :
    ∃ samples, manager.sampledMergesetIterator stores daaScore sampleRate data
        (stores.workOf data.selectedParent) = .ok samples ∧
      (samplesOf samples).Pairwise (· > ·) ∧
      ∀ sample ∈ samplesOf samples, sample ≤ stores.blockKey data.selectedParent := by
  obtain ⟨list, hlist, hsorted, hmerged⟩ := hblock.descending
  have hknown : ∀ merged ∈ stores.blockKey data.selectedParent :: list,
      (stores.ghostdag.lookup merged.hash).isSome :=
    forall_mem_cons.mpr ⟨hblock.selectedParent_known, fun merged hmem => (hmerged merged hmem).2⟩
  obtain ⟨samples, hsamples, hsublist⟩ := sampleBlocks_eq_ok sampleRate
    (daaScore data.selectedParent) (manager.lowestDaaBlueScore data) 0 hknown
  refine ⟨samples, ?_, ?_, fun sample hsample => ?_⟩
  · rw [sampledMergesetIterator, hlist]
    exact hsamples
  · apply List.Pairwise.sublist hsublist
    exact pairwise_cons.mpr ⟨fun merged hmem => (hmerged merged hmem).1, hsorted⟩
  · rcases mem_cons.mp (hsublist.subset hsample) with rfl | hmem
    · exact le_rfl
    · exact (hmerged sample hmem).1.le

theorem workOf_eq (hdata : stores.ghostdag.lookup block = some data) :
    stores.workOf block = data.blueWork := by
  rw [workOf, hdata]
  rfl

variable {next : GhostdagData Hash}

theorem WindowBlock.samples_sorted {sampleRate : Nat} {samples : List (SampledBlock Hash)}
    (hblock : WindowBlock stores block data)
    (hnext : stores.ghostdag.lookup data.selectedParent = some next)
    (hsamples : manager.sampledMergesetIterator stores daaScore sampleRate data next.blueWork =
      .ok samples) :
    (samplesOf samples).Pairwise (· > ·) ∧
      ∀ sample ∈ samplesOf samples, sample ≤ stores.blockKey data.selectedParent := by
  obtain ⟨found, hfound, hsorted⟩ := hblock.samples manager daaScore sampleRate
  rw [workOf_eq hnext] at hfound
  cases hsamples.symm.trans hfound
  exact hsorted

/-! ## Pushing samples -/

section Push

variable {windowSize : Nat} {pushed : List (SortableBlock Hash)}

/-- Pushing all samples adds them to what the heap has been offered. -/
theorem pushAll_eq (hsize : 0 < windowSize) (samples : List (SampledBlock Hash))
    (heap : LazyHeap Hash) (hheap : heap.intoValue = holding windowSize pushed)
    (inserted : List Hash) :
    (pushAll samples heap inserted).1.intoValue = holding windowSize (pushed ++ samplesOf samples) ∧
      (pushAll samples heap inserted).2 = inserted ++ nonDaaOf samples := by
  induction samples generalizing heap pushed inserted with
  | nil => simpa [pushAll, samplesOf, nonDaaOf] using hheap
  | cons sample rest ih =>
    cases sample with
    | sampled block =>
      have hforced : heap.value.getD heap.source = holding windowSize pushed := by
        rw [← hheap, LazyHeap.intoValue]
        cases heap.value <;> rfl
      have hpushed : (heap.tryPush block).intoValue = holding windowSize (pushed ++ [block]) := by
        rw [LazyHeap.tryPush, hforced]
        exact (tryPush_holding hsize pushed block).1
      obtain ⟨hfinal, hinserted⟩ := ih (heap.tryPush block) hpushed inserted
      rw [append_assoc] at hfinal
      exact ⟨hfinal, hinserted⟩
    | nonDaa hash =>
      obtain ⟨hfinal, hinserted⟩ := ih heap hheap (inserted ++ [hash])
      rw [append_assoc] at hinserted
      exact ⟨hfinal, hinserted⟩

/-- Samples in descending order can be dropped after the first rejection. -/
theorem pushUntilRejected_eq (hsize : 0 < windowSize) {samples : List (SampledBlock Hash)}
    (hsorted : (samplesOf samples).Pairwise (· > ·)) :
    pushUntilRejected samples (holding windowSize pushed) =
      holding windowSize (pushed ++ samplesOf samples) := by
  induction samples generalizing pushed with
  | nil => simp [pushUntilRejected, samplesOf]
  | cons sample rest ih =>
    cases sample with
    | sampled block =>
      obtain ⟨hbelow, hrest⟩ := pairwise_cons.mp hsorted
      obtain ⟨hpushed, hrejected⟩ := tryPush_holding hsize pushed block
      rw [pushUntilRejected, hpushed]
      split
      · rw [ih hrest, append_assoc]
        rfl
      next haccepted =>
        have hrejects := hrejected.mp (Bool.eq_false_of_not_eq_true haccepted)
        calc holding windowSize (pushed ++ [block])
            = holding windowSize pushed := holding_append_of_rejects hrejects
                fun other hother => (mem_singleton.mp hother).le
          _ = holding windowSize (pushed ++ block :: samplesOf rest) :=
              (holding_append_of_rejects hrejects (forall_mem_cons.mpr
                ⟨le_rfl, fun other hother => (hbelow other hother).le⟩)).symm
    | nonDaa hash => exact ih hsorted

end Push

/-! ## The walk -/

/-- A cached window is the one that is expected for its block. -/
def CacheExact (manager : SampledWindowManager Hash) (stores : Stores Hash) (daaScore : Hash → Nat)
    (windowSize sampleRate : Nat) (cache : Hash → Option (BlockWindowHeap Hash)) : Prop :=
  ∀ block window, block ≠ manager.genesisHash → cache block = some window →
    ∀ data samples chainEnd, stores.ghostdag.lookup block = some data →
      ChainSamples manager stores daaScore sampleRate data samples chainEnd →
        expectedWindow windowSize samples chainEnd = .ok window

section Walk

variable {windowSize sampleRate : Nat} {samples : List (SortableBlock Hash)} {chainEnd : ChainEnd}

/-- An expected window holds the greatest samples. -/
theorem expectedWindow_eq_ok {window : BlockWindowHeap Hash}
    (hwindow : expectedWindow windowSize samples chainEnd = .ok window) :
    window = .ofGreatest windowSize samples := by
  cases chainEnd with
  | genesis => exact (ok.inj hwindow).symm
  | origin =>
    rw [expectedWindow] at hwindow
    split at hwindow
    · exact (ok.inj hwindow).symm
    · cases hwindow

theorem expectedWindow_of_full (hfull : windowSize ≤ samples.length) (chainEnd : ChainEnd) :
    expectedWindow windowSize samples chainEnd = .ok (.ofGreatest windowSize samples) := by
  cases chainEnd with
  | genesis => rfl
  | origin => exact if_pos hfull

/-- More samples above a chain keep its window from failing. -/
theorem expectedWindow_append {above : List (SortableBlock Hash)} {window : BlockWindowHeap Hash}
    (hwindow : expectedWindow windowSize samples chainEnd = .ok window) :
    expectedWindow windowSize (above ++ samples) chainEnd =
      .ok (.ofGreatest windowSize (above ++ samples)) := by
  cases chainEnd with
  | genesis => rfl
  | origin =>
    rw [expectedWindow] at hwindow
    split at hwindow
    next hfull =>
      apply expectedWindow_of_full
      rw [length_append]
      omega
    · cases hwindow

variable {block : Hash} (hdag : WindowDag manager stores) (horigin : block ≠ manager.origin)
  (hgenesis : block ≠ manager.genesisHash) (hdata : stores.ghostdag.lookup block = some data)

include hdag horigin hgenesis hdata

/-- All samples of a chain are below the block that the chain starts from. -/
theorem ChainSamples.lt
    (hchain : ChainSamples manager stores daaScore sampleRate data samples chainEnd) :
    ∀ sample ∈ samples, sample < stores.blockKey block := by
  induction hchain generalizing block with
  | genesis _ => simp
  | origin _ => simp
  | @step data next samples rest chainEnd hgenesis' horigin' hnext hsamples _ ih =>
    have hblock := hdag block data horigin hgenesis hdata horigin'
    obtain ⟨_, hle⟩ := hblock.samples_sorted hnext hsamples
    intro sample hsample
    rcases mem_append.mp hsample with hmem | hmem
    · exact (hle sample hmem).trans_lt hblock.key_lt
    · exact (ih horigin' hgenesis' hnext sample hmem).trans hblock.key_lt

/-- Every stored block has a chain with samples. -/
theorem exists_chainSamples (daaScore : Hash → Nat) (sampleRate : Nat) :
    ∃ samples chainEnd, ChainSamples manager stores daaScore sampleRate data samples chainEnd := by
  -- along the chain the score drops
  induction hscore : stores.scoreOf block using Nat.strong_induction_on generalizing block data with
  | _ score ih =>
    by_cases horigin' : data.selectedParent = manager.origin
    · exact ⟨[], .origin, .origin horigin'⟩
    by_cases hgenesis' : data.selectedParent = manager.genesisHash
    · exact ⟨[], .genesis, .genesis hgenesis'⟩
    have hblock := hdag block data horigin hgenesis hdata horigin'
    obtain ⟨next, hnext⟩ := Option.isSome_iff_exists.mp hblock.selectedParent_known
    obtain ⟨samples, hsamples, _⟩ := hblock.samples manager daaScore sampleRate
    rw [workOf_eq hnext] at hsamples
    obtain ⟨rest, chainEnd, hrest⟩ := ih _ (hscore ▸ hblock.score_lt) horigin' hgenesis' hnext rfl
    exact ⟨_, chainEnd, .step hgenesis' horigin' hnext hsamples hrest⟩

/-- The walk returns the expected window, whatever the cache holds. -/
theorem walk_eq (hsize : 0 < windowSize) {cache : Hash → Option (BlockWindowHeap Hash)}
    (hcache : CacheExact manager stores daaScore windowSize sampleRate cache)
    (hchain : ChainSamples manager stores daaScore sampleRate data samples chainEnd) {fuel : Nat}
    (hfuel : stores.scoreOf block + 1 ≤ fuel) (pushed : List (SortableBlock Hash)) :
    manager.walk stores daaScore sampleRate cache fuel (holding windowSize pushed) data =
      .ok (expectedWindow windowSize (pushed ++ samples) chainEnd) := by
  obtain ⟨fuel, rfl⟩ : ∃ rest, fuel = rest + 1 := ⟨fuel - 1, by omega⟩
  induction hchain generalizing fuel block pushed with
  | @genesis data hparent =>
    have hne : data.selectedParent ≠ manager.origin := hparent ▸ manager.genesis_ne_origin
    rw [walk, if_neg hne, if_pos hparent, append_nil]
    rfl
  | @origin data hparent =>
    rw [walk, if_pos hparent, append_nil, expectedWindow]
    by_cases hfull : windowSize ≤ pushed.length
    · rw [if_pos (reachedSizeBound_holding.mpr hfull), if_pos hfull]
      rfl
    · rw [if_neg (fun hreached => hfull (reachedSizeBound_holding.mp hreached)), if_neg hfull,
        len_holding, min_eq_right (Nat.le_of_not_le hfull)]
  | @step data next found rest chainEnd hgenesis' horigin' hnext hsamples hrest ih =>
    have hblock := hdag block data horigin hgenesis hdata horigin'
    obtain ⟨hsorted, hle⟩ := hblock.samples_sorted hnext hsamples
    have hbelow : ∀ sample ∈ samplesOf found ++ rest,
        sample ≤ stores.blockKey data.selectedParent := by
      intro sample hsample
      rcases mem_append.mp hsample with hmem | hmem
      · exact hle sample hmem
      · exact (hrest.lt hdag horigin' hgenesis' hnext sample hmem).le
    have hkey : stores.blockKey data.selectedParent = ⟨data.selectedParent, next.blueWork⟩ := by
      rw [blockKey, workOf_eq hnext]
    obtain ⟨accepted, haccepted, hreject⟩ := canPush_holding hsize pushed
      (stores.blockKey data.selectedParent)
    rw [walk, if_neg horigin', if_neg hgenesis', getData, hnext,
      unwrap, ok_bind, ← hkey, haccepted, ok_bind]
    cases accepted with
    | false =>
      -- nothing below the selected parent is accepted either
      have hrejects := hreject rfl
      have hsame := congrArg BoundedSizeBlockHeap.binaryHeap
        (holding_append_of_rejects hrejects hbelow)
      rw [expectedWindow_of_full]
      · exact congrArg (fun heap => ok (ok heap)) hsame.symm
      · rw [length_append]
        exact hrejects.1.trans (Nat.le_add_right _ _)
    | true =>
      rw [hsamples, ok_bind]
      rw [pushUntilRejected_eq hsize hsorted, ← append_assoc]
      cases hcached : cache data.selectedParent with
      | some window =>
        have hwindow := hcache _ window hgenesis' hcached next rest chainEnd hnext hrest
        rw [expectedWindow_append hwindow, expectedWindow_eq_ok hwindow]
        dsimp only
        rw [mergeAncestorHeap_holding]
        rfl
      | none =>
        have hlt := hblock.score_lt
        obtain ⟨fuel, rfl⟩ : ∃ rest, fuel = rest + 1 := ⟨fuel - 1, by omega⟩
        exact ih horigin' hgenesis' hnext _ fuel (by omega)

end Walk

/-! ## Building a window -/

variable {windowType : WindowType} {caches : Caches Hash}

theorem getBlueWork_eq {block : Hash} (hdata : stores.ghostdag.lookup block = some data) :
    stores.getBlueWork block = .ok data.blueWork := by
  rw [getBlueWork, getData, hdata]
  rfl

section Next

variable (hsize : 0 < manager.windowSize windowType)
  (hgenesis : data.selectedParent ≠ manager.genesisHash)
  (horigin : data.selectedParent ≠ manager.origin)
  (hnext : stores.ghostdag.lookup data.selectedParent = some next)

include hsize hgenesis horigin hnext

/-- A panic of the iterator is a panic of the whole call. -/
theorem buildBlockWindow_of_fault {fault : Fault Empty}
    (hfault : manager.sampledMergesetIterator stores daaScore (manager.sampleRate windowType) data
      next.blueWork = .error fault) :
    manager.buildBlockWindow stores daaScore caches data windowType = .error fault := by
  rw [buildBlockWindow, if_neg hsize.ne', if_neg hgenesis, if_neg horigin,
    getBlueWork_eq hnext, ok_bind, hfault]
  rfl

/-- The result for data whose own samples and chain are known. -/
theorem buildBlockWindow_eq (hdag : WindowDag manager stores)
    (hcache : CacheExact manager stores daaScore (manager.windowSize windowType)
      (manager.sampleRate windowType) (caches.get windowType))
    {samples : List (SampledBlock Hash)}
    (hsamples : manager.sampledMergesetIterator stores daaScore (manager.sampleRate windowType) data
      next.blueWork = .ok samples) {rest : List (SortableBlock Hash)} {chainEnd : ChainEnd}
    (hchain : ChainSamples manager stores daaScore (manager.sampleRate windowType) next rest
      chainEnd) :
    manager.buildBlockWindow stores daaScore caches data windowType =
      .ok (expectedWindow (manager.windowSize windowType) (samplesOf samples ++ rest) chainEnd,
        nonDaaOf samples) := by
  rw [buildBlockWindow, if_neg hsize.ne', if_neg hgenesis, if_neg horigin,
    getBlueWork_eq hnext, ok_bind, hsamples, ok_bind]
  cases hcached : caches.get windowType data.selectedParent with
  | some window =>
    have hwindow := hcache _ window hgenesis hcached next rest chainEnd hnext hchain
    obtain rfl := expectedWindow_eq_ok hwindow
    obtain ⟨hheap, hinserted⟩ := pushAll_eq hsize samples
      (.unevaluated (holding (manager.windowSize windowType) rest)) rfl []
    rw [expectedWindow_append hwindow]
    have hresult : pushAll samples (.unevaluated (.fromBinaryHeap (manager.windowSize windowType)
        (.ofGreatest (manager.windowSize windowType) rest))) [] =
        pushAll samples (.unevaluated (holding (manager.windowSize windowType) rest)) [] := rfl
    dsimp only
    rw [hresult, hheap, hinserted, holding_append_comm]
    rfl
  | none =>
    obtain ⟨hheap, hinserted⟩ := pushAll_eq hsize samples
      (.evaluated (.new (manager.windowSize windowType))) new_eq_holding []
    have hfuel : stores.scoreOf data.selectedParent + 1 ≤
        GhostdagManager.chainFuel stores data.selectedParent := Nat.le_add_right _ 1
    dsimp only
    rw [hheap, hinserted, getData, hnext, unwrap, ok_bind,
      walk_eq hdag horigin hgenesis hnext hsize hcache hchain hfuel]
    rfl

end Next

/-! ## Caches -/

/-- Every cached window is the one computed for its block without any cache. Windows of
the genesis block are never read. -/
def CachesExact (manager : SampledWindowManager Hash) (stores : Stores Hash)
    (daaScore : Hash → Nat) (caches : Caches Hash) : Prop :=
  ∀ windowType block window, block ≠ manager.genesisHash →
    caches.get windowType block = some window → ∃ data inserted,
      stores.ghostdag.lookup block = some data ∧
      manager.buildBlockWindow stores daaScore .empty data windowType = .ok (.ok window, inserted)

theorem cacheExact_empty (windowSize sampleRate : Nat) (windowType : WindowType) :
    CacheExact manager stores daaScore windowSize sampleRate (Caches.empty.get windowType) := by
  intro block window _ hcached
  cases windowType <;> cases hcached

theorem CachesExact.cacheExact (hdag : WindowDag manager stores)
    (hcaches : CachesExact manager stores daaScore caches)
    (hsize : 0 < manager.windowSize windowType) :
    CacheExact manager stores daaScore (manager.windowSize windowType)
      (manager.sampleRate windowType) (caches.get windowType) := by
  intro block window hne hcached data samples chainEnd hdata hchain
  obtain ⟨found, inserted, hfound, hbuild⟩ := hcaches windowType block window hne hcached
  cases hdata.symm.trans hfound
  cases hchain with
  | genesis hparent =>
    rw [buildBlockWindow, if_neg hsize.ne', if_pos hparent] at hbuild
    obtain ⟨hwindow, _⟩ := Prod.mk.inj (ok.inj hbuild)
    cases hwindow
    exact congrArg ok (BlockWindowHeap.ext drop_nil)
  | origin hparent =>
    have hne : data.selectedParent ≠ manager.genesisHash := fun heq =>
      manager.genesis_ne_origin (heq.symm.trans hparent)
    rw [buildBlockWindow, if_neg hsize.ne', if_neg hne,
      if_pos hparent] at hbuild
    cases (Prod.mk.inj (ok.inj hbuild)).1
  | step hgenesis horigin hnext hsamples hrest =>
    rw [buildBlockWindow_eq hsize hgenesis horigin hnext hdag (cacheExact_empty _ _ _) hsamples
      hrest] at hbuild
    exact (Prod.mk.inj (ok.inj hbuild)).1

/-! ## Reachable stores -/

section Reachable

variable {ghostdagManager : GhostdagManager Hash} {block : Hash}

/-- Merged blocks are below the selected parent. -/
theorem blockKey_lt_selectedParent (hordered : Ordered ghostdagManager stores)
    (hblock : OrderedBlock ghostdagManager stores block data) {x : Hash} (hx : x ∈ data.rest) :
    stores.blockKey x < stores.blockKey data.selectedParent := by
  have hmem := (hblock.mem_mergeset x).mp (hblock.mem_mergeset_of_mem_rest hx)
  obtain ⟨parent, hparent, hpast⟩ := Dag.inStrictPast_iff.mp hmem.1
  have hmax := hblock.selectedParent_max parent hparent
  rcases Dag.inPast_iff.mp hpast with rfl | hstrict
  · refine lt_of_le_of_ne hmax fun heq => ?_
    have hsame := stores.blockKey_injective heq
    exact hblock.not_inPast_selectedParent hx (hsame ▸ .refl _)
  · have hwork := hordered.work_lt (ne_origin_of_mem_rest hordered hblock hx) hstrict
    refine SortableBlock.lt_iff.mpr (.inl ?_)
    exact hwork.trans_le (SortableBlock.blueWork_le_of_le hmax)

theorem windowBlock_of_orderedBlock (hordered : Ordered ghostdagManager stores)
    (hknown : stores.Known block) (hdata : stores.ghostdag.lookup block = some data)
    (hblock : OrderedBlock ghostdagManager stores block data) : WindowBlock stores block data := by
  have hrest := known_rest hordered hblock hknown
  obtain ⟨ascending, _, hperm, hsorted⟩ := hblock.ascending_eq_ok hrest
  refine ⟨(hordered.data_known _).mpr (hordered.known_selectedParent hblock),
    ⟨ascending.reverse, hblock.descending_eq_ok hrest hperm hsorted,
      pairwise_reverse.mpr hsorted, fun merged hmerged => ?_⟩, ?_, ?_⟩
  · obtain ⟨x, hx, rfl⟩ := mem_map.mp (hperm.subset (mem_reverse.mp hmerged))
    exact ⟨blockKey_lt_selectedParent hordered hblock hx, hrest x hx⟩
  · refine SortableBlock.lt_iff.mpr (.inl ?_)
    exact hordered.work_lt_of_parentOf (hblock.parent_ne_origin _ hblock.selectedParent_parent)
      hblock.selectedParent_parent
  · have hpos : 0 < data.mergesetBlues.length :=
      length_pos_of_mem (mem_of_head? hblock.blues_head)
    have hscore : stores.scoreOf block = data.blueScore := by
      rw [scoreOf, hdata]
      rfl
    rw [hscore, hblock.score_eq]
    exact Nat.lt_add_of_pos_right hpos

/-- Windows can be built over all stores that header processing can reach. -/
theorem windowDag_of_built {maxBlockParents : Nat}
    (hbuilt : Built ghostdagManager maxBlockParents stores)
    (hgenesis : manager.genesisHash = ghostdagManager.genesisHash)
    (horigin : manager.origin = ghostdagManager.origin) : WindowDag manager stores := by
  intro block data hneOrigin hneGenesis hdata _
  have hordered := hbuilt.ordered
  have hknown := hordered.known_of_lookup hdata
  exact windowBlock_of_orderedBlock hordered hknown hdata
    (hordered.block block data (horigin ▸ hneOrigin) (hgenesis ▸ hneGenesis) hdata)

end Reachable

/-! ## A cached window -/

def sampleWindowManager : SampledWindowManager Nat :=
  ⟨1, 0, 3, 1, 2, 1, Nat.one_ne_zero⟩

/-- The difficulty window of block 3, whose selected parent is the genesis block. -/
def sampleCaches : Caches Nat := ⟨fun block => if block = 3 then some .new else none, fun _ => none⟩

theorem cachesExact_sampleCaches (daaScore : Nat → Nat) :
    CachesExact sampleWindowManager sampleStores daaScore sampleCaches := by
  intro windowType block window _ hcached
  cases windowType with
  | difficultyWindow =>
    by_cases hblock : block = 3
    · subst hblock
      cases hcached
      exact ⟨sampleChild, [1], rfl, rfl⟩
    · cases (if_neg hblock).symm.trans hcached
  | medianTimeWindow => cases hcached
  | varyingWindow size => cases hcached

/-! ## Transparency -/

/-- The caches never change a window: it holds the greatest samples along the chain,
and the inserter is called with the blocks of the mergeset that are below the
threshold. All stores that header processing can reach satisfy `WindowDag`, by
`windowDag_of_built`. -/
theorem buildBlockWindow_caches (hdag : WindowDag manager stores) {caches : Caches Hash}
    (hcaches : CachesExact manager stores daaScore caches) (data : GhostdagData Hash)
    (hstored : (stores.ghostdag.lookup data.selectedParent).isSome) (windowType : WindowType) :
    manager.buildBlockWindow stores daaScore caches data windowType =
        manager.buildBlockWindow stores daaScore .empty data windowType ∧
    ∀ own, 0 < manager.windowSize windowType → data.selectedParent ≠ manager.genesisHash →
      data.selectedParent ≠ manager.origin →
      manager.sampledMergesetIterator stores daaScore (manager.sampleRate windowType) data
        (stores.workOf data.selectedParent) = .ok own →
      ∃ samples chainEnd,
        ChainSamples manager stores daaScore (manager.sampleRate windowType) data samples chainEnd ∧
        manager.buildBlockWindow stores daaScore caches data windowType =
          .ok (expectedWindow (manager.windowSize windowType) samples chainEnd, nonDaaOf own) := by
  obtain ⟨next, hnext⟩ := Option.isSome_iff_exists.mp hstored
  rw [workOf_eq hnext]
  by_cases hspecial : manager.windowSize windowType = 0 ∨
      data.selectedParent = manager.genesisHash ∨ data.selectedParent = manager.origin
  · -- no cache is read
    refine ⟨?_, fun _ hpos hgenesis horigin => ?_⟩
    · unfold SampledWindowManager.buildBlockWindow
      rcases hspecial with hsize | hgenesis | horigin
      · rw [if_pos hsize, if_pos hsize]
      · simp only [if_pos hgenesis]
      · simp only [if_pos horigin]
    · exact absurd hspecial (by simp [hpos.ne', hgenesis, horigin])
  obtain ⟨hsize, hgenesis, horigin⟩ : manager.windowSize windowType ≠ 0 ∧
      data.selectedParent ≠ manager.genesisHash ∧ data.selectedParent ≠ manager.origin := by
    simpa only [not_or] using hspecial
  have hpos := Nat.pos_of_ne_zero hsize
  have hexact := hcaches.cacheExact hdag hpos
  have hempty : CacheExact manager stores daaScore (manager.windowSize windowType)
      (manager.sampleRate windowType) (Caches.empty.get windowType) := cacheExact_empty _ _ _
  obtain ⟨rest, chainEnd, hrest⟩ := exists_chainSamples hdag horigin hgenesis hnext daaScore
    (manager.sampleRate windowType)
  cases hown : manager.sampledMergesetIterator stores daaScore (manager.sampleRate windowType) data
      next.blueWork with
  | ok own =>
    have hbuild := buildBlockWindow_eq hpos hgenesis horigin hnext hdag hexact hown hrest
    have hplain := buildBlockWindow_eq hpos hgenesis horigin hnext hdag hempty hown hrest
    refine ⟨hbuild.trans hplain.symm, fun own' _ _ _ heq => ?_⟩
    cases heq
    exact ⟨_, chainEnd, .step hgenesis horigin hnext hown hrest, hbuild⟩
  | error fault =>
    refine ⟨?_, fun own _ _ _ heq => by cases heq⟩
    rw [buildBlockWindow_of_fault hpos hgenesis horigin hnext hown,
      buildBlockWindow_of_fault hpos hgenesis horigin hnext hown]

theorem buildBlockWindow_caches_diamond :
    sampleWindowManager.buildBlockWindow sampleStores (fun _ => 0) sampleCaches sampleMerge
        .difficultyWindow =
      sampleWindowManager.buildBlockWindow sampleStores (fun _ => 0) .empty sampleMerge
        .difficultyWindow :=
  (buildBlockWindow_caches (windowDag_of_built built_sampleStores rfl rfl)
    (cachesExact_sampleCaches _) sampleMerge rfl .difficultyWindow).1

end Qaspa.Window
