import Mathlib.Data.List.Chain
import Qaspa.Database.Access
import Qaspa.Lib.Simulation
import Qaspa.SelectedChain.Path

/-! # The index of the selected chain

The store numbers the blocks of the selected chain. Two maps lead from a number to
its block and back, and the highest number is kept apart. A change of the tip takes
the blocks of the old chain off the end and appends the ones of the new chain;
pruning takes blocks off the start.
-/

namespace Qaspa.SelectedChain

open Chain Database Ghostdag Outcome Reachability List Option

variable {Hash : Type} [DecidableEq Hash]

structure SelectedChainStore (Hash : Type) where
  hashByIndex : HashMap Nat Hash
  indexByHash : HashMap Hash Nat
  highestIndex : Option Nat

namespace SelectedChainStore

/-- Write both directions of an entry. -/
def link (store : SelectedChainStore Hash) (index : Nat) (hash : Hash) : SelectedChainStore Hash :=
  { store with
    indexByHash := store.indexByHash.insert hash index
    hashByIndex := store.hashByIndex.insert index hash }

/-- Delete both directions of an entry. -/
def unlink (store : SelectedChainStore Hash) (index : Nat) (hash : Hash) :
    SelectedChainStore Hash :=
  { store with
    indexByHash := store.indexByHash.erase hash
    hashByIndex := store.hashByIndex.erase index }

def remove (store : SelectedChainStore Hash) (toRemove : Hash) :
    Checked (SelectedChainStore Hash) := do
  let index ← unwrap (store.indexByHash.lookup toRemove)
  return store.unlink index toRemove

def applyChanges (store : SelectedChainStore Hash) (changes : ChainPath Hash) :
    Checked (SelectedChainStore Hash) := do
  let currentHighestIndex ← unwrap store.highestIndex
  let splitIndex ← U64.sub currentHighestIndex changes.removed.length
  let store ← changes.removed.foldlM remove store
  let store := changes.added.zipIdx.foldl
    (fun store entry => store.link (entry.2 + splitIndex + 1) entry.1) store
  return { store with highestIndex := some (changes.added.length + splitIndex) }

/-- Delete the entries below an index, down to the first one that is missing. -/
def pruneBelow : Nat → SelectedChainStore Hash → SelectedChainStore Hash
  | 0, store => store
  | index + 1, store =>
    match store.hashByIndex.lookup index with
    | some hash => pruneBelow index (store.unlink index hash)
    | none => store

def pruneBelowPoint (store : SelectedChainStore Hash) (block : Hash) :
    StoreResult Hash (SelectedChainStore Hash) := do
  let index ← found (.entry block) (store.indexByHash.lookup block)
  return store.pruneBelow index

/-- Start over from one block; what was stored before is deleted. -/
def initWithPruningPoint (_store : SelectedChainStore Hash) (block : Hash) :
    SelectedChainStore Hash :=
  ⟨(∅ : HashMap Nat Hash).insert 0 block, (∅ : HashMap Hash Nat).insert block 0, some 0⟩

/-! ## The stored range -/

/-- The two maps are inverse to each other. -/
def Inverse (store : SelectedChainStore Hash) : Prop :=
  ∀ hash index, store.indexByHash.lookup hash = some index ↔
    store.hashByIndex.lookup index = some hash

/-- The store holds the blocks of the list under the numbers from `low` on, and no others. -/
structure Holds (store : SelectedChainStore Hash) (low : Nat) (blocks : List Hash) : Prop where
  inverse : store.Inverse
  lookup_index : ∀ index, store.hashByIndex.lookup index =
    if low ≤ index then blocks[index - low]? else none

variable {store : SelectedChainStore Hash} {low index : Nat} {blocks : List Hash} {hash : Hash}

theorem Inverse.unlink (hinverse : store.Inverse)
    (hhash : store.hashByIndex.lookup index = some hash) :
    (store.unlink index hash).Inverse := by
  intro other number
  simp only [SelectedChainStore.unlink, HashMap.lookup_erase_eq_some, hinverse other number]
  refine and_congr_left fun hnumber => not_congr ⟨?_, ?_⟩
  · rintro rfl
    exact mem_unique ((hinverse _ _).mpr hnumber) ((hinverse _ _).mpr hhash)
  · rintro rfl
    exact mem_unique hnumber hhash

theorem Inverse.link (hinverse : store.Inverse) (hindex : store.hashByIndex.lookup index = none)
    (hhash : store.indexByHash.lookup hash = none) : (store.link index hash).Inverse := by
  intro other number
  simp only [SelectedChainStore.link, HashMap.lookup_insert_eq_some, hinverse other number]
  refine or_congr ⟨fun h => ⟨h.2.symm, h.1.symm⟩, fun h => ⟨h.2.symm, h.1.symm⟩⟩
    (and_congr_left fun hnumber => iff_of_true ?_ ?_)
  · rintro rfl
    cases hhash.symm.trans ((hinverse _ _).mpr hnumber)
  · rintro rfl
    cases hindex.symm.trans hnumber

omit [DecidableEq Hash] in
theorem getElem?_append_singleton_of_ne {offset : Nat} (hne : offset ≠ blocks.length) :
    (blocks ++ [hash])[offset]? = blocks[offset]? := by
  by_cases hlt : offset < blocks.length
  · rw [getElem?_append_left hlt]
  · rw [getElem?_eq_none (by simp; omega), getElem?_eq_none (by omega)]

namespace Holds

section

variable (hholds : store.Holds low blocks)

include hholds

theorem lookup_add (offset : Nat) : store.hashByIndex.lookup (low + offset) = blocks[offset]? := by
  simp [hholds.lookup_index]

/-- The blocks that have a number are the ones of the list. -/
theorem exists_index_iff :
    (∃ index, store.indexByHash.lookup hash = some index) ↔ hash ∈ blocks := by
  simp only [hholds.inverse hash, mem_iff_getElem?]
  constructor
  · rintro ⟨index, hindex⟩
    rw [hholds.lookup_index] at hindex
    split at hindex
    · exact ⟨index - low, hindex⟩
    · cases hindex
  · rintro ⟨offset, hoffset⟩
    exact ⟨low + offset, by rw [hholds.lookup_add, hoffset]⟩

theorem lookup_eq_none (hfresh : hash ∉ blocks) : store.indexByHash.lookup hash = none := by
  rw [eq_none_iff_forall_ne_some]
  intro index hindex
  exact hfresh (hholds.exists_index_iff.mp ⟨index, hindex⟩)

/-- Appending a block. -/
theorem link (hfresh : hash ∉ blocks) :
    (store.link (low + blocks.length) hash).Holds low (blocks ++ [hash]) where
  inverse := by
    apply hholds.inverse.link
    · simp [hholds.lookup_add]
    · exact hholds.lookup_eq_none hfresh
  lookup_index index := by
    simp only [SelectedChainStore.link]
    by_cases hindex : index = low + blocks.length
    · subst hindex
      simp
    · rw [AList.lookup_insert_ne hindex, hholds.lookup_index]
      split
      next hle => rw [getElem?_append_singleton_of_ne (by omega)]
      · rfl

end

/-- Taking the last block off. -/
theorem remove_last (hholds : store.Holds low (blocks ++ [hash])) :
    ∃ next, store.remove hash = .ok next ∧ next.highestIndex = store.highestIndex ∧
      next.Holds low blocks := by
  have hlast : store.hashByIndex.lookup (low + blocks.length) = some hash := by
    simp [hholds.lookup_add]
  have hindex : store.indexByHash.lookup hash = some (low + blocks.length) :=
    (hholds.inverse _ _).mpr hlast
  refine ⟨store.unlink (low + blocks.length) hash, ?_, rfl, hholds.inverse.unlink hlast, ?_⟩
  · simp [remove, hindex, unwrap]
  · intro index
    simp only [SelectedChainStore.unlink]
    by_cases heq : index = low + blocks.length
    · subst heq
      simp
    · rw [AList.lookup_erase_ne heq, hholds.lookup_index]
      split
      next hle => rw [getElem?_append_singleton_of_ne (by omega)]
      · rfl

/-- Taking a segment off the end, from the last block down. -/
theorem remove_all {removed : List Hash} (hholds : store.Holds low (blocks ++ removed.reverse)) :
    ∃ next, removed.foldlM SelectedChainStore.remove store = .ok next ∧
      next.highestIndex = store.highestIndex ∧ next.Holds low blocks := by
  induction removed generalizing store with
  | nil => exact ⟨store, rfl, rfl, by simpa using hholds⟩
  | cons last removed ih =>
    rw [reverse_cons, ← append_assoc] at hholds
    obtain ⟨middle, hmiddle, hhighest, hholds⟩ := hholds.remove_last
    obtain ⟨next, hnext, hhighest', hholds⟩ := ih hholds
    refine ⟨next, ?_, hhighest'.trans hhighest, hholds⟩
    rw [foldlM_cons, hmiddle, ok_bind, hnext]

/-- Appending a segment. -/
theorem link_all {added : List Hash} (hholds : store.Holds low blocks)
    (hnodup : (blocks ++ added).Nodup) (start split : Nat)
    (hsplit : start + split + 1 = low + blocks.length) :
    ((added.zipIdx start).foldl (fun store entry => store.link (entry.2 + split + 1) entry.1)
      store).Holds low (blocks ++ added) := by
  induction added generalizing store blocks start with
  | nil => simpa using hholds
  | cons first added ih =>
    have hfresh : first ∉ blocks := by
      intro hmem
      exact (nodup_append'.mp hnodup).2.2 hmem (by simp)
    rw [zipIdx_cons, foldl_cons, hsplit]
    have hnext := ih (hholds.link hfresh) (by simpa using hnodup) (start + 1) (by simp; omega)
    simpa using hnext

/-- A change of the tip, with the kept blocks below the fork. -/
theorem applyChanges {path : ChainPath Hash}
    (hholds : store.Holds low (blocks ++ path.removed.reverse))
    (hhighest : store.highestIndex = some (low + (blocks ++ path.removed.reverse).length - 1))
    (hne : blocks ≠ []) (hnodup : (blocks ++ path.added).Nodup) :
    ∃ next, store.applyChanges path = .ok next ∧
      next.highestIndex = some (low + (blocks ++ path.added).length - 1) ∧
      next.Holds low (blocks ++ path.added) := by
  obtain ⟨middle, hmiddle, _, hholds⟩ := hholds.remove_all
  have hpositive := length_pos_iff.mpr hne
  have hlength : (blocks ++ path.removed.reverse).length = blocks.length + path.removed.length := by
    simp
  have hsub : (U64.sub (low + (blocks ++ path.removed.reverse).length - 1) path.removed.length :
      Checked Nat) = .ok (low + blocks.length - 1) := by
    rw [U64.sub_eq_ok]
    omega
  have hlinked := hholds.link_all hnodup 0 (low + blocks.length - 1) (by omega)
  refine ⟨{ (path.added.zipIdx.foldl (fun store entry =>
      store.link (entry.2 + (low + blocks.length - 1) + 1) entry.1) middle) with
    highestIndex := some (path.added.length + (low + blocks.length - 1)) }, ?_, ?_,
    hlinked.1, hlinked.2⟩
  · simp only [SelectedChainStore.applyChanges, hhighest, unwrap, ok_bind, hsub, hmiddle,
      pure_eq_ok]
  · simp only [length_append, some.injEq]
    omega

end Holds

/-- Pruning deletes everything below an index, given that nothing is missing in between. -/
theorem pruneBelow_inverse (low index : Nat) (hinverse : store.Inverse)
    (hfull : ∀ number, low ≤ number → number < index → store.hashByIndex.lookup number ≠ none)
    (hempty : ∀ number, number < low → store.hashByIndex.lookup number = none) :
    (store.pruneBelow index).Inverse ∧ ∀ number,
      (store.pruneBelow index).hashByIndex.lookup number =
        if number < index then none else store.hashByIndex.lookup number := by
  induction index generalizing store with
  | zero => exact ⟨hinverse, by simp [pruneBelow]⟩
  | succ index ih =>
    rw [pruneBelow]
    split
    next hash hhash =>
      have hother : ∀ number, number ≠ index →
          (store.unlink index hash).hashByIndex.lookup number =
            store.hashByIndex.lookup number := fun number hne => AList.lookup_erase_ne hne
      have hself : (store.unlink index hash).hashByIndex.lookup index = none :=
        AList.lookup_erase _ _
      obtain ⟨hinverse', hlookup⟩ := ih (hinverse.unlink hhash)
        (fun number hlow hlt => by
          rw [hother number (by omega)]; exact hfull number hlow (by omega))
        (fun number hlt => by
          by_cases hnumber : number = index
          · rw [hnumber, hself]
          · rw [hother number hnumber, hempty number hlt])
      refine ⟨hinverse', fun number => ?_⟩
      rw [hlookup]
      rcases Nat.lt_trichotomy number index with hlt | rfl | hgt
      · rw [if_pos hlt, if_pos (by omega)]
      · rw [if_neg (by omega), if_pos (by omega), hself]
      · rw [if_neg (by omega), if_neg (by omega), hother number (by omega)]
    next hnone =>
      -- The entry is missing, so it and all lower ones were pruned before.
      have hlow : index < low := by
        by_contra hle
        exact hfull index (by omega) (by omega) hnone
      refine ⟨hinverse, fun number => ?_⟩
      split
      · exact hempty number (by omega)
      · rfl

theorem pruneBelow_highestIndex (store : SelectedChainStore Hash) (index : Nat) :
    (store.pruneBelow index).highestIndex = store.highestIndex := by
  induction index generalizing store with
  | zero => rfl
  | succ index ih =>
    rw [pruneBelow]
    split
    · rw [ih]
      rfl
    · rfl

/-- Pruning below a kept block keeps the blocks from it on. -/
theorem Holds.pruneBelowPoint {upper : List Hash}
    (hholds : store.Holds low (blocks ++ hash :: upper)) :
    ∃ next, store.pruneBelowPoint hash = .ok next ∧ next.highestIndex = store.highestIndex ∧
      next.Holds (low + blocks.length) (hash :: upper) := by
  have hat : store.hashByIndex.lookup (low + blocks.length) = some hash := by
    simp [hholds.lookup_add]
  have hindex := (hholds.inverse hash _).mpr hat
  obtain ⟨hinverse, hlookup⟩ := pruneBelow_inverse low (low + blocks.length) hholds.inverse
    (fun number hlow hlt => by
      rw [hholds.lookup_index]
      simp
      omega)
    (fun number hlt => by rw [hholds.lookup_index, if_neg (by omega)])
  refine ⟨store.pruneBelow (low + blocks.length),
    by simp [SelectedChainStore.pruneBelowPoint, found, hindex],
    pruneBelow_highestIndex _ _, hinverse, fun number => ?_⟩
  rw [hlookup, hholds.lookup_index]
  by_cases hlt : number < low + blocks.length
  · rw [if_pos hlt, if_neg (by omega)]
  · rw [if_neg hlt, if_pos (by omega), if_pos (by omega), getElem?_append_right (by omega)]
    congr 1
    omega

end SelectedChainStore

/-! ## Runs

The virtual processor selects one tip after another and the pruning processor cuts the
chain off below a block of it. -/

inductive ChainStep (Hash : Type) where
  | selectTip (tip : Hash)
  | prune (block : Hash)
  deriving DecidableEq, Repr

structure ChainIndex (Hash : Type) where
  store : SelectedChainStore Hash
  tip : Hash

namespace ChainIndex

def init (leftover : SelectedChainStore Hash) (pruningPoint : Hash) : ChainIndex Hash :=
  ⟨leftover.initWithPruningPoint pruningPoint, pruningPoint⟩

def step (service : ReachabilityService Hash) (fuel : Nat) (step : ChainStep Hash)
    (state : ChainIndex Hash) : StoreResult Hash (ChainIndex Hash) :=
  match step with
  | .selectTip tip => do
    let path ← widen (calculateChainPath service fuel state.tip tip none)
    let store ← widen (state.store.applyChanges path)
    return ⟨store, tip⟩
  | .prune block => do
    let store ← state.store.pruneBelowPoint block
    return { state with store := store }

/-- A new tip has a block on its chain that was not pruned. -/
def Permitted (service : ReachabilityService Hash) (_history : List (ChainStep Hash))
    (state : ChainIndex Hash) : ChainStep Hash → Prop
  | .selectTip tip => ∃ kept index, state.store.indexByHash.lookup kept = some index ∧
      service.ChainAncestor kept tip
  | .prune _ => True

/-- The store numbers the selected chain of the tip from its lowest kept block on. -/
structure Indexes (service : ReachabilityService Hash) (state : ChainIndex Hash) (low : Nat)
    (blocks : List Hash) : Prop where
  holds : state.store.Holds low blocks
  highestIndex_eq : state.store.highestIndex = some (low + blocks.length - 1)
  last : blocks.getLast? = some state.tip
  linked : blocks.IsChain fun block next => service.getChainParent next = some block

section

variable {service : ReachabilityService Hash} {root : Hash} {rank : Hash → Nat} {fuel : Nat}
  {state : ChainIndex Hash}

/-- The invariant of a run. The kept blocks are the way from the tip down to a block that is
not kept, the origin if nothing was pruned. -/
structure Kept (service : ReachabilityService Hash) (root : Hash) (rank : Hash → Nat) (fuel : Nat)
    (state : ChainIndex Hash) (low : Nat) (blocks : List Hash) (below : Hash) : Prop where
  holds : state.store.Holds low blocks
  highestIndex_eq : state.store.highestIndex = some (low + blocks.length - 1)
  nonempty : blocks ≠ []
  descends : Descends service.getChainParent state.tip blocks.reverse below
  known : ∀ block ∈ blocks, service.ChainAncestor root block
  rank_lt : rank state.tip < fuel

variable {low : Nat} {blocks : List Hash} {below : Hash}

theorem Kept.tip_mem (hkept : Kept service root rank fuel state low blocks below) :
    state.tip ∈ blocks := by
  apply mem_of_getLast?
  rw [← head?_reverse]
  exact hkept.descends.head?_eq (by simpa using hkept.nonempty)

theorem Kept.indexes (hkept : Kept service root rank fuel state low blocks below) :
    Indexes service state low blocks where
  holds := hkept.holds
  highestIndex_eq := hkept.highestIndex_eq
  last := by
    rw [← head?_reverse]
    exact hkept.descends.head?_eq (by simpa using hkept.nonempty)
  linked := by
    have hchain := isChain_reverse.mpr hkept.descends.isChain
    simpa using hchain

/-- A new tip above a kept block: the blocks that leave the chain are the last kept ones. -/
theorem selectTip_kept (hcorrect : service.ChainCorrect root rank) {kept tip : Hash}
    (hstate : Kept service root rank fuel state low blocks below) (hkept : kept ∈ blocks)
    (habove : service.ChainAncestor kept tip) (hrank : rank tip < fuel) :
    ∃ next blocks' below', step service fuel (.selectTip tip) state = .ok next ∧
      Kept service root rank fuel next low blocks' below' := by
  obtain ⟨path, fork, hpath, hdown, hup, hhighest⟩ :=
    calculateChainPath_eq_ok hcorrect (hstate.known _ hstate.tip_mem)
      ((hstate.known kept hkept).trans habove) hstate.rank_lt hrank
  have hdescends := hstate.descends
  -- The fork is at or above the kept block, so the old chain splits there.
  obtain ⟨hbelowTip, habove'⟩ := hdescends.ancestor_of_mem (mem_reverse.mpr hkept)
  have hfork : service.ChainAncestor kept fork := hhighest kept hbelowTip habove
  obtain ⟨rest, hsplit, hrest⟩ := hdown.split hcorrect.rank_lt hdescends (habove'.trans hfork)
  have hne : rest ≠ [] := by
    rintro rfl
    obtain rfl : fork = below := hrest
    have hlt := (hdescends.rank_of_mem hcorrect.rank_lt (mem_reverse.mpr hkept)).1
    have hle := hfork.rank_le hcorrect.rank_lt
    omega
  have hblocks : blocks = rest.reverse ++ path.removed.reverse := by
    rw [← reverse_append, ← hsplit, reverse_reverse]
  have hnew : Descends service.getChainParent tip (rest.reverse ++ path.added).reverse below := by
    rw [reverse_append, reverse_reverse]
    exact descends_append.mpr ⟨fork, hup, hrest⟩
  have hnodup : (rest.reverse ++ path.added).Nodup :=
    nodup_reverse.mp (hnew.nodup hcorrect.rank_lt)
  obtain ⟨next, hnext, hhighest', hholds⟩ := SelectedChainStore.Holds.applyChanges
    (hblocks ▸ hstate.holds) (hblocks ▸ hstate.highestIndex_eq) (by simpa using hne) hnodup
  refine ⟨⟨next, tip⟩, rest.reverse ++ path.added, below, ?_, hholds, hhighest', by simp [hne],
    hnew,
    ?_, hrank⟩
  · simp [step, hpath, hnext]
  · intro block hblock
    rcases mem_append.mp hblock with hlower | hadded
    · exact hstate.known block (by simp [hblocks, mem_reverse.mp hlower])
    · exact ((hstate.known kept hkept).trans hfork).trans
        (hup.ancestor_of_mem (mem_reverse.mpr hadded)).2

theorem prune_kept (hstate : Kept service root rank fuel state low blocks below) {block : Hash}
    (hblock : block ∈ blocks) :
    ∃ next low' blocks' below', step service fuel (.prune block) state = .ok next ∧
      Kept service root rank fuel next low' blocks' below' := by
  obtain ⟨lower, upper, rfl⟩ := append_of_mem hblock
  obtain ⟨next, hnext, hhighest, hholds⟩ := hstate.holds.pruneBelowPoint
  have hdescends := hstate.descends
  rw [reverse_append] at hdescends
  obtain ⟨below', hupper, _⟩ := descends_append.mp hdescends
  refine ⟨⟨next, state.tip⟩, low + lower.length, block :: upper, below', ?_, hholds, ?_, by simp,
    hupper, fun kept hkept => hstate.known kept (mem_append_right _ hkept), hstate.rank_lt⟩
  · simp [step, hnext]
  · rw [hhighest, hstate.highestIndex_eq]
    simp
    omega

/-- A run in which every new tip is above a kept block returns, and the two maps then number
the selected chain of the last tip. -/
theorem run_indexes (hcorrect : service.ChainCorrect root rank) (leftover : SelectedChainStore Hash)
    {pruningPoint : Hash} (hknown : service.ChainAncestor root pruningPoint)
    (hrank : rank pruningPoint < fuel) {steps : List (ChainStep Hash)}
    (hranks : ∀ tip, .selectTip tip ∈ steps → rank tip < fuel)
    (hsteps : Admissible (step service fuel) (Permitted service) []
      (init leftover pruningPoint) steps) :
    ∃ errors final low blocks,
      run (step service fuel) steps (init leftover pruningPoint) = .ok (errors, final) ∧
        Indexes service final low blocks := by
  obtain ⟨parent, hparent, _⟩ := hcorrect.exists_parent hknown
  have hempty : SelectedChainStore.Holds (⟨∅, ∅, some 0⟩ : SelectedChainStore Hash) 0 [] :=
    ⟨by simp [SelectedChainStore.Inverse], by simp⟩
  have hinit : Kept service root rank fuel (init leftover pruningPoint) 0 [pruningPoint] parent :=
    ⟨hempty.link (by simp), rfl, by simp, ⟨rfl, parent, hparent, rfl⟩, by simpa using hknown, hrank⟩
  have hall := run_eq_ok
    (fun state => ∃ low blocks below, Kept service root rank fuel state low blocks below)
    (fun chainStep hmem history state hstate hpermitted => ?_)
    ⟨0, [pruningPoint], parent, hinit⟩ hsteps
  · obtain ⟨errors, final, hrun, low, blocks, below, hkept⟩ := hall
    exact ⟨errors, final, low, blocks, hrun, hkept.indexes⟩
  obtain ⟨low, blocks, below, hstate⟩ := hstate
  cases chainStep with
  | selectTip tip =>
    obtain ⟨kept, index, hindex, habove⟩ := hpermitted
    have hkept : kept ∈ blocks := hstate.holds.exists_index_iff.mp ⟨index, hindex⟩
    obtain ⟨next, blocks', below', hnext, hkept'⟩ :=
      selectTip_kept hcorrect hstate hkept habove (hranks tip hmem)
    exact ⟨none, next, by simp [attempt, hnext], low, blocks', below', hkept'⟩
  | prune block =>
    by_cases hblock : block ∈ blocks
    · obtain ⟨next, low', blocks', below', hnext, hkept⟩ := prune_kept hstate hblock
      exact ⟨none, next, by simp [attempt, hnext], low', blocks', below', hkept⟩
    · -- The block was pruned before or is not on the chain.
      have hmissing := hstate.holds.lookup_eq_none hblock
      refine ⟨some (.keyNotFound (.entry block)), state, ?_, low, blocks, below, hstate⟩
      simp [attempt, step, SelectedChainStore.pruneBelowPoint, found, hmissing]

end

def emptyStore : SelectedChainStore Nat := ⟨∅, ∅, none⟩

/-- Block `2` is selected first, then block `4` on the other branch, and the root is pruned. -/
theorem run_indexes_fork :
    ∃ errors final low blocks,
      run (step .fork 5) [.selectTip 2, .selectTip 4, .prune 3] (init emptyStore 1) =
          .ok (errors, final) ∧
        Indexes .fork final low blocks := by
  apply run_indexes ReachabilityService.fork_correct emptyStore (.refl 1) (by decide)
  · intro tip htip
    simp only [mem_cons, ChainStep.selectTip.injEq, reduceCtorEq, not_mem_nil, or_false] at htip
    rcases htip with rfl | rfl <;> decide
  · have hthree : ReachabilityService.fork.ChainAncestor 1 3 := .of_parent rfl
    refine .cons rfl ⟨1, 0, rfl, .of_parent rfl⟩ ?_
    refine .cons rfl ⟨1, 0, rfl, hthree.trans (.of_parent rfl)⟩ ?_
    exact ⟨trivial, fun _ _ _ => trivial⟩

/-- A tip below all kept blocks is not stored: after pruning below block `2` the selection of
its parent leaves both maps empty, and the highest number belongs to no block. -/
theorem run_indexes_pruned :
    ∃ errors final,
      run (step .fork 5) [.selectTip 2, .prune 2, .selectTip 1] (init emptyStore 1) =
          .ok (errors, final) ∧
        final.tip = 1 ∧ final.store.highestIndex = some 0 ∧
        final.store.hashByIndex.lookup 0 = none ∧ final.store.indexByHash.lookup 1 = none :=
  ⟨_, _, rfl, rfl, rfl, rfl, rfl⟩

end ChainIndex

end Qaspa.SelectedChain
