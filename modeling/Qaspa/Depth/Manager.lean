import Qaspa.Ghostdag.Cluster
import Qaspa.Reachability.Service

/-! # Blocks at a depth

The merge depth root and the finality point of a block are the last blocks of its selected
chain that are deep enough below it by blue score. They are found by walking up the chain
from those of the selected parent. A red block may be merged if it is in the future of the
merge depth root, or in the past of a blue block that has the root on its selected chain.
-/

namespace Qaspa.Depth

open Ghostdag Outcome Reachability GhostdagManager

inductive BlockDepthType where
  | mergeRoot
  | finality
  deriving DecidableEq

inductive RuleError where
  | violatingBoundedMergeDepth
  deriving DecidableEq, Repr

/-- The depths and the stored results, with the reachability service. -/
structure BlockDepthManager (Hash : Type) where
  mergeDepth : Nat
  finalityDepth : Nat
  genesisHash : Hash
  mergeDepthRoot : Hash → Option Hash
  finalityPoint : Hash → Option Hash
  reachabilityService : ReachabilityService Hash

variable {Hash : Type} [LinearOrder Hash]

namespace BlockDepthManager

variable (self : BlockDepthManager Hash) (stores : Stores Hash)

def depthOf : BlockDepthType → Nat
  | .mergeRoot => self.mergeDepth
  | .finality => self.finalityDepth

def storedAt : BlockDepthType → Hash → Option Hash
  | .mergeRoot => self.mergeDepthRoot
  | .finality => self.finalityPoint

/-- Walk up the chain to the last block below the required score. The iterator asks for the
next block before it returns one. -/
def walkToScore (requiredBlueScore : Nat) (descendant : Hash) : Nat → Hash → Hash → Checked Hash
  | 0, _, _ => .error .outOfFuel
  | fuel + 1, chainBlock, current =>
    if chainBlock = descendant then do
      let blueScore ← stores.getBlueScore chainBlock
      if blueScore ≥ requiredBlueScore then .ok current else .ok chainBlock
    else do
      let next ← unwrap (self.reachabilityService.getNextChainAncestor descendant chainBlock)
      let blueScore ← stores.getBlueScore chainBlock
      if blueScore ≥ requiredBlueScore then .ok current
      else walkToScore requiredBlueScore descendant fuel next chainBlock

def calculateBlockAtDepth (data : GhostdagData Hash) (depthType : BlockDepthType)
    (pruningPoint : Hash) : Checked Hash :=
  if data.selectedParent = self.reachabilityService.origin then
    .ok self.reachabilityService.origin
  else if data.blueScore < self.depthOf depthType then .ok self.genesisHash
  else do
    let pruningPointScore ← stores.getBlueScore pruningPoint
    if data.blueScore < pruningPointScore + self.depthOf depthType then
      .ok self.reachabilityService.origin
    else if !self.reachabilityService.isChainAncestorOf pruningPoint data.selectedParent then
      .ok self.reachabilityService.origin
    else do
      let stored ← unwrap (self.storedAt depthType data.selectedParent)
      let current := if stored = self.reachabilityService.origin then pruningPoint else stored
      self.walkToScore stores (data.blueScore - self.depthOf depthType) data.selectedParent
        (GhostdagManager.chainFuel stores data.selectedParent) current current

def calcMergeDepthRoot (data : GhostdagData Hash) (pruningPoint : Hash) : Checked Hash :=
  self.calculateBlockAtDepth stores data .mergeRoot pruningPoint

def calcFinalityPoint (data : GhostdagData Hash) (pruningPoint : Hash) : Checked Hash :=
  self.calculateBlockAtDepth stores data .finality pruningPoint

def kosherizingBlues (data : GhostdagData Hash) (mergeDepthRoot : Hash) : List Hash :=
  data.mergesetBlues.filter (self.reachabilityService.isChainAncestorOf mergeDepthRoot)

/-- A red block that the merge bound forbids. -/
def violatesMergeBound (data : GhostdagData Hash) (mergeDepthRoot red : Hash) : Bool :=
  !stores.isDagAncestorOf mergeDepthRoot red &&
    !(self.kosherizingBlues data mergeDepthRoot).any (stores.isDagAncestorOf red)

/-- Returns the merge depth root and the finality point. -/
def checkBoundedMergeDepth (data : GhostdagData Hash) (pruningPoint : Hash) :
    Outcome RuleError (Hash × Hash) := do
  let mergeDepthRoot ← widen (self.calcMergeDepthRoot stores data pruningPoint)
  let finalityPoint ← widen (self.calcFinalityPoint stores data pruningPoint)
  if data.mergesetReds.any (self.violatesMergeBound stores data mergeDepthRoot) then
    .error (.err .violatingBoundedMergeDepth)
  else .ok (mergeDepthRoot, finalityPoint)

end BlockDepthManager

/-! ## The selected chain -/

/-- The length of the chain below a block is bounded by its score. -/
def chainRank (manager : GhostdagManager Hash) (stores : Stores Hash) (x : Hash) : Nat :=
  if x = manager.origin then 0 else stores.scoreOf x + 1

/-- The manager works on the stores of a GHOSTDAG instance: the service answers for the tree
of selected parents, and the results stored for a block are blocks of its chain. -/
structure OnChain (manager : GhostdagManager Hash) (stores : Stores Hash)
    (depths : BlockDepthManager Hash) : Prop where
  genesis : depths.genesisHash = manager.genesisHash
  origin : depths.reachabilityService.origin = manager.origin
  parent_iff : ∀ x parent, depths.reachabilityService.getChainParent x = some parent ↔
    x ≠ manager.origin ∧ ∃ data, stores.ghostdag.lookup x = some data ∧ data.selectedParent = parent
  correct : depths.reachabilityService.ChainCorrect manager.genesisHash (chainRank manager stores)
  isChainAncestorOf_origin : ∀ x, stores.Known x →
    depths.reachabilityService.isChainAncestorOf manager.origin x = true
  stored : ∀ depthType x, stores.Known x → x ≠ manager.origin → ∃ point,
    depths.storedAt depthType x = some point ∧ (point = manager.origin ∨
      depths.reachabilityService.ChainAncestor manager.genesisHash point ∧
        depths.reachabilityService.ChainAncestor point x)

variable {manager : GhostdagManager Hash} {stores : Stores Hash} {depths : BlockDepthManager Hash}
  {x y : Hash}

/-- Selected parents lead down to genesis. -/
theorem ancestor_genesis (hordered : Ordered manager stores) {parent : Hash → Option Hash}
    (hparent : ∀ x data, x ≠ manager.origin → stores.ghostdag.lookup x = some data →
      parent x = some data.selectedParent) (hknown : stores.Known x) (hx : x ≠ manager.origin) :
    Chain.Ancestor parent manager.genesisHash x := by
  induction hscore : stores.scoreOf x using Nat.strong_induction_on generalizing x with
  | _ score ih =>
    by_cases hgenesis : x = manager.genesisHash
    · rw [hgenesis]
      exact .refl _
    · obtain ⟨data, hdata⟩ := hordered.exists_data hknown
      have hblock := hordered.block x data hx hgenesis hdata
      have hlt := hordered.scoreOf_selectedParent_lt hx hgenesis hdata
      have hbelow := ih _ (hscore ▸ hlt) (hordered.known_selectedParent hblock)
        (hblock.parent_ne_origin _ hblock.selectedParent_parent) rfl
      exact hbelow.trans (.of_parent (hparent x data hx hdata))

namespace OnChain

section

variable (hordered : Ordered manager stores) (hchain : OnChain manager stores depths)

include hordered hchain

/-- Every block is above genesis on the tree. -/
theorem genesis_ancestor (hknown : stores.Known x) (hx : x ≠ manager.origin) :
    depths.reachabilityService.ChainAncestor manager.genesisHash x :=
  ancestor_genesis hordered
    (fun x data hx hdata => (hchain.parent_iff x _).mpr ⟨hx, data, hdata, rfl⟩) hknown hx

section

variable (hx : depths.reachabilityService.ChainAncestor manager.genesisHash x)

include hx

/-- What is above a block of the tree is a known block. -/
theorem known_of_ancestor : stores.Known x ∧ x ≠ manager.origin := by
  have hne := hchain.correct.ne_origin hx
  rw [hchain.origin] at hne
  refine ⟨?_, hne⟩
  obtain ⟨parent, hparent, _⟩ := hchain.correct.exists_parent hx
  obtain ⟨_, data, hdata, _⟩ := (hchain.parent_iff x parent).mp hparent
  exact hordered.known_of_lookup hdata

theorem inPast_of_ancestor (hancestor : depths.reachabilityService.ChainAncestor x y) :
    stores.InPast x y := by
  induction hancestor with
  | refl => exact .refl x
  | @tail middle last hbelow hstep ih =>
    have habove := hx.trans hbelow
    obtain ⟨hlast, data, hdata, rfl⟩ := (hchain.parent_iff last middle).mp hstep
    have hgenesis : last ≠ manager.genesisHash := by
      rintro rfl
      exact Chain.not_ancestor_parent hchain.correct.rank_lt hstep habove
    exact ih.tail (hordered.block last data hlast hgenesis hdata).selectedParent_parent

theorem scoreOf_le_of_ancestor (hancestor : depths.reachabilityService.ChainAncestor x y) :
    stores.scoreOf x ≤ stores.scoreOf y := by
  have hrank := hancestor.rank_le hchain.correct.rank_lt
  have hne := (hchain.known_of_ancestor hordered hx).2
  have hne' := (hchain.known_of_ancestor hordered (hx.trans hancestor)).2
  rw [chainRank, chainRank, if_neg hne, if_neg hne'] at hrank
  omega

theorem isChainAncestorOf_iff (hknown : stores.Known y) (hy : y ≠ manager.origin) :
    depths.reachabilityService.isChainAncestorOf x y = true ↔
      depths.reachabilityService.ChainAncestor x y :=
  hchain.correct.isChainAncestorOf_iff x y hx (hchain.genesis_ancestor hordered hknown hy)

end

end

end OnChain

/-! ## The walk -/

section Walk

variable (hordered : Ordered manager stores) (hchain : OnChain manager stores depths)
  {required fuel : Nat} {descendant chainBlock current : Hash}

include hordered hchain

variable (hblock : depths.reachabilityService.ChainAncestor manager.genesisHash chainBlock)
  (hbelow : depths.reachabilityService.ChainAncestor chainBlock descendant)

include hblock hbelow

/-- The walk stays on the chain. It ends at its start, or below the required score, and passes every
block below it. -/
theorem walkToScore_spec (required : Nat)
    (habove : depths.reachabilityService.ChainAncestor current chainBlock)
    (hfuel : chainRank manager stores descendant < fuel + chainRank manager stores chainBlock) :
    ∃ result, depths.walkToScore stores required descendant fuel chainBlock current = .ok result ∧
      depths.reachabilityService.ChainAncestor current result ∧
      depths.reachabilityService.ChainAncestor result descendant ∧
      (result = current ∨ stores.scoreOf result < required) ∧
      ∀ x, depths.reachabilityService.ChainAncestor chainBlock x →
        depths.reachabilityService.ChainAncestor x descendant → stores.scoreOf x < required →
        depths.reachabilityService.ChainAncestor x result := by
  induction fuel generalizing chainBlock current with
  | zero =>
    have hle := hbelow.rank_le hchain.correct.rank_lt
    omega
  | succ fuel ih =>
    have hhigh : stores.scoreOf chainBlock ≥ required → ∀ x,
        depths.reachabilityService.ChainAncestor chainBlock x →
        ¬ stores.scoreOf x < required := fun hscore x hx =>
      (hscore.trans (hchain.scoreOf_le_of_ancestor hordered hblock hx)).not_gt
    have hblueScore := Stores.getBlueScore_eq_ok ((hordered.data_known chainBlock).mpr
      (hchain.known_of_ancestor hordered hblock).1)
    rw [BlockDepthManager.walkToScore, hblueScore]
    by_cases heq : chainBlock = descendant
    · subst heq
      rw [if_pos rfl, ok_bind]
      split
      next hscore =>
        exact ⟨current, rfl, .refl _, habove, .inl rfl,
          fun x hx _ hlow => absurd hlow (hhigh hscore x hx)⟩
      next hscore =>
        exact ⟨chainBlock, rfl, habove, .refl _, .inr (Nat.lt_of_not_le hscore), fun x _ hx _ => hx⟩
    · obtain ⟨next, hstep, hparent, hnext⟩ :=
        hchain.correct.getNextChainAncestor_eq _ _ hblock hbelow heq
      rw [if_neg heq, hstep, unwrap, ok_bind, ok_bind]
      split
      next hscore =>
        exact ⟨current, rfl, .refl _, habove.trans hbelow, .inl rfl,
          fun x hx _ hlow => absurd hlow (hhigh hscore x hx)⟩
      next hscore =>
        have hlt := hchain.correct.rank_lt chainBlock next hparent
        obtain ⟨result, hresult, hfrom, hto, hend, hpassed⟩ :=
          ih (hblock.trans (.of_parent hparent)) hnext (.of_parent hparent) (by omega)
        refine ⟨result, hresult, habove.trans hfrom, hto, .inr ?_, fun x hx hxBelow hlow => ?_⟩
        · rcases hend with rfl | hend
          · exact Nat.lt_of_not_le hscore
          · exact hend
        · -- The block itself, or one from the next block on.
          by_cases heq : x = chainBlock
          · exact heq ▸ hfrom
          · apply hpassed x _ hxBelow hlow
            rcases hnext.total hxBelow with hup | hdown
            · exact hup
            · rcases (Chain.ancestor_iff_of_parent hparent).mp hdown with rfl | hdown
              · exact .refl _
              · exact absurd (hdown.antisymm hchain.correct.rank_lt hx) heq

end Walk

/-! ## Less deep blocks -/

/-- Lower in the tree: what is above a block, or has it on its chain, is so for the lower
one. -/
structure Lower (stores : Stores Hash) (depths : BlockDepthManager Hash)
    (origin lower upper : Hash) : Prop where
  inPast : ∀ x, stores.Known x → x ≠ origin → stores.InPast upper x → stores.InPast lower x
  onChain : ∀ x, stores.Known x → x ≠ origin →
    depths.reachabilityService.isChainAncestorOf upper x = true →
      depths.reachabilityService.isChainAncestorOf lower x = true
  known : stores.Known lower

section Depth

variable (hordered : Ordered manager stores) (hchain : OnChain manager stores depths)

include hordered hchain

theorem lower_genesis (upper : Hash) :
    Lower stores depths manager.origin manager.genesisHash upper where
  inPast x hknown hx _ := hordered.genesis_inPast hx hknown
  onChain x hknown hx _ :=
    (hchain.isChainAncestorOf_iff hordered (.refl _) hknown hx).mpr
      (hchain.genesis_ancestor hordered hknown hx)
  known := by simp [Stores.Known, hordered.genesis_parents]

theorem lower_origin (upper : Hash) : Lower stores depths manager.origin manager.origin upper where
  inPast x hknown hx _ := hordered.origin_inPast hx hknown
  onChain x hknown _ _ := hchain.isChainAncestorOf_origin x hknown
  known := by simp [Stores.Known, hordered.origin_parents]

variable {selectedParent pruningPoint : Hash} (hknown : stores.Known selectedParent)
  (hne : selectedParent ≠ manager.origin) (hpruning : stores.Known pruningPoint)
  (hpruningNe : pruningPoint ≠ manager.origin)

include hne hpruning

theorem calculateBlockAtDepth_eq_of_stored {depthType : BlockDepthType} {stored : Hash}
    (hstored : depths.storedAt depthType selectedParent = some stored) (data : GhostdagData Hash)
    (hdata : data.selectedParent = selectedParent) :
    depths.calculateBlockAtDepth stores data depthType pruningPoint =
      if data.blueScore < depths.depthOf depthType then .ok manager.genesisHash
      else if data.blueScore < stores.scoreOf pruningPoint + depths.depthOf depthType ∨
          depths.reachabilityService.isChainAncestorOf pruningPoint selectedParent = false then
        .ok manager.origin
      else depths.walkToScore stores (data.blueScore - depths.depthOf depthType) selectedParent
        (chainFuel stores selectedParent)
        (if stored = manager.origin then pruningPoint else stored)
        (if stored = manager.origin then pruningPoint else stored) := by
  subst hdata
  have hscore := Stores.getBlueScore_eq_ok ((hordered.data_known pruningPoint).mpr hpruning)
  rw [BlockDepthManager.calculateBlockAtDepth, hchain.origin, hchain.genesis, if_neg hne, hscore,
    ok_bind, hstored, unwrap, ok_bind, ite_or]
  simp only [Bool.not_eq_true']

include hknown hpruningNe

variable (depthType : BlockDepthType)

/-- The start of the walk depends on the selected parent only. -/
theorem calculateBlockAtDepth_eq :
    ∃ start, depths.reachabilityService.ChainAncestor manager.genesisHash start ∧
      depths.reachabilityService.ChainAncestor start selectedParent ∧
      ∀ data : GhostdagData Hash, data.selectedParent = selectedParent →
        depths.calculateBlockAtDepth stores data depthType pruningPoint =
          if data.blueScore < depths.depthOf depthType then .ok manager.genesisHash
          else if data.blueScore < stores.scoreOf pruningPoint + depths.depthOf depthType ∨
              depths.reachabilityService.isChainAncestorOf pruningPoint selectedParent = false then
            .ok manager.origin
          else depths.walkToScore stores (data.blueScore - depths.depthOf depthType) selectedParent
            (chainFuel stores selectedParent) start start := by
  have hpruningBlock := hchain.genesis_ancestor hordered hpruning hpruningNe
  obtain ⟨stored, hstored, hcases⟩ := hchain.stored depthType selectedParent hknown hne
  have heq := calculateBlockAtDepth_eq_of_stored hordered hchain hne hpruning hstored
  cases hanswer : depths.reachabilityService.isChainAncestorOf pruningPoint selectedParent with
  | false =>
    refine ⟨selectedParent, hchain.genesis_ancestor hordered hknown hne, .refl _, ?_⟩
    intro data hdata
    simp [heq data hdata, hanswer]
  | true =>
    have hancestor := (hchain.isChainAncestorOf_iff hordered hpruningBlock hknown hne).mp hanswer
    refine ⟨if stored = manager.origin then pruningPoint else stored, ?_, ?_, ?_⟩
    · split
      · exact hpruningBlock
      next horigin => exact (hcases.resolve_left horigin).1
    · split
      · exact hancestor
      next horigin => exact (hcases.resolve_left horigin).2
    · intro data hdata
      rw [heq data hdata, hanswer]

omit hchain hpruning hpruningNe in
theorem chainFuel_gt (start : Hash) :
    chainRank manager stores selectedParent <
      chainFuel stores selectedParent + chainRank manager stores start := by
  obtain ⟨data, hdata⟩ := hordered.exists_data hknown
  rw [chainRank, if_neg hne, chainFuel, scoreOf_eq hdata, hdata, Option.elim_some]
  omega

theorem calculateBlockAtDepth_eq_ok {data : GhostdagData Hash}
    (hdata : data.selectedParent = selectedParent) :
    ∃ point, depths.calculateBlockAtDepth stores data depthType pruningPoint = .ok point ∧
      stores.Known point := by
  obtain ⟨start, hblock, hbelow, heq⟩ :=
    calculateBlockAtDepth_eq hordered hchain hknown hne hpruning hpruningNe depthType
  rw [heq data hdata]
  split_ifs
  · exact ⟨_, rfl, (lower_genesis hordered hchain manager.origin).known⟩
  · exact ⟨_, rfl, (lower_origin hordered hchain manager.origin).known⟩
  · obtain ⟨point, hpoint, hfrom, _⟩ :=
      walkToScore_spec hordered hchain hblock hbelow _ (.refl start)
      (chainFuel_gt hordered hknown hne start)
    exact ⟨point, hpoint, (hchain.known_of_ancestor hordered (hblock.trans hfrom)).1⟩

/-- With a smaller score, the block at a depth is lower. -/
theorem calculateBlockAtDepth_lower {data data' : GhostdagData Hash}
    (hdata : data.selectedParent = selectedParent) (hdata' : data'.selectedParent = selectedParent)
    (hscore : data'.blueScore ≤ data.blueScore) {point point' : Hash}
    (hpoint : depths.calculateBlockAtDepth stores data depthType pruningPoint = .ok point)
    (hpoint' : depths.calculateBlockAtDepth stores data' depthType pruningPoint = .ok point') :
    Lower stores depths manager.origin point' point := by
  obtain ⟨start, hblock, hbelow, heq⟩ :=
    calculateBlockAtDepth_eq hordered hchain hknown hne hpruning hpruningNe depthType
  rw [heq data' hdata'] at hpoint'
  split at hpoint'
  · rw [← Except.ok.inj hpoint']
    exact lower_genesis hordered hchain point
  next hdepth =>
    split at hpoint'
    · rw [← Except.ok.inj hpoint']
      exact lower_origin hordered hchain point
    next hchainPoint =>
      -- the other walk takes place too, from the same block
      have hfuel := chainFuel_gt hordered hknown hne start
      rw [not_or] at hchainPoint
      have hwalk : ¬ (data.blueScore < stores.scoreOf pruningPoint + depths.depthOf depthType ∨
          depths.reachabilityService.isChainAncestorOf pruningPoint selectedParent = false) :=
        not_or.mpr ⟨by omega, hchainPoint.2⟩
      rw [heq data hdata, if_neg (by omega), if_neg hwalk] at hpoint
      obtain ⟨lower, hlower, hfrom, hto, hend, _⟩ := walkToScore_spec hordered hchain hblock hbelow
        (data'.blueScore - depths.depthOf depthType) (.refl start) hfuel
      obtain ⟨upper, hupper, hfrom', _, _, hpassed⟩ :=
        walkToScore_spec hordered hchain hblock hbelow
        (data.blueScore - depths.depthOf depthType) (.refl start) hfuel
      cases hlower.symm.trans hpoint'
      cases hupper.symm.trans hpoint
      have hancestor : depths.reachabilityService.ChainAncestor point' point := by
        rcases hend with rfl | hlow
        · exact hfrom'
        · exact hpassed _ hfrom hto (by omega)
      have hbottom := hblock.trans hfrom
      refine ⟨fun x _ _ => (hchain.inPast_of_ancestor hordered hbottom hancestor).trans, ?_,
        (hchain.known_of_ancestor hordered hbottom).1⟩
      intro x hknown hx hanswer
      rw [hchain.isChainAncestorOf_iff hordered (hbottom.trans hancestor) hknown hx] at hanswer
      exact (hchain.isChainAncestorOf_iff hordered hbottom hknown hx).mpr (hancestor.trans hanswer)

end Depth

/-! ## Walking the stored data -/

/-- The parents of the tree, as GHOSTDAG stored them. -/
def storedParent (manager : GhostdagManager Hash) (stores : Stores Hash) (x : Hash) : Option Hash :=
  if x = manager.origin then none
  else (stores.ghostdag.lookup x).map GhostdagData.selectedParent

/-- The service that walks the stored selected parents. -/
def chainService (manager : GhostdagManager Hash) (stores : Stores Hash) :
    ReachabilityService Hash :=
  .walking manager.origin (storedParent manager stores) (chainRank manager stores)

theorem storedParent_iff (x parent : Hash) : storedParent manager stores x = some parent ↔
    x ≠ manager.origin ∧ ∃ data, stores.ghostdag.lookup x = some data ∧
      data.selectedParent = parent := by
  rw [storedParent]
  split
  next heq => simp [heq]
  next hne => simp [hne]

theorem chainRank_lt (hordered : Ordered manager stores) (x y : Hash)
    (hparent : storedParent manager stores y = some x) :
    chainRank manager stores x < chainRank manager stores y := by
  obtain ⟨hy, data, hdata, rfl⟩ := (storedParent_iff y x).mp hparent
  rw [chainRank, chainRank]
  split
  · exact Nat.succ_pos _
  next hne =>
    have hgenesis : y ≠ manager.genesisHash := by
      rintro rfl
      cases hordered.genesis_data.symm.trans hdata
      exact hne rfl
    have hlt := hordered.scoreOf_selectedParent_lt hy hgenesis hdata
    omega

theorem onChain_chainService (hordered : Ordered manager stores)
    (hgenesis : depths.genesisHash = manager.genesisHash)
    (hservice : depths.reachabilityService = chainService manager stores)
    (hstored : ∀ depthType x, stores.Known x → x ≠ manager.origin →
      depths.storedAt depthType x = some manager.origin ∨
        depths.storedAt depthType x = some manager.genesisHash) :
    OnChain manager stores depths := by
  have hroot : storedParent manager stores manager.genesisHash = some manager.origin :=
    (storedParent_iff _ _).mpr ⟨manager.genesis_ne_origin, _, hordered.genesis_data, rfl⟩
  have hcorrect := ReachabilityService.walking_correct (chainRank_lt hordered) hroot
  have hancestor : ∀ x, stores.Known x → x ≠ manager.origin →
      Chain.Ancestor (storedParent manager stores) manager.genesisHash x :=
    fun x => ancestor_genesis hordered fun x data hx hdata =>
      (storedParent_iff x _).mpr ⟨hx, data, hdata, rfl⟩
  exact {
    genesis := hgenesis
    origin := by rw [hservice]; rfl
    parent_iff := by rw [hservice]; exact storedParent_iff
    correct := by rw [hservice]; exact hcorrect
    isChainAncestorOf_origin := by
      intro x hknown
      rw [hservice]
      refine (Chain.reaches_iff (chainRank_lt hordered) le_rfl).mpr ?_
      by_cases hx : x = manager.origin
      · rw [hx]
        exact .refl _
      · exact (Chain.Ancestor.of_parent hroot).trans (hancestor x hknown hx)
    stored := by
      intro depthType x hknown hx
      rcases hstored depthType x hknown hx with horigin | hgenesis
      · exact ⟨_, horigin, .inl rfl⟩
      · rw [hservice]
        exact ⟨_, hgenesis, .inr ⟨.refl _, hancestor x hknown hx⟩⟩ }

end Qaspa.Depth
