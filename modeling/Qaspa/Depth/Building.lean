import Qaspa.Depth.Manager

/-! # Blocks at a depth while the pruning point moves

Headers are processed one at a time, each with the pruning point of the moment, and the merge
depth root and the finality point of each are stored for its children. A stored point that is
not the origin is deep enough below its block, so that the walk from it finds the block at the
depth of the child. If the origin is stored, the walk starts from the pruning point, which may
be exactly as deep as required and then is not below that.
-/

namespace Qaspa.Depth

open Ghostdag Outcome Reachability BlockDepthManager

variable {Hash : Type} [LinearOrder Hash]

/-! ## Processing headers -/

/-- The service answers for the tree of selected parents. -/
structure Serves (manager : GhostdagManager Hash) (stores : Stores Hash)
    (service : ReachabilityService Hash) : Prop where
  origin : service.origin = manager.origin
  parent_iff : ∀ x parent, service.getChainParent x = some parent ↔
    x ≠ manager.origin ∧ ∃ data, stores.ghostdag.lookup x = some data ∧ data.selectedParent = parent
  correct : service.ChainCorrect manager.genesisHash (chainRank manager stores)
  isChainAncestorOf_origin : ∀ x, stores.Known x → service.isChainAncestorOf manager.origin x = true

namespace BlockDepthManager

/-- The manager after the genesis block has been processed. -/
def initial (manager : GhostdagManager Hash) (mergeDepth finalityDepth : Nat)
    (service : ReachabilityService Hash) : BlockDepthManager Hash where
  mergeDepth := mergeDepth
  finalityDepth := finalityDepth
  genesisHash := manager.genesisHash
  mergeDepthRoot x := if x = manager.genesisHash then some manager.origin else none
  finalityPoint x := if x = manager.genesisHash then some manager.origin else none
  reachabilityService := service

/-- Store what the check of a header returned. -/
def commit (self : BlockDepthManager Hash) (hash : Hash) (points : Hash × Hash)
    (service : ReachabilityService Hash) : BlockDepthManager Hash :=
  { self with
    mergeDepthRoot := Function.update self.mergeDepthRoot hash (some points.1)
    finalityPoint := Function.update self.finalityPoint hash (some points.2)
    reachabilityService := service }

end BlockDepthManager

/-- What a node reaches that processes headers, with its pruning point. The pruning point moves
up the tree only. -/
inductive Processed (manager : GhostdagManager Hash)
    (maxBlockParents mergeDepth finalityDepth : Nat) :
    Stores Hash → BlockDepthManager Hash → Hash → Prop
  | init (target : Hash → Nat) (isDagAncestorOf : Hash → Hash → Bool)
      (service : ReachabilityService Hash)
      (horacle : (manager.initialStores target isDagAncestorOf).OracleCorrect)
      (hserves : Serves manager (manager.initialStores target isDagAncestorOf) service) :
      Processed manager maxBlockParents mergeDepth finalityDepth
        (manager.initialStores target isDagAncestorOf)
        (.initial manager mergeDepth finalityDepth service) manager.genesisHash
  | add {stores : Stores Hash} {depths : BlockDepthManager Hash} {pruningPoint : Hash}
      (hprocessed : Processed manager maxBlockParents mergeDepth finalityDepth stores depths
        pruningPoint)
      (hash : Hash) (parents : List Hash) (target : Nat) (data : GhostdagData Hash)
      (isDagAncestorOf : Hash → Hash → Bool) (service : ReachabilityService Hash)
      (points : Hash × Hash) (hfresh : ¬ stores.Known hash)
      (hchecked : manager.checkParents maxBlockParents stores parents = .ok ())
      (hghostdag : manager.ghostdag stores parents = .ok data)
      (hpoints : depths.checkBoundedMergeDepth stores data pruningPoint = .ok points)
      (horacle : (stores.commit hash parents target data isDagAncestorOf).OracleCorrect)
      (hserves : Serves manager (stores.commit hash parents target data isDagAncestorOf) service) :
      Processed manager maxBlockParents mergeDepth finalityDepth
        (stores.commit hash parents target data isDagAncestorOf)
        (depths.commit hash points service) pruningPoint
  | prune {stores : Stores Hash} {depths : BlockDepthManager Hash} {pruningPoint : Hash}
      (hprocessed : Processed manager maxBlockParents mergeDepth finalityDepth stores depths
        pruningPoint)
      (next : Hash) (hnext : stores.Known next)
      (habove : depths.reachabilityService.ChainAncestor pruningPoint next) :
      Processed manager maxBlockParents mergeDepth finalityDepth stores depths next

variable {manager : GhostdagManager Hash} {maxBlockParents mergeDepth finalityDepth : Nat}
  {stores : Stores Hash} {depths : BlockDepthManager Hash} {pruningPoint : Hash}

theorem Processed.built
    (hprocessed : Processed manager maxBlockParents mergeDepth finalityDepth stores depths
      pruningPoint) : Built manager maxBlockParents stores := by
  induction hprocessed with
  | init target isDagAncestorOf service horacle => exact .init target isDagAncestorOf horacle
  | add _ hash parents target data isDagAncestorOf _ _ hfresh hchecked hghostdag _ horacle _ ih =>
    exact ih.add hash parents target data isDagAncestorOf hfresh hchecked hghostdag horacle
  | prune _ _ _ _ ih => exact ih

/-! ## The block at a depth -/

/-- The highest block of a chain with a score below the required one, or genesis if there is
none. -/
structure HighestBelow (manager : GhostdagManager Hash) (stores : Stores Hash) (tip : Hash)
    (required : Nat) (point : Hash) : Prop where
  above : Chain.Ancestor (storedParent manager stores) manager.genesisHash point
  below : Chain.Ancestor (storedParent manager stores) point tip
  score : stores.scoreOf point < required ∨ point = manager.genesisHash
  highest : ∀ x, Chain.Ancestor (storedParent manager stores) manager.genesisHash x →
    Chain.Ancestor (storedParent manager stores) x tip → stores.scoreOf x < required →
    Chain.Ancestor (storedParent manager stores) x point

/-- There is only one such block. -/
theorem HighestBelow.unique (hordered : Ordered manager stores) {tip : Hash} {required : Nat}
    {point other : Hash} (hpoint : HighestBelow manager stores tip required point)
    (hother : HighestBelow manager stores tip required other) : point = other := by
  have hle : ∀ {lower upper}, HighestBelow manager stores tip required lower →
      HighestBelow manager stores tip required upper →
      Chain.Ancestor (storedParent manager stores) lower upper := by
    intro lower upper hlower hupper
    rcases hlower.score with hscore | rfl
    · exact hupper.highest lower hlower.above hlower.below hscore
    · exact hupper.above
  exact (hle hpoint hother).antisymm (chainRank_lt hordered) (hle hother hpoint)

variable {service : ReachabilityService Hash}

theorem Serves.getChainParent_eq (hserves : Serves manager stores service) :
    service.getChainParent = storedParent manager stores := by
  funext x
  apply Option.ext
  intro parent
  rw [hserves.parent_iff, storedParent_iff]

/-! ## Stored points -/

/-- A point stored for a block with some score: the origin, or a block of its chain that is
deep enough, unless it is genesis. -/
def Deep (manager : GhostdagManager Hash) (stores : Stores Hash) (depth : Nat) (tip : Hash)
    (blueScore : Nat) (point : Hash) : Prop :=
  point = manager.origin ∨
    (Chain.Ancestor (storedParent manager stores) manager.genesisHash point ∧
      Chain.Ancestor (storedParent manager stores) point tip ∧
      (point = manager.genesisHash ∨ stores.scoreOf point + depth ≤ blueScore))

/-- What holds while headers are processed. -/
structure Maintained (manager : GhostdagManager Hash) (mergeDepth finalityDepth : Nat)
    (stores : Stores Hash) (depths : BlockDepthManager Hash) (pruningPoint : Hash) : Prop where
  serves : Serves manager stores depths.reachabilityService
  genesis : depths.genesisHash = manager.genesisHash
  mergeDepth_eq : depths.mergeDepth = mergeDepth
  finalityDepth_eq : depths.finalityDepth = finalityDepth
  stored : ∀ depthType x, stores.Known x → x ≠ manager.origin → ∃ point,
    depths.storedAt depthType x = some point ∧
      Deep manager stores (depths.depthOf depthType) x (stores.scoreOf x) point
  pruning_known : stores.Known pruningPoint
  pruning_ne_origin : pruningPoint ≠ manager.origin

theorem Maintained.onChain
    (hmaintained : Maintained manager mergeDepth finalityDepth stores depths pruningPoint) :
    OnChain manager stores depths where
  genesis := hmaintained.genesis
  origin := hmaintained.serves.origin
  parent_iff := hmaintained.serves.parent_iff
  correct := hmaintained.serves.correct
  isChainAncestorOf_origin := hmaintained.serves.isChainAncestorOf_origin
  stored depthType x hknown hx := by
    obtain ⟨point, hpoint, hdeep⟩ := hmaintained.stored depthType x hknown hx
    refine ⟨point, hpoint, ?_⟩
    rw [ReachabilityService.ChainAncestor, hmaintained.serves.getChainParent_eq]
    exact hdeep.imp_right fun hdeep => ⟨hdeep.1, hdeep.2.1⟩

section Depth

variable {selectedParent : Hash} {data : GhostdagData Hash} (hordered : Ordered manager stores)
  (hmaintained : Maintained manager mergeDepth finalityDepth stores depths pruningPoint)

include hordered hmaintained

/-- The walk up from a block that is deep enough. It finds the block at the depth if and only if its
start is below the required score. -/
theorem Maintained.walk (hknown : stores.Known selectedParent)
    (hne : selectedParent ≠ manager.origin) {start : Hash} {depth blueScore : Nat}
    (hdepth : depth ≤ blueScore)
    (habove : Chain.Ancestor (storedParent manager stores) manager.genesisHash start)
    (hbelow : Chain.Ancestor (storedParent manager stores) start selectedParent)
    (hlow : start = manager.genesisHash ∨ stores.scoreOf start + depth ≤ blueScore) :
    ∃ point, depths.walkToScore stores (blueScore - depth) selectedParent
        (GhostdagManager.chainFuel stores selectedParent) start start = .ok point ∧
      Deep manager stores depth selectedParent blueScore point ∧
      point ≠ manager.origin ∧
      (HighestBelow manager stores selectedParent (blueScore - depth) point ↔
        start = manager.genesisHash ∨ stores.scoreOf start < blueScore - depth) := by
  have hchain := hmaintained.onChain
  have hparent := hmaintained.serves.getChainParent_eq
  have hfuel := chainFuel_gt hordered hknown hne start
  rw [← hparent] at habove hbelow
  obtain ⟨point, hpoint, hfrom, hto, hend, hpassed⟩ :=
    walkToScore_spec hordered hchain habove hbelow (blueScore - depth) (.refl start) hfuel
  have hscore := hchain.scoreOf_le_of_ancestor hordered habove hfrom
  have horigin := (hchain.known_of_ancestor hordered (habove.trans hfrom)).2
  simp only [ReachabilityService.ChainAncestor, hparent] at habove hbelow hfrom hto hpassed
  refine ⟨point, hpoint, .inr ⟨habove.trans hfrom, hto, ?_⟩, horigin, fun hhighest => ?_,
    fun hstart => ⟨habove.trans hfrom, hto, ?_, fun x hx hxBelow hxLow => ?_⟩⟩
  · rcases hend with rfl | hend
    · exact hlow
    · exact .inr (by omega)
  · rcases hhighest.score with hlt | rfl
    · exact .inr (hscore.trans_lt hlt)
    · exact .inl (hfrom.antisymm (chainRank_lt hordered) habove)
  · rcases hend with rfl | hend
    · exact hstart.symm
    · exact .inl hend
  · rcases hxBelow.total hbelow with hdown | hup
    · exact hdown.trans hfrom
    · exact hpassed x hup hxBelow hxLow

/-- A walk that would start from a pruning point which is exactly as deep as required. -/
def AtBoundary (manager : GhostdagManager Hash) (stores : Stores Hash)
    (depths : BlockDepthManager Hash) (data : GhostdagData Hash) (depthType : BlockDepthType)
    (pruningPoint : Hash) : Prop :=
  depths.storedAt depthType data.selectedParent = some manager.origin ∧
    pruningPoint ≠ manager.genesisHash ∧
    depths.reachabilityService.isChainAncestorOf pruningPoint data.selectedParent = true ∧
    data.blueScore = stores.scoreOf pruningPoint + depths.depthOf depthType

/-- The result is the block at the depth, unless the walk started from a pruning point that is
exactly as deep as required. -/
theorem Maintained.calculateBlockAtDepth_eq_ok (hknown : stores.Known data.selectedParent)
    (hne : data.selectedParent ≠ manager.origin)
    (hscore : stores.scoreOf data.selectedParent < data.blueScore) (depthType : BlockDepthType) :
    ∃ point, depths.calculateBlockAtDepth stores data depthType pruningPoint = .ok point ∧
      Deep manager stores (depths.depthOf depthType) data.selectedParent data.blueScore point ∧
      (depths.depthOf depthType ≤ data.blueScore →
        (point = manager.origin ∧
          (data.blueScore < stores.scoreOf pruningPoint + depths.depthOf depthType ∨
            depths.reachabilityService.isChainAncestorOf pruningPoint
              data.selectedParent = false)) ∨
        point ≠ manager.origin ∧
          (HighestBelow manager stores data.selectedParent
              (data.blueScore - depths.depthOf depthType) point ↔
            ¬ AtBoundary manager stores depths data depthType pruningPoint)) := by
  have hchain := hmaintained.onChain
  have hparent := hmaintained.serves.getChainParent_eq
  obtain ⟨stored, hstored, hdeep⟩ := hmaintained.stored depthType data.selectedParent hknown hne
  have hgenesis := hchain.genesis_ancestor hordered hknown hne
  rw [calculateBlockAtDepth_eq_of_stored hordered hchain hne hmaintained.pruning_known hstored data
    rfl]
  split_ifs with hdepth hnone horigin
  · refine ⟨_, rfl, .inr ⟨.refl _, ?_, .inl rfl⟩, fun hdeep => absurd hdepth (by omega)⟩
    rwa [ReachabilityService.ChainAncestor, hparent] at hgenesis
  · exact ⟨_, rfl, .inl rfl, fun _ => .inl ⟨rfl, hnone⟩⟩
  · -- The walk starts from the pruning point.
    obtain ⟨hpruning, hanswer⟩ := not_or.mp hnone
    have hpruningBlock := hchain.genesis_ancestor hordered hmaintained.pruning_known
      hmaintained.pruning_ne_origin
    have hancestor := (hchain.isChainAncestorOf_iff hordered hpruningBlock hknown hne).mp
      (by simpa using hanswer)
    rw [ReachabilityService.ChainAncestor, hparent] at hpruningBlock hancestor
    obtain ⟨point, hpoint, hpointDeep, hpointNe, hhighest⟩ := hmaintained.walk hordered hknown hne
      (Nat.le_of_not_lt hdepth) hpruningBlock hancestor (.inr (Nat.le_of_not_lt hpruning))
    refine ⟨point, hpoint, hpointDeep, fun _ => .inr ⟨hpointNe, hhighest.trans ?_⟩⟩
    have hanswer : depths.reachabilityService.isChainAncestorOf pruningPoint
        data.selectedParent = true := by simpa using hanswer
    simp only [AtBoundary, hstored, horigin, hanswer, true_and, not_and_or, not_not]
    exact or_congr_right (by omega)
  · obtain ⟨habove, hbelow, hlow⟩ := hdeep.resolve_left horigin
    obtain ⟨point, hpoint, hpointDeep, hpointNe, hhighest⟩ := hmaintained.walk hordered hknown hne
      (Nat.le_of_not_lt hdepth) habove hbelow (hlow.imp_right fun hle => by omega)
    refine ⟨point, hpoint, hpointDeep, fun _ => .inr ⟨hpointNe, hhighest.trans ?_⟩⟩
    refine iff_of_true (hlow.imp_right fun hle => by omega) fun hboundary => horigin ?_
    exact Option.some.inj (hstored.symm.trans hboundary.1)

end Depth

/-! ## The points stay deep -/

section Commit

variable {hash x : Hash} {parents : List Hash} {target : Nat} {data : GhostdagData Hash}
  {isDagAncestorOf : Hash → Hash → Bool} (hordered : Ordered manager stores)
  (hfresh : ¬ stores.Known hash)

include hordered hfresh

theorem ancestor_commit {y : Hash} (hancestor : Chain.Ancestor (storedParent manager stores) x y) :
    Chain.Ancestor
      (storedParent manager (stores.commit hash parents target data isDagAncestorOf)) x y := by
  induction hancestor with
  | refl => exact .refl x
  | tail _ hparent ih =>
    obtain ⟨hne, found, hfound, heq⟩ := (storedParent_iff _ _).mp hparent
    have hextension : stores.Extension (stores.commit hash parents target data isDagAncestorOf) :=
      commit_extension hfresh
    have hdata := hextension.data _ (hordered.known_of_lookup hfound)
    exact ih.tail ((storedParent_iff _ _).mpr ⟨hne, found, hdata.trans hfound, heq⟩)

omit hfresh in
theorem known_of_genesis_ancestor
    (hancestor : Chain.Ancestor (storedParent manager stores) manager.genesisHash x) :
    stores.Known x := by
  by_cases heq : manager.genesisHash = x
  · subst heq
    simp [Stores.Known, hordered.genesis_parents]
  · obtain ⟨parent, hparent, _⟩ := hancestor.exists_parent heq
    obtain ⟨_, found, hfound, _⟩ := (storedParent_iff x parent).mp hparent
    exact hordered.known_of_lookup hfound

/-- A later block does not change what is deep enough. -/
theorem Deep.commit {depth blueScore : Nat} {tip point : Hash}
    (hdeep : Deep manager stores depth tip blueScore point) :
    Deep manager (stores.commit hash parents target data isDagAncestorOf) depth tip blueScore
      point := by
  rcases hdeep with horigin | ⟨habove, hbelow, hlow⟩
  · exact .inl horigin
  · have hextension : stores.Extension (stores.commit hash parents target data isDagAncestorOf) :=
      commit_extension hfresh
    refine .inr ⟨ancestor_commit hordered hfresh habove, ancestor_commit hordered hfresh hbelow, ?_⟩
    rwa [hextension.scoreOf (known_of_genesis_ancestor hordered habove)]

/-- The points of the new block are deep below it. -/
theorem Deep.commit_self (hne : hash ≠ manager.origin) {depth : Nat} {point : Hash}
    (hdeep : Deep manager stores depth data.selectedParent data.blueScore point) :
    Deep manager (stores.commit hash parents target data isDagAncestorOf) depth hash
      ((stores.commit hash parents target data isDagAncestorOf).scoreOf hash) point := by
  have hlookup : (stores.commit hash parents target data isDagAncestorOf).ghostdag.lookup hash =
      some data := AList.lookup_insert _
  rw [scoreOf_eq hlookup]
  rcases hdeep.commit hordered hfresh with horigin | ⟨habove, hbelow, hlow⟩
  · exact .inl horigin
  · refine .inr ⟨habove, hbelow.trans (.of_parent ?_), hlow⟩
    exact (storedParent_iff _ _).mpr ⟨hne, data, hlookup, rfl⟩

end Commit

variable {data : GhostdagData Hash}

variable {isDagAncestorOf : Hash → Hash → Bool}

theorem Maintained.init {target : Hash → Nat}
    (hserves : Serves manager (manager.initialStores target isDagAncestorOf) service) :
    Maintained manager mergeDepth finalityDepth (manager.initialStores target isDagAncestorOf)
      (.initial manager mergeDepth finalityDepth service) manager.genesisHash where
  serves := hserves
  genesis := rfl
  mergeDepth_eq := rfl
  finalityDepth_eq := rfl
  stored depthType x hknown hne := by
    have hgenesis : x = manager.genesisHash := by
      by_contra hnot
      simp [Stores.Known, lookup_relations_initialStores, hnot, hne] at hknown
    refine ⟨manager.origin, ?_, .inl rfl⟩
    cases depthType <;> exact if_pos hgenesis
  pruning_known := by simp [Stores.Known, lookup_relations_initialStores]
  pruning_ne_origin := manager.genesis_ne_origin

section

variable {parents : List Hash} (hordered : Ordered manager stores)
  (hchecked : manager.checkParents maxBlockParents stores parents = .ok ())
  (hghostdag : manager.ghostdag stores parents = .ok data)

include hordered hchecked hghostdag

/-- The selected parent of new data is a known block with a smaller score. -/
theorem selectedParent_of_ghostdag :
    stores.Known data.selectedParent ∧ data.selectedParent ≠ manager.origin ∧
      stores.scoreOf data.selectedParent < data.blueScore := by
  have hparents := checkParents_eq_ok hordered.oracle hchecked
  obtain ⟨mergeset, blues, hselection, hblues, -, -, -, hscore, -⟩ :=
    ghostdag_eq_ok hordered hparents hghostdag
  refine ⟨hparents.known _ hselection.mem, hparents.ne_origin _ hselection.mem, ?_⟩
  rw [hscore, hblues, List.length_cons]
  omega

theorem Maintained.add
    (hmaintained : Maintained manager mergeDepth finalityDepth stores depths pruningPoint)
    {hash : Hash} {target : Nat} {points : Hash × Hash} (hfresh : ¬ stores.Known hash)
    (hpoints : depths.checkBoundedMergeDepth stores data pruningPoint = .ok points)
    (hserves : Serves manager (stores.commit hash parents target data isDagAncestorOf) service) :
    Maintained manager mergeDepth finalityDepth
      (stores.commit hash parents target data isDagAncestorOf)
      (depths.commit hash points service) pruningPoint := by
  obtain ⟨hknown, hne, hscore⟩ := selectedParent_of_ghostdag hordered hchecked hghostdag
  obtain ⟨root, hroot, hrootDeep, _⟩ :=
    hmaintained.calculateBlockAtDepth_eq_ok hordered hknown hne hscore .mergeRoot
  obtain ⟨finality, hfinality, hfinalityDeep, _⟩ :=
    hmaintained.calculateBlockAtDepth_eq_ok hordered hknown hne hscore .finality
  -- the check of a header returns both points
  rw [checkBoundedMergeDepth, calcMergeDepthRoot, hroot,
    calcFinalityPoint, hfinality, widen_ok, ok_bind] at hpoints
  obtain ⟨-, hpoints⟩ := ite_error_eq_ok.mp hpoints
  cases hpoints
  have hextension : stores.Extension (stores.commit hash parents target data isDagAncestorOf) :=
    commit_extension hfresh
  refine ⟨hserves, hmaintained.genesis, hmaintained.mergeDepth_eq, hmaintained.finalityDepth_eq,
    ?_, known_commit.mpr (.inr hmaintained.pruning_known), hmaintained.pruning_ne_origin⟩
  intro depthType x hx hxne
  by_cases heq : x = hash
  · subst heq
    cases depthType with
    | mergeRoot =>
      exact ⟨root, Function.update_self _ _ _, hrootDeep.commit_self hordered hfresh hxne⟩
    | finality =>
      exact ⟨finality, Function.update_self _ _ _, hfinalityDeep.commit_self hordered hfresh hxne⟩
  · have hold : stores.Known x := by
      rcases known_commit.mp hx with hsame | hold
      · exact absurd hsame heq
      · exact hold
    obtain ⟨point, hpoint, hpointDeep⟩ := hmaintained.stored depthType x hold hxne
    refine ⟨point, ?_, ?_⟩
    · cases depthType <;> exact (Function.update_of_ne heq _ _).trans hpoint
    · rw [hextension.scoreOf hold]
      cases depthType <;> exact hpointDeep.commit hordered hfresh

end

theorem Processed.maintained
    (hprocessed : Processed manager maxBlockParents mergeDepth finalityDepth stores depths
      pruningPoint) : Maintained manager mergeDepth finalityDepth stores depths pruningPoint := by
  induction hprocessed with
  | init target isDagAncestorOf service horacle hserves => exact .init hserves
  | add hbefore hash parents target data isDagAncestorOf service points hfresh hchecked hghostdag
      hpoints horacle hserves ih =>
      exact ih.add hbefore.built.ordered hchecked hghostdag hfresh hpoints hserves
  | prune hbefore next hnext habove ih =>
    have hordered := hbefore.built.ordered
    have hpruning := ih.onChain.genesis_ancestor hordered ih.pruning_known ih.pruning_ne_origin
    have hne := (ih.onChain.known_of_ancestor hordered (hpruning.trans habove)).2
    exact { ih with pruning_known := hnext, pruning_ne_origin := hne }

/-- The block at a depth does not depend on the pruning points that headers were processed with, if
and only if the walk does not start from one that is exactly as deep as required. -/
theorem calculateBlockAtDepth_highest
    (hprocessed : Processed manager maxBlockParents mergeDepth finalityDepth stores depths
      pruningPoint) {parents : List Hash} {data : GhostdagData Hash}
    (hchecked : manager.checkParents maxBlockParents stores parents = .ok ())
    (hghostdag : manager.ghostdag stores parents = .ok data) (depthType : BlockDepthType)
    (hdepth : depths.depthOf depthType ≤ data.blueScore) :
    ∃ point, depths.calculateBlockAtDepth stores data depthType pruningPoint = .ok point ∧
      ((point ≠ manager.origin →
        HighestBelow manager stores data.selectedParent
          (data.blueScore - depths.depthOf depthType) point ∧
        ∀ neverPruned, Processed manager maxBlockParents mergeDepth finalityDepth stores
            neverPruned manager.genesisHash →
          neverPruned.calculateBlockAtDepth stores data depthType manager.genesisHash =
            .ok point) ↔
        ¬ AtBoundary manager stores depths data depthType pruningPoint) := by
  have hordered := hprocessed.built.ordered
  have hmaintained := hprocessed.maintained
  obtain ⟨hknown, hne, hscore⟩ := selectedParent_of_ghostdag hordered hchecked hghostdag
  obtain ⟨point, hpoint, -, hcases⟩ :=
    hmaintained.calculateBlockAtDepth_eq_ok hordered hknown hne hscore depthType
  refine ⟨point, hpoint, fun hcorrect hboundary => ?_, fun hboundary horigin => ?_⟩
  · rcases hcases hdepth with ⟨-, hlow | hanswer⟩ | ⟨horigin, hhighest⟩
    · exact hlow.ne hboundary.2.2.2
    · cases hanswer.symm.trans hboundary.2.2.1
    · exact hhighest.mp (hcorrect horigin).1 hboundary
  have hhighest := ((hcases hdepth).resolve_left fun hnone => horigin hnone.1).2.mpr hboundary
  refine ⟨hhighest, fun neverPruned hneverPruned => ?_⟩
  have hmaintained' := hneverPruned.maintained
  have hdepthEq : neverPruned.depthOf depthType = depths.depthOf depthType := by
    cases depthType with
    | mergeRoot => exact hmaintained'.mergeDepth_eq.trans hmaintained.mergeDepth_eq.symm
    | finality => exact hmaintained'.finalityDepth_eq.trans hmaintained.finalityDepth_eq.symm
  obtain ⟨other, hother, -, hotherCases⟩ :=
    hmaintained'.calculateBlockAtDepth_eq_ok hordered hknown hne hscore depthType
  rw [hdepthEq] at hotherCases
  -- with genesis as the pruning point, the block at the depth is always found
  have hotherCase := (hotherCases hdepth).resolve_left <| by
    rintro ⟨-, hlow | hanswer⟩
    · rw [scoreOf_eq hordered.genesis_data] at hlow
      simp only [GhostdagManager.genesisGhostdagData] at hlow
      omega
    · have htrue := (hmaintained'.onChain.isChainAncestorOf_iff hordered (.refl _) hknown hne).mpr
        (hmaintained'.onChain.genesis_ancestor hordered hknown hne)
      rw [hanswer] at htrue
      cases htrue
  have hotherHighest := hotherCase.2.mpr fun hboundary => hboundary.2.1 rfl
  rw [hother, hotherHighest.unique hordered hhighest]

/-! ## A chain of blocks

Four blocks above genesis, each the only parent of the next one, and a depth of two. The pruning
point moves to block 3 before block 4 is processed, for which nothing is known then. -/

theorem serves_chainService (hordered : Ordered manager stores) :
    Serves manager stores (chainService manager stores) := by
  have hchain : OnChain manager stores ⟨0, 0, manager.genesisHash, fun _ => some manager.origin,
      fun _ => some manager.origin, chainService manager stores⟩ :=
    onChain_chainService hordered rfl rfl fun depthType _ _ _ => .inl (by cases depthType <;> rfl)
  exact ⟨hchain.origin, hchain.parent_iff, hchain.correct, hchain.isChainAncestorOf_origin⟩

/-- A step of a sample. -/
theorem Processed.commitSample {manager : GhostdagManager Nat} {stores : Stores Nat}
    {depths : BlockDepthManager Nat} {pruningPoint : Nat}
    (hprocessed : Processed manager maxBlockParents mergeDepth finalityDepth stores depths
      pruningPoint) {hash : Nat} {parents : List Nat} {data : GhostdagData Nat}
    {points : Nat × Nat} (hfresh : stores.relations.lookup hash = none)
    (hchecked : manager.checkParents maxBlockParents stores parents = .ok ())
    (hghostdag : manager.ghostdag stores parents = .ok data)
    (hpoints : depths.checkBoundedMergeDepth stores data pruningPoint = .ok points) :
    Processed manager maxBlockParents mergeDepth finalityDepth
      (stores.commitSample hash parents data)
      (depths.commit hash points (chainService manager (stores.commitSample hash parents data)))
      pruningPoint := by
  have hordered := hprocessed.built.ordered
  have horacle : (stores.commitSample hash parents data).OracleCorrect :=
    oracleCorrect_searchService
      (closed_commit (checkParents_eq_ok hordered.oracle hchecked) hordered.closed) rfl
  have hbuilt : Built manager maxBlockParents (stores.commitSample hash parents data) :=
    hprocessed.built.commitSample hfresh hchecked hghostdag
  exact hprocessed.add hash parents sampleTarget data _ _ points (by simp [Stores.Known, hfresh])
    hchecked hghostdag hpoints horacle (serves_chainService hbuilt.ordered)

def linkData (parent score : Nat) : GhostdagData Nat :=
  ⟨score, 2 * score, parent, [parent], [], (∅ : HashMap Nat Nat).insert parent 0⟩

def chainOne : Stores Nat := sampleGenesis.commitSample 2 [1] (linkData 1 1)

def chainTwo : Stores Nat := chainOne.commitSample 3 [2] (linkData 2 2)

def chainThree : Stores Nat := chainTwo.commitSample 4 [3] (linkData 3 3)

def chainFour : Stores Nat := chainThree.commitSample 5 [4] (linkData 4 4)

/-- The manager after two blocks, processed with genesis as the pruning point. -/
def depthsTwo : BlockDepthManager Nat :=
  ((BlockDepthManager.initial sampleManager 2 2 (chainService sampleManager sampleGenesis)).commit 2
    (1, 1) (chainService sampleManager chainOne)).commit 3 (1, 1)
    (chainService sampleManager chainTwo)

theorem processed_chainTwo : Processed sampleManager 10 2 2 chainTwo depthsTwo 1 := by
  have hgenesis : Processed sampleManager 10 2 2 sampleGenesis
      (.initial sampleManager 2 2 (chainService sampleManager sampleGenesis)) 1 :=
    .init _ _ _ (oracleCorrect_searchService closed_initialStores rfl)
      (serves_chainService built_sampleGenesis.ordered)
  exact (hgenesis.commitSample rfl rfl rfl rfl).commitSample rfl rfl rfl rfl

/-- The managers after three blocks, with the pruning point at block 3 and at genesis. -/
def prunedThree : BlockDepthManager Nat :=
  depthsTwo.commit 4 (0, 0) (chainService sampleManager chainThree)

def unprunedThree : BlockDepthManager Nat :=
  depthsTwo.commit 4 (1, 1) (chainService sampleManager chainThree)

theorem processed_prunedThree : Processed sampleManager 10 2 2 chainThree prunedThree 3 := by
  have habove : depthsTwo.reachabilityService.ChainAncestor 1 3 := by
    exact Chain.Ancestor.trans (y := 2) (.of_parent rfl) (.of_parent rfl)
  exact (processed_chainTwo.prune 3 rfl habove).commitSample rfl rfl rfl rfl

/-- Block 5 has score 4, and the pruning point has score 2. The walk starts there and does not
leave it, though its score is not below 2; a node that did not prune finds block 2. -/
theorem calculateBlockAtDepth_boundary :
    Processed sampleManager 10 2 2 chainThree prunedThree 3 ∧
      Processed sampleManager 10 2 2 chainThree unprunedThree 1 ∧
      sampleManager.checkParents 10 chainThree [4] = .ok () ∧
      sampleManager.ghostdag chainThree [4] = .ok (linkData 4 4) ∧
      chainThree.scoreOf 3 = 2 ∧
      ∀ depthType, prunedThree.calculateBlockAtDepth chainThree (linkData 4 4) depthType 3 = .ok 3 ∧
        unprunedThree.calculateBlockAtDepth chainThree (linkData 4 4) depthType 1 = .ok 2 := by
  refine ⟨processed_prunedThree, processed_chainTwo.commitSample rfl rfl rfl rfl, rfl, rfl, rfl,
    fun depthType => ?_⟩
  cases depthType <;> exact ⟨rfl, rfl⟩

def prunedFour : BlockDepthManager Nat :=
  prunedThree.commit 5 (3, 3) (chainService sampleManager chainFour)

/-- A child of block 5, for which block 3 was stored. -/
theorem calculateBlockAtDepth_highest_chainFour :
    prunedFour.calculateBlockAtDepth chainFour (linkData 5 5) .mergeRoot 3 = .ok 3 ∧
      HighestBelow sampleManager chainFour 5 3 3 := by
  have hchecked : sampleManager.checkParents 10 chainFour [5] = .ok () := rfl
  have hghostdag : sampleManager.ghostdag chainFour [5] = .ok (linkData 5 5) := rfl
  have hprocessed : Processed sampleManager 10 2 2 chainFour prunedFour 3 :=
    processed_prunedThree.commitSample rfl rfl rfl rfl
  obtain ⟨point, hpoint, hhighest⟩ := calculateBlockAtDepth_highest hprocessed hchecked hghostdag
    .mergeRoot (by decide)
  obtain rfl : 3 = point := Except.ok.inj hpoint
  exact ⟨rfl, (hhighest.mpr (fun hboundary => absurd hboundary.1 (by decide)) (by decide)).1⟩

end Qaspa.Depth
