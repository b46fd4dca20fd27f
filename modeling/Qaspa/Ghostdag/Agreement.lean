import Qaspa.Ghostdag.Mergeset

/-! # Agreement of two nodes

Two nodes add blocks in orders of their own, and each may know blocks that the other one has not
seen. They store the same GHOSTDAG data for every block that both of them know.
-/

namespace Qaspa.Ghostdag

open Dag Outcome GhostdagManager

variable {Hash : Type} [LinearOrder Hash] {manager : GhostdagManager Hash}
  {stores stores' : Stores Hash} {parentsOf : Hash → List Hash} {targetOf : Hash → Nat}
  {shared : Hash → Prop} {x y : Hash} {data : GhostdagData Hash}

/-- The parents and the target of a known block are those of its header. -/
structure Follows (parentsOf : Hash → List Hash) (targetOf : Hash → Nat) (stores : Stores Hash) :
    Prop where
  relations : Extends stores.relations.lookup fun x => some (parentsOf x)
  target : ∀ x, stores.Known x → stores.target x = targetOf x

theorem Follows.of_extension {later : Stores Hash} (hfollows : Follows parentsOf targetOf later)
    (hextension : stores.Extension later) : Follows parentsOf targetOf stores := by
  have hlater : ∀ x, stores.Known x → later.Known x := fun x hknown =>
    (congrArg Option.isSome (hextension.relations x hknown)).trans hknown
  refine ⟨fun x hknown => ?_, fun x hknown => ?_⟩
  · exact (hfollows.relations x (hlater x hknown)).trans (hextension.relations x hknown)
  · exact (hextension.target x hknown).symm.trans (hfollows.target x (hlater x hknown))

theorem Follows.commit (hfollows : Follows parentsOf targetOf stores) (hash : Hash)
    (isDagAncestorOf : Hash → Hash → Bool) : Follows parentsOf targetOf
      (stores.commit hash (parentsOf hash) (targetOf hash) data isDagAncestorOf) := by
  refine ⟨fun x hknown => ?_, fun x hknown => ?_⟩
  · by_cases hx : x = hash
    · subst hx
      exact (AList.lookup_insert stores.relations).symm
    · exact (hfollows.relations x ((known_commit.mp hknown).resolve_left hx)).trans
        (AList.lookup_insert_ne hx).symm
  · by_cases hx : x = hash
    · subst hx
      exact Function.update_self _ _ _
    · exact (Function.update_of_ne hx ..).trans
        (hfollows.target x ((known_commit.mp hknown).resolve_left hx))

/-- Two nodes that have the same data of the blocks above the origin that both know. -/
structure Agree (manager : GhostdagManager Hash) (parentsOf : Hash → List Hash)
    (targetOf : Hash → Nat) (stores stores' : Stores Hash) (shared : Hash → Prop) : Prop where
  ordered : Ordered manager stores
  ordered' : Ordered manager stores'
  follows : Follows parentsOf targetOf stores
  follows' : Follows parentsOf targetOf stores'
  ne_origin {x : Hash} : shared x → x ≠ manager.origin
  known {x : Hash} : shared x → stores.Known x
  known' {x : Hash} : shared x → stores'.Known x
  of_known {x : Hash} : x ≠ manager.origin → stores.Known x → stores'.Known x → shared x
  data {x : Hash} : shared x → stores.ghostdag.lookup x = stores'.ghostdag.lookup x

namespace Agree

variable (hagree : Agree manager parentsOf targetOf stores stores' shared)

include hagree

theorem inPast_iff (hy : shared y) : stores.InPast x y ↔ stores'.InPast x y := by
  have hpast := hagree.follows.relations.inPast_iff (x := x) hagree.ordered.closed (hagree.known hy)
  exact hpast.symm.trans
    (hagree.follows'.relations.inPast_iff hagree.ordered'.closed (hagree.known' hy))

theorem isDagAncestorOf_eq (hx : shared x) (hy : shared y) :
    stores.isDagAncestorOf x y = stores'.isDagAncestorOf x y := by
  rw [Bool.eq_iff_iff, hagree.ordered.oracle x y (hagree.known hx) (hagree.known hy),
    hagree.ordered'.oracle x y (hagree.known' hx) (hagree.known' hy)]
  exact hagree.inPast_iff hy

theorem blockKey_eq (hx : shared x) : stores.blockKey x = stores'.blockKey x := by
  rw [Stores.blockKey, Stores.blockKey, Stores.workOf, Stores.workOf, hagree.data hx]

/-- The blues of a shared block are shared. -/
theorem shared_blues (hx : shared x) (hdata : stores'.ghostdag.lookup x = some data) :
    ∀ blue ∈ data.mergesetBlues, shared blue := by
  intro blue hblue
  by_cases hgenesis : x = manager.genesisHash
  · subst hgenesis
    cases hagree.ordered'.genesis_data.symm.trans hdata
    cases hblue
  have hmem := List.mem_append_left data.mergesetReds hblue
  have hblock' := hagree.ordered'.block x data (hagree.ne_origin hx) hgenesis hdata
  have hblock := hagree.ordered.block x data (hagree.ne_origin hx) hgenesis
    ((hagree.data hx).trans hdata)
  refine hagree.of_known ?_
    (hblock.known_mergeset hagree.ordered.closed (hagree.known hx) blue hmem)
    (hblock'.known_mergeset hagree.ordered'.closed (hagree.known' hx) blue hmem)
  rintro rfl
  have hparent := hblock.selectedParent_parent
  have hne := hblock.parent_ne_origin _ hparent
  have hpast := hagree.ordered.origin_inPast hne (hagree.ordered.closed _ _ hparent)
  exact ((hblock.mem_mergeset _).mp hmem).2 ((Dag.inPast_iff.mp hpast).resolve_left hne.symm)

theorem shared_selectedParent (hx : shared x) (hgenesis : x ≠ manager.genesisHash)
    (hdata : stores'.ghostdag.lookup x = some data) : shared data.selectedParent := by
  have hblock := hagree.ordered'.block x data (hagree.ne_origin hx) hgenesis hdata
  exact hagree.shared_blues hx hdata _ (List.mem_of_mem_head? hblock.blues_head)

/-! ## The same runs -/

theorem chainFuel_eq (hx : shared x) : chainFuel stores x = chainFuel stores' x := by
  rw [chainFuel, chainFuel, hagree.data hx]

theorem blueAnticoneSize_eq (block : Hash) (hselected : shared data.selectedParent) :
    manager.blueAnticoneSize stores block data = manager.blueAnticoneSize stores' block data := by
  rw [blueAnticoneSize, blueAnticoneSize, hagree.chainFuel_eq hselected]
  generalize chainFuel stores' data.selectedParent = fuel
  generalize data.bluesAnticoneSizes = sizes
  generalize data.selectedParent = selected at hselected
  induction fuel generalizing sizes selected with
  | zero => rfl
  | succ fuel ih =>
    rw [blueAnticoneSizeFrom, blueAnticoneSizeFrom]
    cases sizes.lookup block with
    | some size => rfl
    | none =>
      dsimp only
      split_ifs with hend
      · rfl
      · rw [Stores.getData, Stores.getData, hagree.data hselected]
        cases hdata : stores'.ghostdag.lookup selected with
        | none => rfl
        | some next =>
          exact ih _ _ (hagree.shared_selectedParent hselected (fun heq => hend (.inl heq)) hdata)

section

variable {candidate : Hash} (hcandidate : shared candidate) (hselected : shared data.selectedParent)

include hcandidate hselected

theorem checkPeers_eq {peers : List Hash} (hpeers : ∀ peer ∈ peers, shared peer)
    (sizes : Candidate Hash) :
    manager.checkPeers stores data candidate peers sizes =
      manager.checkPeers stores' data candidate peers sizes := by
  induction peers generalizing sizes with
  | nil => rfl
  | cons peer peers ih =>
    obtain ⟨hpeer, hpeers⟩ := List.forall_mem_cons.mp hpeers
    simp only [checkPeers, hagree.isDagAncestorOf_eq hpeer hcandidate,
      hagree.blueAnticoneSize_eq peer hselected, ih hpeers]

/-- The walk ends at the genesis block at the latest, as every candidate is in its future. -/
theorem checkChain_eq (fuel : Nat) {chainHash : Option Hash} {chainData : GhostdagData Hash}
    (sizes : Candidate Hash) (hhash : ∀ hash ∈ chainHash, shared hash)
    (hblues : ∀ blue ∈ chainData.mergesetBlues, shared blue)
    (hnext : chainHash ≠ some manager.genesisHash → shared chainData.selectedParent) :
    manager.checkChain stores data candidate fuel chainHash chainData sizes =
      manager.checkChain stores' data candidate fuel chainHash chainData sizes := by
  induction fuel generalizing chainHash chainData sizes with
  | zero => rfl
  | succ fuel ih =>
    have hany : chainHash.any (stores.isDagAncestorOf · candidate) =
        chainHash.any (stores'.isDagAncestorOf · candidate) := by
      cases chainHash with
      | none => rfl
      | some hash => exact hagree.isDagAncestorOf_eq (hhash hash rfl) hcandidate
    rw [checkChain, checkChain, checkBlueCandidateWithChainBlock, checkBlueCandidateWithChainBlock,
      hany, hagree.checkPeers_eq hcandidate hselected hblues]
    cases hanswer : chainHash.any (stores'.isDagAncestorOf · candidate) with
    | true => rfl
    | false =>
      have hparent : shared chainData.selectedParent := by
        apply hnext
        rintro rfl
        have hknown := hagree.known' hcandidate
        have hpast := hagree.ordered'.genesis_inPast (hagree.ne_origin hcandidate) hknown
        have hgenesis := hagree.ordered'.closed.known_of_inPast hpast hknown
        rw [Option.any_some, (hagree.ordered'.oracle _ _ hgenesis hknown).mpr hpast] at hanswer
        cases hanswer
      cases manager.checkPeers stores' data candidate chainData.mergesetBlues sizes with
      | error => rfl
      | ok checked =>
        obtain ⟨state, sizes⟩ := checked
        cases state with
        | blue | red => rfl
        | pending =>
          simp only [Stores.getData, hagree.data hparent]
          cases hdata : stores'.ghostdag.lookup chainData.selectedParent with
          | none => rfl
          | some next =>
            refine ih sizes ?_ (hagree.shared_blues hparent hdata) fun hne =>
              hagree.shared_selectedParent hparent (fun heq => hne (congrArg some heq)) hdata
            rintro hash ⟨⟩
            exact hparent

end

theorem foldlM_colorCandidate_eq {candidates : List Hash}
    (hcandidates : ∀ candidate ∈ candidates, shared candidate)
    (hselected : shared data.selectedParent) (hblues : ∀ blue ∈ data.mergesetBlues, shared blue) :
    candidates.foldlM (manager.colorCandidate stores) data =
      candidates.foldlM (manager.colorCandidate stores') data := by
  induction candidates generalizing data with
  | nil => rfl
  | cons candidate candidates ih =>
    obtain ⟨hcandidate, hcandidates⟩ := List.forall_mem_cons.mp hcandidates
    have hcheck : manager.checkBlueCandidate stores data candidate =
        manager.checkBlueCandidate stores' data candidate := by
      rw [checkBlueCandidate, checkBlueCandidate, hagree.chainFuel_eq hselected,
        hagree.checkChain_eq hcandidate hselected _ _ (by simp) hblues fun _ => hselected]
    rw [List.foldlM_cons, List.foldlM_cons, colorCandidate, colorCandidate, hcheck]
    cases manager.checkBlueCandidate stores' data candidate with
    | error => rfl
    | ok output =>
      cases output with
      | red => exact ih hcandidates hselected hblues
      | blue size sizes =>
        refine ih hcandidates hselected fun blue hblue => ?_
        rcases List.mem_append.mp hblue with hblue | hblue
        · exact hblues blue hblue
        · exact List.mem_singleton.mp hblue ▸ hcandidate

section

variable {parents : List Hash} (hparents : ParentsOk manager stores parents)
  (hparents' : ParentsOk manager stores' parents)

include hparents hparents'

theorem shared_parent {parent : Hash} (hparent : parent ∈ parents) : shared parent :=
  hagree.of_known (hparents.ne_origin parent hparent) (hparents.known parent hparent)
    (hparents'.known parent hparent)

/-- The same parents select the same block and the same mergeset. -/
theorem selection_eq {selected selected' : Hash} {mergeset mergeset' : List Hash}
    (hselection : Selection stores parents selected mergeset)
    (hselection' : Selection stores' parents selected' mergeset') :
    selected = selected' ∧ mergeset = mergeset' ∧ ∀ block ∈ mergeset, shared block := by
  have hshared : ∀ parent ∈ parents, shared parent :=
    fun _ => hagree.shared_parent hparents hparents'
  have hselected := hshared selected hselection.mem
  have hle := hselection'.max selected hselection.mem
  rw [← hagree.blockKey_eq hselected, ← hagree.blockKey_eq (hshared _ hselection'.mem)] at hle
  obtain rfl : selected = selected' :=
    congrArg SortableBlock.hash (hle.antisymm (hselection.max selected' hselection'.mem))
  have hsame : ∀ block, block ∈ mergeset ↔ block ∈ mergeset' := by
    intro block
    rw [hselection.mem_mergeset, hselection'.mem_mergeset, hagree.inPast_iff hselected]
    exact and_congr_left' (exists_congr fun parent =>
      and_congr_right fun hparent => hagree.inPast_iff (hshared parent hparent))
  have hblocks : ∀ block ∈ mergeset, shared block := by
    intro block hblock
    refine hagree.of_known ?_ (hselection.known hagree.ordered hparents block hblock)
      (hselection'.known hagree.ordered' hparents' block ((hsame block).mp hblock))
    rintro rfl
    exact ((hselection.mem_mergeset _).mp hblock).2 (hagree.ordered.origin_inPast
      (hagree.ne_origin hselected) (hagree.known hselected))
  have hsorted : mergeset.Pairwise fun left right =>
      stores'.blockKey left < stores'.blockKey right :=
    hselection.sorted.imp_of_mem fun hleft hright hlt => by
      rwa [← hagree.blockKey_eq (hblocks _ hleft), ← hagree.blockKey_eq (hblocks _ hright)]
  refine ⟨rfl, ?_, hblocks⟩
  refine List.Perm.eq_of_pairwise (fun left right _ _ hlt hgt => absurd hgt hlt.asymm) hsorted
    hselection'.sorted ?_
  exact (List.perm_ext_iff_of_nodup hselection.nodup_mergeset hselection'.nodup_mergeset).mpr hsame

/-- GHOSTDAG returns the same data to both nodes. -/
theorem ghostdag_eq_ghostdag :
    manager.ghostdag stores parents = manager.ghostdag stores' parents := by
  obtain ⟨selected, mergeset, hselection, hrun⟩ := ghostdag_eq hagree.ordered hparents
  obtain ⟨selected', mergeset', hselection', hrun'⟩ := ghostdag_eq hagree.ordered' hparents'
  obtain ⟨rfl, rfl, hblocks⟩ := hagree.selection_eq hparents hparents' hselection hselection'
  have hselected := hagree.shared_parent hparents hparents' hselection.mem
  have hblues : ∀ blue ∈ [selected], shared blue := by simpa using hselected
  rw [hrun, hrun', ← hagree.foldlM_colorCandidate_eq hblocks hselected hblues]
  cases hfold : mergeset.foldlM (manager.colorCandidate stores)
    (.newWithSelectedParent selected) with
  | error => rfl
  | ok data =>
    obtain ⟨-, blues, -, hsplit, -, hsub, -⟩ := colored_of_foldlM hfold
    have hwork : ∀ blue ∈ data.mergesetBlues,
        manager.blockWork stores blue = manager.blockWork stores' blue := by
      intro blue hblue
      rw [hsplit] at hblue
      have hshared : shared blue := (List.mem_append.mp hblue).elim (hblues blue) fun hblue =>
        hblocks blue (hsub.subset hblue)
      rw [blockWork, blockWork, hagree.follows.target blue (hagree.known hshared),
        hagree.follows'.target blue (hagree.known' hshared)]
    simp only [ok_bind, finish, Stores.scoreOf, Stores.workOf, hagree.data hselected,
      List.map_congr_left hwork]

end

end Agree

/-- Every node starts with the data of the genesis block and of the origin. -/
theorem lookup_of_initial {target : Hash → Nat} {isDagAncestorOf : Hash → Hash → Bool}
    (hordered : Ordered manager stores)
    (hknown : (manager.initialStores target isDagAncestorOf).Known x) :
    (manager.initialStores target isDagAncestorOf).ghostdag.lookup x =
      stores.ghostdag.lookup x := by
  rw [Stores.Known, lookup_relations_initialStores] at hknown
  rw [lookup_ghostdag_initialStores]
  split_ifs at hknown ⊢ with hgenesis horigin
  · rw [hgenesis, hordered.genesis_data]
  · rw [horigin, hordered.origin_data]
  · cases hknown

/-- Two nodes that have added their blocks in any orders store the same data for every block that
both know. -/
theorem ghostdag_agreement {maxBlockParents : Nat} (hbuilt : Built manager maxBlockParents stores)
    (hbuilt' : Built manager maxBlockParents stores') (hfollows : Follows parentsOf targetOf stores)
    (hfollows' : Follows parentsOf targetOf stores') (hknown : stores.Known x)
    (hknown' : stores'.Known x) : stores.ghostdag.lookup x = stores'.ghostdag.lookup x := by
  induction hbuilt generalizing stores' x with
  | init => exact lookup_of_initial hbuilt'.ordered hknown
  | @add stores hbuilt hash parents target data isDagAncestorOf hfresh hchecked hghostdag horacle
        ih =>
    have hrest := hfollows.of_extension (commit_extension hfresh)
    by_cases hx : x = hash
    · subst hx
      have hadded :=
        hbuilt.add x parents target data isDagAncestorOf hfresh hchecked hghostdag horacle
      -- the other node added the block at some point, or has not added it yet
      induction hbuilt' with
      | init => exact (lookup_of_initial hadded.ordered hknown').symm
      | @add stores' hbuilt' hash parents' target' data' isDagAncestorOf' hfresh' hchecked'
            hghostdag'
          horacle' ih' =>
        have hrest' := hfollows'.of_extension (commit_extension hfresh')
        by_cases hx : x = hash
        · subst hx
          have hagree : Agree manager parentsOf targetOf stores stores'
              fun y => y ≠ manager.origin ∧ stores.Known y ∧ stores'.Known y :=
            ⟨hbuilt.ordered, hbuilt'.ordered, hrest, hrest', fun hy => hy.1, fun hy => hy.2.1,
              fun hy => hy.2.2, fun hne hy hy' => ⟨hne, hy, hy'⟩,
              fun hy => ih hbuilt' hrest hrest' hy.2.1 hy.2.2⟩
          obtain rfl : parents = parents' := by
            have hlist := (hfollows.relations x hknown).trans (AList.lookup_insert _)
            have hlist' := (hfollows'.relations x hknown').trans (AList.lookup_insert _)
            exact Option.some.inj (hlist.symm.trans hlist')
          have heq := hagree.ghostdag_eq_ghostdag
            (checkParents_eq_ok hbuilt.ordered.oracle hchecked)
            (checkParents_eq_ok hbuilt'.ordered.oracle hchecked')
          rw [hghostdag, hghostdag'] at heq
          cases heq
          exact (AList.lookup_insert _).trans (AList.lookup_insert stores'.ghostdag).symm
        · have hlookup := ih' hrest' ((known_commit.mp hknown').resolve_left hx)
          exact hlookup.trans (AList.lookup_insert_ne hx).symm
    · have hlookup := ih hbuilt' hrest hfollows' ((known_commit.mp hknown).resolve_left hx) hknown'
      exact (AList.lookup_insert_ne hx).trans hlookup

/-- The headers of the diamond. -/
def sampleParents : Nat → List Nat
  | 0 => []
  | 1 => [0]
  | 4 => [2, 3]
  | _ => [1]

theorem follows_sampleGenesis :
    Follows sampleParents (fun _ => sampleTarget) sampleGenesis := by
  have hfollows : Follows sampleParents (fun _ => sampleTarget)
      (sampleManager.initialStores (fun _ => sampleTarget) fun _ _ => false) := by
    refine ⟨fun x hknown => ?_, fun _ _ => rfl⟩
    simp only [lookup_relations_initialStores] at hknown ⊢
    split_ifs at hknown ⊢ with hgenesis horigin
    · rw [hgenesis]
      rfl
    · rw [horigin]
      rfl
    · cases hknown
  exact ⟨hfollows.relations, hfollows.target⟩

/-- A node that sees the sides of the diamond in the other order. -/
theorem ghostdag_agreement_diamond :
    sampleStores.ghostdag.lookup 4 = (((sampleGenesis.commitSample 3 [1] sampleChild).commitSample
      2 [1] sampleChild).commitSample 4 [2, 3] sampleMerge).ghostdag.lookup 4 :=
  ghostdag_agreement built_sampleStores
    (((built_sampleGenesis.commitSample rfl rfl rfl).commitSample rfl rfl rfl).commitSample
      rfl rfl rfl)
    (((follows_sampleGenesis.commit 2 _).commit 3 _).commit 4 _)
    (((follows_sampleGenesis.commit 3 _).commit 2 _).commit 4 _) rfl rfl

end Qaspa.Ghostdag
