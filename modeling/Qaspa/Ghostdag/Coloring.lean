import Qaspa.Ghostdag.Blue

/-! # Colouring keeps the cluster

While a mergeset is coloured, the records give the exact sizes of all blue anticones,
and none of them exceeds `k`. A candidate is compared with the blues of one chain
block after the other, down to the first chain block in its past: everything blue
below that block is in the past of the candidate as well.
-/

namespace Qaspa.Ghostdag

open Dag Outcome List AList GhostdagManager

variable {Hash : Type} [LinearOrder Hash] {manager : GhostdagManager Hash}
  {stores : Stores Hash} {data : GhostdagData Hash} {blueCandidate : Hash}

/-- The anticone of a block among the blues of some data. -/
def blueAnticone (manager : GhostdagManager Hash) (stores : Stores Hash)
    (data : GhostdagData Hash) (block : Hash) : Set Hash :=
  anticoneIn stores.relations.lookup (blueSet manager stores data) block

/-- Every blue block has a record that counts its blue anticone. -/
def Counted (manager : GhostdagManager Hash) (stores : Stores Hash)
    (data : GhostdagData Hash) : Prop :=
  ∀ block ∈ blueSet manager stores data, ∃ size ≤ manager.k,
    SizeAt manager stores block data size ∧ (blueAnticone manager stores data block).encard = size

/-- Data above its selected parent: its own blues are outside of the past of the
selected parent, where the other blues are. -/
structure Link (manager : GhostdagManager Hash) (stores : Stores Hash)
    (data next : GhostdagData Hash) : Prop where
  ne_origin : data.selectedParent ≠ manager.origin
  lookup : stores.ghostdag.lookup data.selectedParent = some next
  nodup : data.mergesetBlues.Nodup
  outside : ∀ block ∈ data.mergesetBlues, ¬ stores.InStrictPast block data.selectedParent

theorem Ordered.link (hordered : Ordered manager stores) {block : Hash}
    (horigin : block ≠ manager.origin) (hgenesis : block ≠ manager.genesisHash)
    (hdata : stores.ghostdag.lookup block = some data) :
    ∃ next, Link manager stores data next := by
  have hblock := hordered.block block data horigin hgenesis hdata
  obtain ⟨next, hnext⟩ := hordered.exists_data (hordered.known_selectedParent hblock)
  refine ⟨next, hblock.parent_ne_origin _ hblock.selectedParent_parent, hnext,
    (nodup_append.mp hblock.nodup).1, fun x hx => ?_⟩
  exact ((hblock.mem_mergeset x).mp (mem_append_left _ hx)).2

section Scan

/-- What is known about a candidate when the blues that are still `pending` have not
been scanned. -/
structure Scanned (manager : GhostdagManager Hash) (stores : Stores Hash)
    (data : GhostdagData Hash) (blueCandidate : Hash) (pending : Hash → Prop)
    (scan : Candidate Hash) : Prop where
  recorded : ∀ peer size, scan.bluesAnticoneSizes.lookup peer = some size →
    peer ∈ blueSet manager stores data ∧ ¬ stores.InPast peer blueCandidate ∧
      (blueAnticone manager stores data peer).encard = size ∧ size < manager.k
  complete : ∀ peer ∈ blueSet manager stores data, ¬ stores.InPast peer blueCandidate →
    peer ∈ scan.bluesAnticoneSizes ∨ pending peer
  fresh : ∀ peer ∈ scan.bluesAnticoneSizes, ¬ pending peer
  count : scan.blueAnticoneSize = scan.bluesAnticoneSizes.keys.length
  count_le : scan.blueAnticoneSize ≤ manager.k

variable {pending rest : Hash → Prop} {scan : Candidate Hash} {peer : Hash}

/-- A peer in the past of the candidate is passed over. -/
theorem Scanned.skip (hscan : Scanned manager stores data blueCandidate pending scan)
    (hrest : ∀ other, pending other → other = peer ∨ rest other)
    (hpending : ∀ other, rest other → pending other)
    (hpast : stores.InPast peer blueCandidate) :
    Scanned manager stores data blueCandidate rest scan where
  recorded := hscan.recorded
  complete other hother hnot := by
    rcases hscan.complete other hother hnot with hmem | hother
    · exact .inl hmem
    · rcases hrest other hother with rfl | hother
      · exact absurd hpast hnot
      · exact .inr hother
  fresh other hmem hother := hscan.fresh other hmem (hpending other hother)
  count := hscan.count
  count_le := hscan.count_le

/-- A peer in the anticone of the candidate is recorded with its size. -/
theorem Scanned.record (hscan : Scanned manager stores data blueCandidate pending scan)
    (hrest : ∀ other, pending other ↔ other = peer ∨ rest other) (hnew : ¬ rest peer)
    (hblue : peer ∈ blueSet manager stores data) (hnot : ¬ stores.InPast peer blueCandidate)
    {size : Nat} (hsize : (blueAnticone manager stores data peer).encard = size)
    (hlt : size < manager.k)
    (hcount : scan.blueAnticoneSize + 1 ≤ manager.k) :
    Scanned manager stores data blueCandidate rest
      ⟨scan.bluesAnticoneSizes.insert peer size, scan.blueAnticoneSize + 1⟩ where
  recorded other otherSize hlookup := by
    by_cases hother : other = peer
    · subst hother
      obtain rfl := Option.mem_unique (lookup_insert _) hlookup
      exact ⟨hblue, hnot, hsize, hlt⟩
    · exact hscan.recorded other otherSize ((lookup_insert_ne hother).symm.trans hlookup)
  complete other hother hpast := by
    rcases hscan.complete other hother hpast with hmem | hpending
    · exact .inl ((mem_insert _).mpr (.inr hmem))
    · rcases (hrest other).mp hpending with rfl | hlater
      · exact .inl ((mem_insert _).mpr (.inl rfl))
      · exact .inr hlater
  fresh other hmem hother := by
    rcases (mem_insert _).mp hmem with rfl | hmem
    · exact hnew hother
    · exact hscan.fresh other hmem ((hrest other).mpr (.inr hother))
  count := by
    have hpeer : peer ∉ scan.bluesAnticoneSizes.keys := fun hmem =>
      hscan.fresh peer (mem_keys.mpr hmem) ((hrest peer).mpr (.inl rfl))
    rw [keys_insert, erase_of_not_mem hpeer, length_cons, hscan.count]
  count_le := hcount

end Scan

/-! ## Checking a candidate -/

section Check

variable {pending rest : Hash → Prop} {scan : Candidate Hash}
  (hordered : Ordered manager stores) (hcounted : Counted manager stores data)
  (hknown : ∀ block ∈ blueSet manager stores data, stores.Known block)
  (hcandidate : stores.Known blueCandidate)

include hordered hcounted hknown hcandidate

/-- Scanning a list of peers finds the candidate red or records what it has to. -/
theorem checkPeers_eq_ok {peers : List Hash}
    (hscan : Scanned manager stores data blueCandidate (fun b => b ∈ peers ∨ rest b) scan)
    (hpeers : ∀ peer ∈ peers, peer ∈ blueSet manager stores data) (hnodup : peers.Nodup)
    (hdisjoint : ∀ peer ∈ peers, ¬ rest peer) :
    ∃ state scan', manager.checkPeers stores data blueCandidate peers scan = .ok (state, scan') ∧
      (state = .red ∨ state = .pending ∧ Scanned manager stores data blueCandidate rest scan') := by
  induction peers generalizing scan with
  | nil => exact ⟨.pending, scan, rfl, .inr ⟨rfl, by simpa using hscan⟩⟩
  | cons peer peers ih =>
    obtain ⟨hpeer, htail⟩ := forall_mem_cons.mp hpeers
    obtain ⟨hdisjointPeer, hdisjointTail⟩ := forall_mem_cons.mp hdisjoint
    obtain ⟨hnew, hnodup⟩ := nodup_cons.mp hnodup
    have hrest : ∀ other, (other ∈ peer :: peers ∨ rest other) ↔
        other = peer ∨ (other ∈ peers ∨ rest other) := by
      intro other
      rw [mem_cons, or_assoc]
    have horacle := hordered.oracle peer blueCandidate (hknown peer hpeer) hcandidate
    rw [checkPeers]
    split
    next hancestor =>
      exact ih (hscan.skip (fun other => (hrest other).mp)
        (fun other hother => (hrest other).mpr (.inr hother)) (horacle.mp hancestor)) htail
        hnodup hdisjointTail
    next hancestor =>
      obtain ⟨size, hle, hsize, hcard⟩ := hcounted peer hpeer
      rw [blueAnticoneSize_eq_ok hordered hsize, ok_bind]
      by_cases hcount : manager.k < scan.blueAnticoneSize + 1
      · rw [if_pos hcount]
        exact ⟨.red, _, rfl, .inl rfl⟩
      rw [if_neg hcount]
      by_cases hlimit : size = manager.k
      · rw [if_pos hlimit]
        exact ⟨.red, _, rfl, .inl rfl⟩
      -- the assertion holds since no size exceeds the limit
      have hassert : (assert (decide (size ≤ manager.k)) : Checked Unit) = .ok () :=
        assert_eq_ok.mpr (decide_eq_true hle)
      rw [if_neg hlimit, hassert]
      have hnotRest : ¬ (peer ∈ peers ∨ rest peer) := fun hor => hor.elim hnew hdisjointPeer
      exact ih (hscan.record hrest hnotRest hpeer (fun hpast => hancestor (horacle.mpr hpast))
        hcard (lt_of_le_of_ne hle hlimit) (not_lt.mp hcount)) htail hnodup hdisjointTail

/-- One chain block that does not decide the colour. -/
theorem checkChain_step {chainData next : GhostdagData Hash} (chainHash : Option Hash)
    (hlink : Link manager stores chainData next)
    (hsubset : blueSet manager stores chainData ⊆ blueSet manager stores data)
    (hscan : Scanned manager stores data blueCandidate (BlueIn manager stores · chainData) scan)
    (hundecided : chainHash.any (stores.isDagAncestorOf · blueCandidate) = false) (fuel : Nat) :
    manager.checkChain stores data blueCandidate (fuel + 1) chainHash chainData scan = .ok .red ∨
    ∃ scan', manager.checkChain stores data blueCandidate (fuel + 1) chainHash chainData scan =
        manager.checkChain stores data blueCandidate fuel (some chainData.selectedParent) next
          scan' ∧
      Scanned manager stores data blueCandidate (BlueIn manager stores · next) scan' := by
  have hsplit : (fun b => BlueIn manager stores b chainData) =
      fun b => b ∈ chainData.mergesetBlues ∨ BlueIn manager stores b next := by
    funext b
    exact (propext mem_blueSet).trans (by simp [hlink.ne_origin, hlink.lookup, blueSet])
  rw [hsplit] at hscan
  obtain ⟨state, scan', hpeers, hresult⟩ := checkPeers_eq_ok hordered hcounted hknown hcandidate
    hscan (fun peer hpeer => hsubset (BlueIn.own hpeer)) hlink.nodup
    (fun peer hpeer hblue => hlink.outside peer hpeer
      (hblue.inStrictPast hordered hlink.ne_origin hlink.lookup))
  have hblock : manager.checkBlueCandidateWithChainBlock stores data chainHash chainData
      blueCandidate scan = .ok (state, scan') := by
    rw [checkBlueCandidateWithChainBlock, if_neg (by simp [hundecided])]
    exact hpeers
  rw [checkChain, hblock]
  rcases hresult with rfl | ⟨rfl, hscan'⟩
  · exact .inl rfl
  · refine .inr ⟨scan', ?_, hscan'⟩
    rw [Stores.getData, hlink.lookup]
    rfl

/-- The possible results of a check: red, or blue with complete records. -/
def Checks (manager : GhostdagManager Hash) (stores : Stores Hash) (data : GhostdagData Hash)
    (blueCandidate : Hash) (result : Checked (ColoringOutput Hash)) : Prop :=
  result = .ok .red ∨ ∃ size sizes, result = .ok (.blue size sizes) ∧
    Scanned manager stores data blueCandidate (fun _ => False) ⟨sizes, size⟩

/-- From any block of the chain on, the walk ends at the genesis block at the latest. -/
theorem checkChain_some (hne : blueCandidate ≠ manager.origin) (fuel : Nat) {chainBlock : Hash}
    {chainData : GhostdagData Hash} (horigin : chainBlock ≠ manager.origin)
    (hchain : stores.ghostdag.lookup chainBlock = some chainData)
    (hsubset : blueSet manager stores chainData ⊆ blueSet manager stores data)
    (hscan : Scanned manager stores data blueCandidate (BlueIn manager stores · chainData) scan)
    (hfuel : stores.scoreOf chainBlock + 1 ≤ fuel) :
    Checks manager stores data blueCandidate
      (manager.checkChain stores data blueCandidate fuel (some chainBlock) chainData scan) := by
  have hchainKnown := hordered.known_of_lookup hchain
  have horacle := hordered.oracle chainBlock blueCandidate hchainKnown hcandidate
  induction fuel generalizing chainBlock chainData scan with
  | zero => omega
  | succ fuel ih =>
    by_cases hancestor : stores.isDagAncestorOf chainBlock blueCandidate = true
    · -- all that is pending lies in the past of the chain block
      refine .inr ⟨scan.blueAnticoneSize, scan.bluesAnticoneSizes, ?_,
        hscan.recorded, fun peer hpeer hnot => ?_, fun _ _ hfalse => hfalse, hscan.count,
        hscan.count_le⟩
      · rw [checkChain, checkBlueCandidateWithChainBlock,
          if_pos (by simpa using hancestor)]
        rfl
      · rcases hscan.complete peer hpeer hnot with hmem | hblue
        · exact .inl hmem
        · exact absurd ((hblue.inStrictPast hordered horigin hchain).inPast.trans
            (horacle.mp hancestor)) hnot
    · have hgenesis : chainBlock ≠ manager.genesisHash := by
        rintro rfl
        exact hancestor (horacle.mpr (hordered.genesis_inPast hne hcandidate))
      obtain ⟨next, hlink⟩ := hordered.link horigin hgenesis hchain
      rcases checkChain_step hordered hcounted hknown hcandidate (some chainBlock) hlink hsubset
        hscan (by simpa using hancestor) fuel with hred | ⟨scan', hstep, hscan'⟩
      · exact .inl hred
      · rw [hstep]
        have hlt := hordered.scoreOf_selectedParent_lt horigin hgenesis hchain
        have hsubset' : blueSet manager stores next ⊆ blueSet manager stores data :=
          fun b hblue => hsubset (BlueIn.chain hlink.ne_origin hlink.lookup hblue)
        have hnextKnown := hordered.known_of_lookup hlink.lookup
        exact ih hlink.ne_origin hlink.lookup hsubset' hscan' (by omega) hnextKnown
          (hordered.oracle _ _ hnextKnown hcandidate)

theorem checkBlueCandidate_checks {next : GhostdagData Hash}
    (hlink : Link manager stores data next) (hne : blueCandidate ≠ manager.origin) :
    Checks manager stores data blueCandidate
      (manager.checkBlueCandidate stores data blueCandidate) := by
  rw [checkBlueCandidate]
  split
  · exact .inl rfl
  · have hempty : Scanned manager stores data blueCandidate (BlueIn manager stores · data) ⟨∅, 0⟩ :=
      ⟨by simp, fun _ hblue _ => .inr hblue, by simp, rfl, Nat.zero_le _⟩
    rcases checkChain_step hordered hcounted hknown hcandidate none hlink subset_rfl hempty rfl
      (stores.scoreOf data.selectedParent + 1) with hred | ⟨scan, hstep, hscan⟩
    · exact .inl hred
    · have hsubset : blueSet manager stores next ⊆ blueSet manager stores data :=
        fun b hblue => BlueIn.chain hlink.ne_origin hlink.lookup hblue
      have hrest := checkChain_some hordered hcounted hknown hcandidate hne _ hlink.ne_origin
        hlink.lookup hsubset hscan le_rfl
      rwa [← hstep] at hrest

end Check

/-! ## Adding a candidate -/

section Add

variable {size : Nat} {sizes : HashMap Hash Nat} {block : Hash}

theorem blueSet_addBlue :
    blueSet manager stores (data.addBlue blueCandidate size sizes) =
      insert blueCandidate (blueSet manager stores data) := by
  ext b
  rw [Set.mem_insert_iff, mem_blueSet, mem_blueSet, ← or_assoc]
  refine or_congr_left ?_
  rw [GhostdagData.addBlue, mem_append, mem_singleton, or_comm]

theorem lookup_addBlue :
    (data.addBlue blueCandidate size sizes).bluesAnticoneSizes.lookup block =
      ((sizes.lookup block).map (· + 1)).or
        ((data.bluesAnticoneSizes.insert blueCandidate size).lookup block) :=
  HashMap.lookup_foldl_insert_map (· + 1) sizes _ block

/-- The record of a block that the candidate does not change. -/
theorem SizeAt.addBlue {recorded : Nat} (hsize : SizeAt manager stores block data recorded)
    (hne : block ≠ blueCandidate) (hnone : sizes.lookup block = none) :
    SizeAt manager stores block (data.addBlue blueCandidate size sizes) recorded := by
  have hsame : (data.addBlue blueCandidate size sizes).bluesAnticoneSizes.lookup block =
      data.bluesAnticoneSizes.lookup block := by
    rw [lookup_addBlue, hnone, lookup_insert_ne hne]
    rfl
  cases hsize with
  | found hfound => exact .found (hsame.trans hfound)
  | chain hmissing hgenesis horigin hnext hrest =>
    exact .chain (hsame.trans hmissing) hgenesis horigin hnext hrest

variable (hscan : Scanned manager stores data blueCandidate (fun _ => False) ⟨sizes, size⟩)
  (hfuture : ∀ b ∈ blueSet manager stores data, ¬ stores.InPast blueCandidate b)

include hscan hfuture

/-- A complete scan has recorded exactly the blue anticone of the candidate. -/
theorem Scanned.mem_iff {b : Hash} :
    b ∈ sizes ↔ b ∈ blueAnticone manager stores data blueCandidate := by
  constructor
  · intro hmem
    obtain ⟨recorded, hrecorded⟩ := Option.isSome_iff_exists.mp (HashMap.isSome_lookup.mpr hmem)
    obtain ⟨hblue, hnot, _, _⟩ := hscan.recorded b recorded hrecorded
    exact ⟨hblue, hnot, hfuture b hblue⟩
  · rintro ⟨hblue, hanticone⟩
    exact (hscan.complete b hblue hanticone.1).elim id False.elim

theorem Scanned.encard_eq : (blueAnticone manager stores data blueCandidate).encard = size := by
  have hset : blueAnticone manager stores data blueCandidate =
      (sizes.keys.toFinset : Set Hash) := by
    ext b
    rw [← hscan.mem_iff hfuture, coe_toFinset, Set.mem_ofPred_eq, AList.mem_keys]
  rw [hset, Set.encard_coe_eq_coe_finsetCard, toFinset_card_of_nodup sizes.keys_nodup]
  exact congrArg Nat.cast hscan.count.symm

/-- A candidate that passed the check keeps all records exact and within the limit. -/
theorem Counted.addBlue (hcounted : Counted manager stores data) :
    Counted manager stores (data.addBlue blueCandidate size sizes) := by
  have hnew : blueCandidate ∉ blueSet manager stores data := fun hblue => hfuture _ hblue (.refl _)
  have hnotSelf : sizes.lookup blueCandidate = none := by
    refine lookup_eq_none.mpr fun hmem => ?_
    exact not_anticone_self ((hscan.mem_iff hfuture).mp hmem).2
  intro b hb
  rw [blueAnticone, blueSet_addBlue]
  rw [blueSet_addBlue] at hb
  rcases hb with rfl | hb
  · refine ⟨size, hscan.count_le, .found ?_, ?_⟩
    · rw [lookup_addBlue, hnotSelf, lookup_insert]
      rfl
    · rw [anticoneIn_insert_of_not not_anticone_self]
      exact hscan.encard_eq hfuture
  · cases hlookup : sizes.lookup b with
    | some recorded =>
      obtain ⟨_, _, hcard, hlt⟩ := hscan.recorded b recorded hlookup
      have hanticone := ((hscan.mem_iff hfuture).mp
        (HashMap.isSome_lookup.mp (Option.isSome_iff_exists.mpr ⟨recorded, hlookup⟩))).2
      refine ⟨recorded + 1, hlt, .found ?_, ?_⟩
      · rw [lookup_addBlue, hlookup]
        rfl
      · rw [anticoneIn_insert (And.symm hanticone),
          Set.encard_insert_of_notMem fun hmem => hnew hmem.1]
        exact congrArg (· + 1) hcard
    | none =>
      obtain ⟨recorded, hle, hsize, hcard⟩ := hcounted b hb
      have hne : b ≠ blueCandidate := fun heq => hnew (heq ▸ hb)
      refine ⟨recorded, hle, hsize.addBlue hne hlookup, ?_⟩
      rw [anticoneIn_insert_of_not fun hanticone => ?_]
      · exact hcard
      · exact lookup_eq_none.mp hlookup ((hscan.mem_iff hfuture).mpr ⟨hb, And.symm hanticone⟩)

end Add

end Qaspa.Ghostdag
