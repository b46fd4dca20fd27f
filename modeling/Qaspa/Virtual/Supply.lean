import Qaspa.Ghostdag.Iteration
import Qaspa.Virtual.Commitment
import Qaspa.Virtual.Verification

/-! # The supply along a chain

The reward of a block is paid in the coinbase of the block that merges it, and that
coinbase enters the UTXO set one block later. The sum carried along a chain is
therefore that of the UTXO set together with the block's own coinbase: it grows by at
most the subsidies of the mergeset, because the fees that the coinbase pays have just
left the set. The mergesets of a chain are disjoint and make up the past of its tip.
-/

namespace Qaspa.Virtual

open Utxo Ghostdag Coinbase Outcome List VirtualStateProcessor UtxoProcessingContext
  Dag.InStrictPast BlockVerifier GhostdagData

/-! ## The stored blocks -/

/-- The blocks of a node, with what header and body processing have checked of them.
The genesis block is stored unchecked; its coinbase claims blue score zero and no more
than its subsidy. -/
structure Node (Hash Digest : Type) [LinearOrder Hash] where
  verifier : BlockVerifier Hash Digest
  bodyProcessor : BlockBodyProcessor
  ghostdagManager : GhostdagManager Hash
  maxBlockParents : Nat
  stores : Stores Hash
  headers : Hash → Header Hash
  blockTransactions : Hash → Option (List Transaction)
  mergesetNonDaa : Hash → Option (Hash → Bool)
  built : Built ghostdagManager maxBlockParents stores
  header_hash : ∀ block, (headers block).hash = block
  header_blueScore : ∀ block, stores.Known block → block ≠ ghostdagManager.origin →
    (headers block).blueScore.toNat = stores.scoreOf block
  bodies : BodiesValidated bodyProcessor blockTransactions
  checked : ∀ block txs, block ≠ ghostdagManager.genesisHash → blockTransactions block = some txs →
    verifier.rewardManager.checkCoinbaseBlueScoreAndSubsidy (headers block) txs = .ok ()
  genesis : ∀ coinbase rest data,
    blockTransactions ghostdagManager.genesisHash = some (coinbase :: rest) →
    verifier.rewardManager.deserializeCoinbasePayload coinbase.payload = .ok data →
    data.blueScore = 0 ∧ data.subsidy.toNat ≤
      (verifier.rewardManager.calcBlockSubsidy (headers ghostdagManager.genesisHash).daaScore).toNat
  ids : ∀ tx tx', InStore blockTransactions tx → InStore blockTransactions tx' → tx.id = tx'.id →
    tx.outpoints = tx'.outpoints ∧ tx.payload = tx'.payload
  hashInjective : verifier.HashInjective

namespace Node

variable {Hash Digest : Type} [LinearOrder Hash] (node : Node Hash Digest)

/-- What the coinbase of a block pays out. -/
def coinbaseOut (block : Hash) : Nat :=
  match node.blockTransactions block with
  | some (coinbase :: _) => coinbase.totalOut
  | _ => 0

/-- The subsidy that the score of a block allows. -/
def subsidyOf (block : Hash) : Nat :=
  (node.verifier.rewardManager.calcBlockSubsidy (node.headers block).daaScore).toNat

/-- The blocks in the past of a block. -/
def IsPast (past : Finset Hash) (block : Hash) : Prop :=
  ∀ x, x ∈ past ↔ node.stores.InStrictPast x block ∧ x ≠ node.ghostdagManager.origin

/-- A UTXO set to start from, with the transactions that led to it. None of them is
the coinbase of a stored block. -/
structure Start where
  history : List (BitVec 256)
  view : UtxoView
  held : TransactionOutpoint × UtxoEntry →₀ ℤ
  settled : Settled (InStore node.blockTransactions) history view
  holds : Ledger.Holds view held
  fresh : ∀ block coinbase rest, node.blockTransactions block = some (coinbase :: rest) →
    coinbase.id ∉ history

/-- Two blocks of a chain, the later one first, merge different blocks. -/
def DisjointMergesets (later earlier : Hash) : Prop :=
  ∀ data data', node.stores.ghostdag.lookup later = some data →
    node.stores.ghostdag.lookup earlier = some data' →
      (data.mergesetBlues ++ data.mergesetReds).Disjoint (data'.mergesetBlues ++ data'.mergesetReds)

variable {node} (start : node.Start)

/-- The amounts of the genesis block: its set and its coinbase. -/
noncomputable def Start.total : ℤ :=
  totalAmount start.held + node.coinbaseOut node.ghostdagManager.genesisHash

/-- A chain of UTXO-valid blocks, its tip first, with the transactions accepted up to the
tip and its UTXO set. -/
inductive ValidChain [DecidableEq Digest] : List Hash → List (BitVec 256) → UtxoView → Prop where
  | genesis : ValidChain [node.ghostdagManager.genesisHash] start.history start.view
  | child {parent block : Hash} {chain : List Hash} {history : List (BitVec 256)} {view : UtxoView}
      {data : GhostdagData Hash} {multiset : MuHash} {ctx verified : UtxoProcessingContext Hash}
      (hparent : ValidChain (parent :: chain) history view)
      (hdata : node.stores.ghostdag.lookup block = some data)
      (hselected : data.selectedParent = parent)
      (hne_origin : block ≠ node.ghostdagManager.origin)
      (hne_genesis : block ≠ node.ghostdagManager.genesisHash)
      (hctx : node.verifier.toProcessor.calculateUtxoState node.stores node.blockTransactions
        (.new data multiset) view (node.headers block).daaScore = .ok ctx)
      (hverify : node.verifier.verifyExpectedUtxoState node.blockTransactions node.mergesetNonDaa
        ctx view (node.headers block) = .ok verified) :
      ValidChain (block :: parent :: chain) (history ++ ctx.acceptedTxIds)
        (view.compose ctx.mergesetDiff)

/-! ## Coinbases -/

section Coinbases

variable {block : Hash} {coinbase : Transaction} {rest : List Transaction} {data : CoinbaseData}

/-- The payload of a stored coinbase has the blue score of its block, and at most its
subsidy. -/
theorem payload_of_stored (hknown : node.stores.Known block)
    (hne : block ≠ node.ghostdagManager.origin)
    (hbody : node.blockTransactions block = some (coinbase :: rest))
    (hdata : node.verifier.rewardManager.deserializeCoinbasePayload coinbase.payload = .ok data) :
    data.blueScore.toNat = node.stores.scoreOf block ∧
      data.subsidy.toNat ≤ node.subsidyOf block := by
  by_cases hgenesis : block = node.ghostdagManager.genesisHash
  · subst hgenesis
    obtain ⟨hscore, hsubsidy⟩ := node.genesis coinbase rest data hbody hdata
    refine ⟨?_, hsubsidy⟩
    rw [hscore, Stores.scoreOf, node.built.ordered.genesis_data]
    rfl
  · obtain ⟨checked, hchecked, hscore, hsubsidy⟩ :=
      data_of_checkCoinbaseBlueScoreAndSubsidy (node.checked block _ hgenesis hbody)
    cases hdata.symm.trans hchecked
    rw [hscore, hsubsidy]
    exact ⟨node.header_blueScore block hknown hne, le_rfl⟩

/-- The transactions accepted up to a blue score: those of the start, transactions with
inputs, and coinbases of lower score. -/
def Recorded (score : Nat) (history : List (BitVec 256)) : Prop :=
  ∀ id ∈ history, id ∈ start.history ∨
    ∃ tx, InStore node.blockTransactions tx ∧ tx.id = id ∧
      (tx.outpoints ≠ [] ∨ ∃ data : CoinbaseData,
        node.verifier.rewardManager.deserializeCoinbasePayload tx.payload = .ok data ∧
          data.blueScore.toNat < score)

variable {start} {history : List (BitVec 256)}

/-- The coinbase of a block is none of the transactions accepted up to it. -/
theorem Recorded.newCoinbase (hrecorded : Recorded start (node.stores.scoreOf block) history)
    (hknown : node.stores.Known block) (hne : block ≠ node.ghostdagManager.origin)
    (hbody : node.blockTransactions block = some (coinbase :: rest)) :
    coinbase.id ∉ history := by
  intro hmem
  have hstored : InStore node.blockTransactions coinbase := ⟨block, _, hbody, .head _ ..⟩
  rcases hrecorded coinbase.id hmem with hold | ⟨tx, htx, hid, hkind⟩
  · exact start.fresh block coinbase rest hbody hold
  · obtain ⟨houtpoints, hpayload⟩ := node.ids tx coinbase htx hstored hid
    rcases hkind with hinputs | ⟨data, hdata, hlt⟩
    · have hisolated := (bodiesKnown_of_validated node.bodies block _ hbody).1
      obtain ⟨_, _, hcons, hcoinbase, _⟩ := hisolated.coinbase
      cases hcons
      have hnil := (hisolated.isolated coinbase (.head _ ..)).inputs_eq_nil hcoinbase
      exact hinputs (by rw [houtpoints, Transaction.outpoints, hnil, map_nil])
    · rw [hpayload] at hdata
      exact absurd (payload_of_stored hknown hne hbody hdata).1 hlt.ne

theorem Recorded.mono {score score' : Nat} (hrecorded : Recorded start score history)
    (hle : score ≤ score') : Recorded start score' history := by
  intro id hid
  refine (hrecorded id hid).imp_right fun ⟨tx, htx, hsame, hkind⟩ => ⟨tx, htx, hsame, ?_⟩
  exact hkind.imp_right fun ⟨data, hdata, hlt⟩ => ⟨data, hdata, hlt.trans_le hle⟩

end Coinbases

/-! ## One block -/

section Step

variable {start : node.Start} {block : Hash} {data : GhostdagData Hash} {multiset : MuHash}
  {history : List (BitVec 256)} {view : UtxoView} {held : TransactionOutpoint × UtxoEntry →₀ ℤ}
  {coinbase : Transaction} {merged : List (MergedBlock Hash)} {ctx : UtxoProcessingContext Hash}

section

variable (hblock : OrderedBlock node.ghostdagManager node.stores block data)
  (hknown : node.stores.Known block) (hdata : node.stores.ghostdag.lookup block = some data)
  (hcalculated : VirtualStateProcessor.Calculated node.verifier.toProcessor
      node.blockTransactions (InStore node.blockTransactions) history view node.stores data
      (node.headers block).daaScore held multiset coinbase merged ctx)

include hblock

/-- The origin is below every block, so no block merges it. -/
theorem mergeset_ne_origin :
    ∀ x ∈ data.mergesetBlues ++ data.mergesetReds, x ≠ node.ghostdagManager.origin := by
  rintro x hx rfl
  have hordered := node.built.ordered
  have hne := hblock.parent_ne_origin _ hblock.selectedParent_parent
  have hgenesis : node.stores.ParentOf node.ghostdagManager.origin
      node.ghostdagManager.genesisHash := ⟨_, hordered.genesis_parents, mem_singleton_self _⟩
  apply ((hblock.mem_mergeset _).mp hx).2
  apply (of_parentOf hgenesis).trans_inPast
  exact hordered.genesis_inPast hne (hordered.known_selectedParent hblock)

section

include hknown hcalculated

/-- The merged blocks are the mergeset. -/
theorem perm_merged :
    (merged.map (·.block)).Perm (data.mergesetBlues ++ data.mergesetReds) := by
  have hordered := node.built.ordered
  have hrest : ∀ x ∈ data.rest, (node.stores.ghostdag.lookup x).isSome := fun x hx =>
    (hordered.data_known x).mpr (hblock.known_mergeset hordered.closed hknown x
      (hblock.mem_mergeset_of_mem_rest hx))
  obtain ⟨order, horder, hmerged⟩ := hcalculated.order
  obtain ⟨ascending, hascending, hperm, _⟩ := hblock.ascending_eq_ok hrest
  rw [consensusOrderedMergesetWithoutSelectedParent, hascending] at horder
  cases horder
  have hhashes := hperm.map SortableBlock.hash
  rw [Stores.map_hash_blockKey] at hhashes
  rw [hmerged, hblock.mergeset_eq]
  exact hhashes.cons _

/-- Every merged block has its reward: its fees, and at most its subsidy. -/
theorem reward_of_merged {last : MergedBlock Hash} (hlast : last ∈ merged) :
    (ctx.mergesetRewards.lookup last.block).isSome ∧
      rewardOf ctx.mergesetRewards last.block ≤
        feesOf last.validated + node.subsidyOf last.block := by
  have hperm := perm_merged hblock hknown hcalculated
  have hmem : last.block ∈ data.mergesetBlues ++ data.mergesetReds :=
    hperm.subset (mem_map_of_mem hlast)
  have hlookup : ctx.mergesetRewards.lookup last.block = some last.reward := by
    rw [hcalculated.rewards]
    exact HashMap.lookup_foldl_insert_of_mem MergedBlock.block MergedBlock.reward
      (hperm.nodup_iff.mpr hblock.nodup) ∅ hlast
  have hprocessed := hcalculated.processed last hlast
  obtain ⟨first, rest, htxs, hdata⟩ := hprocessed.data
  have hsubsidy := (payload_of_stored
    (hblock.known_mergeset node.built.ordered.closed hknown _ hmem)
    (mergeset_ne_origin hblock _ hmem) (htxs ▸ hprocessed.txs) hdata).2
  refine ⟨by rw [hlookup]; rfl, ?_⟩
  rw [rewardOf, hlookup, Option.elim_some, Nat.add_comm]
  exact Nat.add_le_add_left hsubsidy _

end

include hdata

/-- The blue score grows from the selected parent to the block. -/
theorem score_lt : node.stores.scoreOf data.selectedParent < node.stores.scoreOf block := by
  have hscore : node.stores.scoreOf block = data.blueScore := by
    rw [Stores.scoreOf, hdata, Option.elim_some]
  rw [hscore, hblock.score_eq, hblock.blues_eq, length_cons]
  omega

include hcalculated

/-- The accepted transactions are the coinbase of the selected parent, whose score is
lower than the block's, and transactions with inputs. -/
theorem recorded_accepted :
    Recorded start (node.stores.scoreOf block) ctx.acceptedTxIds := by
  have hordered := node.built.ordered
  intro id hid
  rw [hcalculated.acceptedTxIds] at hid
  right
  rcases mem_cons.mp hid with rfl | hmem
  · -- the selected parent is the first merged block, so its payload has been read
    obtain ⟨rest, hbody⟩ := hcalculated.selectedParent
    obtain ⟨order, _, hmerged⟩ := hcalculated.order
    obtain ⟨first, others, rfl, hfirst, _⟩ := map_eq_cons_iff.mp hmerged
    have hprocessed := hcalculated.processed first (.head _ ..)
    obtain ⟨coinbase', rest', htxs, hpayload⟩ := hprocessed.data
    have hbody' : node.blockTransactions data.selectedParent = some (coinbase' :: rest') := by
      rw [← htxs, ← hfirst]
      exact hprocessed.txs
    obtain ⟨rfl, rfl⟩ := cons.inj (Option.mem_unique hbody hbody')
    refine ⟨coinbase, ⟨_, _, hbody, .head _ ..⟩, rfl, .inr ⟨first.data, hpayload, ?_⟩⟩
    rw [(payload_of_stored (hordered.known_selectedParent hblock)
      (hblock.parent_ne_origin _ hblock.selectedParent_parent) hbody hpayload).1]
    exact score_lt hblock hdata
  · obtain ⟨last, hlast, hitem⟩ := mem_flatMap.mp hmem
    obtain ⟨item, hvalid, rfl⟩ := mem_map.mp hitem
    have hprocessed := hcalculated.processed last hlast
    obtain ⟨hisolated, hstored⟩ :=
      bodiesKnown_of_validated node.bodies last.block last.txs hprocessed.txs
    have hpost : Post (node.verifier.toProcessor.validateTransactionsInParallel last.txs last.view
        (node.headers block).daaScore last.flags)
        (Acceptable (InStore node.blockTransactions) last.view) (StateFault.External True) :=
      validateTransactionsInParallel_post hisolated hstored
    have hacceptable := hpost.of_eq_ok hprocessed.validated
    exact ⟨item.1.tx, hacceptable.known item hvalid, rfl, .inl (hacceptable.inputs item hvalid)⟩

end

/-- What is left when a block has been processed: the new set and the rewards it owes
stay within what was there before and the subsidies of the mergeset. -/
structure Processed (start : node.Start) (block : Hash) (data : GhostdagData Hash)
    (history : List (BitVec 256)) (view : UtxoView) (before : ℤ)
    (ctx : UtxoProcessingContext Hash) (held : TransactionOutpoint × UtxoEntry →₀ ℤ) : Prop where
  ghostdagData : ctx.ghostdagData = data
  settled : Settled (InStore node.blockTransactions) (history ++ ctx.acceptedTxIds)
    (view.compose ctx.mergesetDiff)
  holds : Ledger.Holds (view.compose ctx.mergesetDiff) held
  recorded : Recorded start (node.stores.scoreOf block) (history ++ ctx.acceptedTxIds)
  rewards : ∀ x ∈ data.mergesetBlues ++ data.mergesetReds, (ctx.mergesetRewards.lookup x).isSome
  bound : totalAmount held +
      (((data.mergesetBlues ++ data.mergesetReds).map (rewardOf ctx.mergesetRewards)).sum : Nat) ≤
    before + (((data.mergesetBlues ++ data.mergesetReds).map node.subsidyOf).sum : Nat)

/-- Process a block on top of the set of its selected parent. -/
theorem calculateUtxoState_processed (overflow : Prop) (multiset : MuHash)
    (hne : block ≠ node.ghostdagManager.origin)
    (hne' : block ≠ node.ghostdagManager.genesisHash)
    (hdata : node.stores.ghostdag.lookup block = some data)
    (hsettled : Settled (InStore node.blockTransactions) history view)
    (hholds : Ledger.Holds view held)
    (hrecorded : Recorded start (node.stores.scoreOf data.selectedParent) history)
    (hbounded : overflow ∨ totalAmount held + node.coinbaseOut data.selectedParent < wordBound 64) :
    Post (node.verifier.toProcessor.calculateUtxoState node.stores node.blockTransactions
        (.new data multiset) view (node.headers block).daaScore)
      (fun ctx => ∃ held', Processed start block data history view
        (totalAmount held + node.coinbaseOut data.selectedParent) ctx held')
      (StateFault.External overflow) := by
  have hordered := node.built.ordered
  have hblock := hordered.block block data hne hne' hdata
  have hknown := hordered.known_of_lookup hdata
  have hfresh : ∀ coinbase rest,
      node.blockTransactions data.selectedParent = some (coinbase :: rest) →
        coinbase.id ∉ history := fun coinbase rest hbody =>
    hrecorded.newCoinbase (hordered.known_selectedParent hblock)
      (hblock.parent_ne_origin _ hblock.selectedParent_parent) hbody
  have hout : ∀ coinbase rest,
      node.blockTransactions data.selectedParent = some (coinbase :: rest) →
        node.coinbaseOut data.selectedParent = coinbase.totalOut := by
    intro coinbase rest hbody
    rw [coinbaseOut, hbody]
  have hfees : ∀ coinbase rest,
      node.blockTransactions data.selectedParent = some (coinbase :: rest) →
        VirtualStateProcessor.FeesBounded node.verifier.toProcessor overflow
          (held + Ledger.count (Ledger.creates
            (coinbase.createdEntries (node.headers block).daaScore))) := by
    intro coinbase rest hbody
    refine hbounded.imp_right fun hlt => ⟨node.verifier.balanced_toProcessor, ?_⟩
    rwa [totalAmount_add, totalAmount_creates, ← hout coinbase rest hbody]
  have hdistinct : DistinctIds (InStore node.blockTransactions) := fun tx tx' htx htx' hid =>
    (node.ids tx tx' htx htx' hid).1
  refine (calculateUtxoState_post (bodiesKnown_of_validated node.bodies)
    hdistinct _ hsettled hholds node.stores data multiset (node.headers block).daaScore hfresh
    hfees).mono fun ctx ⟨coinbase, merged, hcalculated⟩ => ?_
  obtain ⟨rest, hbody⟩ := hcalculated.selectedParent
  exact ⟨_, {
    ghostdagData := hcalculated.ghostdagData
    settled := hcalculated.progress.settled
    holds := hcalculated.progress.holds
    recorded := by
      refine forall_mem_append.mpr ⟨?_, recorded_accepted hblock hdata hcalculated⟩
      exact hrecorded.mono (score_lt hblock hdata).le
    rewards := by
      intro x hx
      obtain ⟨last, hlast, rfl⟩ :=
        mem_map.mp ((perm_merged hblock hknown hcalculated).symm.subset hx)
      exact (reward_of_merged hblock hknown hcalculated hlast).1
    bound := by
      -- the rewards of the mergeset are its fees and at most its subsidies
      have hperm := perm_merged hblock hknown hcalculated
      have hrewards := sum_le_sum fun (last : MergedBlock Hash) hlast =>
        (reward_of_merged hblock hknown hcalculated hlast).2
      rw [sum_map_add, ← feesOfMerged] at hrewards
      rw [← (hperm.map _).sum_eq, ← (hperm.map _).sum_eq, map_map, map_map,
        Function.comp_def, Function.comp_def, totalAmount_add, totalAmount_add, totalAmount_creates,
        totalAmount_movesOfMerged node.verifier.balanced_toProcessor hcalculated.processed,
        hout coinbase rest hbody]
      omega }⟩

end Step

/-! ## The past of a chain -/

section Past

variable {parent block : Hash} {data : GhostdagData Hash} {past : Finset Hash}

theorem isPast_genesis : node.IsPast ∅ node.ghostdagManager.genesisHash := by
  intro x
  have hordered := node.built.ordered
  simp only [Finset.notMem_empty, false_iff, not_and, not_not]
  intro hpast
  obtain ⟨parent, hparent, hx⟩ := Dag.inStrictPast_iff.mp hpast
  obtain rfl := hordered.parentOf_genesis hparent
  rcases Dag.inPast_iff.mp hx with rfl | hstrict
  · rfl
  · obtain ⟨_, hedge, _⟩ := Dag.inStrictPast_iff.mp hstrict
    exact absurd hedge hordered.not_parentOf_origin

section

variable (hblock : OrderedBlock node.ghostdagManager node.stores block data)

include hblock

/-- The past of a block is that of its selected parent and the mergeset. -/
theorem IsPast.child (hpast : node.IsPast past data.selectedParent) :
    node.IsPast (past ∪ (data.mergesetBlues ++ data.mergesetReds).toFinset) block := by
  intro x
  rw [Finset.mem_union, mem_toFinset, hpast x, hblock.mem_mergeset x]
  have hparent := of_parentOf hblock.selectedParent_parent
  constructor
  · rintro (⟨hstrict, hne⟩ | ⟨hstrict, hnot⟩)
    · exact ⟨hstrict.trans_inPast hparent.inPast, hne⟩
    · exact ⟨hstrict, mergeset_ne_origin hblock x ((hblock.mem_mergeset x).mpr ⟨hstrict, hnot⟩)⟩
  · rintro ⟨hstrict, hne⟩
    by_cases hselected : node.stores.InStrictPast x data.selectedParent
    · exact .inl ⟨hselected, hne⟩
    · exact .inr ⟨hstrict, hselected⟩

theorem sum_subsidies_child (hpast : node.IsPast past data.selectedParent) :
    ∑ x ∈ past ∪ (data.mergesetBlues ++ data.mergesetReds).toFinset, node.subsidyOf x =
      ∑ x ∈ past, node.subsidyOf x +
        ((data.mergesetBlues ++ data.mergesetReds).map node.subsidyOf).sum := by
  have hdisjoint : Disjoint past (data.mergesetBlues ++ data.mergesetReds).toFinset := by
    rw [Finset.disjoint_left]
    intro x hx hmem
    exact ((hblock.mem_mergeset x).mp (mem_toFinset.mp hmem)).2 ((hpast x).mp hx).1
  rw [Finset.sum_union hdisjoint, sum_toFinset _ hblock.nodup]

end

end Past

/-! ## Along a chain -/

section Chain

variable {start : node.Start} {block : Hash} {chain : List Hash} {history : List (BitVec 256)}
  {view : UtxoView} {held : TransactionOutpoint × UtxoEntry →₀ ℤ} {past : Finset Hash}
  {data : GhostdagData Hash} {multiset : MuHash} {ctx verified : UtxoProcessingContext Hash}

/-- What a chain carries from block to block. -/
structure Supplied (start : node.Start) (block : Hash) (history : List (BitVec 256))
    (view : UtxoView) (held : TransactionOutpoint × UtxoEntry →₀ ℤ) (past : Finset Hash) :
    Prop where
  settled : Settled (InStore node.blockTransactions) history view
  holds : Ledger.Holds view held
  recorded : Recorded start (node.stores.scoreOf block) history
  isPast : node.IsPast past block
  bound : totalAmount held + node.coinbaseOut block ≤
    start.total + (∑ x ∈ past, node.subsidyOf x : Nat)

theorem Supplied.genesis : Supplied start node.ghostdagManager.genesisHash start.history start.view
    start.held ∅ where
  settled := start.settled
  holds := start.holds
  recorded := fun _ hid => .inl hid
  isPast := isPast_genesis
  bound := by simp [Start.total]

theorem Supplied.child [DecidableEq Digest]
    (hsupplied : Supplied start data.selectedParent history view held past)
    (hdata : node.stores.ghostdag.lookup block = some data)
    (hne : block ≠ node.ghostdagManager.origin) (hne' : block ≠ node.ghostdagManager.genesisHash)
    (hctx : node.verifier.toProcessor.calculateUtxoState node.stores node.blockTransactions
      (.new data multiset) view (node.headers block).daaScore = .ok ctx)
    (hverify : node.verifier.verifyExpectedUtxoState node.blockTransactions node.mergesetNonDaa
      ctx view (node.headers block) = .ok verified) :
    ∃ held', Supplied start block (history ++ ctx.acceptedTxIds) (view.compose ctx.mergesetDiff)
      held' (past ∪ (data.mergesetBlues ++ data.mergesetReds).toFinset) := by
  have hblock := node.built.ordered.block block data hne hne' hdata
  obtain ⟨held', hprocessed⟩ := (calculateUtxoState_processed True multiset hne hne' hdata
    hsupplied.settled hsupplied.holds hsupplied.recorded (.inl trivial)).of_eq_ok hctx
  refine ⟨held', hprocessed.settled, hprocessed.holds, hprocessed.recorded,
    hsupplied.isPast.child hblock, ?_⟩
  have hcoinbase : node.coinbaseOut block ≤
      ((data.mergesetBlues ++ data.mergesetReds).map (rewardOf ctx.mergesetRewards)).sum := by
    unfold coinbaseOut
    split
    next coinbase rest hbody =>
      rw [← hprocessed.ghostdagData]
      rw [← node.header_hash block] at hbody
      exact totalOut_coinbase_le node.hashInjective hbody hverify
    · exact Nat.zero_le _
  have hbound := hprocessed.bound
  have hparent := hsupplied.bound
  rw [sum_subsidies_child hblock hsupplied.isPast]
  omega

/-- Every chain carries its supply, and its blocks are in the past of its tip. -/
theorem ValidChain.supplied [DecidableEq Digest]
    (hchain : ValidChain start (block :: chain) history view) :
    (∃ held past, Supplied start block history view held past) ∧
      (∀ x ∈ block :: chain, node.stores.InPast x block ∧ x ≠ node.ghostdagManager.origin) ∧
      (block :: chain).Pairwise node.DisjointMergesets := by
  generalize hblocks : block :: chain = blocks at hchain ⊢
  induction hchain generalizing block chain with
  | genesis =>
    cases hblocks
    refine ⟨⟨_, _, Supplied.genesis⟩, ?_, pairwise_singleton _ _⟩
    rw [forall_mem_singleton]
    exact ⟨.refl _, node.ghostdagManager.genesis_ne_origin⟩
  | @child parent tip chain' history view data multiset ctx verified hparent hdata hselected hne
        hne' hctx
      hverify ih =>
      obtain ⟨rfl, rfl⟩ := cons.inj hblocks
      obtain ⟨⟨held, past, hsupplied⟩, hpast, hdisjoint⟩ := ih rfl
      subst hselected
      have hblock := node.built.ordered.block block data hne hne' hdata
      have hstep := of_parentOf hblock.selectedParent_parent
      obtain ⟨held', hsupplied'⟩ := hsupplied.child hdata hne hne' hctx hverify
      refine ⟨⟨held', _, hsupplied'⟩, forall_mem_cons.mpr ⟨⟨.refl _, hne⟩, ?_⟩,
        pairwise_cons.mpr ⟨?_, hdisjoint⟩⟩
      · intro x hx
        exact ⟨(hpast x hx).1.trans hstep.inPast, (hpast x hx).2⟩
      · -- blocks merged below the selected parent are not merged again
        intro earlier hearlier found data' hfound hdata' x hx hx'
        cases hdata.symm.trans hfound
        by_cases hgenesis : earlier = node.ghostdagManager.genesisHash
        · subst hgenesis
          cases node.built.ordered.genesis_data.symm.trans hdata'
          cases hx'
        · have hearlierBlock :=
            node.built.ordered.block earlier data' (hpast earlier hearlier).2 hgenesis hdata'
          apply ((hblock.mem_mergeset x).mp hx).2
          exact ((hearlierBlock.mem_mergeset x).mp hx').1.trans_inPast (hpast earlier hearlier).1

/-- The UTXO set of a block on a valid chain, with the outputs of its own coinbase, has at
most the amounts of genesis and the subsidies of the blocks in its past. The mergesets of
the chain are disjoint, and while the total for the next block stays within the maximum,
none of the additions of its fees and rewards overflows. -/
theorem ValidChain.supply_le [DecidableEq Digest]
    (hchain : ValidChain start (block :: chain) history view) :
    (∃ held past, Ledger.Holds view held ∧ node.IsPast past block ∧
      totalAmount held + node.coinbaseOut block ≤
        start.total + (∑ x ∈ past, node.subsidyOf x : Nat)) ∧
    (block :: chain).Pairwise node.DisjointMergesets ∧
    ∀ child data multiset past, node.stores.ghostdag.lookup child = some data →
      data.selectedParent = block → child ≠ node.ghostdagManager.origin →
      child ≠ node.ghostdagManager.genesisHash → node.IsPast past child →
      start.total + (∑ x ∈ past, node.subsidyOf x : Nat) ≤ maxSompi →
        (node.verifier.toProcessor.calculateUtxoState node.stores node.blockTransactions
          (.new data multiset) view (node.headers child).daaScore ≠ .error .feeOverflow) ∧
        ∀ ctx, node.verifier.toProcessor.calculateUtxoState node.stores node.blockTransactions
            (.new data multiset) view (node.headers child).daaScore = .ok ctx →
          ∀ nonDaa, (∃ outputs, blueOutputs ctx.mergesetRewards nonDaa data.mergesetBlues =
              .ok outputs) ∧
            ∃ redReward, redRewardFrom ctx.mergesetRewards nonDaa 0 data.mergesetReds =
              .ok redReward := by
  obtain ⟨⟨held, past, hsupplied⟩, _, hdisjoint⟩ := hchain.supplied
  refine ⟨⟨held, past, hsupplied.holds, hsupplied.isPast, hsupplied.bound⟩, hdisjoint, ?_⟩
  intro child data multiset past' hdata hselected hne hne' hpast' hmax
  subst hselected
  -- the amounts that the child can handle stay below the maximum
  have hblock := node.built.ordered.block child data hne hne' hdata
  have hunion : past' = past ∪ (data.mergesetBlues ++ data.mergesetReds).toFinset := by
    ext x
    rw [hpast' x, hsupplied.isPast.child hblock x]
  rw [hunion, sum_subsidies_child hblock hsupplied.isPast] at hmax
  have hbound := hsupplied.bound
  have hfits : (maxSompi : ℤ) < wordBound 64 := by decide
  have hpost := calculateUtxoState_processed False multiset hne hne' hdata
    hsupplied.settled hsupplied.holds hsupplied.recorded (.inr (by omega))
  refine ⟨fun hoverflow => hpost.of_eq_error hoverflow, fun ctx hctx nonDaa => ?_⟩
  obtain ⟨held', hprocessed⟩ := hpost.of_eq_ok hctx
  have hrewards := hprocessed.bound
  have hnonneg : 0 ≤ totalAmount held' :=
    hprocessed.holds.total_nonneg amountOf fun entry => Int.natCast_nonneg _
  rw [List.map_append, List.sum_append] at hrewards
  obtain ⟨hblues, hreds⟩ := List.forall_mem_append.mp hprocessed.rewards
  exact ⟨blueOutputs_eq_ok hblues (by omega), redRewardFrom_eq_ok hreds (by omega)⟩

end Chain

end Node

/-! ## A block on top of genesis -/

def supplyPayload (blueScore subsidy : UInt8) : List UInt8 :=
  blueScore :: List.replicate 7 0 ++ subsidy :: List.replicate 7 0 ++ [0, 0, 1, 0]

/-- A coinbase whose block has earned a subsidy of five. -/
def supplyCoinbase (blueScore : UInt8) (outputs : List TransactionOutput) (id : BitVec 256) :
    Transaction where
  version := 0
  inputs := []
  outputs := outputs
  lockTime := 0
  subnetworkId := subnetworkIdCoinbase
  gas := 0
  payload := supplyPayload blueScore 5
  mass := 0
  id := id

/-- Genesis pays nothing; the next block pays the subsidy of genesis. -/
def supplyTransactions (block : Nat) : Option (List Transaction) :=
  if block = 1 then some [supplyCoinbase 0 [] 1]
  else if block = 2 then some [supplyCoinbase 1 [⟨5, sampleScript⟩] 2]
  else none

/-- Transactions are compared by their outputs. -/
def supplyVerifier : BlockVerifier Nat (List TransactionOutput) where
  transactionValidator := sampleBodyProcessor.transactionValidator
  contextChecks := ⟨fun _ => .ok (), fun _ _ => .ok (), fun _ => .ok ()⟩
  rewardManager := ⟨⟨150, 204⟩, 1000000, 5, ⟨1, 1, 0⟩⟩
  elementStream := fun _ => MuHash.sampleStream true
  schedule := sampleProcessor.schedule
  finalizeHash := fun _ => 0
  hashTransaction := Transaction.outputs
  calcId := fun _ => 0
  calcAcceptedIdMerkleRoot := fun _ _ => 0
  expectedHeaderPruningPoint := fun _ => 1

def supplyHeader (block : Nat) : Header Nat := ⟨block, 0, 0, 0, if block = 2 then 1 else 0, 1⟩

theorem supply_blueScore (block : Nat) :
    (supplyHeader block).blueScore.toNat = sampleFirst.scoreOf block := by
  by_cases htwo : block = 2
  · subst htwo
    rfl
  · have hlookup : sampleFirst.ghostdag.lookup block =
        if block = 1 then some sampleManager.genesisGhostdagData
        else if block = 0 then some sampleManager.originGhostdagData else none := by
      refine (AList.lookup_insert_ne htwo).trans ?_
      exact HashMap.lookup_insert_insert 0 1 block _ _
    rw [Stores.scoreOf, hlookup, supplyHeader, if_neg htwo]
    split_ifs <;> rfl

def supplyNode : Node Nat (List TransactionOutput) where
  verifier := supplyVerifier
  bodyProcessor := sampleBodyProcessor
  ghostdagManager := sampleManager
  maxBlockParents := 10
  stores := sampleFirst
  headers := supplyHeader
  blockTransactions := supplyTransactions
  mergesetNonDaa := fun _ => some fun _ => false
  built := built_sampleGenesis.commitSample rfl rfl rfl
  header_hash _ := rfl
  header_blueScore block _ _ := supply_blueScore block
  bodies := by
    intro block txs htxs
    unfold supplyTransactions at htxs
    split_ifs at htxs <;> cases htxs <;> exact ⟨0, ⟨0, 0, 0⟩, rfl⟩
  checked := by
    intro block txs hne htxs
    unfold supplyTransactions at htxs
    rw [if_neg (show block ≠ 1 from hne)] at htxs
    split at htxs
    next htwo =>
      subst htwo
      cases htxs
      rfl
    · cases htxs
  genesis := by
    intro coinbase rest data hbody hdata
    cases hbody
    cases hdata
    exact ⟨rfl, by decide⟩
  ids := by
    have hmem : ∀ tx, InStore supplyTransactions tx →
        tx = supplyCoinbase 0 [] 1 ∨ tx = supplyCoinbase 1 [⟨5, sampleScript⟩] 2 := by
      rintro tx ⟨block, txs, htxs, htx⟩
      unfold supplyTransactions at htxs
      split_ifs at htxs <;> cases htxs
      · exact .inl (List.mem_singleton.mp htx)
      · exact .inr (List.mem_singleton.mp htx)
    intro tx tx' htx htx' hid
    rcases hmem tx htx with rfl | rfl
    · rcases hmem tx' htx' with rfl | rfl
      · exact ⟨rfl, rfl⟩
      · cases hid
    · rcases hmem tx' htx' with rfl | rfl
      · cases hid
      · exact ⟨rfl, rfl⟩
  hashInjective := fun _ _ hsame => hsame

def supplyStart : supplyNode.Start where
  history := []
  view := fun _ => none
  held := 0
  settled := settled_empty _
  holds := Ledger.holds_empty
  fresh _ _ _ _ := List.not_mem_nil

/-- The state that block 2 calculates: it accepts the coinbase of genesis. -/
def supplyContext (multisetHash : MuHash) : UtxoProcessingContext Nat where
  ghostdagData := sampleChild
  multisetHash := multisetHash
  mergesetDiff := .default
  acceptedTxIds := [1]
  mergesetAcceptanceData := [⟨1, [⟨1, 0⟩]⟩]
  mergesetRewards := (∅ : HashMap Nat BlockRewardData).insert 1 ⟨5, 0, sampleScript⟩

theorem calculateUtxoState_supply (stores : Stores Nat) {multiset : MuHash}
    (hcombine : MuHash.new.combine .new = .ok multiset) :
    supplyVerifier.toProcessor.calculateUtxoState stores supplyTransactions
      (.new sampleChild .new) (fun _ => none) 0 = .ok (supplyContext multiset) := by
  let accepted : UtxoProcessingContext Nat :=
    { new sampleChild .new with acceptedTxIds := [1] }
  have haccept : supplyVerifier.toProcessor.acceptCoinbase 0 (.new sampleChild .new)
      [supplyCoinbase 0 [] 1] = .ok (accepted, 1) := rfl
  have hvalid : supplyVerifier.toProcessor.validateTransactionsWithMuhashInParallel 1
      [supplyCoinbase 0 [] 1] (UtxoView.compose (fun _ => none) .default) 0 .skipScriptChecks =
        .ok ([], .new) := rfl
  have hmerge : supplyVerifier.toProcessor.mergeBlock (fun _ => none) 0 1 true accepted 1
      [supplyCoinbase 0 [] 1] = .ok (supplyContext multiset) := by
    simp only [mergeBlock, accepted, new, if_true,
      hvalid, ok_bind, hcombine]
    rfl
  have horder : sampleChild.consensusOrderedMergesetWithoutSelectedParent stores = .ok [] := by
    simp [consensusOrderedMergesetWithoutSelectedParent,
      ascendingMergesetWithoutSelectedParent, sampleChild, mergeJoinBy]
  have hbody : getTransactions supplyTransactions 1 =
      .ok [supplyCoinbase 0 [] 1] := rfl
  have hselected : (new sampleChild .new).ghostdagData.selectedParent = 1 :=
    rfl
  have hdata : (supplyContext multiset).ghostdagData = sampleChild := rfl
  simp only [calculateUtxoState, hselected, hbody, ok_bind, haccept, hmerge,
    hdata, horder]
  rfl

theorem verifyExpectedUtxoState_supply {multiset : MuHash} {numerator : MuHash.U3072}
    (hserialize : multiset.serialize = .ok (numerator.toLeBytes, ⟨numerator, .one⟩)) :
    supplyVerifier.verifyExpectedUtxoState supplyTransactions (fun _ => some fun _ => false)
      (supplyContext multiset) (fun _ => none) (supplyHeader 2) =
        .ok (supplyContext ⟨numerator, .one⟩) := by
  have hfinalize : multiset.finalize supplyVerifier.finalizeHash = .ok (0, ⟨numerator, .one⟩) := by
    rw [MuHash.finalize, hserialize]
    rfl
  have hcommitment : supplyVerifier.verifyUtxoCommitment (supplyContext multiset).multisetHash
      (supplyHeader 2) = .ok ⟨numerator, .one⟩ := by
    rw [verifyUtxoCommitment, supplyContext, hfinalize]
    rfl
  rw [verifyExpectedUtxoState, hcommitment]
  rfl

/-- The accumulator of block 2, before and after it is finalized. -/
theorem exists_supplyMultiset : ∃ multiset numerator, MuHash.new.combine .new = .ok multiset ∧
    multiset.serialize = .ok (numerator.toLeBytes, ⟨numerator, .one⟩) := by
  have hnew : MuHash.Records supplyVerifier.elementStream .new [] .new := .refl .new
  obtain ⟨multiset, hcombine, hrecords⟩ := MuHash.combine_records .new hnew
  have hrepresents := hrecords sampleUnits 0 MuHash.represents_new
  obtain ⟨numerator, hserialize, _⟩ := hrepresents.serialize
  exact ⟨multiset, numerator, hcombine, hserialize⟩

theorem validChain_supply : ∃ history view, Node.ValidChain supplyStart [2, 1] history view := by
  obtain ⟨multiset, numerator, hcombine, hserialize⟩ := exists_supplyMultiset
  have hdata : supplyNode.stores.ghostdag.lookup 2 = some sampleChild := rfl
  exact ⟨_, _, .child .genesis hdata rfl (by decide) (by decide)
    (calculateUtxoState_supply sampleFirst hcombine) (verifyExpectedUtxoState_supply hserialize)⟩

/-- The chain of genesis and one block on top of it. -/
theorem Node.ValidChain.supply_le_sample : ∃ history view,
    Node.ValidChain supplyStart [2, 1] history view ∧
      ∃ held past, Ledger.Holds view held ∧ supplyNode.IsPast past 2 ∧
        totalAmount held + supplyNode.coinbaseOut 2 ≤
          supplyStart.total + (∑ x ∈ past, supplyNode.subsidyOf x : Nat) := by
  obtain ⟨history, view, hchain⟩ := validChain_supply
  exact ⟨history, view, hchain, (Node.ValidChain.supply_le hchain).1⟩

end Qaspa.Virtual
