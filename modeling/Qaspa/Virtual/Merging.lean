import Qaspa.Virtual.Acceptance

/-! # Processing a mergeset

The loop over the mergeset, merged block by merged block. After every round the diff
and the multiset hash have recorded the moves of the same transactions, the rewards
hold the fees of each block, and the amounts that have left the UTXO set are those
fees.
-/

namespace Qaspa.Virtual

open Utxo Ghostdag Coinbase Outcome Ledger List UtxoProcessingContext

/-- What processing a merged block has read and decided. -/
structure MergedBlock (Hash : Type) where
  block : Hash
  txs : List Transaction
  view : UtxoView
  flags : TxValidationFlags
  validated : List (ValidatedTransaction × UInt32)
  data : CoinbaseData

namespace MergedBlock

variable {Hash : Type}

def reward (merged : MergedBlock Hash) : BlockRewardData :=
  ⟨merged.data.subsidy, feesOf merged.validated, merged.data.minerData.scriptPublicKey⟩

/-- The record is what the processor found. -/
structure Processed (processor : VirtualStateProcessor Hash)
    (blockTransactions : Hash → Option (List Transaction)) (povDaaScore : UInt64)
    (merged : MergedBlock Hash) : Prop where
  txs : blockTransactions merged.block = some merged.txs
  validated : processor.validateTransactionsInParallel merged.txs merged.view povDaaScore
    merged.flags = .ok merged.validated
  data : ∃ coinbase rest, merged.txs = coinbase :: rest ∧
    processor.coinbaseManager.deserializeCoinbasePayload coinbase.payload = .ok merged.data

end MergedBlock

section Merged

variable {Hash : Type}

/-- The moves of all merged blocks. -/
def movesOfMerged (povDaaScore : UInt64) (merged : List (MergedBlock Hash)) :
    List (Move TransactionOutpoint UtxoEntry) :=
  merged.flatMap fun block => movesOf povDaaScore block.validated

/-- The fees of all merged blocks. -/
def feesOfMerged (merged : List (MergedBlock Hash)) : Nat :=
  (merged.map fun block => feesOf block.validated).sum

theorem totalAmount_movesOfMerged {processor : VirtualStateProcessor Hash}
    {blockTransactions : Hash → Option (List Transaction)} {povDaaScore : UInt64}
    {merged : List (MergedBlock Hash)} (hbalanced : processor.Balanced)
    (hprocessed : ∀ block ∈ merged, block.Processed processor blockTransactions povDaaScore) :
    totalAmount (count (movesOfMerged povDaaScore merged)) = -(feesOfMerged merged : ℤ) := by
  induction merged with
  | nil => simp [movesOfMerged, feesOfMerged, totalAmount]
  | cons block rest ih =>
    obtain ⟨hblock, hrest⟩ := forall_mem_cons.mp hprocessed
    rw [movesOfMerged, flatMap_cons, count_append, totalAmount_add,
      totalAmount_movesOf (hbalanced.of_validated hblock.validated), ← movesOfMerged, ih hrest,
      feesOfMerged, feesOfMerged, map_cons, sum_cons]
    omega

end Merged

namespace VirtualStateProcessor

variable {Hash : Type} [LinearOrder Hash] {self : VirtualStateProcessor Hash}
  {blockTransactions : Hash → Option (List Transaction)} {known : Transaction → Prop}
  {history : List (BitVec 256)} {base : UtxoView} {povDaaScore : UInt64}
  {start ctx : UtxoProcessingContext Hash} {held : TransactionOutpoint × UtxoEntry →₀ ℤ}
  {merged : List (MergedBlock Hash)} {overflow : Prop}

/-- Bodies in the store have passed isolation and consist of known transactions. -/
def BodiesKnown (blockTransactions : Hash → Option (List Transaction))
    (known : Transaction → Prop) : Prop :=
  ∀ block txs, blockTransactions block = some txs → IsolatedBody txs ∧ ∀ tx ∈ txs, known tx

/-- Fees may overflow, or they are bounded by the amounts of the set they come from. -/
def FeesBounded (processor : VirtualStateProcessor Hash) (overflow : Prop)
    (held : TransactionOutpoint × UtxoEntry →₀ ℤ) : Prop :=
  overflow ∨ processor.Balanced ∧ totalAmount held < wordBound 64

/-- The state between two merged blocks, relative to the state in which the mergeset
was begun. -/
structure Merging (processor : VirtualStateProcessor Hash)
    (blockTransactions : Hash → Option (List Transaction)) (known : Transaction → Prop)
    (history : List (BitVec 256)) (base : UtxoView) (povDaaScore : UInt64)
    (held : TransactionOutpoint × UtxoEntry →₀ ℤ) (start : UtxoProcessingContext Hash)
    (merged : List (MergedBlock Hash)) (ctx : UtxoProcessingContext Hash) : Prop where
  progress : Progress known history base ctx
    (held + count (movesOfMerged povDaaScore merged))
  records : MuHash.Records processor.elementStream start.multisetHash
    (movesOfMerged povDaaScore merged) ctx.multisetHash
  acceptedTxIds : ctx.acceptedTxIds =
    start.acceptedTxIds ++ merged.flatMap fun block => block.validated.map (·.1.tx.id)
  rewards : ctx.mergesetRewards = merged.foldl
    (fun rewards block => rewards.insert block.block block.reward) start.mergesetRewards
  ghostdagData : ctx.ghostdagData = start.ghostdagData
  processed : ∀ block ∈ merged, block.Processed processor blockTransactions povDaaScore

theorem Merging.nil (hprogress : Progress known history base ctx held) :
    Merging self blockTransactions known history base povDaaScore held ctx [] ctx where
  progress := by simpa [movesOfMerged] using hprogress
  records := MuHash.Records.refl _
  acceptedTxIds := by simp
  rewards := rfl
  ghostdagData := rfl
  processed := by simp

omit [LinearOrder Hash] in
/-- Validation returns acceptable transactions and an accumulator of their moves, in
whatever grouping it was reduced. -/
theorem validateTransactionsWithMuhash_post (block : Hash) {txs : List Transaction}
    {utxoView : UtxoView} {flags : TxValidationFlags} (hisolated : IsolatedBody txs)
    (hknown : ∀ tx ∈ txs, known tx) :
    Post (self.validateTransactionsWithMuhashInParallel block txs utxoView povDaaScore flags)
      (fun result => Acceptable known utxoView result.1 ∧
        self.validateTransactionsInParallel txs utxoView povDaaScore flags = .ok result.1 ∧
        MuHash.Records self.elementStream .new (movesOf povDaaScore result.1) result.2)
      (StateFault.External overflow) := by
  refine (validateTransactionsInParallel_post hisolated hknown).bind
    fun validated hvalidated hacceptable => ?_
  have hitem : ∀ item : ValidatedTransaction × UInt32, ∃ next,
      MuHash.fromTransaction self.elementStream item.1.toPopulatedTransaction povDaaScore =
          .ok next ∧
        MuHash.Records self.elementStream .new (item.1.moves povDaaScore) next :=
    fun item => MuHash.new.addTransaction_records item.1.toPopulatedTransaction povDaaScore
  obtain ⟨inner, hinner, hrecords⟩ :=
    MuHash.reduce_records hitem ((self.schedule block).group validated)
  rw [(self.schedule block).items_group] at hrecords
  simp only [hinner, (self.schedule block).items_group]
  exact ⟨hacceptable, hvalidated, hrecords⟩

omit [LinearOrder Hash] in
theorem getTransactions_post (blockTransactions : Hash → Option (List Transaction))
    (block : Hash) :
    Post (getTransactions blockTransactions block) (fun txs => blockTransactions block = some txs)
      (StateFault.External overflow) := by
  unfold getTransactions
  split
  next txs htxs => exact htxs
  · trivial

variable (hbodies : BodiesKnown blockTransactions known) (hdistinct : DistinctIds known)

include hbodies hdistinct

section

variable
  (hmerging : Merging self blockTransactions known history base povDaaScore held start merged ctx)
  (hbounded : FeesBounded self overflow held)

include hmerging hbounded

/-- One round of the loop. -/
theorem mergeBlock_post (coinbaseId : BitVec 256) (isSelectedParent : Bool) {block : Hash}
    {txs : List Transaction} (htxs : blockTransactions block = some txs) :
    Post (self.mergeBlock base povDaaScore coinbaseId isSelectedParent ctx block txs)
      (fun next => ∃ last : MergedBlock Hash, last.block = block ∧
        Merging self blockTransactions known history base povDaaScore held start
          (merged ++ [last]) next)
      (StateFault.External overflow) := by
  obtain ⟨hisolated, hknown⟩ := hbodies block txs htxs
  obtain ⟨coinbase, rest, hcons, -⟩ := hisolated.coinbase
  refine (validateTransactionsWithMuhash_post block hisolated hknown).bind
    fun result _ ⟨hacceptable, hvalidated, hinner⟩ => ?_
  obtain ⟨validated, inner⟩ := result
  obtain ⟨multisetHash, hcombine, hrecords⟩ := MuHash.combine_records ctx.multisetHash hinner
  simp only [hcombine]
  have hprogress : Progress known history base { ctx with multisetHash } _ :=
    hmerging.progress.congr rfl rfl
  have hfees : overflow ∨ (∀ item ∈ validated,
      item.1.totalIn = item.1.calculatedFee + item.1.tx.totalOut) ∧
      ((0 : Nat) : ℤ) + totalAmount (held + count (movesOfMerged povDaaScore merged)) <
        wordBound 64 := by
    -- what has left the set bounds the fees still to come
    rcases hbounded with hoverflow | ⟨hbalanced, hlt⟩
    · exact .inl hoverflow
    · refine .inr ⟨hbalanced.of_validated hvalidated, ?_⟩
      rw [totalAmount_add, totalAmount_movesOfMerged hbalanced hmerging.processed]
      omega
  refine (acceptTransactions_post hdistinct hprogress 0 hacceptable hfees).bind
    fun accepted _ ⟨hnext, hfee, hctx⟩ => ?_
  subst hcons
  have hpayload : Post ((self.coinbaseManager.deserializeCoinbasePayload coinbase.payload).mapError
      StateFault.coinbasePayload)
      (fun data => self.coinbaseManager.deserializeCoinbasePayload coinbase.payload = .ok data)
      (StateFault.External overflow) :=
    Post.mapError (fun _ hdata => hdata) fun _ _ => trivial
  refine hpayload.bind fun data _ hdata => ?_
  let last : MergedBlock Hash := ⟨block, coinbase :: rest, base.compose ctx.mergesetDiff,
    if isSelectedParent then .skipScriptChecks else .full, validated, data⟩
  have hmoves : movesOfMerged povDaaScore (merged ++ [last]) =
      movesOfMerged povDaaScore merged ++ movesOf povDaaScore validated := by
    simp [movesOfMerged, last]
  refine ⟨last, rfl, ?_, ?_, ?_, ?_, ?_, ?_⟩
  · rw [hmoves, count_append, ← add_assoc]
    exact hnext.congr rfl rfl
  · rw [hmoves, hctx]
    exact hmerging.records.trans hrecords
  · rw [hctx, flatMap_append, ← append_assoc, ← hmerging.acceptedTxIds]
    simp [last]
  · rw [hctx, foldl_append, ← hmerging.rewards]
    simp [MergedBlock.reward, last, hfee]
  · rw [hctx]
    exact hmerging.ghostdagData
  · refine forall_mem_append.mpr ⟨hmerging.processed, ?_⟩
    rw [forall_mem_singleton]
    exact ⟨htxs, hvalidated, coinbase, rest, rfl, hdata⟩

/-- The loop over the mergeset, by induction on the blocks that are left. -/
theorem mergeBlocks_post (coinbaseId : BitVec 256) (order : List Hash) :
    Post (order.foldlM (fun ctx mergedBlock => do
        let txs ← getTransactions blockTransactions mergedBlock
        self.mergeBlock base povDaaScore coinbaseId false ctx mergedBlock txs) ctx)
      (fun next => ∃ all : List (MergedBlock Hash),
        all.map (·.block) = merged.map (·.block) ++ order ∧
          Merging self blockTransactions known history base povDaaScore held start all next)
      (StateFault.External overflow) := by
  induction order generalizing merged ctx with
  | nil => exact ⟨merged, by simp, hmerging⟩
  | cons block order ih =>
    have hround : Post (do
        let txs ← getTransactions blockTransactions block
        self.mergeBlock base povDaaScore coinbaseId false ctx block txs)
        (fun next => ∃ last : MergedBlock Hash, last.block = block ∧
          Merging self blockTransactions known history base povDaaScore held start
            (merged ++ [last]) next) (StateFault.External overflow) :=
      (getTransactions_post blockTransactions block).bind fun txs _ htxs =>
        mergeBlock_post hbodies hdistinct hmerging hbounded coinbaseId false htxs
    refine hround.bind fun next _ ⟨last, hlast, hnext⟩ => ?_
    refine (ih hnext).mono fun final ⟨all, hall, hfinal⟩ => ⟨all, ?_, hfinal⟩
    rw [hall, map_append, append_assoc, map_singleton, hlast, singleton_append]

end

omit [LinearOrder Hash] in
/-- The coinbase of the selected parent is accepted first. -/
theorem acceptCoinbase_post (hprogress : Progress known history base ctx held) {block : Hash}
    {txs : List Transaction} (htxs : blockTransactions block = some txs)
    (hfresh : ∀ coinbase rest, txs = coinbase :: rest →
      coinbase.id ∉ history ++ ctx.acceptedTxIds) :
    Post (self.acceptCoinbase povDaaScore ctx txs)
      (fun result => ∃ coinbase rest, txs = coinbase :: rest ∧
        Progress known history base result.1
          (held + count (creates (coinbase.createdEntries povDaaScore))) ∧
        MuHash.Records self.elementStream ctx.multisetHash
          (creates (coinbase.createdEntries povDaaScore)) result.1.multisetHash ∧
        result.1.acceptedTxIds = ctx.acceptedTxIds ++ [coinbase.id] ∧
        result.1.ghostdagData = ctx.ghostdagData ∧
        result.1.mergesetRewards = ctx.mergesetRewards)
      (StateFault.External overflow) := by
  obtain ⟨hisolated, hknown⟩ := hbodies block txs htxs
  obtain ⟨coinbase, rest, rfl, hcoinbase, _⟩ := hisolated.coinbase
  have hmem : coinbase ∈ coinbase :: rest := .head _ ..
  have hinputs := (hisolated.isolated coinbase hmem).inputs_eq_nil hcoinbase
  let populated : PopulatedTransaction := ⟨coinbase, [], hinputs.symm⟩
  have hnew : newCoinbase coinbase = .ok ⟨populated, 0⟩ := dif_pos ⟨hcoinbase, hinputs⟩
  have hmoves : populated.moves povDaaScore =
      creates (coinbase.createdEntries povDaaScore) := rfl
  obtain ⟨mergesetDiff, hdiff, _, hnext⟩ := hprogress.addTransaction hdistinct povDaaScore
    populated (hknown coinbase hmem) (hfresh coinbase rest rfl)
    (by simp [populated, PopulatedTransaction.spentEntries])
    (by simp [populated, Transaction.outpoints, hinputs])
    (hisolated.isolated coinbase hmem).length_outputs
  obtain ⟨multisetHash, hmultiset, hrecords⟩ :=
    ctx.multisetHash.addTransaction_records populated povDaaScore
  rw [acceptCoinbase, hnew, ok_bind, hdiff, hmultiset]
  exact ⟨coinbase, rest, rfl, hnext.congr rfl rfl, hrecords, rfl, rfl, rfl⟩

/-- The result of the whole computation: the coinbase of the selected parent and then
the mergeset in consensus order have been accepted on top of the given set. -/
structure Calculated (processor : VirtualStateProcessor Hash)
    (blockTransactions : Hash → Option (List Transaction)) (known : Transaction → Prop)
    (history : List (BitVec 256)) (base : UtxoView) (stores : Stores Hash)
    (data : GhostdagData Hash) (povDaaScore : UInt64)
    (held : TransactionOutpoint × UtxoEntry →₀ ℤ) (multiset : MuHash) (coinbase : Transaction)
    (merged : List (MergedBlock Hash)) (ctx : UtxoProcessingContext Hash) : Prop where
  selectedParent : ∃ rest, blockTransactions data.selectedParent = some (coinbase :: rest)
  order : ∃ order, data.consensusOrderedMergesetWithoutSelectedParent stores = .ok order ∧
    merged.map MergedBlock.block = data.selectedParent :: order
  progress : Progress known history base ctx
    (held + count (creates (coinbase.createdEntries povDaaScore)) +
      count (movesOfMerged povDaaScore merged))
  records : MuHash.Records processor.elementStream multiset
    (creates (coinbase.createdEntries povDaaScore) ++ movesOfMerged povDaaScore merged)
    ctx.multisetHash
  acceptedTxIds : ctx.acceptedTxIds =
    coinbase.id :: merged.flatMap fun block => block.validated.map (·.1.tx.id)
  rewards : ctx.mergesetRewards =
    merged.foldl (fun rewards block => rewards.insert block.block block.reward) ∅
  ghostdagData : ctx.ghostdagData = data
  processed : ∀ block ∈ merged, block.Processed processor blockTransactions povDaaScore

/-- The whole computation, from the UTXO set of the selected parent. -/
theorem calculateUtxoState_post (self : VirtualStateProcessor Hash)
    (hsettled : Settled known history base)
    (hholds : Ledger.Holds base held) (stores : Stores Hash) (data : GhostdagData Hash)
    (multiset : MuHash) (povDaaScore : UInt64)
    (hfresh : ∀ coinbase rest, blockTransactions data.selectedParent = some (coinbase :: rest) →
      coinbase.id ∉ history)
    (hbounded : ∀ coinbase rest,
      blockTransactions data.selectedParent = some (coinbase :: rest) → FeesBounded self overflow
        (held + count (creates (coinbase.createdEntries povDaaScore)))) :
    Post (self.calculateUtxoState stores blockTransactions (.new data multiset) base povDaaScore)
      (fun ctx => ∃ coinbase merged, Calculated self blockTransactions known history base stores
        data povDaaScore held multiset coinbase merged ctx)
      (StateFault.External overflow) := by
  have hnew : Progress known history base (.new data multiset) held :=
    ⟨hsettled.present, UtxoDiff.tracks_default base, by simpa [new], by
      simpa [new]⟩
  refine (getTransactions_post blockTransactions data.selectedParent).bind fun txs _ htxs => ?_
  have hcoinbaseFresh : ∀ coinbase rest, txs = coinbase :: rest →
      coinbase.id ∉ history ++ (new data multiset).acceptedTxIds := by
    intro coinbase rest hcons
    simpa [new] using hfresh coinbase rest (hcons ▸ htxs)
  refine (acceptCoinbase_post hbodies hdistinct hnew htxs hcoinbaseFresh).bind
    fun result _ hstart => ?_
  obtain ⟨start, coinbaseId⟩ := result
  obtain ⟨coinbase, rest, rfl, hprogress, hrecords, hids, hdata, hrewards⟩ := hstart
  refine (mergeBlock_post hbodies hdistinct (Merging.nil hprogress) (hbounded coinbase rest htxs)
    coinbaseId true htxs).bind fun ctx _ hmerged => ?_
  obtain ⟨last, hlast, hmerging⟩ := hmerged
  have horder : Post ((ctx.ghostdagData.consensusOrderedMergesetWithoutSelectedParent
      stores).mapError StateFault.mergesetOrder)
      (fun order => data.consensusOrderedMergesetWithoutSelectedParent stores = .ok order)
      (StateFault.External overflow) := by
    rw [hmerging.ghostdagData, hdata]
    exact Post.mapError (fun _ horder => horder) fun _ _ => trivial
  refine horder.bind fun order _ horder => ?_
  refine (mergeBlocks_post hbodies hdistinct hmerging (hbounded coinbase rest htxs) coinbaseId
    order).mono fun final hall => ?_
  obtain ⟨merged, hmerged, hfinal⟩ := hall
  refine ⟨coinbase, merged, ⟨rest, htxs⟩, ⟨order, horder, by simpa [hlast] using hmerged⟩,
    hfinal.progress,
    hrecords.trans hfinal.records, ?_, ?_, hfinal.ghostdagData.trans hdata, hfinal.processed⟩
  · rw [hfinal.acceptedTxIds, hids]
    rfl
  · rw [hfinal.rewards, hrewards]
    rfl

end VirtualStateProcessor

end Qaspa.Virtual
