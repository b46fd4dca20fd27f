import Qaspa.Virtual.Merging

/-! # The UTXO commitment

The multiset hash of a block is computed apart from its diff. Both start from the
selected parent and record the same moves, so the hash stands for the entries of
the composed UTXO set, whatever the validator decides about single transactions and
however the reduction is grouped.
-/

namespace Qaspa.Virtual

open Utxo Ghostdag Coinbase Outcome MuHash

/-! ## Along a chain -/

section Chain

variable {Hash : Type} [LinearOrder Hash]

/-- The transactions of the stored blocks. -/
def InStore (blockTransactions : Hash → Option (List Transaction)) (tx : Transaction) : Prop :=
  ∃ block txs, blockTransactions block = some txs ∧ tx ∈ txs

/-- Every stored body has passed the checks in isolation. -/
def BodiesValidated (bodyProcessor : BlockBodyProcessor)
    (blockTransactions : Hash → Option (List Transaction)) : Prop :=
  ∀ block txs, blockTransactions block = some txs →
    ∃ hashMerkleRoot mass, bodyProcessor.validateBodyInIsolation hashMerkleRoot txs = .ok mass

/-- The coinbase of the selected parent is none of the accepted transactions. -/
def NewCoinbase (blockTransactions : Hash → Option (List Transaction))
    (history : List (BitVec 256)) (data : GhostdagData Hash) : Prop :=
  ∀ coinbase rest, blockTransactions data.selectedParent = some (coinbase :: rest) →
    coinbase.id ∉ history

/-- The accumulator is the hash of exactly the entries of a view. -/
def IsMuHashOf (elementStream : List UInt8 → MuHash.ElementBytes)
    (hunits : ∀ utxo, (dataToElement (utxoStream elementStream) utxo).value.Coprime
      prime) (multiset : MuHash) (view : UtxoView) : Prop :=
  ∃ held, Ledger.Holds view held ∧ multiset.Represents (utxoStream elementStream) hunits held

/-- The UTXO sets of the blocks of a chain, with the transactions accepted up to
them. The chain starts at a set whose history is settled, such as the empty one. -/
inductive ChainState (processor : VirtualStateProcessor Hash)
    (hunits : ∀ utxo, (dataToElement (utxoStream processor.elementStream)
      utxo).value.Coprime prime)
    (blockTransactions : Hash → Option (List Transaction)) :
      List (BitVec 256) → UtxoView → Prop where
  | genesis {history : List (BitVec 256)} {view : UtxoView}
      (hsettled : Settled (InStore blockTransactions) history view) :
      ChainState processor hunits blockTransactions history view
  | child {history : List (BitVec 256)} {view : UtxoView} {multiset : MuHash}
      {stores : Stores Hash} {data : GhostdagData Hash} {povDaaScore : UInt64}
      {ctx : UtxoProcessingContext Hash}
      (hparent : ChainState processor hunits blockTransactions history view)
      (hmultiset : IsMuHashOf processor.elementStream hunits multiset view)
      (hcoinbase : NewCoinbase blockTransactions history data)
      (hctx : processor.calculateUtxoState stores blockTransactions (.new data multiset) view
        povDaaScore = .ok ctx) :
      ChainState processor hunits blockTransactions (history ++ ctx.acceptedTxIds)
        (view.compose ctx.mergesetDiff)

variable {processor : VirtualStateProcessor Hash} {bodyProcessor : BlockBodyProcessor}
  {blockTransactions : Hash → Option (List Transaction)}
  {hunits : ∀ utxo, (dataToElement (utxoStream processor.elementStream)
    utxo).value.Coprime prime}
  {history : List (BitVec 256)} {view : UtxoView}

section

variable (hbodies : BodiesValidated bodyProcessor blockTransactions)

include hbodies

omit [LinearOrder Hash] in
theorem bodiesKnown_of_validated :
    VirtualStateProcessor.BodiesKnown blockTransactions (InStore blockTransactions) := by
  intro block txs htxs
  obtain ⟨hashMerkleRoot, mass, hvalid⟩ := hbodies block txs htxs
  exact ⟨BlockBodyProcessor.isolatedBody_of_validate hvalid, fun tx htx => ⟨block, txs, htxs, htx⟩⟩

/-- The history of every set along the chain is settled. -/
theorem ChainState.settled (hdistinct : DistinctIds (InStore blockTransactions))
    (hchain : ChainState processor hunits blockTransactions history view) :
    Settled (InStore blockTransactions) history view := by
  induction hchain with
  | genesis hsettled => exact hsettled
  | child hparent hmultiset hcoinbase hctx ih =>
    obtain ⟨held, hholds, hrepresents⟩ := hmultiset
    obtain ⟨_, _, hcalculated⟩ := (VirtualStateProcessor.calculateUtxoState_post
      (bodiesKnown_of_validated hbodies) hdistinct _ ih hholds _ _ _ _ hcoinbase
      fun _ _ _ => .inl trivial).of_eq_ok hctx
    exact hcalculated.progress.settled

/-- On top of any set of a chain and its multiset hash, adding a transaction to the
mergeset diff never fails, and the resulting hash is that of exactly the entries of
the set composed with the diff. -/
theorem calculateUtxoState_commitment (hdistinct : DistinctIds (InStore blockTransactions))
    (hchain : ChainState processor hunits blockTransactions history view) {multiset : MuHash}
    (hmultiset : IsMuHashOf processor.elementStream hunits multiset view) (stores : Stores Hash)
    (data : GhostdagData Hash) (hcoinbase : NewCoinbase blockTransactions history data)
    (povDaaScore : UInt64) :
    (∀ error, processor.calculateUtxoState stores blockTransactions (.new data multiset) view
      povDaaScore ≠ .error (.addTransaction error)) ∧
    ∀ ctx, processor.calculateUtxoState stores blockTransactions (.new data multiset) view
        povDaaScore = .ok ctx →
      IsMuHashOf processor.elementStream hunits ctx.multisetHash
        (view.compose ctx.mergesetDiff) := by
  obtain ⟨held, hholds, hrepresents⟩ := hmultiset
  have hpost := VirtualStateProcessor.calculateUtxoState_post (bodiesKnown_of_validated hbodies)
    hdistinct processor (hchain.settled hbodies hdistinct) hholds stores data multiset povDaaScore
    hcoinbase (fun _ _ _ => .inl trivial)
  constructor
  · intro error hfault
    exact hpost.of_eq_error hfault
  · intro ctx hctx
    obtain ⟨_, _, hcalculated⟩ := hpost.of_eq_ok hctx
    refine ⟨_, hcalculated.progress.holds, ?_⟩
    rw [add_assoc, ← Ledger.count_append]
    exact hcalculated.records hunits held hrepresents

end

end Chain

/-! ## A block on top of genesis -/

def sampleScript : ScriptPublicKey := ⟨0, [0]⟩

/-- A coinbase with one output; its payload has blue score and subsidy zero. -/
def sampleCoinbase : Transaction where
  version := 0
  inputs := []
  outputs := [⟨5, sampleScript⟩]
  lockTime := 0
  subnetworkId := subnetworkIdCoinbase
  gas := 0
  payload := List.replicate 18 0 ++ [1, 0]
  mass := 0
  id := 1

/-- A transaction that spends an output of the set the chain starts at. -/
def sampleSpend : Transaction where
  version := 0
  inputs := [⟨⟨7, 0⟩, [], 0, 0⟩]
  outputs := [⟨3, sampleScript⟩]
  lockTime := 0
  subnetworkId := subnetworkIdNative
  gas := 0
  payload := []
  mass := 0
  id := 2

def sampleBodyProcessor : BlockBodyProcessor where
  transactionValidator := {
    maxTxInputs := 1000
    maxTxOutputs := 1000
    maxSignatureScriptLen := 1000
    maxScriptPublicKeyLen := 1000
    coinbasePayloadScriptPublicKeyMaxLen := 150
    coinbaseMaturity := 100
    ghostdagK := 18
    maxTxOutputs_le := by decide }
  calcHashMerkleRoot := fun _ => 0
  calcNonContextualMasses := fun _ => (0, 0)
  maxBlockMass := 500000

/-- A processor whose validator charges no fee and whose elements are all two. -/
def sampleProcessor : VirtualStateProcessor Nat where
  validatePopulatedTransactionAndGetFee := fun _ _ _ => .ok 0
  coinbaseManager := ⟨150, 204⟩
  elementStream := fun _ => sampleStream true
  schedule := fun _ => ⟨MuHash.Grouping.linear, MuHash.Grouping.items_linear⟩

def sampleTransactions (block : Nat) : Option (List Transaction) :=
  if block = 0 then some [sampleCoinbase, sampleSpend] else none

def sampleStores : Stores Nat := ⟨∅, ∅, fun _ => 1, fun _ _ => false⟩

theorem bodiesValidated_sample : BodiesValidated sampleBodyProcessor sampleTransactions := by
  intro block txs htxs
  unfold sampleTransactions at htxs
  split at htxs
  · cases htxs
    exact ⟨0, ⟨0, 0, 0⟩, rfl⟩
  · cases htxs

theorem inStore_sample {tx : Transaction} (htx : InStore sampleTransactions tx) :
    tx = sampleCoinbase ∨ tx = sampleSpend := by
  obtain ⟨block, txs, htxs, htx⟩ := htx
  unfold sampleTransactions at htxs
  split at htxs
  · cases htxs
    simpa using htx
  · cases htxs

theorem distinctIds_sample : DistinctIds (InStore sampleTransactions) := by
  intro tx tx' htx htx' hid
  rcases inStore_sample htx with rfl | rfl
  · rcases inStore_sample htx' with rfl | rfl
    · rfl
    · cases hid
  · rcases inStore_sample htx' with rfl | rfl
    · cases hid
    · rfl

theorem sampleUnits (utxo : TransactionOutpoint × UtxoEntry) :
    (dataToElement (utxoStream sampleProcessor.elementStream) utxo).value.Coprime
      prime := by
  have htwo : (dataToElement sampleStream true).value.Coprime prime := by decide
  exact htwo

def sampleEntry : UtxoEntry := ⟨4, sampleScript, 0, false⟩

/-- The set that the chain starts at holds the output that the sample transaction spends. -/
def sampleView : UtxoView := (Move.create ⟨7, 0⟩ sampleEntry).applyTo fun _ => none

theorem settled_sample : Settled (InStore sampleTransactions) [7] sampleView where
  present outpoint hsome := by
    by_cases hkey : outpoint = ⟨7, 0⟩
    · simp [hkey]
    · rw [sampleView, Move.applyTo_of_ne hkey] at hsome
      cases hsome
  spent tx htx haccepted := by
    rcases inStore_sample htx with rfl | rfl <;> revert haccepted <;> decide

/-- The first block on top of the set: the coinbase of genesis is new, and the other
transaction of genesis finds its input in the set. -/
theorem calculateUtxoState_commitment_sample :
    BodiesValidated sampleBodyProcessor sampleTransactions ∧
    ChainState sampleProcessor sampleUnits sampleTransactions [7] sampleView ∧
    ∃ multiset, MuHash.new.addUtxo sampleProcessor.elementStream ⟨7, 0⟩ sampleEntry =
        .ok multiset ∧
      IsMuHashOf sampleProcessor.elementStream sampleUnits multiset sampleView ∧
      ∀ ctx, sampleProcessor.calculateUtxoState sampleStores sampleTransactions
          (.new (.newWithSelectedParent 0) multiset) sampleView 10 = .ok ctx →
        IsMuHashOf sampleProcessor.elementStream sampleUnits ctx.multisetHash
          (sampleView.compose ctx.mergesetDiff) := by
  have hchain : ChainState sampleProcessor sampleUnits sampleTransactions [7] sampleView :=
    .genesis settled_sample
  have hnew : MuHash.new.Represents (utxoStream sampleProcessor.elementStream) sampleUnits 0 :=
    represents_new
  obtain ⟨multiset, hadd, hrepresents⟩ := hnew.addElement (⟨7, 0⟩, sampleEntry)
  have hlegal : (Move.create ⟨7, 0⟩ sampleEntry).Legal (fun _ : TransactionOutpoint => none) := rfl
  have hmultiset : IsMuHashOf sampleProcessor.elementStream sampleUnits multiset sampleView :=
    ⟨_, Ledger.holds_empty.applyTo hlegal, hrepresents⟩
  have hcoinbase : NewCoinbase sampleTransactions [7] (.newWithSelectedParent 0) := by
    rintro coinbase rest ⟨⟩
    decide
  exact ⟨bodiesValidated_sample, hchain, multiset, hadd, hmultiset,
    (calculateUtxoState_commitment bodiesValidated_sample distinctIds_sample hchain hmultiset
      sampleStores (.newWithSelectedParent 0) hcoinbase 10).2⟩

end Qaspa.Virtual
