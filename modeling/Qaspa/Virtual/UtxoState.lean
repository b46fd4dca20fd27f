import Qaspa.Body.Isolation
import Qaspa.Ghostdag.Data
import Qaspa.MuHash.Transaction

/-! # The UTXO state of a block

A block accepts the coinbase of its selected parent and then, merged block by
merged block, every transaction that is valid on top of what it has accepted so
far. The accepted transactions are collected in a diff and, on a separate path,
in a multiset hash that is reduced in parallel. Every call that the code unwraps
has its own fault here, so that a result can say which of them never fail.
-/

namespace Qaspa.Virtual

open Utxo Ghostdag Coinbase Outcome

inductive TxValidationFlags where
  | full
  | skipScriptChecks
  | skipMassCheck
  deriving DecidableEq, Repr

/-- The calls whose failure stops the computation. -/
inductive StateFault where
  | missingTransactions
  | notCoinbase
  | addTransaction (error : UtxoAlgebraError)
  | multiset (fault : Fault Empty)
  | mergesetOrder (fault : Fault Empty)
  | validation
  | feeOverflow
  | coinbasePayload (fault : Fault CoinbaseError)

/-- The faults outside of the bookkeeping: missing data, the validator, and the fees
when they may overflow. -/
def StateFault.External (overflow : Prop) : StateFault → Prop
  | .addTransaction _ | .multiset _ => False
  | .feeOverflow => overflow
  | _ => True

structure AcceptedTxEntry where
  transactionId : BitVec 256
  indexWithinBlock : UInt32

structure MergesetBlockAcceptanceData (Hash : Type) where
  blockHash : Hash
  acceptedTransactions : List AcceptedTxEntry

structure BlockRewardData where
  subsidy : UInt64
  totalFees : Nat
  scriptPublicKey : ScriptPublicKey

/-- The state of processing a block on top of its selected parent. -/
structure UtxoProcessingContext (Hash : Type) where
  ghostdagData : GhostdagData Hash
  multisetHash : MuHash
  mergesetDiff : UtxoDiff
  acceptedTxIds : List (BitVec 256)
  mergesetAcceptanceData : List (MergesetBlockAcceptanceData Hash)
  mergesetRewards : HashMap Hash BlockRewardData

def UtxoProcessingContext.new {Hash : Type} (ghostdagData : GhostdagData Hash)
    (selectedParentMultisetHash : MuHash) : UtxoProcessingContext Hash :=
  ⟨ghostdagData, selectedParentMultisetHash, .default, [], [], ∅⟩

/-! ## Validation against a view -/

/-- Look up all inputs; a single missing outpoint ends the search. -/
def populate (view : UtxoView) :
    List TransactionInput → Option (List (TransactionInput × UtxoEntry))
  | [] => some []
  | input :: inputs =>
    match view input.previousOutpoint with
    | some entry => (populate view inputs).map ((input, entry) :: ·)
    | none => none

theorem populate_eq_some {view : UtxoView} {inputs : List TransactionInput}
    {populated : List (TransactionInput × UtxoEntry)}
    (hpopulate : populate view inputs = some populated) :
    populated.map Prod.fst = inputs ∧
      ∀ input ∈ populated, view input.1.previousOutpoint = some input.2 := by
  induction inputs generalizing populated with
  | nil =>
    cases hpopulate
    simp
  | cons input inputs ih =>
    rw [populate] at hpopulate
    split at hpopulate
    next entry hentry =>
      obtain ⟨rest, hrest, rfl⟩ := Option.map_eq_some_iff.mp hpopulate
      obtain ⟨hmap, hall⟩ := ih hrest
      exact ⟨by simp [hmap], List.forall_mem_cons.mpr ⟨hentry, hall⟩⟩
    · cases hpopulate

/-- The processor, with the parts of the environment it calls: the transaction
validator, the hash behind the multiset, and the thread pool's groupings. -/
structure VirtualStateProcessor (Hash : Type) where
  validatePopulatedTransactionAndGetFee :
    PopulatedTransaction → UInt64 → TxValidationFlags → Outcome TxRuleError Nat
  coinbaseManager : CoinbaseManager
  elementStream : List UInt8 → MuHash.ElementBytes
  schedule : Hash → MuHash.Schedule (ValidatedTransaction × UInt32)

namespace VirtualStateProcessor

variable {Hash : Type} [LinearOrder Hash] (self : VirtualStateProcessor Hash)

def validateTransactionInUtxoContext (transaction : Transaction) (utxoView : UtxoView)
    (povDaaScore : UInt64) (flags : TxValidationFlags) :
    Outcome TxRuleError ValidatedTransaction :=
  match hpopulate : populate utxoView transaction.inputs with
  | none => .error (.err .missingTxOutpoints)
  | some populatedInputs => do
    let populated : PopulatedTransaction :=
      ⟨transaction, populatedInputs, (populate_eq_some hpopulate).1⟩
    let calculatedFee ← self.validatePopulatedTransactionAndGetFee populated povDaaScore flags
    return ⟨populated, calculatedFee⟩

/-- Keep the transactions that pass, with their positions. -/
def filterValid (validate : Transaction → Outcome TxRuleError ValidatedTransaction) :
    List (Transaction × Nat) → Except StateFault (List (ValidatedTransaction × UInt32))
  | [] => .ok []
  | (transaction, i) :: rest =>
    match validate transaction with
    | .ok validated => do return (validated, UInt32.ofNat i) :: (← filterValid validate rest)
    | .error (.err _) => filterValid validate rest
    | .error _ => .error .validation

/-- Validate all transactions but the coinbase. -/
def validateTransactionsInParallel (txs : List Transaction) (utxoView : UtxoView)
    (povDaaScore : UInt64) (flags : TxValidationFlags) :
    Except StateFault (List (ValidatedTransaction × UInt32)) :=
  filterValid (self.validateTransactionInUtxoContext · utxoView povDaaScore flags)
    (txs.zipIdx.drop 1)

/-- The same, with the multiset of the valid transactions. -/
def validateTransactionsWithMuhashInParallel (block : Hash) (txs : List Transaction)
    (utxoView : UtxoView) (povDaaScore : UInt64) (flags : TxValidationFlags) :
    Except StateFault (List (ValidatedTransaction × UInt32) × MuHash) := do
  let validated ← self.validateTransactionsInParallel txs utxoView povDaaScore flags
  let grouping := (self.schedule block).group validated
  let innerMultiset ← (grouping.reduce fun item =>
    MuHash.fromTransaction self.elementStream item.1.toPopulatedTransaction povDaaScore).mapError
      .multiset
  return (grouping.items, innerMultiset)

/-! ## Accepting transactions -/

/-- A coinbase has no inputs, so there is nothing to populate. -/
def newCoinbase (tx : Transaction) : Except StateFault ValidatedTransaction :=
  if hcoinbase : tx.isCoinbase = true ∧ tx.inputs = [] then .ok ⟨⟨tx, [], hcoinbase.2.symm⟩, 0⟩
  else .error .notCoinbase

/-- The loop over the valid transactions of a merged block, with its fees so far. -/
def acceptTransactions (povDaaScore : UInt64) :
    UtxoProcessingContext Hash → Nat → List (ValidatedTransaction × UInt32) →
      Except StateFault (UtxoProcessingContext Hash × Nat)
  | ctx, blockFee, [] => .ok (ctx, blockFee)
  | ctx, blockFee, (validated, _) :: rest => do
    let mergesetDiff ← (ctx.mergesetDiff.addTransaction validated.toPopulatedTransaction
      povDaaScore).mapError .addTransaction
    let blockFee ← (U64.add blockFee validated.calculatedFee : Checked Nat).mapError
      fun _ => .feeOverflow
    acceptTransactions povDaaScore
      { ctx with mergesetDiff, acceptedTxIds := ctx.acceptedTxIds ++ [validated.tx.id] }
      blockFee rest

/-- One round of the loop over the mergeset. The selected parent comes first, with
its coinbase already accepted. -/
def mergeBlock (selectedParentUtxoView : UtxoView) (povDaaScore : UInt64)
    (validatedCoinbaseId : BitVec 256) (isSelectedParent : Bool)
    (ctx : UtxoProcessingContext Hash) (mergedBlock : Hash) (txs : List Transaction) :
    Except StateFault (UtxoProcessingContext Hash) := do
  let composedView := selectedParentUtxoView.compose ctx.mergesetDiff
  let flags := if isSelectedParent then .skipScriptChecks else .full
  let (validated, innerMultiset) ← self.validateTransactionsWithMuhashInParallel mergedBlock txs
    composedView povDaaScore flags
  let multisetHash ← (ctx.multisetHash.combine innerMultiset).mapError .multiset
  let (ctx, blockFee) ← acceptTransactions povDaaScore { ctx with multisetHash } 0 validated
  let coinbaseEntry := if isSelectedParent then [⟨validatedCoinbaseId, 0⟩] else []
  let acceptanceData : MergesetBlockAcceptanceData Hash := ⟨mergedBlock,
    coinbaseEntry ++ validated.map fun (validated, i) => ⟨validated.tx.id, i⟩⟩
  match txs with
  | [] => .error .missingTransactions
  | coinbase :: _ => do
    let coinbaseData ← (self.coinbaseManager.deserializeCoinbasePayload
      coinbase.payload).mapError .coinbasePayload
    return { ctx with
      mergesetAcceptanceData := ctx.mergesetAcceptanceData ++ [acceptanceData]
      mergesetRewards := ctx.mergesetRewards.insert mergedBlock
        ⟨coinbaseData.subsidy, blockFee, coinbaseData.minerData.scriptPublicKey⟩ }

/-- The transactions of a block that must be in the store. -/
def getTransactions (blockTransactions : Hash → Option (List Transaction)) (block : Hash) :
    Except StateFault (List Transaction) :=
  match blockTransactions block with
  | some txs => .ok txs
  | none => .error .missingTransactions

/-- Accept the coinbase of the selected parent. -/
def acceptCoinbase (povDaaScore : UInt64) (ctx : UtxoProcessingContext Hash)
    (selectedParentTransactions : List Transaction) :
    Except StateFault (UtxoProcessingContext Hash × BitVec 256) :=
  match selectedParentTransactions with
  | [] => .error .missingTransactions
  | coinbase :: _ => do
    let validatedCoinbase ← newCoinbase coinbase
    let mergesetDiff ← (ctx.mergesetDiff.addTransaction validatedCoinbase.toPopulatedTransaction
      povDaaScore).mapError .addTransaction
    let multisetHash ← (ctx.multisetHash.addTransaction self.elementStream
      validatedCoinbase.toPopulatedTransaction povDaaScore).mapError .multiset
    return ({ ctx with
      mergesetDiff, multisetHash, acceptedTxIds := ctx.acceptedTxIds ++ [coinbase.id] },
      coinbase.id)

def calculateUtxoState (stores : Stores Hash)
    (blockTransactions : Hash → Option (List Transaction)) (ctx : UtxoProcessingContext Hash)
    (selectedParentUtxoView : UtxoView) (povDaaScore : UInt64) :
    Except StateFault (UtxoProcessingContext Hash) := do
  let selectedParent := ctx.ghostdagData.selectedParent
  let selectedParentTransactions ← getTransactions blockTransactions selectedParent
  let (ctx, coinbaseId) ← self.acceptCoinbase povDaaScore ctx selectedParentTransactions
  let ctx ← self.mergeBlock selectedParentUtxoView povDaaScore coinbaseId true ctx selectedParent
    selectedParentTransactions
  let rest ← (ctx.ghostdagData.consensusOrderedMergesetWithoutSelectedParent stores).mapError
    .mergesetOrder
  rest.foldlM (fun ctx mergedBlock => do
    let txs ← getTransactions blockTransactions mergedBlock
    self.mergeBlock selectedParentUtxoView povDaaScore coinbaseId false ctx mergedBlock txs) ctx

end VirtualStateProcessor

end Qaspa.Virtual
