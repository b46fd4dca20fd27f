import Qaspa.Virtual.Acceptance
import Qaspa.Virtual.Rewards

/-! # UTXO-valid blocks

A transaction is valid in a UTXO context when its inputs are mature and cover its
outputs; the difference is its fee. A block is UTXO-valid when its header commits to
the state that was calculated for it, its coinbase is the expected one and all of its
own transactions are valid.
-/

namespace Qaspa.Virtual

open Utxo Ghostdag Coinbase Outcome List Transaction

/-! ## Transactions in a UTXO context -/

/-- The checks whose outcome no amount depends on: storage mass, sequence locks and
scripts. -/
structure ContextChecks where
  checkMassCommitment : PopulatedTransaction → Outcome TxRuleError Unit
  checkSequenceLock : PopulatedTransaction → UInt64 → Outcome TxRuleError Unit
  checkScripts : PopulatedTransaction → Outcome TxRuleError Unit

/-- The loop over the inputs, with their indices. -/
def checkCoinbaseMaturityFrom (coinbaseMaturity povDaaScore : UInt64) (index : Nat) :
    List (TransactionInput × UtxoEntry) → Outcome TxRuleError Unit
  | [] => .ok ()
  | (input, entry) :: inputs =>
    if entry.isCoinbase then do
      let matureScore ← U64.add entry.blockDaaScore.toNat coinbaseMaturity.toNat
      if matureScore > povDaaScore.toNat then
        .error (.err (.immatureCoinbaseSpend index input.previousOutpoint entry.blockDaaScore
          povDaaScore coinbaseMaturity))
      else checkCoinbaseMaturityFrom coinbaseMaturity povDaaScore (index + 1) inputs
    else checkCoinbaseMaturityFrom coinbaseMaturity povDaaScore (index + 1) inputs

/-- The loop over the input amounts, with the total so far. -/
def checkInputAmountsFrom (total : Nat) :
    List (TransactionInput × UtxoEntry) → Outcome TxRuleError Nat
  | [] => .ok total
  | (_, entry) :: inputs =>
    if total + entry.amount.toNat ≥ wordBound 64 then .error (.err .inputAmountOverflow)
    else if total + entry.amount.toNat > maxSompi then .error (.err .inputAmountTooHigh)
    else checkInputAmountsFrom (total + entry.amount.toNat) inputs

/-- The sum of the output values, which panics when it leaves the word. -/
def sumOutputsFrom (total : Nat) : List TransactionOutput → Outcome TxRuleError Nat
  | [] => .ok total
  | output :: outputs => do sumOutputsFrom (← U64.add total output.value.toNat) outputs

def checkTransactionOutputValues (tx : PopulatedTransaction) (totalIn : Nat) :
    Outcome TxRuleError Nat := do
  let totalOut ← sumOutputsFrom 0 tx.tx.outputs
  if totalIn < totalOut then .error (.err (.spendTooHigh totalOut totalIn)) else .ok totalOut

/-- A check that some flags skip. -/
def checkIf (condition : Bool) (check : Outcome TxRuleError Unit) : Outcome TxRuleError Unit :=
  if condition then check else .ok ()

/-- Consensus passes no fee rate threshold. -/
def validatePopulatedTransactionAndGetFee (validator : TransactionValidator)
    (checks : ContextChecks) (tx : PopulatedTransaction) (povDaaScore : UInt64)
    (flags : TxValidationFlags) : Outcome TxRuleError Nat := do
  checkCoinbaseMaturityFrom validator.coinbaseMaturity povDaaScore 0 tx.populatedInputs
  let totalIn ← checkInputAmountsFrom 0 tx.populatedInputs
  let totalOut ← checkTransactionOutputValues tx totalIn
  let fee ← U64.sub totalIn totalOut
  checkIf (flags != .skipMassCheck) (checks.checkMassCommitment tx)
  checks.checkSequenceLock tx povDaaScore
  checkIf (flags != .skipScriptChecks) (checks.checkScripts tx)
  return fee

theorem checkInputAmountsFrom_eq_ok {total result : Nat}
    {inputs : List (TransactionInput × UtxoEntry)}
    (hcheck : checkInputAmountsFrom total inputs = .ok result) :
    result = total + (inputs.map fun input => input.2.amount.toNat).sum := by
  induction inputs generalizing total with
  | nil =>
    cases hcheck
    simp
  | cons input inputs ih =>
    simp only [checkInputAmountsFrom, ite_error_eq_ok] at hcheck
    rw [ih hcheck.2.2, map_cons, sum_cons, Nat.add_assoc]

theorem sumOutputsFrom_eq_ok {total result : Nat} {outputs : List TransactionOutput}
    (hsum : sumOutputsFrom total outputs = .ok result) :
    result = total + (outputs.map fun output => output.value.toNat).sum := by
  induction outputs generalizing total with
  | nil =>
    cases hsum
    simp
  | cons output outputs ih =>
    simp only [sumOutputsFrom, bind_eq_ok, U64.add_eq_ok] at hsum
    obtain ⟨next, ⟨_, rfl⟩, hrest⟩ := hsum
    rw [ih hrest, map_cons, sum_cons, Nat.add_assoc]

/-! ## Headers and coinbases -/

/-- The fields of a header that UTXO verification reads. -/
structure Header (Hash : Type) where
  hash : Hash
  utxoCommitment : BitVec 256
  acceptedIdMerkleRoot : BitVec 256
  daaScore : UInt64
  blueScore : UInt64
  pruningPoint : Hash

def RewardManager.checkCoinbaseBlueScoreAndSubsidy {Hash : Type} (manager : RewardManager)
    (header : Header Hash) : List Transaction → Outcome RuleError Unit
  | [] => .error .panic
  | coinbase :: _ =>
    match manager.deserializeCoinbasePayload coinbase.payload with
    | .ok data =>
      if data.blueScore ≠ header.blueScore then
        .error (.err (.badCoinbasePayloadBlueScore data.blueScore header.blueScore))
      else if data.subsidy ≠ manager.calcBlockSubsidy header.daaScore then
        .error (.err (.wrongSubsidy (manager.calcBlockSubsidy header.daaScore) data.subsidy))
      else .ok ()
    | .error (.err error) => .error (.err (.badCoinbasePayload error))
    | .error _ => .error .panic

theorem data_of_checkCoinbaseBlueScoreAndSubsidy {Hash : Type} {manager : RewardManager}
    {header : Header Hash} {coinbase : Transaction} {rest : List Transaction}
    (hcheck : manager.checkCoinbaseBlueScoreAndSubsidy header (coinbase :: rest) = .ok ()) :
    ∃ data, manager.deserializeCoinbasePayload coinbase.payload = .ok data ∧
      data.blueScore = header.blueScore ∧
      data.subsidy = manager.calcBlockSubsidy header.daaScore := by
  simp only [RewardManager.checkCoinbaseBlueScoreAndSubsidy] at hcheck
  split at hcheck
  next data hdata =>
    simp only [ite_error_eq_ok, not_not] at hcheck
    exact ⟨data, hdata, hcheck.1, hcheck.2.1⟩
  · cases hcheck
  · cases hcheck

/-! ## Verification of a block -/

/-- The virtual processor with everything that block verification calls. The hash of a
transaction is kept abstract, so that it may be assumed to have no collisions. -/
structure BlockVerifier (Hash Digest : Type) where
  transactionValidator : TransactionValidator
  contextChecks : ContextChecks
  rewardManager : RewardManager
  elementStream : List UInt8 → MuHash.ElementBytes
  schedule : Hash → MuHash.Schedule (ValidatedTransaction × UInt32)
  finalizeHash : MuHash.ElementBytes → BitVec 256
  hashTransaction : Transaction → Digest
  calcId : Transaction → BitVec 256
  calcAcceptedIdMerkleRoot : List (BitVec 256) → Hash → BitVec 256
  expectedHeaderPruningPoint : GhostdagData Hash → Hash

namespace BlockVerifier

variable {Hash Digest : Type} [LinearOrder Hash] [DecidableEq Digest]
  (self : BlockVerifier Hash Digest)

def toProcessor : VirtualStateProcessor Hash where
  validatePopulatedTransactionAndGetFee :=
    Virtual.validatePopulatedTransactionAndGetFee self.transactionValidator self.contextChecks
  coinbaseManager := self.rewardManager.toCoinbaseManager
  elementStream := self.elementStream
  schedule := self.schedule

/-- A call whose failure the code unwraps. -/
def unwrapped {ε α : Type} (result : Except ε α) : Outcome RuleError α :=
  result.mapError fun _ => .panic

def verifyCoinbaseTransaction (coinbase : Transaction) (daaScore : UInt64)
    (ghostdagData : GhostdagData Hash) (mergesetRewards : HashMap Hash BlockRewardData)
    (mergesetNonDaa : Hash → Bool) : Outcome RuleError Unit := do
  let data ← unwrapped (self.rewardManager.deserializeCoinbasePayload coinbase.payload)
  let expectedCoinbase ← unwrapped (self.rewardManager.expectedCoinbaseTransaction self.calcId
    daaScore data.minerData ghostdagData mergesetRewards mergesetNonDaa)
  if self.hashTransaction coinbase ≠ self.hashTransaction expectedCoinbase.tx then
    .error (.err .badCoinbaseTransaction)
  else .ok ()

def verifyHeaderPruningPoint (header : Header Hash) (ghostdagData : GhostdagData Hash) :
    Outcome RuleError Unit :=
  if self.expectedHeaderPruningPoint ghostdagData ≠ header.pruningPoint then
    .error (.err .wrongHeaderPruningPoint)
  else .ok ()

/-- Finalizing leaves the accumulator normalized. -/
def verifyUtxoCommitment (multisetHash : MuHash) (header : Header Hash) :
    Outcome RuleError MuHash := do
  let (expectedCommitment, normalized) ← unwrapped (multisetHash.finalize self.finalizeHash)
  if expectedCommitment ≠ header.utxoCommitment then
    .error (.err (.badUTXOCommitment header.utxoCommitment expectedCommitment))
  else .ok normalized

def verifyAcceptedIds (ctx : UtxoProcessingContext Hash) (header : Header Hash) :
    Outcome RuleError Unit :=
  let expected := self.calcAcceptedIdMerkleRoot ctx.acceptedTxIds ctx.ghostdagData.selectedParent
  if expected ≠ header.acceptedIdMerkleRoot then
    .error (.err (.badAcceptedIDMerkleRoot header.acceptedIdMerkleRoot expected))
  else .ok ()

/-- All transactions of the block but its coinbase are valid on top of its own state. -/
def verifyOwnTransactions (ctx : UtxoProcessingContext Hash) (selectedParentUtxoView : UtxoView)
    (header : Header Hash) (txs : List Transaction) : Outcome RuleError Unit := do
  let validated ← unwrapped (self.toProcessor.validateTransactionsInParallel txs
    (selectedParentUtxoView.compose ctx.mergesetDiff) header.daaScore .full)
  if validated.length < txs.length - 1 then
    .error (.err (.invalidTransactionsInUtxoContext (txs.length - 1 - validated.length)
      (txs.length - 1)))
  else .ok ()

/-- The context comes back with its multiset finalized. -/
def verifyExpectedUtxoState (blockTransactions : Hash → Option (List Transaction))
    (mergesetNonDaa : Hash → Option (Hash → Bool)) (ctx : UtxoProcessingContext Hash)
    (selectedParentUtxoView : UtxoView) (header : Header Hash) :
    Outcome RuleError (UtxoProcessingContext Hash) := do
  let multisetHash ← self.verifyUtxoCommitment ctx.multisetHash header
  self.verifyAcceptedIds ctx header
  let txs ← unwrap (blockTransactions header.hash)
  let coinbase ← unwrap txs.head?
  let nonDaa ← unwrap (mergesetNonDaa header.hash)
  self.verifyCoinbaseTransaction coinbase header.daaScore ctx.ghostdagData ctx.mergesetRewards
    nonDaa
  self.verifyHeaderPruningPoint header ctx.ghostdagData
  self.verifyOwnTransactions ctx selectedParentUtxoView header txs
  return { ctx with multisetHash }

omit [LinearOrder Hash] [DecidableEq Digest] in
/-- The fee is what the inputs have left over the outputs. -/
theorem balanced_toProcessor : self.toProcessor.Balanced := by
  intro populated povDaaScore flags fee hvalid
  simp only [toProcessor, validatePopulatedTransactionAndGetFee, checkTransactionOutputValues,
    bind_eq_ok, ite_error_eq_ok, U64.sub_eq_ok] at hvalid
  obtain ⟨_, _, totalIn, hin, totalOut, ⟨sum, hsum, _, hout⟩, difference, ⟨hle, rfl⟩, _, _, _, _, _,
    _, hreturn⟩ := hvalid
  cases hout
  cases hreturn
  have hinSum := checkInputAmountsFrom_eq_ok hin
  have houtSum := sumOutputsFrom_eq_ok hsum
  rw [PopulatedTransaction.totalIn, Transaction.totalOut]
  omega

/-- The hash of a transaction determines its outputs. -/
def HashInjective : Prop :=
  ∀ tx tx', self.hashTransaction tx = self.hashTransaction tx' → tx.outputs = tx'.outputs

variable {self} {blockTransactions : Hash → Option (List Transaction)}
  {mergesetNonDaa : Hash → Option (Hash → Bool)} {verified : UtxoProcessingContext Hash}

/-- Verification leaves everything but the accumulator, which it finalizes. -/
theorem of_verifyExpectedUtxoState {ctx : UtxoProcessingContext Hash} {view : UtxoView}
    {header : Header Hash}
    (hverify : self.verifyExpectedUtxoState blockTransactions mergesetNonDaa ctx view header = .ok
      verified) :
    verified.mergesetDiff = ctx.mergesetDiff ∧ verified.multisetHash.denominator = .one := by
  simp only [verifyExpectedUtxoState, bind_eq_ok] at hverify
  obtain ⟨multisetHash, hcommitment, _, _, _, _, _, _, _, _, _, _, _, _, _, _, hreturn⟩ := hverify
  cases hreturn
  refine ⟨rfl, ?_⟩
  simp only [verifyUtxoCommitment, unwrapped, MuHash.finalize, MuHash.serialize, MuHash.normalize,
    bind_eq_ok, mapError_eq_ok, ite_error_eq_ok] at hcommitment
  obtain ⟨_, ⟨_, ⟨_, ⟨_, _, hnormalized⟩, hserialized⟩, hfinalized⟩, _, hreturned⟩ := hcommitment
  cases hnormalized
  cases hserialized
  cases hfinalized
  rw [← Except.ok.inj hreturned]

/-- The coinbase of a verified block pays at most the rewards of its mergeset. -/
theorem totalOut_coinbase_le (hhash : self.HashInjective) {ctx : UtxoProcessingContext Hash}
    {view : UtxoView} {header : Header Hash} {coinbase : Transaction} {rest : List Transaction}
    (htxs : blockTransactions header.hash = some (coinbase :: rest))
    (hverify : self.verifyExpectedUtxoState blockTransactions mergesetNonDaa ctx view header = .ok
      verified) :
    coinbase.totalOut ≤ ((ctx.ghostdagData.mergesetBlues ++ ctx.ghostdagData.mergesetReds).map
      (rewardOf ctx.mergesetRewards)).sum := by
  simp only [verifyExpectedUtxoState, htxs, unwrap, ok_bind, head?_cons, bind_eq_ok] at hverify
  obtain ⟨_, _, _, _, nonDaa, _, _, hexpected, _⟩ := hverify
  simp only [verifyCoinbaseTransaction, bind_eq_ok, unwrapped, mapError_eq_ok,
    ite_error_eq_ok, not_not] at hexpected
  obtain ⟨data, _, expected, htemplate, hsame, _⟩ := hexpected
  have houtputs := hhash _ _ hsame
  calc coinbase.totalOut
      = expected.tx.totalOut := by rw [totalOut, totalOut, houtputs]
    _ ≤ _ := totalOut_expectedCoinbase htemplate

end BlockVerifier

end Qaspa.Virtual
