import Mathlib.Algebra.BigOperators.Group.List.Basic
import Mathlib.Data.List.Nodup
import Qaspa.Coinbase.Payload

/-! # Block bodies in isolation

The checks a block body passes before anything is known about its context. They
return the first rule that is broken. What the later stages rely on is the shape
these checks leave: one coinbase without inputs in front, every other transaction
with an input, no outpoint spent twice, and output values that add up.
-/

namespace Qaspa

open List

open Outcome (bind_eq_ok check_bind_eq_ok ite_error_eq_ok)

def sompiPerKaspa : Nat := 100_000_000

def maxSompi : Nat := 29_000_000_000 * sompiPerKaspa

def txVersion : UInt16 := 0

inductive TxRuleError where
  | noTxInputs
  | txDuplicateInputs
  | txHasGas
  | unknownTxVersion (version : UInt16)
  | tooManyInputs (count limit : Nat)
  | tooManyOutputs (count limit : Nat)
  | tooBigSignatureScript (index limit : Nat)
  | tooBigScriptPublicKey (index limit : Nat)
  | coinbaseHasInputs (count : Nat)
  | coinbaseTooManyOutputs (count limit : Nat)
  | coinbaseScriptPublicKeyTooLong (index : Nat)
  | coinbaseNonZeroMassCommitment
  | immatureCoinbaseSpend (index : Nat) (outpoint : TransactionOutpoint)
      (daaScore povDaaScore maturity : UInt64)
  | inputAmountOverflow
  | inputAmountTooHigh
  | txOutZero (index : Nat)
  | txOutTooHigh (index : Nat)
  | outputsValueOverflow
  | totalTxOutTooHigh
  | spendTooHigh (totalOut totalIn : Nat)
  | sequenceLockConditionsAreNotMet
  | missingTxOutpoints
  | signatureInvalid
  | massIncomputable
  | wrongMass (calculated committed : UInt64)
  | subnetworksDisabled (subnetworkId : SubnetworkId)
  deriving DecidableEq, Repr

abbrev TxResult := Except TxRuleError

/-- The limits of the validator. Output indices have 32 bits. -/
structure TransactionValidator where
  maxTxInputs : Nat
  maxTxOutputs : Nat
  maxSignatureScriptLen : Nat
  maxScriptPublicKeyLen : Nat
  coinbasePayloadScriptPublicKeyMaxLen : UInt8
  coinbaseMaturity : UInt64
  ghostdagK : UInt16
  maxTxOutputs_le : maxTxOutputs ≤ UInt32.size

/-! ## Loops over sets -/

section Repeated

variable {α : Type} [DecidableEq α]

/-- The first element that a loop over the list has already recorded. -/
def firstRepeated (existing : List α) : List α → Option α
  | [] => none
  | item :: items =>
    if item ∈ existing then some item else firstRepeated (item :: existing) items

theorem firstRepeated_eq_none {existing items : List α} :
    firstRepeated existing items = none ↔ items.Nodup ∧ ∀ item ∈ items, item ∉ existing := by
  induction items generalizing existing with
  | nil => simp [firstRepeated]
  | cons item items ih =>
    by_cases hitem : item ∈ existing
    · simp [firstRepeated, hitem]
    · rw [firstRepeated, if_neg hitem, ih]
      simp only [mem_cons, not_or, nodup_cons, forall_eq_or_imp, imp_and, forall_and,
        forall_mem_ne']
      tauto

end Repeated

/-! ## Transactions -/

namespace TransactionValidator

variable (self : TransactionValidator) (tx : Transaction)

def checkTransactionInputsCount : TxResult Unit :=
  if !tx.isCoinbase && tx.inputs.isEmpty then .error .noTxInputs
  else if tx.inputs.length > self.maxTxInputs then
    .error (.tooManyInputs tx.inputs.length self.maxTxInputs)
  else .ok ()

def checkTransactionSignatureScripts : TxResult Unit :=
  match tx.inputs.findIdx?
      fun input => input.signatureScript.length > self.maxSignatureScriptLen with
  | some i => .error (.tooBigSignatureScript i self.maxSignatureScriptLen)
  | none => .ok ()

def checkTransactionInputsInIsolation : TxResult Unit := do
  self.checkTransactionInputsCount tx
  self.checkTransactionSignatureScripts tx

def checkTransactionOutputsCount : TxResult Unit :=
  -- the outputs of a coinbase are limited by the mergeset instead
  if tx.isCoinbase then .ok ()
  else if tx.outputs.length > self.maxTxOutputs then
    .error (.tooManyOutputs tx.outputs.length self.maxTxOutputs)
  else .ok ()

def checkTransactionScriptPublicKeys : TxResult Unit :=
  match tx.outputs.findIdx? fun output =>
      output.scriptPublicKey.script.length > self.maxScriptPublicKeyLen with
  | some i => .error (.tooBigScriptPublicKey i self.maxScriptPublicKeyLen)
  | none => .ok ()

def checkTransactionOutputsInIsolation : TxResult Unit := do
  self.checkTransactionOutputsCount tx
  self.checkTransactionScriptPublicKeys tx

def coinbaseOutputsLimit : Nat := self.ghostdagK.toNat + 2

def checkCoinbaseInIsolation : TxResult Unit :=
  if !tx.isCoinbase then .ok ()
  else if !tx.inputs.isEmpty then .error (.coinbaseHasInputs tx.inputs.length)
  else if tx.mass > 0 then .error .coinbaseNonZeroMassCommitment
  else if tx.outputs.length > self.coinbaseOutputsLimit then
    .error (.coinbaseTooManyOutputs tx.outputs.length self.coinbaseOutputsLimit)
  else
    match tx.outputs.findIdx? fun output => output.scriptPublicKey.script.length >
        self.coinbasePayloadScriptPublicKeyMaxLen.toNat with
    | some i => .error (.coinbaseScriptPublicKeyTooLong i)
    | none => .ok ()

/-- The loop over the outputs, with their indices and the total so far. -/
def checkOutputValueRangesFrom (total : Nat) : List (TransactionOutput × Nat) → TxResult Unit
  | [] => .ok ()
  | (output, i) :: outputs =>
    if output.value = 0 then .error (.txOutZero i)
    else if output.value.toNat > maxSompi then .error (.txOutTooHigh i)
    else if total + output.value.toNat ≥ wordBound 64 then .error .outputsValueOverflow
    else if total + output.value.toNat > maxSompi then .error .totalTxOutTooHigh
    else checkOutputValueRangesFrom (total + output.value.toNat) outputs

def checkTransactionOutputValueRanges : TxResult Unit :=
  checkOutputValueRangesFrom 0 tx.outputs.zipIdx

def checkDuplicateTransactionInputs : TxResult Unit :=
  if (firstRepeated [] tx.outpoints).isSome then .error .txDuplicateInputs else .ok ()

def checkGas : TxResult Unit := if tx.gas > 0 then .error .txHasGas else .ok ()

def checkTransactionSubnetwork : TxResult Unit :=
  if tx.isCoinbase || tx.subnetworkId == subnetworkIdNative then .ok ()
  else .error (.subnetworksDisabled tx.subnetworkId)

def checkTransactionVersion : TxResult Unit :=
  if tx.version != txVersion then .error (.unknownTxVersion tx.version) else .ok ()

def validateTxInIsolation : TxResult Unit := do
  self.checkTransactionInputsInIsolation tx
  self.checkTransactionOutputsInIsolation tx
  self.checkCoinbaseInIsolation tx
  checkTransactionOutputValueRanges tx
  checkDuplicateTransactionInputs tx
  checkGas tx
  checkTransactionSubnetwork tx
  checkTransactionVersion tx

end TransactionValidator

/-- What isolation leaves of a transaction. -/
structure Transaction.Isolated (tx : Transaction) : Prop where
  inputs_eq_nil : tx.isCoinbase = true → tx.inputs = []
  inputs_ne_nil : tx.isCoinbase = false → tx.inputs ≠ []
  length_outputs : tx.outputs.length ≤ UInt32.size
  totalOut_le : tx.totalOut ≤ maxSompi

namespace TransactionValidator

variable {self : TransactionValidator} {tx : Transaction}

theorem sum_of_checkOutputValueRangesFrom {total : Nat} {outputs : List TransactionOutput}
    {start : Nat} (htotal : total ≤ maxSompi)
    (hcheck : checkOutputValueRangesFrom total (outputs.zipIdx start) = .ok ()) :
    total + (outputs.map fun output => output.value.toNat).sum ≤ maxSompi := by
  induction outputs generalizing total start with
  | nil => simpa using htotal
  | cons output outputs ih =>
    simp only [zipIdx_cons, checkOutputValueRangesFrom, ite_error_eq_ok] at hcheck
    obtain ⟨_, _, _, hfits, hrest⟩ := hcheck
    have hsum := ih (Nat.le_of_not_lt hfits) hrest
    rwa [map_cons, sum_cons, ← Nat.add_assoc]

theorem inputs_of_checkTransactionInputsCount
    (hcheck : self.checkTransactionInputsCount tx = .ok ()) (hcoinbase : tx.isCoinbase = false) :
    tx.inputs ≠ [] := by
  simp only [checkTransactionInputsCount, ite_error_eq_ok] at hcheck
  simpa [hcoinbase] using hcheck.1

/-- Coinbases are limited by the mergeset, other transactions by their own bound. -/
theorem length_outputs_of_check (hcount : self.checkTransactionOutputsCount tx = .ok ())
    (hcoinbase : self.checkCoinbaseInIsolation tx = .ok ()) :
    tx.outputs.length ≤ UInt32.size := by
  cases hkind : tx.isCoinbase with
  | false =>
    simp only [checkTransactionOutputsCount, hkind, Bool.false_eq_true, if_false,
      ite_error_eq_ok] at hcount
    exact Nat.le_trans (Nat.le_of_not_lt hcount.1) self.maxTxOutputs_le
  | true =>
    simp only [checkCoinbaseInIsolation, hkind, Bool.not_true, Bool.false_eq_true, if_false,
      ite_error_eq_ok] at hcoinbase
    have hlimit : tx.outputs.length ≤ self.ghostdagK.toNat + 2 := Nat.le_of_not_lt hcoinbase.2.2.1
    have hk := self.ghostdagK.toNat_lt
    simp only [UInt32.size]
    omega

theorem inputs_of_checkCoinbaseInIsolation (hcheck : self.checkCoinbaseInIsolation tx = .ok ())
    (hcoinbase : tx.isCoinbase = true) : tx.inputs = [] := by
  simp only [checkCoinbaseInIsolation, hcoinbase, Bool.not_true, Bool.false_eq_true, if_false,
    ite_error_eq_ok] at hcheck
  simpa using hcheck.1

theorem isolated_of_validate (hvalid : self.validateTxInIsolation tx = .ok ()) : tx.Isolated := by
  simp only [validateTxInIsolation, checkTransactionInputsInIsolation,
    checkTransactionOutputsInIsolation, check_bind_eq_ok] at hvalid
  obtain ⟨⟨hinputs, _⟩, ⟨houtputs, _⟩, hcoinbase, hvalues, _⟩ := hvalid
  refine ⟨inputs_of_checkCoinbaseInIsolation hcoinbase,
    inputs_of_checkTransactionInputsCount hinputs, length_outputs_of_check houtputs hcoinbase, ?_⟩
  simpa [Transaction.totalOut] using sum_of_checkOutputValueRangesFrom (Nat.zero_le _) hvalues

end TransactionValidator

/-! ## Block bodies -/

inductive RuleError where
  | noTransactions
  | badMerkleRoot (header calculated : BitVec 256)
  | firstTxNotCoinbase
  | multipleCoinbases (index : Nat)
  | badCoinbasePayload (error : Coinbase.CoinbaseError)
  | badCoinbasePayloadBlueScore (payload header : UInt64)
  | wrongSubsidy (expected payload : UInt64)
  | txInIsolationValidationFailed (id : BitVec 256) (error : TxRuleError)
  | exceedsComputeMassLimit (total limit : Nat)
  | exceedsTransientMassLimit (total limit : Nat)
  | exceedsStorageMassLimit (total limit : Nat)
  | duplicateTransactions (id : BitVec 256)
  | doubleSpendInSameBlock (outpoint : TransactionOutpoint)
  | chainedTransaction (outpoint : TransactionOutpoint)
  | badUTXOCommitment (header expected : BitVec 256)
  | badAcceptedIDMerkleRoot (header expected : BitVec 256)
  | badCoinbaseTransaction
  | wrongHeaderPruningPoint
  | invalidTransactionsInUtxoContext (invalid total : Nat)
  deriving DecidableEq, Repr

abbrev BlockProcessResult := Except RuleError

/-- The compute, transient and storage mass of a body. -/
structure Mass where
  compute : Nat
  transient : Nat
  storage : Nat

/-- The body processor, with the hash and mass functions it calls. -/
structure BlockBodyProcessor where
  transactionValidator : TransactionValidator
  calcHashMerkleRoot : List Transaction → BitVec 256
  calcNonContextualMasses : Transaction → Nat × Nat
  maxBlockMass : Nat

namespace BlockBodyProcessor

variable (self : BlockBodyProcessor) (hashMerkleRoot : BitVec 256) (txs : List Transaction)

def checkHasTransactions : BlockProcessResult Unit :=
  if txs.isEmpty then .error .noTransactions else .ok ()

def checkHashMerkleRoot : BlockProcessResult Unit :=
  if self.calcHashMerkleRoot txs != hashMerkleRoot then
    .error (.badMerkleRoot hashMerkleRoot (self.calcHashMerkleRoot txs))
  else .ok ()

def checkOnlyOneCoinbase : List Transaction → BlockProcessResult Unit
  | [] => .error .noTransactions
  | first :: rest =>
    if !first.isCoinbase then .error .firstTxNotCoinbase
    else
      match rest.findIdx? Transaction.isCoinbase with
      | some i => .error (.multipleCoinbases i)
      | none => .ok ()

def checkTransactionsInIsolation : List Transaction → BlockProcessResult Unit
  | [] => .ok ()
  | tx :: txs =>
    match self.transactionValidator.validateTxInIsolation tx with
    | .error error => .error (.txInIsolationValidationFailed tx.id error)
    | .ok () => checkTransactionsInIsolation txs

def saturatingAdd (left right : Nat) : Nat := min (left + right) u64Max

/-- The loop over the transactions, with the masses so far. -/
def checkBlockMassFrom (mass : Mass) : List Transaction → BlockProcessResult Mass
  | [] => .ok mass
  | tx :: txs =>
    let masses := self.calcNonContextualMasses tx
    let next : Mass := ⟨saturatingAdd mass.compute masses.1,
      saturatingAdd mass.transient masses.2, saturatingAdd mass.storage tx.mass.toNat⟩
    if next.compute > self.maxBlockMass then
      .error (.exceedsComputeMassLimit next.compute self.maxBlockMass)
    else if next.transient > self.maxBlockMass then
      .error (.exceedsTransientMassLimit next.transient self.maxBlockMass)
    else if next.storage > self.maxBlockMass then
      .error (.exceedsStorageMassLimit next.storage self.maxBlockMass)
    else checkBlockMassFrom next txs

def checkBlockMass : BlockProcessResult Mass := self.checkBlockMassFrom ⟨0, 0, 0⟩ txs

def checkDuplicateTransactions : BlockProcessResult Unit :=
  match firstRepeated [] (txs.map (·.id)) with
  | some id => .error (.duplicateTransactions id)
  | none => .ok ()

def checkBlockDoubleSpends : BlockProcessResult Unit :=
  match firstRepeated [] (txs.flatMap (·.outpoints)) with
  | some outpoint => .error (.doubleSpendInSameBlock outpoint)
  | none => .ok ()

/-- The outpoints that the transactions of the body create. -/
def blockCreatedOutpoints : List TransactionOutpoint :=
  txs.flatMap fun tx => tx.outputs.mapIdx fun i _ => ⟨tx.id, UInt32.ofNat i⟩

def checkNoChainedTransactions : BlockProcessResult Unit :=
  match (txs.flatMap (·.outpoints)).find? (· ∈ blockCreatedOutpoints txs) with
  | some outpoint => .error (.chainedTransaction outpoint)
  | none => .ok ()

def validateBodyInIsolation : BlockProcessResult Mass := do
  checkHasTransactions txs
  self.checkHashMerkleRoot hashMerkleRoot txs
  checkOnlyOneCoinbase txs
  self.checkTransactionsInIsolation txs
  let mass ← self.checkBlockMass txs
  checkDuplicateTransactions txs
  checkBlockDoubleSpends txs
  checkNoChainedTransactions txs
  return mass

end BlockBodyProcessor

/-- What isolation leaves of a body: a coinbase in front of ordinary transactions
that spend distinct outpoints. -/
structure IsolatedBody (txs : List Transaction) : Prop where
  coinbase : ∃ coinbase rest, txs = coinbase :: rest ∧ coinbase.isCoinbase = true ∧
    ∀ tx ∈ rest, tx.isCoinbase = false
  isolated : ∀ tx ∈ txs, tx.Isolated
  nodup_outpoints : (txs.flatMap (·.outpoints)).Nodup

namespace BlockBodyProcessor

variable {self : BlockBodyProcessor} {hashMerkleRoot : BitVec 256} {txs : List Transaction}

theorem coinbase_of_checkOnlyOneCoinbase (hcheck : checkOnlyOneCoinbase txs = .ok ()) :
    ∃ coinbase rest, txs = coinbase :: rest ∧ coinbase.isCoinbase = true ∧
      ∀ tx ∈ rest, tx.isCoinbase = false := by
  cases txs with
  | nil => simp [checkOnlyOneCoinbase] at hcheck
  | cons coinbase rest =>
    simp only [checkOnlyOneCoinbase, ite_error_eq_ok] at hcheck
    obtain ⟨hfirst, hrest⟩ := hcheck
    refine ⟨coinbase, rest, rfl, by simpa using hfirst, fun tx htx => ?_⟩
    split at hrest
    · cases hrest
    next hnone => exact findIdx?_eq_none_iff.mp hnone tx htx

theorem isolated_of_checkTransactionsInIsolation
    (hcheck : self.checkTransactionsInIsolation txs = .ok ()) : ∀ tx ∈ txs, tx.Isolated := by
  induction txs with
  | nil => simp
  | cons tx txs ih =>
    rw [checkTransactionsInIsolation] at hcheck
    split at hcheck
    · cases hcheck
    next hvalid =>
      exact forall_mem_cons.mpr
        ⟨TransactionValidator.isolated_of_validate hvalid, ih hcheck⟩

theorem isolatedBody_of_validate {mass : Mass}
    (hvalid : self.validateBodyInIsolation hashMerkleRoot txs = .ok mass) : IsolatedBody txs := by
  simp only [validateBodyInIsolation, check_bind_eq_ok] at hvalid
  obtain ⟨_, _, hcoinbase, hisolated, hmass⟩ := hvalid
  obtain ⟨_, _, hrest⟩ := bind_eq_ok.mp hmass
  simp only [check_bind_eq_ok] at hrest
  obtain ⟨_, hspends, _⟩ := hrest
  refine ⟨coinbase_of_checkOnlyOneCoinbase hcoinbase,
    isolated_of_checkTransactionsInIsolation hisolated, ?_⟩
  rw [checkBlockDoubleSpends] at hspends
  split at hspends
  · cases hspends
  next hnone => exact (firstRepeated_eq_none.mp hnone).1

end BlockBodyProcessor

end Qaspa
