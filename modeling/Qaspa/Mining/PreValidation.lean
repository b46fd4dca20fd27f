import Qaspa.Lib.HashMap
import Qaspa.Lib.Trace
import Qaspa.Script.Engine

/-! # Pre-validation of an offered transaction

Before a transaction is validated by consensus, the mempool checks that it is new and standard,
asks the pool for conflicts and fills in the entries that pool transactions create. Only the parts
of the mempool that these steps read are modelled: the pool transactions, the owners of the
outpoints they spend, and the transactions that blocks have accepted. Feerates are exact.
-/

namespace Qaspa.Mining

open Outcome Script

abbrev TransactionId := BitVec 256

structure NonContextualMasses where
  computeMass : Nat
  transientMass : Nat
  deriving DecidableEq, Repr

/-- A transaction with the entries found so far, one for each input. -/
structure MutableTransaction where
  tx : Transaction
  entries : List (Option UtxoEntry)
  calculatedFee : Option Nat
  calculatedNonContextualMasses : Option NonContextualMasses
  deriving DecidableEq

namespace MutableTransaction

def fromTx (tx : Transaction) : MutableTransaction :=
  ⟨tx, List.replicate tx.inputs.length none, none, none⟩

def calculatedFeerate (transaction : MutableTransaction) : Option ℚ := do
  let masses ← transaction.calculatedNonContextualMasses
  let fee ← transaction.calculatedFee
  some (fee / max transaction.tx.mass.toNat (max masses.computeMass masses.transientMass) : ℚ)

def isFullyPopulated (transaction : MutableTransaction) : Bool :=
  transaction.entries.all Option.isSome && transaction.calculatedFee.isSome &&
    transaction.calculatedNonContextualMasses.isSome

end MutableTransaction

inductive NonStandardError where
  | rejectVersion (id : TransactionId) (version minimum maximum : UInt16)
  | rejectComputeMass (id : TransactionId) (mass maximum : Nat)
  | rejectTransientMass (id : TransactionId) (mass maximum : Nat)
  | rejectSignatureScriptSize (id : TransactionId) (input size maximum : Nat)
  | rejectScriptPublicKeyVersion (id : TransactionId) (output : Nat)
  | rejectNonStealthOutput (id : TransactionId) (output : Nat)
  | rejectOutputScriptClass (id : TransactionId) (output : Nat)
  | rejectDust (id : TransactionId) (output value : Nat)
  deriving DecidableEq, Repr

inductive RuleError where
  | rejectAlreadyAccepted (id : TransactionId)
  | rejectDuplicate (id : TransactionId)
  | rejectNonStandard (error : NonStandardError)
  | rejectDoubleSpendInMempool (outpoint : TransactionOutpoint) (owner : TransactionId)
  | rejectRbfNoDoubleSpend
  | rejectRbfTooManyDoubleSpendingTransactions
  | rejectMissingTransaction (id : TransactionId)
  | rejectMissingOrphanOutpoint (index : Nat) (id : TransactionId) (outpoint : TransactionOutpoint)
  | rejectMissingOrphanTransaction (id : TransactionId)
  deriving DecidableEq, Repr

def fail {α : Type} (error : RuleError) : Outcome RuleError α := .error (.err error)

/-! ## The pool -/

/-- A pool transaction. Its priority and its age are not read here. -/
structure TransactionsPool where
  allTransactions : HashMap TransactionId MutableTransaction
  outpointOwnerId : HashMap TransactionOutpoint TransactionId

namespace TransactionsPool

/-- The transaction enters the pool as the owner of its outpoints. -/
def addTransaction (pool : TransactionsPool) (transaction : MutableTransaction) :
    Outcome RuleError TransactionsPool := do
  assert (pool.allTransactions.lookup transaction.tx.id).isNone
  assert transaction.isFullyPopulated
  .ok
    { allTransactions := pool.allTransactions.insert transaction.tx.id transaction
      outpointOwnerId := transaction.tx.outpoints.foldl
        (fun owners outpoint => owners.insert outpoint transaction.tx.id) pool.outpointOwnerId }

def removeTransaction (pool : TransactionsPool) (id : TransactionId) :
    Outcome RuleError TransactionsPool :=
  match pool.allTransactions.lookup id with
  | none => fail (.rejectMissingTransaction id)
  | some removed => .ok
      { allTransactions := pool.allTransactions.erase id
        outpointOwnerId := removed.tx.outpoints.foldl
          (fun owners outpoint => owners.erase outpoint) pool.outpointOwnerId }

/-- The first conflict with each pool transaction that spends an outpoint of a transaction. -/
def getDoubleSpendTransactionIds (pool : TransactionsPool) (tx : Transaction) :
    List (TransactionOutpoint × TransactionId) :=
  tx.outpoints.foldl
    (fun doubleSpends outpoint =>
      match pool.outpointOwnerId.lookup outpoint with
      | some owner =>
        if owner ≠ tx.id ∧ owner ∉ doubleSpends.map Prod.snd then
          doubleSpends ++ [(outpoint, owner)]
        else doubleSpends
      | none => doubleSpends)
    []

def checkDoubleSpends (pool : TransactionsPool) (tx : Transaction) : Outcome RuleError Unit :=
  match tx.outpoints.findSome? fun outpoint =>
      ((pool.outpointOwnerId.lookup outpoint).filter (· ≠ tx.id)).map (outpoint, ·) with
  | some (outpoint, owner) => fail (.rejectDoubleSpendInMempool outpoint owner)
  | none => .ok ()

/-- The feerate of the owner of an outpoint. -/
def getDoubleSpendFeerate (pool : TransactionsPool)
    (doubleSpend : TransactionOutpoint × TransactionId) : Outcome RuleError ℚ :=
  match (pool.allTransactions.lookup doubleSpend.2).bind (·.calculatedFeerate) with
  | some feerate => .ok feerate
  | none => fail (.rejectDoubleSpendInMempool doubleSpend.1 doubleSpend.2)

end TransactionsPool

/-! ## Standard transactions -/

structure Config where
  acceptNonStandard : Bool
  minimumRelayTransactionFee : Nat
  minimumStandardTransactionVersion : UInt16
  maximumStandardTransactionVersion : UInt16
  stealthOnlyOutputs : Bool

def maximumStandardTransactionMass : Nat := 100000

def maximumStandardSignatureScriptSize : Nat := maxScriptElementSize

inductive ScriptClass where
  | nonStandard
  | pubKey
  | pubKeyECDSA
  | pubKeyMLDSA
  | scriptHash
  | stealth
  deriving DecidableEq, Repr

namespace ScriptClass

def isPayToPubkey (script : List UInt8) : Bool :=
  script.length == 34 && script[0]? == some Codes.opData32 && script[33]? == some Codes.opCheckSig

def isPayToPubkeyEcdsa (script : List UInt8) : Bool :=
  script.length == 35 && script[0]? == some Codes.opData33 &&
    script[34]? == some Codes.opCheckSigECDSA

def isPayToPubkeyMldsa (script : List UInt8) : Bool :=
  script.length == 1316 && script[0]? == some Codes.opPushData2 && script[1]? == some 0x20 &&
    script[2]? == some 0x05 && script[1315]? == some Codes.opCheckSigMLDSA

def isPayToStealth (script : List UInt8) : Bool := script.length == stealthOutputSize

def fromScript (scriptPublicKey : ScriptPublicKey) : ScriptClass :=
  let script := scriptPublicKey.script
  if scriptPublicKey.version = 0 then
    if isPayToPubkey script then .pubKey
    else if isPayToPubkeyEcdsa script then .pubKeyECDSA
    else if isPayToPubkeyMldsa script then .pubKeyMLDSA
    else if isPayToScriptHash script then .scriptHash
    else .nonStandard
  else if scriptPublicKey.version = stealthScriptVersion then
    if isPayToStealth script then .stealth else .nonStandard
  else .nonStandard

end ScriptClass

def opReturn : UInt8 := 0x6a

/-- A script that does not parse, or returns at once. -/
def isUnspendable (script : List UInt8) : Bool :=
  (parseScript script).zipIdx.any fun (opcode, index) =>
    match opcode with
    | .error _ => true
    | .ok opcode => index == 0 && opcode.value == opReturn

def transactionOutputEstimatedSerializedSize (output : TransactionOutput) : Nat :=
  8 + 2 + 8 + output.scriptPublicKey.script.length

/-- Whether spending an output costs more than a third of the relay fee it can pay. -/
def isTransactionOutputDust (config : Config) (output : TransactionOutput) : Bool :=
  let isStealth := output.scriptPublicKey.version == maxScriptPublicKeyVersion
  if !isStealth && isUnspendable output.scriptPublicKey.script then true
  else
    let inputEstimate := if ScriptClass.fromScript output.scriptPublicKey = .pubKeyMLDSA then 2466
      else 148
    let totalSerializedSize := transactionOutputEstimatedSerializedSize output + inputEstimate
    match U64.checkedMul output.value.toNat 1000 with
    | some value1000 => value1000 / (3 * totalSerializedSize) < config.minimumRelayTransactionFee
    | none =>
      output.value.toNat * 1000 / (3 * totalSerializedSize) < config.minimumRelayTransactionFee

/-- The first rule that an output breaks. A stealth-only policy is checked twice. -/
def outputRejection (config : Config) (id : TransactionId) (output : TransactionOutput)
    (index : Nat) : Option NonStandardError :=
  let stealthRejection :=
    if config.stealthOnlyOutputs ∧ ScriptClass.fromScript output.scriptPublicKey ≠ .stealth then
      some (NonStandardError.rejectNonStealthOutput id index)
    else none
  if output.scriptPublicKey.version > maxScriptPublicKeyVersion then
    some (.rejectScriptPublicKeyVersion id index)
  else (stealthRejection.or stealthRejection).or
    (if ScriptClass.fromScript output.scriptPublicKey = .nonStandard then
      some (.rejectOutputScriptClass id index)
    else if isTransactionOutputDust config output then
      some (.rejectDust id index output.value.toNat)
    else none)

def checkTransactionStandardInIsolation (config : Config) (transaction : MutableTransaction) :
    Outcome RuleError Unit := do
  let tx := transaction.tx
  if tx.version > config.maximumStandardTransactionVersion ∨
      tx.version < config.minimumStandardTransactionVersion then
    fail (.rejectNonStandard (.rejectVersion tx.id tx.version
      config.minimumStandardTransactionVersion config.maximumStandardTransactionVersion))
  else
    let masses ← unwrap transaction.calculatedNonContextualMasses
    if masses.computeMass > maximumStandardTransactionMass then
      fail (.rejectNonStandard
        (.rejectComputeMass tx.id masses.computeMass maximumStandardTransactionMass))
    else if masses.transientMass > maximumStandardTransactionMass then
      fail (.rejectNonStandard
        (.rejectTransientMass tx.id masses.transientMass maximumStandardTransactionMass))
    else
      let oversized := tx.inputs.zipIdx.findSome? fun (input, i) =>
        if input.signatureScript.length > maximumStandardSignatureScriptSize then
          some (NonStandardError.rejectSignatureScriptSize tx.id i input.signatureScript.length
            maximumStandardSignatureScriptSize)
        else none
      match oversized.or (tx.outputs.zipIdx.findSome? fun (output, i) =>
          outputRejection config tx.id output i) with
      | some error => fail (.rejectNonStandard error)
      | none => .ok ()

/-! ## The mempool -/

inductive RbfPolicy where
  | forbidden
  | allowed
  | mandatory
  deriving DecidableEq, Repr

structure Mempool where
  config : Config
  transactionPool : TransactionsPool
  acceptedTransactions : List TransactionId

structure TransactionPreValidation where
  transaction : MutableTransaction
  feerateThreshold : Option ℚ
  deriving DecidableEq

/-- UTXO entries that no block has accepted yet have the greatest score. -/
def unacceptedDaaScore : UInt64 := 0xffffffffffffffff

def unacceptedEntry (output : TransactionOutput) : UtxoEntry :=
  ⟨output.value, output.scriptPublicKey, unacceptedDaaScore, false⟩

namespace Mempool

def new (config : Config) : Mempool := ⟨config, ⟨∅, ∅⟩, []⟩

variable (mempool : Mempool)

def validateTransactionUnacceptance (transaction : MutableTransaction) : Outcome RuleError Unit :=
  if transaction.tx.id ∈ mempool.acceptedTransactions then
    fail (.rejectAlreadyAccepted transaction.tx.id)
  else .ok ()

def validateTransactionInIsolation (transaction : MutableTransaction) : Outcome RuleError Unit :=
  if (mempool.transactionPool.allTransactions.lookup transaction.tx.id).isSome then
    fail (.rejectDuplicate transaction.tx.id)
  else if !mempool.config.acceptNonStandard then
    checkTransactionStandardInIsolation mempool.config transaction
  else .ok ()

def getReplaceByFeeConstraint (transaction : MutableTransaction) (policy : RbfPolicy) :
    Outcome RuleError (Option ℚ) := do
  let pool := mempool.transactionPool
  let doubleSpends := pool.getDoubleSpendTransactionIds transaction.tx
  match policy, doubleSpends with
  | .forbidden, _ =>
    pool.checkDoubleSpends transaction.tx
    .ok none
  | .allowed, [] => .ok none
  | .allowed, _ =>
    let feerates ← doubleSpends.mapM pool.getDoubleSpendFeerate
    .ok (some (feerates.foldl max 0))
  | .mandatory, [] => fail .rejectRbfNoDoubleSpend
  | .mandatory, [doubleSpend] => some <$> pool.getDoubleSpendFeerate doubleSpend
  | .mandatory, _ => fail .rejectRbfTooManyDoubleSpendingTransactions

/-- The entry of an input, which an output of a pool transaction replaces. The index of the output
is the one that the offered transaction gives. -/
def populateEntry (input : TransactionInput) (entry : Option UtxoEntry) :
    Outcome RuleError (Option UtxoEntry) :=
  match mempool.transactionPool.allTransactions.lookup input.previousOutpoint.transactionId with
  | none => .ok entry
  | some parent => do
    let output ← unwrap parent.tx.outputs[input.previousOutpoint.index.toNat]?
    .ok (some (unacceptedEntry output))

def populateMempoolEntries (transaction : MutableTransaction) :
    Outcome RuleError MutableTransaction := do
  let entries ← (transaction.tx.inputs.zip transaction.entries).mapM fun (input, entry) =>
    mempool.populateEntry input entry
  .ok { transaction with entries := entries }

/-- Consensus calculates the masses of the transaction. -/
def preValidateAndPopulateTransaction (masses : Transaction → NonContextualMasses)
    (transaction : MutableTransaction) (policy : RbfPolicy) :
    Outcome RuleError TransactionPreValidation := do
  mempool.validateTransactionUnacceptance transaction
  let transaction := { transaction with
    calculatedNonContextualMasses := some (masses transaction.tx) }
  mempool.validateTransactionInIsolation transaction
  let feerateThreshold ← mempool.getReplaceByFeeConstraint transaction policy
  let transaction ← mempool.populateMempoolEntries transaction
  .ok ⟨transaction, feerateThreshold⟩

/-! ## Reachable states -/

inductive Change where
  | insert (transaction : MutableTransaction)
  | remove (id : TransactionId)
  | accept (id : TransactionId)

inductive Step : Mempool → Change → Mempool → Prop where
  | insert {mempool : Mempool} {transaction : MutableTransaction} {pool : TransactionsPool}
      (hadd : mempool.transactionPool.addTransaction transaction = .ok pool) :
      Step mempool (.insert transaction) { mempool with transactionPool := pool }
  | remove {mempool : Mempool} {id : TransactionId} {pool : TransactionsPool}
      (hremove : mempool.transactionPool.removeTransaction id = .ok pool) :
      Step mempool (.remove id) { mempool with transactionPool := pool }
  | accept {mempool : Mempool} {id : TransactionId} :
      Step mempool (.accept id)
        { mempool with acceptedTransactions := id :: mempool.acceptedTransactions }

/-- An output of a pool transaction. -/
def Creates (outpoint : TransactionOutpoint) (output : TransactionOutput) : Prop :=
  ∃ id parent, mempool.transactionPool.allTransactions.lookup id = some parent ∧
    parent.tx.id = outpoint.transactionId ∧ parent.tx.outputs[outpoint.index.toNat]? = some output

variable {mempool} {config : Config} {changes : List Change}

/-- Pool transactions are stored under their ids. -/
theorem lookup_id (hrun : Runs Step (new config) changes mempool) :
    ∀ id transaction, mempool.transactionPool.allTransactions.lookup id = some transaction →
      transaction.tx.id = id := by
  refine hrun.invariant (fun mempool => ∀ id transaction,
    mempool.transactionPool.allTransactions.lookup id = some transaction →
      transaction.tx.id = id) ?_ (by simp [new])
  intro before change after hkeyed hstep id transaction hlookup
  cases hstep with
  | @insert added pool hadd =>
    simp only [TransactionsPool.addTransaction, check_bind_eq_ok, Except.ok.injEq] at hadd
    obtain ⟨_, _, rfl⟩ := hadd
    rcases HashMap.lookup_insert_eq_some.mp hlookup with ⟨rfl, rfl⟩ | ⟨-, hlookup⟩
    · rfl
    · exact hkeyed id transaction hlookup
  | @remove removed pool hremove =>
    unfold TransactionsPool.removeTransaction at hremove
    split at hremove
    · cases hremove
    · cases hremove
      exact hkeyed id transaction (HashMap.lookup_erase_eq_some.mp hlookup).2
  | accept => exact hkeyed id transaction hlookup

/-! ## Offered transactions -/

theorem returns_checkTransactionStandardInIsolation (transaction : MutableTransaction)
    (hmasses : transaction.calculatedNonContextualMasses.isSome) :
    Faultless (checkTransactionStandardInIsolation config transaction) := by
  obtain ⟨masses, hmasses⟩ := Option.isSome_iff_exists.mp hmasses
  unfold checkTransactionStandardInIsolation
  rw [hmasses]
  refine .check fun _ => .check fun _ => .check fun _ => ?_
  dsimp only
  split
  · exact returns_err
  · exact returns_ok trivial

theorem returns_getDoubleSpendFeerate (pool : TransactionsPool)
    (doubleSpend : TransactionOutpoint × TransactionId) :
    Faultless (pool.getDoubleSpendFeerate doubleSpend) := by
  unfold TransactionsPool.getDoubleSpendFeerate
  split
  · exact returns_ok trivial
  · exact returns_err

theorem returns_getReplaceByFeeConstraint (transaction : MutableTransaction) (policy : RbfPolicy) :
    Faultless (mempool.getReplaceByFeeConstraint transaction policy) := by
  simp only [getReplaceByFeeConstraint]
  -- The policy decides how many conflicts are allowed.
  split
  · unfold TransactionsPool.checkDoubleSpends
    split
    · exact returns_err
    · exact returns_ok trivial
  · exact returns_ok trivial
  · refine (returns_mapM fun doubleSpend _ =>
      returns_getDoubleSpendFeerate _ doubleSpend).bind fun _ _ => ?_
    exact returns_ok trivial
  · exact returns_err
  next doubleSpend _ =>
    exact (returns_getDoubleSpendFeerate _ doubleSpend).bind fun _ _ => returns_ok trivial
  · exact returns_err

variable (mempool) in
/-- Inputs that name a pool transaction name one of its outputs. -/
def NamesOutputs (tx : Transaction) : Prop :=
  ∀ input ∈ tx.inputs, ∀ parent,
    mempool.transactionPool.allTransactions.lookup input.previousOutpoint.transactionId
        = some parent →
      input.previousOutpoint.index.toNat < parent.tx.outputs.length

variable (mempool) in
/-- An entry is there if and only if a pool transaction creates the outpoint, with its value and
script. -/
def Populates (input : TransactionInput) (entry : Option UtxoEntry) : Prop :=
  ∀ found, entry = some found ↔
    ∃ output, mempool.Creates input.previousOutpoint output ∧ found = unacceptedEntry output

theorem returns_populateEntry (hrun : Runs Step (new config) changes mempool) {tx : Transaction}
    (hnames : mempool.NamesOutputs tx) {input : TransactionInput} (hinput : input ∈ tx.inputs) :
    Returns (mempool.populateEntry input none) (mempool.Populates input) := by
  have hcreates : ∀ output, mempool.Creates input.previousOutpoint output ↔
      ∃ parent, mempool.transactionPool.allTransactions.lookup
          input.previousOutpoint.transactionId = some parent ∧
        parent.tx.outputs[input.previousOutpoint.index.toNat]? = some output := by
    intro output
    constructor
    · rintro ⟨id, parent, hlookup, hid, houtput⟩
      rw [← hid, lookup_id hrun id parent hlookup]
      exact ⟨parent, hlookup, houtput⟩
    · rintro ⟨parent, hlookup, houtput⟩
      exact ⟨_, parent, hlookup, lookup_id hrun _ parent hlookup, houtput⟩
  unfold populateEntry
  split
  next hnone =>
    refine returns_ok fun found => ⟨nofun, ?_⟩
    rintro ⟨output, houtput, -⟩
    obtain ⟨parent, hlookup, -⟩ := (hcreates output).mp houtput
    rw [hnone] at hlookup
    cases hlookup
  next parent hparent =>
    rw [List.getElem?_eq_getElem (hnames input hinput parent hparent)]
    refine returns_ok fun found => ⟨?_, ?_⟩
    · intro hfound
      refine ⟨_, (hcreates _).mpr ⟨parent, hparent, ?_⟩, (Option.some.inj hfound).symm⟩
      exact List.getElem?_eq_getElem _
    · rintro ⟨output, houtput, rfl⟩
      obtain ⟨other, hlookup, hother⟩ := (hcreates output).mp houtput
      cases hparent.symm.trans hlookup
      rw [List.getElem?_eq_getElem (hnames input hinput parent hparent)] at hother
      rw [Option.some.inj hother]

theorem zip_entries_fromTx (tx : Transaction) :
    tx.inputs.zip (MutableTransaction.fromTx tx).entries =
      tx.inputs.map fun input => (input, none) := by
  unfold MutableTransaction.fromTx
  induction tx.inputs with
  | nil => rfl
  | cons input inputs ih => simp_all [List.replicate_succ]

theorem namesOutputs_of_populateEntry {tx : Transaction}
    (hentries : Faultless (tx.inputs.mapM fun input => mempool.populateEntry input none)) :
    mempool.NamesOutputs tx := by
  rw [faultless_mapM fun input _ => ?_] at hentries
  · intro input hinput parent hparent
    have hentry := hentries input hinput
    by_contra hmissing
    simp only [populateEntry, hparent, List.getElem?_eq_none (Nat.le_of_not_lt hmissing)] at hentry
    exact not_faultless_panic hentry
  · rintro ⟨error, herror⟩
    unfold populateEntry at herror
    split at herror
    · cases herror
    next parent _ =>
      cases houtput : parent.tx.outputs[input.previousOutpoint.index.toNat]? with
      | none | some output =>
        rw [houtput] at herror
        cases herror

/-- An offered transaction with its masses. -/
def measured (masses : Transaction → NonContextualMasses) (tx : Transaction) : MutableTransaction :=
  { MutableTransaction.fromTx tx with calculatedNonContextualMasses := some (masses tx) }

theorem preValidateAndPopulateTransaction_fromTx (mempool : Mempool)
    (masses : Transaction → NonContextualMasses) (tx : Transaction) (policy : RbfPolicy) :
    mempool.preValidateAndPopulateTransaction masses (.fromTx tx) policy = (do
      mempool.validateTransactionUnacceptance (.fromTx tx)
      mempool.validateTransactionInIsolation (measured masses tx)
      let threshold ← mempool.getReplaceByFeeConstraint (measured masses tx) policy
      let entries ← tx.inputs.mapM fun input => mempool.populateEntry input none
      .ok ⟨{ measured masses tx with entries := entries }, threshold⟩) := by
  have hentries : (tx.inputs.mapM fun input => mempool.populateEntry input none) =
      (tx.inputs.zip (MutableTransaction.fromTx tx).entries).mapM fun (input, entry) =>
        mempool.populateEntry input entry := by
    rw [zip_entries_fromTx, List.mapM_map]
    rfl
  rw [hentries]
  simp only [preValidateAndPopulateTransaction, populateMempoolEntries, bind_assoc]
  rfl

variable (mempool) in
/-- A transaction that is refused before the pool fills in its entries: it was accepted by a block,
is no standard transaction, or conflicts with pool transactions. -/
def RefusedEarlier (masses : Transaction → NonContextualMasses) (tx : Transaction)
    (policy : RbfPolicy) : Prop :=
  (∃ error, mempool.validateTransactionUnacceptance (.fromTx tx) = fail error) ∨
    (∃ error, mempool.validateTransactionInIsolation (measured masses tx) = fail error) ∨
    ∃ error, mempool.getReplaceByFeeConstraint (measured masses tx) policy = fail error

/-- A transaction is accepted or refused by a rule, with the entries that the pool creates, if and
only if its inputs name existing outputs of pool transactions or an earlier check refuses it. -/
theorem preValidateAndPopulateTransaction_returns (hrun : Runs Step (new config) changes mempool)
    (masses : Transaction → NonContextualMasses) (tx : Transaction) (policy : RbfPolicy) :
    Returns (mempool.preValidateAndPopulateTransaction masses (.fromTx tx) policy)
        (fun result => result.transaction.tx = tx ∧
          List.Forall₂ mempool.Populates tx.inputs result.transaction.entries) ↔
      mempool.NamesOutputs tx ∨ mempool.RefusedEarlier masses tx policy := by
  have hisolation : Faultless
      (mempool.validateTransactionInIsolation (measured masses tx)) := by
    refine .check fun _ => ?_
    split
    · exact returns_checkTransactionStandardInIsolation _ rfl
    · exact returns_ok trivial
  have hunaccepted : Faultless (mempool.validateTransactionUnacceptance (.fromTx tx)) :=
    .check fun _ => returns_ok trivial
  rw [preValidateAndPopulateTransaction_fromTx]
  by_cases hrefused : mempool.RefusedEarlier masses tx policy
  · refine iff_of_true ?_ (.inr hrefused)
    rcases hrefused with ⟨error, herror⟩ | ⟨error, herror⟩ | ⟨error, herror⟩
    · rw [herror]
      exact returns_err
    · refine hunaccepted.bind fun _ _ => ?_
      rw [herror]
      exact returns_err
    · refine hunaccepted.bind fun _ _ => hisolation.bind fun _ _ => ?_
      rw [herror]
      exact returns_err
  · obtain ⟨_, hnew⟩ := hunaccepted.exists_ok fun herror => hrefused (.inl herror)
    obtain ⟨_, hstandard⟩ := hisolation.exists_ok fun herror => hrefused (.inr (.inl herror))
    obtain ⟨threshold, hfree⟩ := (returns_getReplaceByFeeConstraint _ policy).exists_ok
      fun herror => hrefused (.inr (.inr herror))
    rw [or_iff_left hrefused, hnew, ok_bind, hstandard, ok_bind, hfree, ok_bind]
    constructor
    · intro hreturns
      exact namesOutputs_of_populateEntry
        (faultless_bind.mp (hreturns.mono fun _ _ => trivial)).1
    · intro hnames
      exact (returns_mapM fun input hinput => returns_populateEntry hrun hnames hinput).bind
        fun entries hforall => returns_ok ⟨rfl, hforall⟩

/-- The default policy of a node. -/
def defaultConfig : Config := ⟨false, 1000, 0, 0, true⟩

def stealthOutput : TransactionOutput := ⟨1000000000, ⟨16, List.replicate 66 0⟩⟩

def parentTransaction : MutableTransaction :=
  ⟨⟨0, [⟨⟨0, 0⟩, [], 0, 0⟩], [stealthOutput], 0, subnetworkIdNative, 0, [], 0, 1⟩,
    [some (unacceptedEntry stealthOutput)], some 1, some ⟨1, 1⟩⟩

/-- A pool with one transaction, which has one output. -/
def parentPool : Mempool :=
  ⟨defaultConfig, ⟨AList.singleton 1 parentTransaction, AList.singleton ⟨0, 0⟩ 1⟩, []⟩

theorem runs_parentPool : Runs Step (new defaultConfig) [.insert parentTransaction] parentPool :=
  .cons (.insert rfl) (.nil _)

def spendingOutput (index : UInt32) : Transaction :=
  ⟨0, [⟨⟨1, index⟩, [], 0, 0⟩], [stealthOutput], 0, subnetworkIdNative, 0, [], 0, 2⟩

/-- An offered transaction that names a missing output of a pool transaction stops the node. -/
theorem preValidateAndPopulateTransaction_panics :
    Runs Step (new defaultConfig) [.insert parentTransaction] parentPool ∧
      parentPool.preValidateAndPopulateTransaction (fun _ => ⟨1, 1⟩) (.fromTx (spendingOutput 1))
        .forbidden = .error .panic :=
  ⟨runs_parentPool, by decide⟩

theorem preValidateAndPopulateTransaction_returns_spending :
    Returns (parentPool.preValidateAndPopulateTransaction (fun _ => ⟨1, 1⟩)
      (.fromTx (spendingOutput 0)) .forbidden) fun result =>
        result.transaction.tx = spendingOutput 0 ∧
          List.Forall₂ parentPool.Populates (spendingOutput 0).inputs
            result.transaction.entries := by
  refine (preValidateAndPopulateTransaction_returns runs_parentPool _ _ _).mpr (.inl ?_)
  intro input hinput parent hparent
  obtain rfl := List.mem_singleton.mp hinput
  cases hparent
  decide

end Mempool

end Qaspa.Mining
