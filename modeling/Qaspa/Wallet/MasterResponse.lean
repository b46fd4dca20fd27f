import Qaspa.Wallet.DelegationStore

/-! # Applying the response of a master key

A wallet asks the holder of a master key for delegations and applies the signed response. The
response is validated as a whole; its records then enter the store one at a time, each with a move
of the pointer of its account. A record that is stored already is not stored again, but the
pointer of its account is still moved to it.
-/

namespace Qaspa.Wallet

open Borsh HashMap Outcome List DelegationRecordV1 DelegationStore

/-! ## Requests and responses -/

structure DelegationRecordHeaderV1 where
  version : UInt8
  level : UInt8
  anchor : Bytes32
  accountId : AccountId
  spendPubkey : Bytes32
  scanPubkey : Bytes32
  validFromDaa : UInt64
  validUntilDaa : Option UInt64
  nonce : UInt64
  status : DelegationStatus
  deriving DecidableEq, Repr

structure MasterDelegationRequestBodyV1 where
  version : UInt8
  masterAnchor : Bytes32
  masterLevel : UInt8
  networkId : NetworkId
  delegations : List DelegationRecordHeaderV1
  createdAtUnixtime : UInt64
  requestId : Bytes32
  deriving DecidableEq, Repr

structure MasterDelegationResponseBodyV1 where
  version : UInt8
  masterAnchor : Bytes32
  masterLevel : UInt8
  requestId : Bytes32
  delegations : List DelegationRecordV1
  deriving DecidableEq, Repr

def NetworkId.serialize (network : NetworkId) : Written :=
  concat [
    u8.write (match network.networkType with
      | .mainnet => 0
      | .testnet => 1
      | .devnet => 2
      | .simnet => 3),
    (option u32).write network.suffix]

namespace DelegationRecordHeaderV1

def serialize (header : DelegationRecordHeaderV1) : Written :=
  concat [
    u8.write header.version,
    u8.write header.level,
    array32.write header.anchor,
    array32.write header.accountId,
    array32.write header.spendPubkey,
    array32.write header.scanPubkey,
    u64.write header.validFromDaa,
    (option u64).write header.validUntilDaa,
    u64.write header.nonce,
    header.status.serialize]

def toRecord (header : DelegationRecordHeaderV1) : DelegationRecordV1 where
  version := header.version
  level := header.level
  anchor := header.anchor
  accountId := header.accountId
  spendPubkey := header.spendPubkey
  scanPubkey := header.scanPubkey
  validFromDaa := header.validFromDaa
  validUntilDaa := header.validUntilDaa
  nonce := header.nonce
  status := header.status
  warnedAtDaa := none
  signature := []

end DelegationRecordHeaderV1

def DelegationRecordV1.toHeader (record : DelegationRecordV1) : DelegationRecordHeaderV1 where
  version := record.version
  level := record.level
  anchor := record.anchor
  accountId := record.accountId
  spendPubkey := record.spendPubkey
  scanPubkey := record.scanPubkey
  validFromDaa := record.validFromDaa
  validUntilDaa := record.validUntilDaa
  nonce := record.nonce
  status := record.status

def MasterDelegationRequestBodyV1.serialize (request : MasterDelegationRequestBodyV1) : Written :=
  concat [
    u8.write request.version,
    array32.write request.masterAnchor,
    u8.write request.masterLevel,
    request.networkId.serialize,
    writeVec DelegationRecordHeaderV1.serialize request.delegations,
    u64.write request.createdAtUnixtime,
    array32.write request.requestId]

/-- The bytes of `mldsa-delegation-request`. -/
def domainMldsaDelegationRequestId : List UInt8 := [
  0x6d, 0x6c, 0x64, 0x73, 0x61, 0x2d, 0x64, 0x65, 0x6c, 0x65, 0x67, 0x61, 0x74, 0x69, 0x6f, 0x6e,
  0x2d, 0x72, 0x65, 0x71, 0x75, 0x65, 0x73, 0x74]

def calcRequestId (requestHash : (key message : List UInt8) → Bytes32)
    (body : MasterDelegationRequestBodyV1) : Except Error Bytes32 := do
  let serialized ← MasterDelegationRequestBodyV1.serialize { body with requestId := 0 } |>.mapError
    fun error => .custom s!"delegation request borsh encode: {error.message}"
  return requestHash domainMldsaDelegationRequestId serialized

/-! ## Validation -/

def ensureVersion (context : String) (version : UInt8) : Except Error Unit :=
  if version ≠ 1 ∧ version ≠ 2 then
    .error (.masterDelegationUnsupportedVersion context 1 version)
  else .ok ()

def ensureRequestVersions (request : MasterDelegationRequestBodyV1) : Except Error Unit := do
  ensureVersion "request" request.version
  request.delegations.forM fun header => ensureVersion "header" header.version

def ensureResponseVersions (response : MasterDelegationResponseBodyV1) : Except Error Unit := do
  ensureVersion "response" response.version
  response.delegations.forM fun record => ensureVersion "delegation" record.version

/-- The part of an open wallet that validation reads. The public key of a master account is the one
in its stored payload. -/
structure MldsaMasterAccount where
  level : MlDsaLevel
  masterPubkey : List UInt8

structure MasterContext where
  requestHash : (key message : List UInt8) → Bytes32
  networkId : Except Error NetworkId
  findActiveMasterByAnchor : Bytes32 → Option MldsaMasterAccount
  accountStore : Except Error Unit

def MlDsaLevel.toU8 : MlDsaLevel → UInt8
  | .level2 => 2
  | .level3 => 3
  | .level5 => 5

abbrev RecordKey := AccountId × UInt64

def DelegationRecordV1.key (record : DelegationRecordV1) : RecordKey :=
  (record.accountId, record.nonce)

abbrev HeaderMap := HashMap RecordKey DelegationRecordHeaderV1

def insertHeader (headerMap : HeaderMap) (header : DelegationRecordHeaderV1) :
    Except Error HeaderMap :=
  if (headerMap.lookup (header.accountId, header.nonce)).isSome then
    .error (.custom "delegation request contains duplicate account_id/nonce")
  else .ok (headerMap.insert (header.accountId, header.nonce) header)

def hexDigits (byte : UInt8) : String :=
  String.singleton (Nat.digitChar (byte.toNat / 16)) ++
    String.singleton (Nat.digitChar (byte.toNat % 16))

def AccountId.toHex (accountId : AccountId) : String :=
  String.join ((LittleEndian.encode 32 accountId.toNat).map hexDigits)

/-- An error about one record of a response. -/
def recordError (message : String) (record : DelegationRecordV1) : Error :=
  let accountId := AccountId.toHex record.accountId
  .custom s!"delegation response {message} (account_id={accountId}, nonce={record.nonce})"

/-- The records that passed, in order, and how many were passed over. -/
structure Validated where
  records : List DelegationRecordV1
  skipped : Nat
  deriving DecidableEq, Repr

section Validation

variable {Digest SecretKey : Type} (keyedHash : (key message : List UInt8) → Digest)
  (scheme : MlDsa Digest SecretKey) (context : MasterContext)

def validateRecord (response : MasterDelegationResponseBodyV1) (masterPubkey : List UInt8)
    (headerMap : HeaderMap) (validated : Validated) (record : DelegationRecordV1) :
    Except Error Validated :=
  if record.anchor ≠ response.masterAnchor ∨ record.level ≠ response.masterLevel then
    .ok { validated with skipped := validated.skipped + 1 }
  else
    match headerMap.lookup record.key with
    | none => .ok { validated with skipped := validated.skipped + 1 }
    | some header =>
      let expected := header.toRecord
      if expected.anchor ≠ record.anchor ∨ expected.accountId ≠ record.accountId ∨
          expected.validFromDaa ≠ record.validFromDaa ∨
          expected.validUntilDaa ≠ record.validUntilDaa ∨
          expected.spendPubkey ≠ record.spendPubkey ∨ expected.scanPubkey ≠ record.scanPubkey ∨
          expected.status ≠ record.status then
        .error (recordError "record mismatch" record)
      else do
        let verified ← verifyAgainstAnchor keyedHash scheme response.masterAnchor masterPubkey
          record
        if !verified then throw (recordError "signature invalid" record)
        else if record.key ∈ validated.records.map DelegationRecordV1.key then
          throw (recordError "contains duplicate record" record)
        else return { validated with records := validated.records ++ [record] }

def validateRecords (request : MasterDelegationRequestBodyV1)
    (response : MasterDelegationResponseBodyV1) (masterPubkey : List UInt8) :
    Except Error Validated := do
  let headerMap ← request.delegations.foldlM insertHeader ∅
  context.accountStore
  let validated ← response.delegations.foldlM
    (validateRecord keyedHash scheme response masterPubkey headerMap) ⟨[], 0⟩
  if validated.records.length ≠ headerMap.keys.length then
    throw (.custom "delegation response missing records from request")
  else return validated

def checkNetwork (forceNetworkMismatch : Bool) (network : NetworkId) : Except Error Unit :=
  if forceNetworkMismatch then .ok ()
  else do
    let walletNetwork ← context.networkId
    if walletNetwork ≠ network then throw (.masterDelegationNetworkMismatch walletNetwork network)

/-- Everything that happens before the store is changed. -/
def validateResponse (request : MasterDelegationRequestBodyV1)
    (response : MasterDelegationResponseBodyV1) (forceNetworkMismatch : Bool) :
    Except Error Validated := do
  ensureRequestVersions request
  ensureResponseVersions response
  let checksum ← calcRequestId context.requestHash request
  if checksum ≠ request.requestId then
    throw (.masterDelegationInvalidChecksum request.requestId checksum)
  else if response.requestId ≠ checksum then
    throw (.masterDelegationInvalidChecksum checksum response.requestId)
  else if response.masterAnchor ≠ request.masterAnchor ∨
      response.masterLevel ≠ request.masterLevel then
    throw (.custom "delegation master mismatch")
  else
    checkNetwork context forceNetworkMismatch request.networkId
    match context.findActiveMasterByAnchor response.masterAnchor with
    | none => throw (.custom "master anchor not found")
    | some master =>
      if master.level.toU8 ≠ response.masterLevel then
        throw (.custom "delegation response level mismatch")
      else validateRecords keyedHash scheme context request response master.masterPubkey

end Validation

/-! ## Accounts -/

structure StealthAccount where
  masterAnchor : Option Bytes32
  delegationId : Option DelegationId
  scanPubkey : Bytes32
  spendPubkey : Bytes32
  deriving DecidableEq, Repr

inductive Account where
  | stealth (account : StealthAccount)
  | other
  deriving DecidableEq, Repr

def Account.asStealthAccount : Account → Except Error StealthAccount
  | stealth account => .ok account
  | other => .error .invalidAccountKind

def StealthAccount.setDelegation (account : StealthAccount) (anchor : Bytes32)
    (delegationId : Option DelegationId) : StealthAccount :=
  { account with masterAnchor := some anchor, delegationId := delegationId }

/-- The delegations of a wallet and its accounts, by identifier. -/
structure DelegationWallet where
  store : DelegationStore
  accounts : HashMap AccountId Account

def delegationWindowOk (record : DelegationRecordV1) (currentDaa : UInt64) : Bool :=
  if currentDaa = 0 then true
  else if currentDaa < record.validFromDaa then false
  else
    match record.validUntilDaa with
    | some untilDaa => currentDaa ≤ untilDaa
    | none => true

def StealthAccount.validateDelegationRecord (account : StealthAccount) (accountId : AccountId)
    (record : DelegationRecordV1) (expectedAnchor : Option Bytes32) : Except Error Unit :=
  match expectedAnchor with
  | none => .error (.custom "delegation_id set but master_anchor is missing")
  | some anchor =>
    if record.anchor ≠ anchor then .error (.custom "delegation anchor mismatch")
    else if record.accountId ≠ accountId then .error (.custom "delegation account mismatch")
    else if record.scanPubkey ≠ account.scanPubkey ∨ record.spendPubkey ≠ account.spendPubkey then
      .error (.custom "delegation pubkeys mismatch")
    else .ok ()

/-- A record that an account may use at a score. -/
def StealthAccount.usable (account : StealthAccount) (accountId : AccountId) (currentDaa : UInt64)
    (anchor : Bytes32) (record : DelegationRecordV1) : Bool :=
  delegationWindowOk record currentDaa &&
    (account.validateDelegationRecord accountId record (some anchor)).isOk

/-- The explicit pointer of an account, if its record can be used. -/
def StealthAccount.explicitDelegation (account : StealthAccount) (accountId : AccountId)
    (store : DelegationStore) (currentDaa : UInt64) (anchor : Bytes32) : Option DelegationId := do
  let id ← account.delegationId
  let record ← store.byId id
  if record.status = .active && account.usable accountId currentDaa anchor record then some id
  else none

def StealthAccount.fallbackDelegation (account : StealthAccount) (accountId : AccountId)
    (store : DelegationStore) (currentDaa : UInt64) (anchor : Bytes32) : Option DelegationId := do
  let active ← store.activeForAccount anchor accountId
  if account.usable accountId currentDaa anchor active.2 then some active.1 else none

/-- The anchor and the delegation of an account, and the account with its pointer, which the
fallback moves. -/
def StealthAccount.delegationMetadata (account : StealthAccount) (accountId : AccountId)
    (store : DelegationStore) (currentDaa : UInt64) :
    (Option Bytes32 × Option DelegationId) × StealthAccount :=
  match account.masterAnchor with
  | none => ((none, none), account)
  | some anchor =>
    match account.explicitDelegation accountId store currentDaa anchor with
    | some id => ((some anchor, some id), account)
    | none =>
      match account.fallbackDelegation accountId store currentDaa anchor with
      | some id => ((some anchor, some id), { account with delegationId := some id })
      | none => ((some anchor, none), account)

/-! ## Applying the records -/

structure MasterDelegationApplyResponse where
  applied : Nat
  skipped : Nat
  missingAccounts : List AccountId
  deriving DecidableEq, Repr

/-- Which of the calls to the account storage and the disk fail during one application. A record is
looked up and written at most once. -/
structure StorageFaults where
  lookupFails : DelegationRecordV1 → Bool
  storeSingleFails : DelegationRecordV1 → Bool
  saveFails : Bool
  commitFails : Bool

inductive ApplyError where
  | rejected (error : Error)
  | accountLookup
  | diskWrite
  deriving DecidableEq, Repr

/-- What is compared of a stored and an incoming record: the mark and the version are local. -/
def DelegationRecordV1.comparable (record : DelegationRecordV1) : DelegationRecordV1 :=
  { record with warnedAtDaa := none, version := 1 }

namespace DelegationWallet

def setDelegation (wallet : DelegationWallet) (accountId : AccountId) (account : StealthAccount)
    (anchor : Bytes32) (id : DelegationId) : DelegationWallet :=
  { wallet with
    accounts := wallet.accounts.insert accountId
      (.stealth (account.setDelegation anchor (some id))) }

def getAccountById (wallet : DelegationWallet) (faults : StorageFaults)
    (record : DelegationRecordV1) : Except ApplyError (Option Account) :=
  if faults.lookupFails record then .error .accountLookup
  else .ok (wallet.accounts.lookup record.accountId)

abbrev Applied := DelegationWallet × Except ApplyError MasterDelegationApplyResponse

def skip (wallet : DelegationWallet) (stats : MasterDelegationApplyResponse) : Applied :=
  (wallet, .ok { stats with skipped := stats.skipped + 1 })

def skipMissing (wallet : DelegationWallet) (stats : MasterDelegationApplyResponse)
    (accountId : AccountId) : Applied :=
  (wallet, .ok { stats with
    missingAccounts := stats.missingAccounts ++ [accountId]
    skipped := stats.skipped + 1 })

/-- Write the moved pointer to the account storage and count the record. -/
def storeSingle (wallet : DelegationWallet) (faults : StorageFaults) (record : DelegationRecordV1)
    (stats : MasterDelegationApplyResponse) : Applied :=
  if faults.storeSingleFails record then (wallet, .error .diskWrite) else (wallet, .ok stats)

/-- Whether a nonce is not above the latest one. -/
def stale (wallet : DelegationWallet) (anchor : Bytes32) (record : DelegationRecordV1) : Bool :=
  match wallet.store.latestNonce anchor record.accountId with
  | some current => record.nonce ≤ current
  | none => false

/-- A record that is stored already: only the pointer of the account may move. -/
def reapplyRecord (wallet : DelegationWallet) (faults : StorageFaults)
    (stats : MasterDelegationApplyResponse) (record : DelegationRecordV1)
    (existingId : DelegationId) : Applied :=
  match wallet.getAccountById faults record with
  | .error error => (wallet, .error error)
  | .ok none => wallet.skipMissing stats record.accountId
  | .ok (some account) =>
    match account.asStealthAccount with
    | .error error => (wallet, .error (.rejected error))
    | .ok stealth =>
      if stealth.masterAnchor ≠ some record.anchor ∨ stealth.delegationId ≠ some existingId then
        (wallet.setDelegation record.accountId stealth record.anchor existingId).storeSingle faults
          record { stats with skipped := stats.skipped + 1 }
      else wallet.skip stats

/-- A record that is not stored and not stale. -/
def addRecord (wallet : DelegationWallet) (faults : StorageFaults) (requestId : Bytes32)
    (stats : MasterDelegationApplyResponse) (record : DelegationRecordV1) : Applied :=
  match wallet.getAccountById faults record with
  | .error error => (wallet, .error error)
  | .ok none => wallet.skipMissing stats record.accountId
  | .ok (some account) =>
    match account.asStealthAccount with
    | .error error => (wallet, .error (.rejected error))
    | .ok stealth =>
      match wallet.store.upsert record (some requestId) with
      | .error (.masterDelegationStaleNonce ..) => wallet.skip stats
      | .error error => (wallet, .error (.rejected error))
      | .ok (id, store) =>
        ({ wallet with store := store }.setDelegation record.accountId stealth record.anchor
          id).storeSingle faults record { stats with applied := stats.applied + 1 }

def applyRecord (wallet : DelegationWallet) (faults : StorageFaults)
    (response : MasterDelegationResponseBodyV1) (stats : MasterDelegationApplyResponse)
    (record : DelegationRecordV1) : Applied :=
  match wallet.store.findEntryByAnchorAccountNonce response.masterAnchor record.accountId
      record.nonce with
  | some (existingId, existing) =>
    if existing.comparable = record.comparable then
      wallet.reapplyRecord faults stats record existingId
    else
      (wallet, .error (.rejected
        (.masterDelegationNonceConflict record.accountId record.nonce)))
  | none =>
    if wallet.stale response.masterAnchor record then wallet.skip stats
    else wallet.addRecord faults response.requestId stats record

def applyRecords (faults : StorageFaults) (response : MasterDelegationResponseBodyV1) :
    DelegationWallet → MasterDelegationApplyResponse → List DelegationRecordV1 → Applied
  | wallet, stats, [] => (wallet, .ok stats)
  | wallet, stats, record :: records =>
    match wallet.applyRecord faults response stats record with
    | (wallet', .error error) => (wallet', .error error)
    | (wallet', .ok stats') => applyRecords faults response wallet' stats' records

section Application

variable {Digest SecretKey : Type} (keyedHash : (key message : List UInt8) → Digest)
  (scheme : MlDsa Digest SecretKey) (context : MasterContext)

def applyMasterDelegationResponseInner (wallet : DelegationWallet) (faults : StorageFaults)
    (request : MasterDelegationRequestBodyV1) (response : MasterDelegationResponseBodyV1)
    (forceNetworkMismatch : Bool) : Applied :=
  match validateResponse keyedHash scheme context request response forceNetworkMismatch with
  | .error error => (wallet, .error (.rejected error))
  | .ok validated =>
    match applyRecords faults response wallet ⟨0, validated.skipped, []⟩ validated.records with
    | (wallet', .error error) => (wallet', .error error)
    | (wallet', .ok stats) =>
      if faults.saveFails then (wallet', .error .diskWrite)
      else if faults.commitFails then (wallet', .error .diskWrite)
      else (wallet', .ok stats)

end Application

/-! ## What a response can do

The records that pass validation have distinct keys and the anchor of the response. -/

section Validation

variable {Digest SecretKey : Type} {keyedHash : (key message : List UInt8) → Digest}
  {scheme : MlDsa Digest SecretKey} {context : MasterContext}

/-- What holds of the records validated among the first `count` of a response. -/
structure Accepted (response : MasterDelegationResponseBodyV1) (count : Nat)
    (records : List DelegationRecordV1) : Prop where
  length_le : records.length ≤ count
  anchor_eq : ∀ record ∈ records, record.anchor = response.masterAnchor
  nodup : (records.map DelegationRecordV1.key).Nodup

variable {request : MasterDelegationRequestBodyV1} {response : MasterDelegationResponseBodyV1}
  {validated validated' : Validated} {record : DelegationRecordV1} {count : Nat}

theorem Accepted.validateRecord {masterPubkey : List UInt8} {headerMap : HeaderMap}
    (haccepted : Accepted response count validated.records)
    (hrecord : validateRecord keyedHash scheme response masterPubkey headerMap validated record =
      .ok validated') : Accepted response (count + 1) validated'.records := by
  have hskipped : Accepted response (count + 1) validated.records :=
    { haccepted with length_le := Nat.le_succ_of_le haccepted.length_le }
  rw [Wallet.validateRecord] at hrecord
  by_cases hother : record.anchor ≠ response.masterAnchor ∨ record.level ≠ response.masterLevel
  · rw [if_pos hother] at hrecord
    cases hrecord
    exact hskipped
  · rw [if_neg hother] at hrecord
    have hanchor : record.anchor = response.masterAnchor := not_not.mp (not_or.mp hother).1
    cases hheader : headerMap.lookup record.key with
    | none =>
      rw [hheader] at hrecord
      cases hrecord
      exact hskipped
    | some header =>
      simp only [hheader, throw, throwThe, MonadExceptOf.throw, ite_error_eq_ok,
        Outcome.bind_eq_ok] at hrecord
      obtain ⟨-, verified, -, -, hfresh, hrecord⟩ := hrecord
      cases hrecord
      constructor
      · simpa using haccepted.length_le
      · intro record' hrecord'
        rcases mem_append.mp hrecord' with hold | hnew
        · exact haccepted.anchor_eq record' hold
        · rw [mem_singleton.mp hnew, hanchor]
      · rw [map_append, nodup_append']
        exact ⟨haccepted.nodup, nodup_singleton _, by simpa using hfresh⟩

theorem Accepted.foldlM {masterPubkey : List UInt8} {headerMap : HeaderMap}
    (records : List DelegationRecordV1) (haccepted : Accepted response count validated.records)
    (hrecords : records.foldlM (Wallet.validateRecord keyedHash scheme response masterPubkey
      headerMap) validated = .ok validated') :
    Accepted response (count + records.length) validated'.records := by
  induction records generalizing validated count with
  | nil =>
    cases hrecords
    exact haccepted
  | cons record records ih =>
    obtain ⟨middle, hrecord, hrest⟩ := bind_eq_ok.mp hrecords
    rw [length_cons, Nat.add_comm records.length, ← Nat.add_assoc]
    exact ih (haccepted.validateRecord hrecord) hrest

theorem accepted_of_validateResponse {forceNetworkMismatch : Bool}
    (hresponse : validateResponse keyedHash scheme context request response forceNetworkMismatch =
      .ok validated) : Accepted response response.delegations.length validated.records := by
  simp only [validateResponse, throw, throwThe, MonadExceptOf.throw, Outcome.bind_eq_ok,
    ite_error_eq_ok] at hresponse
  obtain ⟨_, -, _, -, checksum, -, -, -, -, _, -, hresponse⟩ := hresponse
  cases hmaster : context.findActiveMasterByAnchor response.masterAnchor with
  | none =>
    rw [hmaster] at hresponse
    cases hresponse
  | some master =>
    simp only [hmaster, validateRecords, throw, throwThe, MonadExceptOf.throw, Outcome.bind_eq_ok,
      ite_error_eq_ok] at hresponse
    obtain ⟨-, headerMap, -, _, -, checked, hchecked, -, hresponse⟩ := hresponse
    cases hresponse
    have hempty : Accepted response 0 (⟨[], 0⟩ : Validated).records :=
      ⟨Nat.le_refl 0, nofun, nodup_nil⟩
    simpa using hempty.foldlM response.delegations hchecked

end Validation

/-- A record that the wallet rejects: the stored record of its key differs, or its account is of
another kind and the record is stored or due. -/
def Rejects (wallet : DelegationWallet) (response : MasterDelegationResponseBodyV1)
    (record : DelegationRecordV1) : Prop :=
  match wallet.store.findEntryByAnchorAccountNonce response.masterAnchor record.accountId
      record.nonce with
  | some (_, existing) => existing.comparable = record.comparable →
      wallet.accounts.lookup record.accountId = some .other
  | none => wallet.stale response.masterAnchor record = false ∧
      wallet.accounts.lookup record.accountId = some .other

instance (wallet : DelegationWallet) (response : MasterDelegationResponseBodyV1)
    (record : DelegationRecordV1) : Decidable (wallet.Rejects response record) := by
  rw [Rejects]
  split <;> infer_instance

/-- A new record of a stealth account, which the wallet stores. -/
def Adds (wallet : DelegationWallet) (response : MasterDelegationResponseBodyV1)
    (record : DelegationRecordV1) : Prop :=
  wallet.store.findEntryByAnchorAccountNonce response.masterAnchor record.accountId record.nonce =
      none ∧ wallet.stale response.masterAnchor record = false ∧
    ∃ account, wallet.accounts.lookup record.accountId = some (.stealth account)

/-- What one record does. Its pointer is kept, moved to a stored record, or moved to the record
itself, which is added. -/
inductive RecordEffect (wallet : DelegationWallet) (response : MasterDelegationResponseBodyV1)
    (record : DelegationRecordV1) : Applied → Prop where
  | lookupFailed : RecordEffect wallet response record (wallet, .error .accountLookup)
  | rejected {error : Error} (hrejects : wallet.Rejects response record) :
      RecordEffect wallet response record (wallet, .error (.rejected error))
  | missing {stats : MasterDelegationApplyResponse}
      (hmissing : wallet.accounts.lookup record.accountId = none) :
      RecordEffect wallet response record (wallet, .ok stats)
  | stale {stats : MasterDelegationApplyResponse}
      (hfresh : wallet.store.findEntryByAnchorAccountNonce response.masterAnchor record.accountId
        record.nonce = none)
      (hstale : wallet.stale response.masterAnchor record = true) :
      RecordEffect wallet response record (wallet, .ok stats)
  | kept {stats : MasterDelegationApplyResponse} {id : DelegationId}
      {existing : DelegationRecordV1} {account : StealthAccount}
      (hfound : wallet.store.findEntryByAnchorAccountNonce response.masterAnchor record.accountId
        record.nonce = some (id, existing))
      (haccount : wallet.accounts.lookup record.accountId = some (.stealth account))
      (hanchor : account.masterAnchor = some record.anchor)
      (hpointer : account.delegationId = some id) :
      RecordEffect wallet response record (wallet, .ok stats)
  | moved {outcome : Except ApplyError MasterDelegationApplyResponse} {id : DelegationId}
      {existing : DelegationRecordV1} {account : StealthAccount}
      (hfound : wallet.store.findEntryByAnchorAccountNonce response.masterAnchor record.accountId
        record.nonce = some (id, existing))
      (haccount : wallet.accounts.lookup record.accountId = some (.stealth account))
      (houtcome : ∀ error, outcome ≠ .error (.rejected error)) :
      RecordEffect wallet response record
        (wallet.setDelegation record.accountId account record.anchor id, outcome)
  | added {outcome : Except ApplyError MasterDelegationApplyResponse} {id : DelegationId}
      {store : DelegationStore} {account : StealthAccount}
      (haccount : wallet.accounts.lookup record.accountId = some (.stealth account))
      (hupsert : wallet.store.upsert record (some response.requestId) = .ok (id, store))
      (houtcome : ∀ error, outcome ≠ .error (.rejected error))
        (hadds : wallet.Adds response record) :
      RecordEffect wallet response record
        ({ wallet with store := store }.setDelegation record.accountId account record.anchor id,
          outcome)

variable {wallet wallet' : DelegationWallet} {faults : StorageFaults}
  {response : MasterDelegationResponseBodyV1} {stats : MasterDelegationApplyResponse}
  {record : DelegationRecordV1} {records : List DelegationRecordV1}

theorem storeSingle_cases (wallet : DelegationWallet) (faults : StorageFaults)
    (record : DelegationRecordV1) (stats : MasterDelegationApplyResponse) :
    ∃ outcome, wallet.storeSingle faults record stats = (wallet, outcome) ∧
      ∀ error, outcome ≠ .error (.rejected error) := by
  rw [storeSingle]
  split
  · exact ⟨_, rfl, fun error herror => (nomatch herror)⟩
  · exact ⟨_, rfl, fun error herror => (nomatch herror)⟩

theorem reapplyRecord_effect {id : DelegationId} {existing : DelegationRecordV1}
    (hfound : wallet.store.findEntryByAnchorAccountNonce response.masterAnchor record.accountId
      record.nonce = some (id, existing)) :
    RecordEffect wallet response record (wallet.reapplyRecord faults stats record id) := by
  rw [reapplyRecord, getAccountById]
  by_cases hlookup : faults.lookupFails record = true
  · rw [if_pos hlookup]
    exact .lookupFailed
  · rw [if_neg hlookup]
    cases haccount : wallet.accounts.lookup record.accountId with
    | none => exact .missing haccount
    | some account =>
      cases account with
      | other => exact .rejected (by rw [Rejects, hfound]; exact fun _ => haccount)
      | stealth account =>
        simp only [Account.asStealthAccount]
        by_cases hpointer : account.masterAnchor ≠ some record.anchor ∨
            account.delegationId ≠ some id
        · rw [if_pos hpointer]
          obtain ⟨outcome, houtcome, hwritten⟩ := storeSingle_cases
            (wallet.setDelegation record.accountId account record.anchor id) faults record
            { stats with skipped := stats.skipped + 1 }
          rw [houtcome]
          exact .moved hfound haccount hwritten
        · rw [if_neg hpointer]
          obtain ⟨hanchor, hid⟩ := not_or.mp hpointer
          exact .kept hfound haccount (not_not.mp hanchor) (not_not.mp hid)

theorem addRecord_effect (hanchor : record.anchor = response.masterAnchor)
    (hfresh : wallet.store.findEntryByAnchorAccountNonce response.masterAnchor record.accountId
      record.nonce = none) (hstale : wallet.stale response.masterAnchor record = false) :
    RecordEffect wallet response record
      (wallet.addRecord faults response.requestId stats record) := by
  rw [addRecord, getAccountById]
  by_cases hlookup : faults.lookupFails record = true
  · rw [if_pos hlookup]
    exact .lookupFailed
  · rw [if_neg hlookup]
    cases haccount : wallet.accounts.lookup record.accountId with
    | none => exact .missing haccount
    | some account =>
      cases account with
      | other => exact .rejected (by rw [Rejects, hfresh]; exact ⟨hstale, haccount⟩)
      | stealth account =>
        have hlatest : ∀ current, wallet.store.latestNonce record.anchor record.accountId =
            some current → current < record.nonce := by
          intro current hcurrent
          rw [hanchor] at hcurrent
          simpa [DelegationWallet.stale, hcurrent] using hstale
        obtain ⟨⟨id, store⟩, hupsert⟩ : ∃ result, wallet.store.upsert record
            (some response.requestId) = .ok result := ⟨_, upsert_eq_ok.mpr ⟨hlatest, rfl⟩⟩
        obtain ⟨outcome, houtcome, hwritten⟩ := storeSingle_cases
          ({ wallet with store := store }.setDelegation record.accountId account record.anchor id)
          faults record { stats with applied := stats.applied + 1 }
        simp only [Account.asStealthAccount, hupsert]
        rw [houtcome]
        exact .added haccount hupsert hwritten ⟨hfresh, hstale, account, haccount⟩

theorem applyRecord_effect (wallet : DelegationWallet) (faults : StorageFaults)
    (stats : MasterDelegationApplyResponse) (hanchor : record.anchor = response.masterAnchor) :
    RecordEffect wallet response record (wallet.applyRecord faults response stats record) := by
  rw [applyRecord]
  cases hfound : wallet.store.findEntryByAnchorAccountNonce response.masterAnchor record.accountId
      record.nonce with
  | some entry =>
    obtain ⟨id, existing⟩ := entry
    dsimp only
    by_cases hsame : existing.comparable = record.comparable
    · rw [if_pos hsame]
      exact reapplyRecord_effect hfound
    · rw [if_neg hsame]
      exact .rejected (by rw [Rejects, hfound]; exact fun h => absurd h hsame)
  | none =>
    dsimp only
    split
    next hstale => exact .stale hfound hstale
    next hstale => exact addRecord_effect hanchor hfound (by simpa using hstale)

theorem applyRecord_of_rejects (faults : StorageFaults) (stats : MasterDelegationApplyResponse)
    (hrejects : wallet.Rejects response record) :
    ∃ error, wallet.applyRecord faults response stats record = (wallet, .error error) := by
  have hother : wallet.accounts.lookup record.accountId = some .other →
      wallet.getAccountById faults record = .ok (some .other) ∨
        ∃ error, wallet.getAccountById faults record = .error error := by
    intro hother
    rw [getAccountById, hother]
    split
    · exact .inr ⟨_, rfl⟩
    · exact .inl rfl
  rw [Rejects] at hrejects
  rw [applyRecord]
  cases hfound : wallet.store.findEntryByAnchorAccountNonce response.masterAnchor record.accountId
      record.nonce with
  | some entry =>
    simp only [hfound] at hrejects
    dsimp only
    by_cases hsame : entry.2.comparable = record.comparable
    · rw [if_pos hsame, reapplyRecord]
      rcases hother (hrejects hsame) with h | ⟨error, h⟩ <;> rw [h] <;> exact ⟨_, rfl⟩
    · exact ⟨_, if_neg hsame⟩
  | none =>
    simp only [hfound] at hrejects
    simp only [hrejects.1, addRecord, Bool.false_eq_true, if_false]
    rcases hother hrejects.2 with h | ⟨error, h⟩ <;> rw [h] <;> exact ⟨_, rfl⟩

/-! ## All or nothing -/

/-- The anchor and the identifier of the stored record with the key of a record. -/
def storedPointer (wallet : DelegationWallet) (response : MasterDelegationResponseBodyV1)
    (record : DelegationRecordV1) : Option (Bytes32 × DelegationId) :=
  (wallet.store.findEntryByAnchorAccountNonce response.masterAnchor record.accountId
    record.nonce).map fun entry => (record.anchor, entry.1)

/-- The stored record that the last of the records of an account points it to. -/
def lastPointer (wallet : DelegationWallet) (response : MasterDelegationResponseBodyV1)
    (records : List DelegationRecordV1) (accountId : AccountId) :
    Option (Bytes32 × DelegationId) :=
  records.foldl
    (fun last record =>
      if record.accountId = accountId then (wallet.storedPointer response record).or last else last)
    none

/-- An account that is pointed to a stored record, if there is one. -/
def repoint : Option (Bytes32 × DelegationId) → Account → Account
  | some (anchor, id), .stealth account => .stealth (account.setDelegation anchor (some id))
  | _, account => account

/-- Records that leave no trace: none is rejected or stored, and every account points already where
the last of its records points it to. -/
structure Traceless (wallet : DelegationWallet) (response : MasterDelegationResponseBodyV1)
    (records : List DelegationRecordV1) : Prop where
  quiet : ∀ record ∈ records, ¬ wallet.Rejects response record ∧ ¬ wallet.Adds response record
  pointers : ∀ accountId account, wallet.accounts.lookup accountId = some account →
    repoint (wallet.lastPointer response records accountId) account = account

/-- A wallet after records of which none was rejected or stored. -/
structure Repointed (wallet : DelegationWallet) (response : MasterDelegationResponseBodyV1)
    (done : List DelegationRecordV1) (wallet' : DelegationWallet) : Prop where
  quiet : ∀ record ∈ done, ¬ wallet.Rejects response record ∧ ¬ wallet.Adds response record
  store_eq : wallet'.store = wallet.store
  accounts_eq : ∀ accountId, wallet'.accounts.lookup accountId =
    (wallet.accounts.lookup accountId).map (repoint (wallet.lastPointer response done accountId))

/-- A store that has an identifier left stays consistent. -/
theorem upsert_room {store store' : DelegationStore} (hvalid : store.Valid)
    {requestId : Option Bytes32} {id : DelegationId}
    (hupsert : store.upsert record requestId = .ok (id, store'))
    (hroom : store.nextId.toNat < u64Max) :
    store'.Valid ∧ store'.nextId.toNat = store.nextId.toNat + 1 := by
  have hnext := toNat_succ_of_lt hroom
  have hlt : store.nextId < store.nextId + 1 := by
    rw [UInt64.lt_iff_toNat_lt, hnext]
    omega
  obtain ⟨hstore, hissued, -⟩ := upsert_spec hvalid hupsert hlt
  exact ⟨hstore, by rw [hissued, hnext]⟩

section Response

variable {done : List DelegationRecordV1}

@[simp] theorem repoint_none (account : Account) : repoint none account = account := by
  cases account <;> rfl

theorem repoint_or (first last : Option (Bytes32 × DelegationId)) (account : Account) :
    repoint (last.or first) account = repoint last (repoint first account) := by
  rcases last with _ | ⟨anchor, id⟩
  · simp
  · cases account <;> cases first <;> rfl

namespace Repointed

variable (hwallet : Repointed wallet response done wallet')

include hwallet

theorem other_iff (accountId : AccountId) :
    wallet'.accounts.lookup accountId = some .other ↔
      wallet.accounts.lookup accountId = some .other := by
  rw [hwallet.accounts_eq]
  rcases wallet.accounts.lookup accountId with _ | _ | _
  · simp
  · cases wallet.lastPointer response done accountId <;> simp [repoint]
  · simp [repoint]

theorem stealth_iff (accountId : AccountId) :
    (∃ account, wallet'.accounts.lookup accountId = some (.stealth account)) ↔
      ∃ account, wallet.accounts.lookup accountId = some (.stealth account) := by
  rw [hwallet.accounts_eq]
  rcases wallet.accounts.lookup accountId with _ | _ | _
  · simp
  · cases wallet.lastPointer response done accountId <;> simp [repoint]
  · simp [repoint]

theorem rejects_iff : wallet'.Rejects response record ↔ wallet.Rejects response record := by
  rw [Rejects, Rejects, hwallet.other_iff, DelegationWallet.stale, DelegationWallet.stale,
    hwallet.store_eq]

theorem adds_iff : wallet'.Adds response record ↔ wallet.Adds response record := by
  rw [Adds, Adds, hwallet.stealth_iff, DelegationWallet.stale, DelegationWallet.stale,
    hwallet.store_eq]

/-- Nothing has changed if and only if every account points where it did. -/
theorem unchanged_iff :
    (wallet'.store = wallet.store ∧ ∀ accountId, wallet'.accounts.lookup accountId =
        wallet.accounts.lookup accountId) ↔ wallet.Traceless response done := by
  constructor
  · rintro ⟨-, haccounts⟩
    refine ⟨hwallet.quiet, fun accountId account haccount => ?_⟩
    have hsame := haccounts accountId
    rw [hwallet.accounts_eq, haccount] at hsame
    exact Option.some.inj hsame
  · intro htraceless
    refine ⟨hwallet.store_eq, fun accountId => ?_⟩
    rw [hwallet.accounts_eq]
    cases haccount : wallet.accounts.lookup accountId with
    | none => rfl
    | some account => exact congrArg some (htraceless.pointers accountId account haccount)

theorem snoc {next : DelegationWallet}
    (hquiet : ¬ wallet.Rejects response record ∧ ¬ wallet.Adds response record)
    (hstore : next.store = wallet'.store)
    (hothers : ∀ accountId, record.accountId ≠ accountId →
      next.accounts.lookup accountId = wallet'.accounts.lookup accountId)
    (haccount : next.accounts.lookup record.accountId =
      (wallet'.accounts.lookup record.accountId).map
        (repoint (wallet'.storedPointer response record))) :
    Repointed wallet response (done ++ [record]) next where
  quiet record' hrecord' := by
    rcases mem_append.mp hrecord' with hold | hnew
    · exact hwallet.quiet record' hold
    · rw [mem_singleton.mp hnew]
      exact hquiet
  store_eq := hstore.trans hwallet.store_eq
  accounts_eq accountId := by
    rw [lastPointer, foldl_append, foldl_cons, foldl_nil]
    split
    next hsame =>
      rw [← hsame, haccount, hwallet.accounts_eq, Option.map_map, storedPointer, hwallet.store_eq]
      exact congrArg (Option.map · _) (funext fun account => (repoint_or _ _ account).symm)
    next hother => rw [hothers accountId hother, hwallet.accounts_eq, lastPointer]

/-- A record that is neither rejected nor stored. -/
theorem applyRecord (hanchor : record.anchor = response.masterAnchor)
    (hquiet : ¬ wallet.Rejects response record ∧ ¬ wallet.Adds response record)
    {next : DelegationWallet} {stats' : MasterDelegationApplyResponse}
    (happlied : wallet'.applyRecord faults response stats record = (next, .ok stats')) :
    Repointed wallet response (done ++ [record]) next := by
  have heffect := wallet'.applyRecord_effect faults stats hanchor
  rw [happlied] at heffect
  cases heffect with
  | missing hmissing => exact hwallet.snoc hquiet rfl (fun _ _ => rfl) (by rw [hmissing]; rfl)
  | stale hfresh =>
    refine hwallet.snoc hquiet rfl (fun _ _ => rfl) ?_
    rw [storedPointer, hfresh, Option.map_none, funext repoint_none, Option.map_id']
  | @kept _ id existing account hfound haccount hpointed hid =>
    refine hwallet.snoc hquiet rfl (fun _ _ => rfl) ?_
    rw [storedPointer, hfound, haccount]
    cases account
    cases hpointed
    cases hid
    rfl
  | @moved _ id existing account hfound haccount =>
    refine hwallet.snoc hquiet rfl (fun _ hother => AList.lookup_insert_ne (Ne.symm hother)) ?_
    rw [storedPointer, hfound, haccount]
    exact AList.lookup_insert _
  | added _ _ _ hadds => exact absurd (hwallet.adds_iff.mp hadds) hquiet.2

end Repointed

namespace RecordEffect

theorem rejects {next : DelegationWallet} {error : Error}
    (heffect : RecordEffect wallet response record (next, .error (.rejected error))) :
    wallet.Rejects response record := by
  cases heffect with
  | rejected hrejects => exact hrejects
  | moved _ _ houtcome | added _ _ houtcome => exact absurd rfl (houtcome error)

/-- An identifier is issued to a new record. -/
theorem nextId {applied : Applied} (heffect : RecordEffect wallet response record applied)
    (hroom : wallet.store.nextId.toNat < u64Max) :
    applied.1.store.nextId.toNat = wallet.store.nextId.toNat ∧
        (applied.2.isOk → ¬ wallet.Adds response record) ∨
      applied.1.store.nextId.toNat = wallet.store.nextId.toNat + 1 := by
  cases heffect with
  | lookupFailed | rejected => exact .inl ⟨rfl, nofun⟩
  | missing hmissing =>
    exact .inl ⟨rfl, fun _ ⟨_, _, _, haccount⟩ => nomatch hmissing.symm.trans haccount⟩
  | stale _ hstale => exact .inl ⟨rfl, fun _ ⟨_, hdue, _⟩ => nomatch hstale.symm.trans hdue⟩
  | kept hfound | moved hfound =>
    exact .inl ⟨rfl, fun _ ⟨hfresh, _⟩ => nomatch hfound.symm.trans hfresh⟩
  | added _ hupsert =>
    obtain ⟨-, hresult⟩ := upsert_eq_ok.mp hupsert
    cases hresult
    exact .inr (toNat_succ_of_lt hroom)

end RecordEffect

/-- Identifiers are never taken back. -/
theorem nextId_le_applyRecords (faults : StorageFaults) (wallet : DelegationWallet)
    (stats : MasterDelegationApplyResponse)
    (hanchor : ∀ record ∈ records, record.anchor = response.masterAnchor)
    (hroom : wallet.store.nextId.toNat + records.length ≤ u64Max) :
    wallet.store.nextId.toNat ≤
      (applyRecords faults response wallet stats records).1.store.nextId.toNat := by
  induction records generalizing wallet stats with
  | nil => exact Nat.le_refl _
  | cons record records ih =>
    obtain ⟨hhead, htail⟩ := forall_mem_cons.mp hanchor
    rw [length_cons] at hroom
    have hstep := (wallet.applyRecord_effect faults stats hhead).nextId (by omega)
    rw [applyRecords]
    split
    next next error happlied =>
      rw [happlied] at hstep
      omega
    next next stats' happlied =>
      rw [happlied] at hstep
      dsimp only at hstep
      exact Nat.le_trans (by omega) (ih next stats' htail (by omega))

/-- A place in a list is its head or one in its tail. -/
theorem exists_split_cons_iff {α : Type} {P : List α → α → Prop} {head : α} {tail : List α} :
    (∃ before value after, head :: tail = before ++ value :: after ∧ P before value) ↔
      P [] head ∨ ∃ before value after, tail = before ++ value :: after ∧
        P (head :: before) value := by
  constructor
  · rintro ⟨_ | ⟨first, before⟩, value, after, hsplit, hvalue⟩
    · cases hsplit
      exact .inl hvalue
    · cases hsplit
      exact .inr ⟨before, value, after, rfl, hvalue⟩
  · rintro (hhead | ⟨before, value, after, rfl, hvalue⟩)
    · exact ⟨[], head, tail, rfl, hhead⟩
    · exact ⟨head :: before, value, after, rfl, hvalue⟩

/-- A rejected run of records: the wallet is as before if and only if the records in front of the
first rejected one leave no trace. -/
theorem Repointed.applyRecords (hwallet : Repointed wallet response done wallet')
    (hanchor : ∀ record ∈ records, record.anchor = response.masterAnchor)
    (hroom : wallet'.store.nextId.toNat + records.length ≤ u64Max)
    {next : DelegationWallet} {error : Error}
    (hfailed : applyRecords faults response wallet' stats records =
      (next, .error (.rejected error))) :
    (next.store = wallet.store ∧ ∀ accountId, next.accounts.lookup accountId =
        wallet.accounts.lookup accountId) ↔
      ∃ before record after, records = before ++ record :: after ∧
        wallet.Traceless response (done ++ before) ∧ wallet.Rejects response record := by
  induction records generalizing wallet' stats done with
  | nil => cases hfailed
  | cons record records ih =>
    obtain ⟨hhead, htail⟩ := forall_mem_cons.mp hanchor
    rw [length_cons] at hroom
    rw [DelegationWallet.applyRecords] at hfailed
    rw [exists_split_cons_iff, append_nil]
    by_cases hrejects : wallet.Rejects response record
    · obtain ⟨error', happlied⟩ :=
        applyRecord_of_rejects faults stats (hwallet.rejects_iff.mpr hrejects)
      simp only [happlied] at hfailed
      cases hfailed
      rw [hwallet.unchanged_iff]
      constructor
      · exact fun htraceless => .inl ⟨htraceless, hrejects⟩
      · rintro (⟨htraceless, -⟩ | ⟨before, record', after, -, htraceless, -⟩)
        · exact htraceless
        · exact absurd hrejects (htraceless.quiet record (by simp)).1
    have heffect := wallet'.applyRecord_effect faults stats hhead
    split at hfailed
    next next' error' happlied =>
      cases hfailed
      rw [happlied] at heffect
      exact absurd (hwallet.rejects_iff.mp heffect.rejects) hrejects
    next next' stats' happlied =>
      rw [happlied] at heffect
      have hstep := heffect.nextId (by omega)
      dsimp only at hstep
      have hrest := nextId_le_applyRecords faults next' stats' htail (by omega)
      rw [hfailed] at hrest
      by_cases hadds : wallet.Adds response record
      · refine iff_of_false ?_ ?_
        · rintro ⟨hstore, -⟩
          rw [hstore, ← hwallet.store_eq] at hrest
          rcases hstep with ⟨-, hquiet⟩ | hissued
          · exact hquiet rfl (hwallet.adds_iff.mpr hadds)
          · omega
        · rintro (⟨-, hrejected⟩ | ⟨before, record', after, -, htraceless, -⟩)
          · exact hrejects hrejected
          · exact (htraceless.quiet record (by simp)).2 hadds
      · rw [ih (hwallet.applyRecord hhead ⟨hrejects, hadds⟩ happlied) htail (by omega) hfailed]
        simp only [hrejects, and_false, false_or, append_assoc, singleton_append]

variable {Digest SecretKey : Type} {keyedHash : (key message : List UInt8) → Digest}
  {scheme : MlDsa Digest SecretKey} {context : MasterContext}

/-- A response that is rejected leaves the wallet as it was if and only if its validation fails or
the records in front of the first rejected one leave no trace. -/
theorem applyResponse_all_or_nothing (wallet : DelegationWallet) (faults : StorageFaults)
    (request : MasterDelegationRequestBodyV1) (response : MasterDelegationResponseBodyV1)
    (forceNetworkMismatch : Bool)
    (hroom : wallet.store.nextId.toNat + response.delegations.length ≤ u64Max)
    (wallet' : DelegationWallet) (error : Error)
    (hfailed : applyMasterDelegationResponseInner keyedHash scheme context wallet faults request
      response forceNetworkMismatch = (wallet', .error (.rejected error))) :
    (wallet'.store = wallet.store ∧ ∀ accountId, wallet'.accounts.lookup accountId =
        wallet.accounts.lookup accountId) ↔
      ∀ validated, validateResponse keyedHash scheme context request response
          forceNetworkMismatch = .ok validated →
        ∃ before record after, validated.records = before ++ record :: after ∧
          wallet.Traceless response before ∧ wallet.Rejects response record := by
  rw [applyMasterDelegationResponseInner] at hfailed
  cases hvalidated : validateResponse keyedHash scheme context request response
      forceNetworkMismatch with
  | error error' =>
    rw [hvalidated] at hfailed
    cases hfailed
    exact iff_of_true ⟨rfl, fun _ => rfl⟩ nofun
  | ok validated =>
    have haccepted := accepted_of_validateResponse hvalidated
    have hroom := Nat.le_trans (Nat.add_le_add_left haccepted.length_le _) hroom
    have hstart : Repointed wallet response [] wallet :=
      ⟨nofun, rfl, fun accountId => by simp [lastPointer, funext repoint_none]⟩
    simp only [hvalidated, Except.ok.injEq, forall_eq'] at hfailed ⊢
    split at hfailed
    next next error' happlied =>
      cases hfailed
      exact hstart.applyRecords haccepted.anchor_eq hroom happlied
    next next stats happlied =>
      split at hfailed
      · cases hfailed
      · split at hfailed <;> cases hfailed

end Response

/-! ## Samples -/

/-- A context whose request identifiers are the first bytes of the request. -/
def sampleContext : MasterContext where
  requestHash _ message := BitVec.ofNat 256 (LittleEndian.decode message)
  networkId := .ok ⟨.testnet, some 10⟩
  findActiveMasterByAnchor anchor :=
    if anchor = 7 then some ⟨.level2, openKeypair.publicKey.bytes⟩ else none
  accountStore := .ok ()

def noFaults : StorageFaults where
  lookupFails _ := false
  storeSingleFails _ := false
  saveFails := false
  commitFails := false

def sampleDelegation (accountId : AccountId) (nonce : UInt64) (status : DelegationStatus) :
    DelegationRecordV1 :=
  { sampleRecord with accountId := accountId, nonce := nonce, status := status }

def signedSample (record : DelegationRecordV1) : DelegationRecordV1 :=
  (signWithMaster (fun _ => id) openScheme openKeypair record).toOption.getD record

def sampleRequest (records : List DelegationRecordV1) : MasterDelegationRequestBodyV1 :=
  let body : MasterDelegationRequestBodyV1 :=
    ⟨1, 7, 2, ⟨.testnet, some 10⟩, records.map DelegationRecordV1.toHeader, 0, 0⟩
  { body with requestId := (calcRequestId sampleContext.requestHash body).toOption.getD 0 }

def sampleResponse (records : List DelegationRecordV1) : MasterDelegationResponseBodyV1 :=
  ⟨1, 7, 2, (sampleRequest records).requestId, records.map signedSample⟩

/-- Apply the signed response to a request for the given records. -/
def applySample (wallet : DelegationWallet) (records : List DelegationRecordV1) : Applied :=
  applyMasterDelegationResponseInner (fun _ => id) openScheme sampleContext wallet noFaults
    (sampleRequest records) (sampleResponse records) false

/-- Two stealth accounts attached to the master key. -/
def sampleWallet : DelegationWallet where
  store := .new
  accounts := .ofList [(1, .stealth ⟨some 7, none, 3, 2⟩), (2, .stealth ⟨some 7, none, 3, 2⟩)]

/-- A wallet that holds the first delegation of the second account. -/
def delegatedWallet : DelegationWallet :=
  (applySample sampleWallet [sampleDelegation 2 1 .active]).1

/-- A wallet that holds the first delegations of both accounts. -/
def pairWallet : DelegationWallet :=
  (applySample sampleWallet [sampleDelegation 1 1 .active, sampleDelegation 2 1 .active]).1

/-- A response whose first record is stored already and whose second record has another status than
the stored record of its nonce. -/
def conflictingRecords : List DelegationRecordV1 :=
  [sampleDelegation 1 1 .active, sampleDelegation 2 1 (.revoked 150)]

theorem traceless_first :
    pairWallet.Traceless (sampleResponse conflictingRecords)
      [signedSample (sampleDelegation 1 1 .active)] where
  quiet record hrecord := by
    rw [mem_singleton.mp hrecord]
    exact ⟨by decide +kernel, fun hadds => absurd hadds.1 (by decide +kernel)⟩
  pointers accountId account haccount := by
    by_cases hsame : accountId = 1
    · have hstored : pairWallet.accounts.lookup 1 = some (.stealth ⟨some 7, some 0, 3, 2⟩) := by
        decide +kernel
      have hpointer : pairWallet.lastPointer (sampleResponse conflictingRecords)
          [signedSample (sampleDelegation 1 1 .active)] 1 = some (7, 0) := by
        decide +kernel
      rw [hsame, hstored] at haccount
      cases haccount
      rw [hsame, hpointer]
      rfl
    · have hfirst : (signedSample (sampleDelegation 1 1 .active)).accountId = 1 := by decide +kernel
      rw [lastPointer, foldl_cons, foldl_nil, hfirst, if_neg (Ne.symm hsame), repoint_none]

theorem applyResponse_all_or_nothing_conflict :
    ∃ wallet, applyMasterDelegationResponseInner (fun _ => id) openScheme sampleContext pairWallet
        noFaults (sampleRequest conflictingRecords) (sampleResponse conflictingRecords) false =
          (wallet, .error (.rejected (.masterDelegationNonceConflict 2 1))) ∧
      wallet.store = pairWallet.store ∧ ∀ accountId, wallet.accounts.lookup accountId =
        pairWallet.accounts.lookup accountId := by
  have hvalidated : validateResponse (fun _ => id) openScheme sampleContext
      (sampleRequest conflictingRecords) (sampleResponse conflictingRecords) false =
        .ok ⟨conflictingRecords.map signedSample, 0⟩ := by
    decide +kernel
  have hrejected : (applySample pairWallet conflictingRecords).2 =
      .error (.rejected (.masterDelegationNonceConflict 2 1)) := by
    decide +kernel
  obtain ⟨wallet, hwallet⟩ : ∃ wallet, applySample pairWallet conflictingRecords =
      (wallet, .error (.rejected (.masterDelegationNonceConflict 2 1))) := by
    generalize applySample pairWallet conflictingRecords = applied at hrejected
    exact ⟨applied.1, hrejected ▸ rfl⟩
  rw [applySample] at hwallet
  refine ⟨wallet, hwallet, (applyResponse_all_or_nothing pairWallet noFaults _ _ false
    (by decide +kernel) wallet _ hwallet).mpr ?_⟩
  intro validated hvalidated'
  cases hvalidated.symm.trans hvalidated'
  exact ⟨[_], _, [], rfl, traceless_first, by decide +kernel⟩

/-- A response whose first record is new and whose second record has another status than the stored
record of its nonce: the response is rejected, but the first record is stored and its account
points to it. -/
theorem applyResponse_partial :
    let applied := applySample delegatedWallet
      [sampleDelegation 1 1 .active, sampleDelegation 2 1 (.revoked 150)]
    applied.2 = .error (.rejected (.masterDelegationNonceConflict 2 1)) ∧
      applied.1.accounts.lookup 1 = some (.stealth ⟨some 7, some 1, 3, 2⟩) := by
  decide +kernel

end DelegationWallet

end Qaspa.Wallet
