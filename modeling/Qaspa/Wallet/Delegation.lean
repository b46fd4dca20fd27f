import Qaspa.Lib.Borsh

/-! # Delegation records

A master key delegates an account by signing a record. The signature covers the record as it is
stored, without the signature and the local warning mark. The stored form depends on the version
of the record, and a record whose version was raised locally is also accepted under the signature
of its first version.
-/

namespace Qaspa.Wallet

open List

/-! ## Signatures -/

inductive MlDsaLevel where
  | level2
  | level3
  | level5
  deriving DecidableEq, Repr

namespace MlDsaLevel

def publicKeyLen : MlDsaLevel → Nat
  | level2 => 1312
  | level3 => 1952
  | level5 => 2592

def signatureLen : MlDsaLevel → Nat
  | level2 => 2420
  | level3 => 3309
  | level5 => 4627

def fromU8 (value : UInt8) : Option MlDsaLevel :=
  if value = 2 then some level2
  else if value = 3 then some level3
  else if value = 5 then some level5
  else none

theorem signatureLen_injective {level level' : MlDsaLevel}
    (hlength : level.signatureLen = level'.signatureLen) : level = level' := by
  cases level <;> cases level' <;> first | rfl | cases hlength

end MlDsaLevel

inductive MlDsaError where
  | invalidPublicKeyLength (expected actual : Nat)
  | invalidSignatureLength (expected actual : Nat)
  | signingFailed (reason : String)
  deriving DecidableEq, Repr

def MlDsaError.toString : MlDsaError → String
  | invalidPublicKeyLength expected actual =>
    s!"Invalid public key length: expected {expected}, got {actual}"
  | invalidSignatureLength expected actual =>
    s!"Invalid signature length: expected {expected}, got {actual}"
  | signingFailed reason => s!"Signing failed: {reason}"

/-- A public key has the length of its level. -/
structure PublicKey where
  level : MlDsaLevel
  bytes : List UInt8
  length_eq : bytes.length = level.publicKeyLen

def PublicKey.fromBytes (bytes : List UInt8) (level : MlDsaLevel) : Except MlDsaError PublicKey :=
  if hlength : bytes.length = level.publicKeyLen then .ok ⟨level, bytes, hlength⟩
  else .error (.invalidPublicKeyLength level.publicKeyLen bytes.length)

/-- A signature has the length of its level. -/
structure Signature where
  level : MlDsaLevel
  bytes : List UInt8
  length_eq : bytes.length = level.signatureLen

def Signature.fromBytes (bytes : List UInt8) (level : MlDsaLevel) : Except MlDsaError Signature :=
  if hlength : bytes.length = level.signatureLen then .ok ⟨level, bytes, hlength⟩
  else .error (.invalidSignatureLength level.signatureLen bytes.length)

/-- The signature library at every level: signing with a secret key, and verification. -/
structure MlDsa (Digest SecretKey : Type) where
  sign : (level : MlDsaLevel) → SecretKey → Digest →
    Except String { signature : List UInt8 // signature.length = level.signatureLen }
  verify : (level : MlDsaLevel) → (publicKey signature : List UInt8) → Digest → Bool

namespace MlDsa

variable {Digest SecretKey : Type} (scheme : MlDsa Digest SecretKey)

/-- Signature and key must be of one level. -/
def verifySignature (message : Digest) (signature : Signature) (publicKey : PublicKey) : Bool :=
  if signature.level = publicKey.level then
    scheme.verify publicKey.level publicKey.bytes signature.bytes message
  else false

/-- A signature verifies at most one message under a key. -/
def OneMessage : Prop :=
  ∀ level publicKey signature message message',
    scheme.verify level publicKey signature message = true →
      scheme.verify level publicKey signature message' = true → message = message'

end MlDsa

/-- A key pair of one level, whose signatures its public key verifies. -/
structure MlDsaKeypair {Digest SecretKey : Type} (scheme : MlDsa Digest SecretKey) where
  publicKey : PublicKey
  secretKey : SecretKey
  verify_sign : ∀ message signature, scheme.sign publicKey.level secretKey message = .ok signature →
    scheme.verify publicKey.level publicKey.bytes signature.1 message = true

/-! ## Records -/

/-- Thirty-two bytes, the first of them the lowest. -/
abbrev Bytes32 := BitVec 256

abbrev AccountId := Bytes32

inductive DelegationStatus where
  | active
  | revoked (revokedDaa : UInt64)
  | expired (expiredDaa : UInt64)
  deriving DecidableEq, Repr

structure DelegationRecordV1 where
  version : UInt8
  level : UInt8
  anchor : Bytes32
  accountId : AccountId
  spendPubkey : Bytes32
  scanPubkey : Bytes32
  validFromDaa : UInt64
  validUntilDaa : Option UInt64
  nonce : UInt64
  status : DelegationStatus
  warnedAtDaa : Option UInt64
  signature : List UInt8
  deriving DecidableEq, Repr

open Borsh

def DelegationStatus.serialize : DelegationStatus → Written
  | active => u8.write 0
  | revoked revokedDaa => concat [u8.write 1, u64.write revokedDaa]
  | expired expiredDaa => concat [u8.write 2, u64.write expiredDaa]

def DelegationStatus.deserialize : Reader DelegationStatus := do
  let tag ← u8.read
  if tag = 0 then return .active
  else if tag = 1 then return .revoked (← u64.read)
  else if tag = 2 then return .expired (← u64.read)
  else throw (unexpectedVariantTag tag)

def delegationStatus : Codec DelegationStatus where
  write := DelegationStatus.serialize
  read := DelegationStatus.deserialize
  readsBack := by
    intro status bytes hwrite rest
    cases status with
    | active =>
      rw [DelegationStatus.deserialize, u8.bind hwrite]
      rfl
    | revoked daa | expired daa =>
      refine u8.field ?_ bytes hwrite
      exact u64.field (fieldsRead_nil rfl)
  readsOnly := by
    apply readsOnly_of_fields
    refine u8.readsOnly.field fun tag => ?_
    split
    next hactive =>
      subst hactive
      exact fieldsOnly_pure rfl
    next =>
    split
    next hrevoked =>
      subst hrevoked
      exact u64.readsOnly.field fun _ => fieldsOnly_pure rfl
    next =>
    split
    next hexpired =>
      subst hexpired
      exact u64.readsOnly.field fun _ => fieldsOnly_pure rfl
    · rintro _ _ _ ⟨⟩

namespace DelegationRecordV1

def signatureLen (record : DelegationRecordV1) : Option Nat :=
  (MlDsaLevel.fromU8 record.level).map MlDsaLevel.signatureLen

/-- The warning mark is part of the stored form from version 2 on. -/
def writeWarnedAt (version : UInt8) (warnedAtDaa : Option UInt64) : Written :=
  if 2 ≤ version then (option u64).write warnedAtDaa else .ok []

def readWarnedAt (version : UInt8) : Reader (Option UInt64) :=
  if 2 ≤ version then (option u64).read else pure none

def serialize (record : DelegationRecordV1) : Written :=
  concat [
    u8.write record.version,
    u8.write record.level,
    array32.write record.anchor,
    array32.write record.accountId,
    array32.write record.spendPubkey,
    array32.write record.scanPubkey,
    u64.write record.validFromDaa,
    (option u64).write record.validUntilDaa,
    u64.write record.nonce,
    delegationStatus.write record.status,
    writeWarnedAt record.version record.warnedAtDaa,
    bytes.write record.signature]

def deserialize : Reader DelegationRecordV1 := do
  let version ← u8.read
  let level ← u8.read
  let anchor ← array32.read
  let accountId ← array32.read
  let spendPubkey ← array32.read
  let scanPubkey ← array32.read
  let validFromDaa ← u64.read
  let validUntilDaa ← (option u64).read
  let nonce ← u64.read
  let status ← delegationStatus.read
  let warnedAtDaa ← readWarnedAt version
  let signature ← bytes.read
  return {
    version, level, anchor, accountId, spendPubkey, scanPubkey, validFromDaa, validUntilDaa,
    nonce, status, warnedAtDaa, signature }

/-- The record without its warning mark. -/
def unmarked (record : DelegationRecordV1) : DelegationRecordV1 :=
  { record with warnedAtDaa := none }

/-- What the stored form keeps of a record. -/
def stored (record : DelegationRecordV1) : DelegationRecordV1 :=
  { record with warnedAtDaa := if 2 ≤ record.version then record.warnedAtDaa else none }

theorem readsAs_warnedAt (version : UInt8) :
    ReadsAs (fun warnedAtDaa => if 2 ≤ version then warnedAtDaa else none) (writeWarnedAt version)
      (readWarnedAt version) := by
  intro warnedAtDaa bytes hwrite rest
  rw [writeWarnedAt] at hwrite
  rw [readWarnedAt]
  by_cases hversion : 2 ≤ version
  · simp only [if_pos hversion] at hwrite ⊢
    exact (option u64).readsBack warnedAtDaa bytes hwrite rest
  · simp only [if_neg hversion] at hwrite ⊢
    cases hwrite
    rfl

theorem readsAs_stored : ReadsAs stored serialize deserialize := by
  refine readsAs_of_fields (fun _ => rfl) fun record rest => ?_
  exact u8.field <| u8.field <| array32.field <| array32.field <| array32.field <| array32.field <|
    u64.field <| (option u64).field <| u64.field <| delegationStatus.field <|
    (readsAs_warnedAt record.version).field <| bytes.field <| fieldsRead_nil rfl

theorem readsOnly_warnedAt (version : UInt8) :
    ReadsOnly (writeWarnedAt version) (readWarnedAt version) := by
  intro input warnedAtDaa rest hread
  rw [readWarnedAt] at hread
  rw [writeWarnedAt]
  by_cases hversion : 2 ≤ version
  · simp only [if_pos hversion] at hread ⊢
    exact (option u64).readsOnly input warnedAtDaa rest hread
  · simp only [if_neg hversion] at hread ⊢
    cases hread
    exact ⟨[], rfl, rfl⟩

theorem readsOnly_record : ReadsOnly serialize deserialize := by
  apply readsOnly_of_fields
  refine u8.readsOnly.field fun version => u8.readsOnly.field fun _ => ?_
  refine array32.readsOnly.field fun _ => array32.readsOnly.field fun _ => ?_
  refine array32.readsOnly.field fun _ => array32.readsOnly.field fun _ => ?_
  refine u64.readsOnly.field fun _ => (option u64).readsOnly.field fun _ => ?_
  refine u64.readsOnly.field fun _ => delegationStatus.readsOnly.field fun _ => ?_
  refine (readsOnly_warnedAt version).field fun _ => bytes.readsOnly.field fun _ => ?_
  exact fieldsOnly_pure rfl

/-- Only the length of the signature may keep a record from being written. -/
theorem exists_serialize {record : DelegationRecordV1} (hfits : record.signature.length < 2 ^ 32) :
    ∃ bytes, record.serialize = .ok bytes := by
  apply exists_concat
  simp only [forall_mem_cons, not_mem_nil, false_imp_iff, implies_true, and_true]
  refine ⟨⟨_, rfl⟩, ⟨_, rfl⟩, ⟨_, rfl⟩, ⟨_, rfl⟩, ⟨_, rfl⟩, ⟨_, rfl⟩, ⟨_, rfl⟩,
    exists_writeOption (fun _ => ⟨_, rfl⟩) _, ⟨_, rfl⟩, ?_, ?_, ⟨_, if_pos hfits⟩⟩
  · cases record.status with
    | active | revoked revokedDaa | expired expiredDaa => exact ⟨_, rfl⟩
  · rw [writeWarnedAt]
    split
    · exact exists_writeOption (fun _ => ⟨_, rfl⟩) _
    · exact ⟨_, rfl⟩

end DelegationRecordV1

/-! ## Signing and verification -/

inductive NetworkType where
  | mainnet
  | testnet
  | devnet
  | simnet
  deriving DecidableEq, Repr

structure NetworkId where
  networkType : NetworkType
  suffix : Option UInt32
  deriving DecidableEq, Repr

inductive Error where
  | custom (message : String)
  | io (error : Borsh.Error)
  | masterDelegationStaleNonce (accountId : AccountId) (current received : UInt64)
  | masterDelegationNonceConflict (accountId : AccountId) (nonce : UInt64)
  | masterDelegationInvalidChecksum (expected actual : Bytes32)
  | masterDelegationUnsupportedVersion (context : String) (expected found : UInt8)
  | masterDelegationNetworkMismatch (expected actual : NetworkId)
  | invalidAccountKind
  deriving DecidableEq, Repr

/-- The bytes of `kaspa.mldsa.delegation.v1`. -/
def domainMldsaDelegation : List UInt8 := [
  0x6b, 0x61, 0x73, 0x70, 0x61, 0x2e, 0x6d, 0x6c, 0x64, 0x73, 0x61, 0x2e, 0x64, 0x65, 0x6c, 0x65,
  0x67, 0x61, 0x74, 0x69, 0x6f, 0x6e, 0x2e, 0x76, 0x31]

section Signing

variable {Digest SecretKey : Type} (keyedHash : (key message : List UInt8) → Digest)
  (scheme : MlDsa Digest SecretKey)

def hashEncoded (record : DelegationRecordV1) : Except Error Digest := do
  let serialized ← record.serialize.mapError fun error =>
    .custom s!"delegation borsh encode: {error.message}"
  return keyedHash domainMldsaDelegation serialized

/-- The warning mark is local and does not enter the hash. -/
def delegationMessageHash (record : DelegationRecordV1) : Except Error Digest :=
  hashEncoded keyedHash { record with signature := [], warnedAtDaa := none }

def signWithMaster (masterKey : MlDsaKeypair scheme) (record : DelegationRecordV1) :
    Except Error DelegationRecordV1 := do
  let hash ← delegationMessageHash keyedHash record
  let signature ← (scheme.sign masterKey.publicKey.level masterKey.secretKey hash).mapError
    fun reason =>
      let error := (MlDsaError.signingFailed reason).toString
      .custom s!"failed to sign delegation record: {error}"
  match record.signatureLen with
  | none => throw (.custom "invalid delegation level")
  | some expectedLen =>
    if signature.1.length ≠ expectedLen then
      throw (.custom s!"invalid delegation signature length {signature.1.length}")
    else return { record with signature := signature.1 }

/-- The signature may have been made for version 1 of a record whose version was raised locally. -/
def verifyAgainstAnchor (anchor : Bytes32) (masterPubkey : List UInt8)
    (record : DelegationRecordV1) : Except Error Bool :=
  if record.anchor ≠ anchor then .ok false
  else
    match MlDsaLevel.fromU8 record.level with
    | none => .error (.custom s!"unsupported MLDSA level {record.level}")
    | some level => do
      let pubkey ← (PublicKey.fromBytes masterPubkey level).mapError fun error =>
        let reason := error.toString
        .custom s!"invalid master pubkey: {reason}"
      if record.signature.length ≠ level.signatureLen then return false
      else
        let signature ← (Signature.fromBytes record.signature level).mapError fun error =>
          let reason := error.toString
          .custom s!"invalid delegation signature: {reason}"
        let hash ← delegationMessageHash keyedHash record
        if scheme.verifySignature hash signature pubkey then return true
        else if record.version ≠ 1 then
          let legacy := { record with version := 1, warnedAtDaa := none, signature := [] }
          let legacyHash ← hashEncoded keyedHash legacy
          return scheme.verifySignature legacyHash signature pubkey
        else return false

/-- What a signature for the given version of a record covers. -/
def signedTerms (version : UInt8) (record : DelegationRecordV1) : DelegationRecordV1 :=
  { record with version := version, warnedAtDaa := none, signature := [] }

theorem stored_signedTerms (version : UInt8) (record : DelegationRecordV1) :
    (signedTerms version record).stored = signedTerms version record := by
  exact congrArg (fun warnedAtDaa => { signedTerms version record with warnedAtDaa })
    (ite_self (none : Option UInt64))

variable {keyedHash} {scheme} {record : DelegationRecordV1}

theorem hashEncoded_eq_ok {hash : Digest} :
    hashEncoded keyedHash record = .ok hash ↔
      ∃ serialized, record.serialize = .ok serialized ∧
        keyedHash domainMldsaDelegation serialized = hash := by
  rw [hashEncoded, Outcome.bind_eq_ok]
  simp only [Outcome.mapError_eq_ok, Outcome.pure_eq_ok, Except.ok.injEq]

theorem exists_hashEncoded (version : UInt8) (record : DelegationRecordV1) :
    ∃ hash, hashEncoded keyedHash (signedTerms version record) = .ok hash := by
  have hfits : (signedTerms version record).signature.length < 2 ^ 32 := Nat.two_pow_pos 32
  obtain ⟨serialized, hserialized⟩ := DelegationRecordV1.exists_serialize hfits
  exact ⟨_, hashEncoded_eq_ok.mpr ⟨serialized, hserialized, rfl⟩⟩

/-- An accepted record carries a signature for its own version or for version 1. -/
theorem verifyAgainstAnchor_eq_true {anchor : Bytes32} {masterPubkey : List UInt8} :
    verifyAgainstAnchor keyedHash scheme anchor masterPubkey record = .ok true ↔
      record.anchor = anchor ∧ ∃ level, MlDsaLevel.fromU8 record.level = some level ∧
        masterPubkey.length = level.publicKeyLen ∧ record.signature.length = level.signatureLen ∧
          ∃ version hash, (version = record.version ∨ version = 1) ∧
            hashEncoded keyedHash (signedTerms version record) = .ok hash ∧
            scheme.verify level masterPubkey record.signature hash = true := by
  rw [verifyAgainstAnchor]
  by_cases hanchor : record.anchor = anchor
  swap
  · simp [hanchor]
  subst hanchor
  cases hlevel : MlDsaLevel.fromU8 record.level with
  | none => simp
  | some level =>
  by_cases hpubkey : masterPubkey.length = level.publicKeyLen
  swap
  · simp [PublicKey.fromBytes, hpubkey, Except.mapError]
  by_cases hlength : record.signature.length = level.signatureLen
  swap
  · simp [PublicKey.fromBytes, hpubkey, hlength, Except.mapError]
  obtain ⟨hash, hhash⟩ := @exists_hashEncoded _ keyedHash record.version record
  obtain ⟨legacyHash, hlegacy⟩ := @exists_hashEncoded _ keyedHash 1 record
  rw [signedTerms] at hhash hlegacy
  simp only [PublicKey.fromBytes, Signature.fromBytes, hpubkey, hlength, Except.mapError, dif_pos,
    Outcome.ok_bind, delegationMessageHash, signedTerms, hhash, hlegacy, MlDsa.verifySignature,
    ne_eq, not_true_eq_false, if_true, if_false, true_and, Option.some.injEq, Except.ok.injEq,
    or_and_right, exists_or, exists_and_left, exists_eq_left, exists_eq_left']
  by_cases hown : scheme.verify level masterPubkey record.signature hash = true
  · simp [hown]
  by_cases hversion : record.version = 1
  · rw [← hversion] at hlegacy
    cases hhash.symm.trans hlegacy
    simp [hown, hversion]
  · simp [hown, hversion]

/-- A signed record has the level of the key. -/
theorem signWithMaster_eq_ok {masterKey : MlDsaKeypair scheme} {signed : DelegationRecordV1} :
    signWithMaster keyedHash scheme masterKey record = .ok signed ↔
      ∃ hash, hashEncoded keyedHash (signedTerms record.version record) = .ok hash ∧
        ∃ signature, scheme.sign masterKey.publicKey.level masterKey.secretKey hash =
            .ok signature ∧
          MlDsaLevel.fromU8 record.level = some masterKey.publicKey.level ∧
          { record with signature := signature.1 } = signed := by
  simp only [signWithMaster, delegationMessageHash, signedTerms, Outcome.bind_eq_ok,
    Outcome.mapError_eq_ok]
  refine exists_congr fun hash => and_congr_right fun _ => exists_congr fun signature =>
    and_congr_right fun _ => ?_
  rw [DelegationRecordV1.signatureLen]
  cases MlDsaLevel.fromU8 record.level with
  | none => simp [throw, throwThe, MonadExceptOf.throw]
  | some level =>
    have hlevel : signature.1.length = level.signatureLen ↔ level = masterKey.publicKey.level := by
      rw [signature.2]
      exact ⟨fun hlength => MlDsaLevel.signatureLen_injective hlength.symm, fun heq => heq ▸ rfl⟩
    simp only [Option.map_some, Option.some.injEq, ← hlevel]
    exact Outcome.ite_error_eq_ok.trans (and_congr not_not (by simp))

/-- A signature is accepted for one delegation only, and the local fields of a signed record may
change. -/
theorem delegationSignature_authorises_one (hhash : ∀ key, Function.Injective (keyedHash key))
    (hone : scheme.OneMessage) :
    (∀ anchor masterPubkey (r s : DelegationRecordV1), r.signature = s.signature →
      verifyAgainstAnchor keyedHash scheme anchor masterPubkey r = .ok true →
      verifyAgainstAnchor keyedHash scheme anchor masterPubkey s = .ok true →
      r.level = s.level ∧ r.anchor = s.anchor ∧ r.accountId = s.accountId ∧
        r.spendPubkey = s.spendPubkey ∧ r.scanPubkey = s.scanPubkey ∧
        r.validFromDaa = s.validFromDaa ∧ r.validUntilDaa = s.validUntilDaa ∧
        r.nonce = s.nonce ∧ r.status = s.status) ∧
    ∀ (masterKey : MlDsaKeypair scheme) (record signed : DelegationRecordV1),
      signWithMaster keyedHash scheme masterKey record = .ok signed →
      ∀ warnedAtDaa,
        verifyAgainstAnchor keyedHash scheme record.anchor masterKey.publicKey.bytes
            { signed with warnedAtDaa := warnedAtDaa } = .ok true ∧
          (record.version = 1 → ∀ version,
            verifyAgainstAnchor keyedHash scheme record.anchor masterKey.publicKey.bytes
              { signed with version := version, warnedAtDaa := warnedAtDaa } = .ok true) := by
  constructor
  · intro anchor masterPubkey r s hsignature hr hs
    obtain ⟨-, level, -, -, hlength, version, hash, -, hhashed, hverified⟩ :=
      verifyAgainstAnchor_eq_true.mp hr
    obtain ⟨-, level', -, -, hlength', version', hash', -, hhashed', hverified'⟩ :=
      verifyAgainstAnchor_eq_true.mp hs
    -- The length of the signature gives the level, under which it verifies one message only.
    obtain rfl : level = level' :=
      MlDsaLevel.signatureLen_injective (by rw [← hlength, ← hlength', hsignature])
    rw [← hsignature] at hverified'
    obtain rfl := hone _ _ _ _ _ hverified hverified'
    obtain ⟨serialized, hwrite, hkeyed⟩ := hashEncoded_eq_ok.mp hhashed
    obtain ⟨serialized', hwrite', hkeyed'⟩ := hashEncoded_eq_ok.mp hhashed'
    obtain rfl := hhash _ (hkeyed.trans hkeyed'.symm)
    have hterms := DelegationRecordV1.readsAs_stored _ _ hwrite []
    rw [DelegationRecordV1.readsAs_stored _ _ hwrite' []] at hterms
    replace hterms := (EStateM.Result.ok.inj hterms).1.symm
    rw [stored_signedTerms, stored_signedTerms] at hterms
    simp only [signedTerms, DelegationRecordV1.mk.injEq] at hterms
    obtain ⟨-, hlevel, hanchor, haccount, hspend, hscan, hfrom, huntil, hnonce, hstatus, -, -⟩ :=
      hterms
    exact ⟨hlevel, hanchor, haccount, hspend, hscan, hfrom, huntil, hnonce, hstatus⟩
  · intro masterKey record signed hsigned warnedAtDaa
    obtain ⟨hash, hhashed, signature, hsignature, hlevel, rfl⟩ := signWithMaster_eq_ok.mp hsigned
    have hverified := masterKey.verify_sign hash signature hsignature
    constructor
    · exact verifyAgainstAnchor_eq_true.mpr ⟨rfl, _, hlevel, masterKey.publicKey.length_eq,
        signature.2, record.version, hash, .inl rfl, hhashed, hverified⟩
    · intro hversion version
      rw [hversion] at hhashed
      exact verifyAgainstAnchor_eq_true.mpr ⟨rfl, _, hlevel, masterKey.publicKey.length_eq,
        signature.2, 1, hash, .inr rfl, hhashed, hverified⟩

end Signing

theorem length_openSignature (level : MlDsaLevel) {message : List UInt8}
    (hlength : message.length < 256) : (UInt8.ofNat message.length :: (message ++ replicate
      (level.signatureLen - 1 - message.length) 0)).length = level.signatureLen := by
  have hlevel : 256 < level.signatureLen := by cases level <;> decide
  simp only [length_cons, length_append, length_replicate]
  omega

/-- A scheme whose signatures hold the message behind its length. -/
def openScheme : MlDsa (List UInt8) Unit where
  sign level _ message :=
    if hlength : message.length < 256 then
      .ok ⟨UInt8.ofNat message.length ::
          (message ++ List.replicate (level.signatureLen - 1 - message.length) 0),
        length_openSignature level hlength⟩
    else .error "message too long"
  verify _ _ signature message :=
    match signature with
    | [] => false
    | length :: rest => rest.take length.toNat == message

def openKeypair : MlDsaKeypair openScheme where
  publicKey := ⟨.level2, List.replicate 1312 0, List.length_replicate⟩
  secretKey := ()
  verify_sign := by
    intro message signature hsign
    rw [openScheme] at hsign
    dsimp only at hsign
    split at hsign
    next hlength =>
      cases hsign
      have hcount : (UInt8.ofNat message.length).toNat = message.length :=
        UInt8.toNat_ofNat_of_lt' hlength
      simp [openScheme, hcount]
    · cases hsign

theorem openScheme_oneMessage : openScheme.OneMessage := by
  intro level publicKey signature message message' hverified hverified'
  cases signature with
  | nil => cases hverified
  | cons length rest => exact (beq_iff_eq.mp hverified).symm.trans (beq_iff_eq.mp hverified')

def sampleRecord : DelegationRecordV1 where
  version := 1
  level := 2
  anchor := 7
  accountId := 1
  spendPubkey := 2
  scanPubkey := 3
  validFromDaa := 100
  validUntilDaa := some 200
  nonce := 1
  status := .active
  warnedAtDaa := none
  signature := []

theorem length_sampleHash {hash : List UInt8}
    (hhash : hashEncoded (fun _ => id) (signedTerms 1 sampleRecord) = .ok hash) :
    hash.length < 256 := by
  have hshort : (hashEncoded (fun _ => (id : List UInt8 → List UInt8))
      (signedTerms 1 sampleRecord)).toOption.all (·.length < 256) = true := by decide +kernel
  rw [hhash] at hshort
  exact of_decide_eq_true hshort

/-- A signed record of version 1, warned about and raised to version 2. -/
theorem delegationSignature_authorises_one_raised :
    ∃ signed, signWithMaster (fun _ => id) openScheme openKeypair sampleRecord = .ok signed ∧
      verifyAgainstAnchor (fun _ => id) openScheme sampleRecord.anchor openKeypair.publicKey.bytes
        { signed with version := 2, warnedAtDaa := some 150 } = .ok true ∧
      ∀ record, record.signature = signed.signature →
        verifyAgainstAnchor (fun _ => id) openScheme sampleRecord.anchor
          openKeypair.publicKey.bytes record = .ok true → record.nonce = 1 := by
  obtain ⟨hone, haccepted⟩ := delegationSignature_authorises_one
    (fun _ => Function.injective_id) openScheme_oneMessage
  obtain ⟨signed, hsigned⟩ :
      ∃ signed, signWithMaster (fun _ => id) openScheme openKeypair sampleRecord = .ok signed := by
    obtain ⟨hash, hhash⟩ := exists_hashEncoded 1 sampleRecord
    exact ⟨_, signWithMaster_eq_ok.mpr
      ⟨_, hhash, _, dif_pos (length_sampleHash hhash), rfl, rfl⟩⟩
  have hraised := haccepted openKeypair sampleRecord signed hsigned
  refine ⟨signed, hsigned, (hraised (some 150)).2 rfl 2, ?_⟩
  intro record hsignature hrecord
  obtain ⟨-, -, -, -, -, -, -, hnonce, -⟩ := hone _ _ record { signed with warnedAtDaa := none }
    hsignature hrecord (hraised none).1
  obtain ⟨_, _, _, _, _, rfl⟩ := signWithMaster_eq_ok.mp hsigned
  exact hnonce

end Qaspa.Wallet
