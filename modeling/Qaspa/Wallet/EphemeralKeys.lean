import Mathlib.Data.List.Infix
import Qaspa.Core.Tx
import Qaspa.Wallet.DelegationStore

/-! # Stored spending keys and older files

The keys of received stealth outputs, as they are stored. Files of older versions end their
entries earlier, and a field that is missing at the end of the input is replaced by a default. In
a list the input does not end behind an entry, so that a list of older entries is only read as it
was written if it has at most one entry.
-/

namespace Qaspa.Wallet

open Borsh List DelegationRecordV1

/-! ## Entries -/

inductive OrphanReason where
  | delegationExpired
  | delegationRevoked
  | anchorMismatch
  | noDelegation
  deriving DecidableEq, Repr

inductive EphemeralKeyStatus where
  | pending (addedDaaScore : UInt64)
  | confirmed (confirmedDaaScore : UInt64)
  | orphaned (reason : OrphanReason)
  | expired
  deriving DecidableEq, Repr

structure EphemeralKeyData where
  spendingSecret : List UInt8
  blindingFactor : List UInt8
  destinationPubkey : List UInt8
  deriving DecidableEq, Repr

structure EphemeralKeyEntry where
  outpoint : TransactionOutpoint
  data : EphemeralKeyData
  status : EphemeralKeyStatus
  masterAnchor : Option Bytes32
  delegationId : Option UInt64
  createdDaaScore : UInt64
  validUntilDaa : Option UInt64
  deriving DecidableEq, Repr

namespace OrphanReason

def serialize : OrphanReason → Written
  | delegationExpired => u8.write 0
  | delegationRevoked => u8.write 1
  | anchorMismatch => u8.write 2
  | noDelegation => u8.write 3

def deserialize : Reader OrphanReason := do
  let tag ← u8.read
  if tag = 0 then return delegationExpired
  else if tag = 1 then return delegationRevoked
  else if tag = 2 then return anchorMismatch
  else if tag = 3 then return noDelegation
  else throw (unexpectedVariantTag tag)

theorem readsAs : ReadsAs id serialize deserialize := by
  intro reason bytes hwrite rest
  cases reason <;>
  · rw [deserialize, u8.bind hwrite]
    rfl

end OrphanReason

namespace EphemeralKeyStatus

def serialize : EphemeralKeyStatus → Written
  | pending addedDaaScore => concat [u8.write 0, u64.write addedDaaScore]
  | confirmed confirmedDaaScore => concat [u8.write 1, u64.write confirmedDaaScore]
  | orphaned reason => concat [u8.write 2, reason.serialize]
  | expired => u8.write 3

def deserialize : Reader EphemeralKeyStatus := do
  let tag ← u8.read
  if tag = 0 then return pending (← u64.read)
  else if tag = 1 then return confirmed (← u64.read)
  else if tag = 2 then return orphaned (← OrphanReason.deserialize)
  else if tag = 3 then return expired
  else throw (unexpectedVariantTag tag)

theorem readsAs : ReadsAs id serialize deserialize := by
  intro status bytes hwrite rest
  cases status with
  | pending score | confirmed score =>
    refine u8.field ?_ bytes hwrite
    exact u64.field (fieldsRead_nil rfl)
  | orphaned reason =>
    refine u8.field ?_ bytes hwrite
    exact OrphanReason.readsAs.field (fieldsRead_nil rfl)
  | expired =>
    rw [deserialize, u8.bind hwrite]
    rfl

end EphemeralKeyStatus

namespace EphemeralKeyData

def serialize (data : EphemeralKeyData) : Written :=
  concat [
    bytes.write data.spendingSecret,
    bytes.write data.blindingFactor,
    bytes.write data.destinationPubkey]

def deserialize : Reader EphemeralKeyData := do
  let spendingSecret ← bytes.read
  let blindingFactor ← bytes.read
  let destinationPubkey ← bytes.read
  return { spendingSecret, blindingFactor, destinationPubkey }

theorem readsAs : ReadsAs id serialize deserialize := by
  refine readsAs_of_fields (fun _ => rfl) fun data rest => ?_
  exact bytes.field <| bytes.field <| bytes.field <| fieldsRead_nil rfl

end EphemeralKeyData

def serializeOutpoint (outpoint : TransactionOutpoint) : Written :=
  concat [array32.write outpoint.transactionId, u32.write outpoint.index]

def deserializeOutpoint : Reader TransactionOutpoint := do
  let transactionId ← array32.read
  let index ← u32.read
  return { transactionId, index }

theorem readsAs_outpoint : ReadsAs id serializeOutpoint deserializeOutpoint := by
  refine readsAs_of_fields (fun _ => rfl) fun outpoint rest => ?_
  exact array32.field <| u32.field <| fieldsRead_nil rfl

/-! ## Missing fields -/

def isOptionalFieldMissing (error : Borsh.Error) : Bool :=
  error.kind == .unexpectedEof ||
    (error.kind == .invalidData &&
      decide ("Unexpected length of input".toList <:+: error.message.toList))

/-- A field that older files do not have. What was consumed stays consumed. -/
def optionalField {α : Type} (read : Reader α) (default : α) : Reader α := fun input =>
  match read input with
  | .ok value rest => .ok value rest
  | .error error rest =>
    if isOptionalFieldMissing error then .ok default rest else .error error rest

theorem readsAs_optionalField {α : Type} (codec : Codec α) (default : α) :
    ReadsAs id codec.write (optionalField codec.read default) := by
  intro value bytes hwrite rest
  rw [optionalField, codec.readsBack value bytes hwrite rest]

namespace EphemeralKeyEntry

def deserialize : Reader EphemeralKeyEntry := do
  let outpoint ← deserializeOutpoint
  let data ← EphemeralKeyData.deserialize
  let status ← EphemeralKeyStatus.deserialize
  let masterAnchor ← optionalField (option array32).read none
  let delegationId ← optionalField (option u64).read none
  let createdDaaScore ← optionalField u64.read 0
  let validUntilDaa ← optionalField (option u64).read none
  return { outpoint, data, status, masterAnchor, delegationId, createdDaaScore, validUntilDaa }

end EphemeralKeyEntry

/-! ## Older files -/

/-- The last field of an entry in an older file. -/
inductive EntryFormat where
  | status
  | masterAnchor
  | delegationId
  | createdDaaScore
  deriving DecidableEq, Repr

namespace EntryFormat

/-- The fields behind the status that the file has. -/
def laterFields (format : EntryFormat) (entry : EphemeralKeyEntry) : List Written :=
  match format with
  | status => []
  | masterAnchor => [(option array32).write entry.masterAnchor]
  | delegationId =>
    [(option array32).write entry.masterAnchor, (option u64).write entry.delegationId]
  | createdDaaScore =>
    [(option array32).write entry.masterAnchor, (option u64).write entry.delegationId,
      u64.write entry.createdDaaScore]

/-- An entry of an older file. -/
def serialize (format : EntryFormat) (entry : EphemeralKeyEntry) : Written :=
  concat (serializeOutpoint entry.outpoint :: entry.data.serialize :: entry.status.serialize ::
    format.laterFields entry)

/-- The entry with default values for the fields that the file does not have. -/
def defaulted (format : EntryFormat) (entry : EphemeralKeyEntry) : EphemeralKeyEntry :=
  match format with
  | status =>
    { entry with
      masterAnchor := none, delegationId := none, createdDaaScore := 0, validUntilDaa := none }
  | masterAnchor => { entry with delegationId := none, createdDaaScore := 0, validUntilDaa := none }
  | delegationId => { entry with createdDaaScore := 0, validUntilDaa := none }
  | createdDaaScore => { entry with validUntilDaa := none }

/-- At the end of the input, the missing fields take their defaults. -/
theorem deserialize_serialize (format : EntryFormat) {entry : EphemeralKeyEntry}
    {bytes : List UInt8} (hwrite : format.serialize entry = .ok bytes) :
    EphemeralKeyEntry.deserialize bytes = .ok (format.defaulted entry) [] := by
  have hreadAnchor := readsAs_optionalField (option array32) none
  have hreadId := readsAs_optionalField (option u64) none
  have hreadScore := readsAs_optionalField u64 0
  rw [← append_nil bytes]
  refine readsAs_outpoint.field ?_ bytes hwrite
  refine EphemeralKeyData.readsAs.field (EphemeralKeyStatus.readsAs.field ?_)
  cases format with
  | status => exact fieldsRead_nil rfl
  | masterAnchor => exact hreadAnchor.field <| fieldsRead_nil rfl
  | delegationId => exact hreadAnchor.field <| hreadId.field <| fieldsRead_nil rfl
  | createdDaaScore =>
    exact hreadAnchor.field <| hreadId.field <| hreadScore.field <| fieldsRead_nil rfl

/-- A list of at most one entry ends where its entry ends. -/
theorem tryFromSlice_vec (format : EntryFormat) {entries : List EphemeralKeyEntry}
    {bytes : List UInt8} (hlength : entries.length ≤ 1)
    (hwrite : writeVec format.serialize entries = .ok bytes) :
    tryFromSlice (readVec EphemeralKeyEntry.deserialize) bytes =
      .ok (entries.map format.defaulted) := by
  obtain ⟨hfits, length, elements, hcount, helements, rfl⟩ := writeVec_eq_ok.mp hwrite
  rw [tryFromSlice_eq_ok, readVec, u32.bind hcount, UInt32.toNat_ofNat_of_lt' hfits]
  cases entries with
  | nil =>
    cases helements
    rfl
  | cons entry rest =>
    obtain rfl : rest = [] := length_eq_zero_iff.mp
      (Nat.le_zero.mp (Nat.le_of_succ_le_succ hlength))
    obtain ⟨first, tail, hfirst, htail, rfl⟩ := concat_cons_eq_ok.mp helements
    cases htail
    rw [append_nil, length_singleton, readTimes,
      bind_eq_of_ok (format.deserialize_serialize hfirst)]
    rfl

end EntryFormat

namespace StoredDelegation

/-- The entries of a file that was written before request identifiers existed. -/
def serializeLegacy (stored : StoredDelegation) : Written :=
  concat [u64.write stored.id, stored.record.serialize]

/-- The end of the input is not reported as `unexpectedEof`, so that a missing request identifier
is an error. -/
theorem readRequestId_eq : readRequestId = (option array32).read := by
  funext input
  rw [readRequestId]
  cases hread : (option array32).read input with
  | ok value rest => rfl
  | error error rest =>
    have hkind := option_reportsInvalidData word_reportsInvalidData input error rest hread
    simp only [hkind]
    rfl

theorem readsOnly_stored : ReadsOnly serialize deserialize := by
  apply readsOnly_of_fields
  refine u64.readsOnly.field fun _ => readsOnly_record.field fun _ => ?_
  rw [readRequestId_eq]
  exact (option array32).readsOnly.field fun _ => fieldsOnly_pure rfl

/-- The entry as it should be read from an older file. -/
def defaulted (stored : StoredDelegation) : StoredDelegation :=
  { stored.kept with requestId := none }

theorem serialize_stored (record : DelegationRecordV1) :
    record.stored.serialize = record.serialize := by
  have hwarnedAt : DelegationRecordV1.writeWarnedAt record.version
      (if 2 ≤ record.version then record.warnedAtDaa else none) =
      writeWarnedAt record.version record.warnedAtDaa := by
    rw [writeWarnedAt, writeWarnedAt]
    split <;> rfl
  simp only [DelegationRecordV1.serialize, DelegationRecordV1.stored, hwarnedAt]

/-- No list of older entries but the empty one is read. -/
theorem tryFromSlice_vec_legacy {entries : List StoredDelegation} {bytes : List UInt8}
    (hwrite : writeVec serializeLegacy entries = .ok bytes) :
    tryFromSlice (readVec deserialize) bytes = .ok (entries.map defaulted) ↔ entries = [] := by
  constructor
  · intro hread
    obtain ⟨written, hwritten, hbytes⟩ :=
      readsOnly_vec readsOnly_stored _ _ _ (tryFromSlice_eq_ok.mp hread)
    rw [append_nil] at hbytes
    subst hbytes
    obtain ⟨-, length, elements, hlength, helements, rfl⟩ := writeVec_eq_ok.mp hwrite
    obtain ⟨-, length', elements', hlength', helements', hsame⟩ := writeVec_eq_ok.mp hwritten
    rw [length_map, hlength] at hlength'
    cases hlength'
    rw [append_cancel_left hsame] at helements
    rw [map_map] at helements'
    have hlonger := length_concat_map_succ (fun stored legacy bytes hlegacy hnow => ?_)
      helements helements'
    · exact length_eq_zero_iff.mp (by omega)
    · -- an entry takes one byte more now than in an older file
      have hfields := concat_concat hlegacy (rfl : (option array32).write none = .ok [0])
      rw [← serialize_stored] at hfields
      cases hnow.symm.trans hfields
      exact length_append
  · rintro rfl
    cases hwrite
    rfl

end StoredDelegation

/-- Older files of at most one key are read with defaults, and older files of delegations only if
they are empty. -/
theorem legacyFiles_decode (format : EntryFormat) (entries : List EphemeralKeyEntry)
    (delegations : List StoredDelegation) (bytes delegationBytes : List UInt8)
    (hlength : entries.length ≤ 1) (hwrite : writeVec format.serialize entries = .ok bytes)
    (hdelegations : writeVec StoredDelegation.serializeLegacy delegations = .ok delegationBytes) :
    tryFromSlice (readVec EphemeralKeyEntry.deserialize) bytes =
        .ok (entries.map format.defaulted) ∧
      (tryFromSlice (readVec StoredDelegation.deserialize) delegationBytes =
        .ok (delegations.map StoredDelegation.defaulted) ↔ delegations = []) :=
  ⟨format.tryFromSlice_vec hlength hwrite, StoredDelegation.tryFromSlice_vec_legacy hdelegations⟩

def sampleEntry : EphemeralKeyEntry where
  outpoint := ⟨9, 1⟩
  data := ⟨[1], [2], [3]⟩
  status := .pending 777
  masterAnchor := none
  delegationId := none
  createdDaaScore := 0
  validUntilDaa := none

theorem legacyFiles_decode_one :
    ∃ bytes, writeVec EntryFormat.status.serialize [sampleEntry] = .ok bytes ∧
      tryFromSlice (readVec EphemeralKeyEntry.deserialize) bytes = .ok [sampleEntry] :=
  ⟨_, rfl, (legacyFiles_decode .status [sampleEntry] [] _ _ (Nat.le_refl 1) rfl rfl).1⟩

-- More entries are read alike only by chance: here each field of a second entry of zero bytes is
-- one byte further on, and the missing last byte makes its score a missing one.
example :
    let zero : EphemeralKeyEntry := ⟨⟨0, 0⟩, ⟨[], [], []⟩, .pending 0, none, none, 0, none⟩
    (writeVec EntryFormat.createdDaaScore.serialize [sampleEntry, zero]).bind
      (tryFromSlice (readVec EphemeralKeyEntry.deserialize)) = .ok [sampleEntry, zero] := by
  decide +kernel

/-- The second of two entries is taken for the missing fields of the first one, and the request
identifier of a single delegation is missing. -/
theorem legacyFiles_fail :
    (writeVec EntryFormat.status.serialize [sampleEntry, sampleEntry]).bind
        (tryFromSlice (readVec EphemeralKeyEntry.deserialize)) = .error (invalidOption 9) ∧
      (writeVec StoredDelegation.serializeLegacy [⟨0, sampleRecord, none⟩]).bind
        (tryFromSlice (readVec StoredDelegation.deserialize)) = .error unexpectedLengthOfInput := by
  decide +kernel

end Qaspa.Wallet
