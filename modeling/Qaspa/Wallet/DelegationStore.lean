import Qaspa.Lib.Indexed
import Qaspa.Lib.Trace
import Qaspa.Wallet.Delegation

/-! # The delegation store

Delegation records by identifier, with an index by anchor and account and an index by request.
Identifiers are given out in order. The file holds the records in an arbitrary order, and loading
it rebuilds the indexes and takes up the identifiers behind the greatest one in the file.
-/

namespace Qaspa.Wallet

open Borsh HashMap List Nat UInt64 DelegationRecordV1 Indexes

abbrev DelegationId := UInt64

structure DelegationEntry where
  record : DelegationRecordV1
  requestId : Option Bytes32
  deriving DecidableEq, Repr

/-- What the file keeps of an entry. -/
def DelegationEntry.kept (entry : DelegationEntry) : DelegationEntry :=
  { entry with record := entry.record.stored }

/-! ## The file -/

structure StoredDelegation where
  id : DelegationId
  record : DelegationRecordV1
  requestId : Option Bytes32
  deriving DecidableEq, Repr

namespace StoredDelegation

def serialize (stored : StoredDelegation) : Written :=
  concat [
    u64.write stored.id,
    stored.record.serialize,
    (option array32).write stored.requestId]

/-- Only an error of the kind `unexpectedEof` counts as a missing request identifier. -/
def readRequestId : Reader (Option Bytes32) := fun input =>
  match (option array32).read input with
  | .ok value rest => .ok value rest
  | .error error rest => if error.kind = .unexpectedEof then .ok none rest else .error error rest

def deserialize : Reader StoredDelegation := do
  let id ← u64.read
  let record ← DelegationRecordV1.deserialize
  let requestId ← readRequestId
  return { id, record, requestId }

/-- What the file keeps of an entry. -/
def kept (stored : StoredDelegation) : StoredDelegation :=
  { stored with record := stored.record.stored }

theorem readsAs_requestId :
    ReadsAs (fun requestId => requestId) (option array32).write readRequestId := by
  intro requestId bytes hwrite rest
  rw [readRequestId, (option array32).readsBack requestId bytes hwrite rest]
  rfl

theorem readsAs_kept : ReadsAs kept serialize deserialize := by
  refine readsAs_of_fields (fun _ => rfl) fun stored rest => ?_
  exact u64.field <| readsAs_stored.field <| readsAs_requestId.field <|
    fieldsRead_nil rfl

end StoredDelegation

def storageMagic : UInt32 := 0x444C4754

def storageVersion : UInt32 := 0

structure FileEnvelope where
  magic : UInt32
  version : UInt32
  entries : List StoredDelegation

namespace FileEnvelope

def new (entries : List StoredDelegation) : FileEnvelope := ⟨storageMagic, storageVersion, entries⟩

def serialize (envelope : FileEnvelope) : Written :=
  concat [
    u32.write envelope.magic,
    u32.write envelope.version,
    writeVec StoredDelegation.serialize envelope.entries]

def deserialize : Reader FileEnvelope := do
  let magic ← u32.read
  let version ← u32.read
  let entries ← readVec StoredDelegation.deserialize
  return { magic, version, entries }

theorem readsAs_kept :
    ReadsAs (fun envelope => { envelope with entries := envelope.entries.map .kept })
      serialize deserialize := by
  refine readsAs_of_fields (fun _ => rfl) fun envelope rest => ?_
  exact u32.field <| u32.field <| (readsAs_vec StoredDelegation.readsAs_kept).field <|
    fieldsRead_nil rfl

/-- Few entries with signatures of an ordinary length can be written. -/
theorem exists_serialize {entries : List StoredDelegation} (hlength : entries.length < 2 ^ 32)
    (hentries : ∀ stored ∈ entries, stored.record.signature.length < 2 ^ 32) :
    ∃ bytes, (new entries).serialize = .ok bytes := by
  have hstored : ∀ stored ∈ entries, ∃ bytes, stored.serialize = .ok bytes := by
    intro stored hmem
    apply exists_concat
    simp only [forall_mem_cons, not_mem_nil, false_imp_iff, implies_true, and_true]
    exact ⟨⟨_, rfl⟩, DelegationRecordV1.exists_serialize (hentries stored hmem),
      exists_writeOption (fun _ => ⟨_, rfl⟩) _⟩
  apply exists_concat
  simp only [forall_mem_cons, not_mem_nil, false_imp_iff, implies_true, and_true]
  exact ⟨⟨_, rfl⟩, ⟨_, rfl⟩, exists_writeVec hlength hstored⟩

end FileEnvelope

/-! ## The store -/

structure DelegationStore where
  entryById : HashMap DelegationId DelegationEntry
  byAnchorAccount : HashMap (Bytes32 × AccountId) (List DelegationId)
  requestIndex : HashMap Bytes32 (List DelegationId)
  nextId : UInt64

namespace DelegationStore

def new : DelegationStore := ⟨∅, ∅, ∅, 0⟩

def byId (store : DelegationStore) (id : DelegationId) : Option DelegationRecordV1 :=
  (store.entryById.lookup id).map (·.record)

/-- The records of an anchor and account, with their identifiers, in the order of the index. -/
def recordsAt (store : DelegationStore) (anchor : Bytes32) (accountId : AccountId) :
    List (DelegationId × DelegationRecordV1) :=
  (store.byAnchorAccount.bucket (anchor, accountId)).filterMap fun id =>
    (store.byId id).map fun record => (id, record)

def latestNonce (store : DelegationStore) (anchor : Bytes32) (accountId : AccountId) :
    Option UInt64 :=
  maxByKey UInt64.toNat ((store.recordsAt anchor accountId).map fun pair => pair.2.nonce)

/-- Enter a record under its identifier, its anchor and account, and its request. -/
def addEntry (store : DelegationStore) (id : DelegationId) (entry : DelegationEntry) :
    DelegationStore :=
  { store with
    entryById := store.entryById.insert id entry
    byAnchorAccount := store.byAnchorAccount.pushAt (entry.record.anchor, entry.record.accountId) id
    requestIndex := store.requestIndex.pushAt? entry.requestId id }

/-- The counter wraps around as an atomic word does. -/
def issueId (store : DelegationStore) : DelegationStore := { store with nextId := store.nextId + 1 }

def upsert (store : DelegationStore) (record : DelegationRecordV1) (requestId : Option Bytes32) :
    Except Error (DelegationId × DelegationStore) :=
  let insert := (store.nextId, store.issueId.addEntry store.nextId ⟨record, requestId⟩)
  match store.latestNonce record.anchor record.accountId with
  | some current =>
    if record.nonce ≤ current then
      .error (.masterDelegationStaleNonce record.accountId current record.nonce)
    else .ok insert
  | none => .ok insert

def markWarnedAt (store : DelegationStore) (id : DelegationId) (warnedAtDaa : UInt64) :
    DelegationStore :=
  match store.entryById.lookup id with
  | some entry =>
    let record := { entry.record with warnedAtDaa := some warnedAtDaa }
    { store with entryById := store.entryById.insert id { entry with record := record } }
  | none => store

def byAnchor (store : DelegationStore) (anchor : Bytes32) :
    List (DelegationId × DelegationRecordV1) :=
  (store.byAnchorAccount.entries.filter fun entry => entry.1.1 == anchor).flatMap fun entry =>
    entry.2.filterMap fun id => (store.byId id).map fun record => (id, record)

def recencyKey (record : DelegationRecordV1) : Nat ×ₗ Nat ×ₗ Nat :=
  toLex (record.nonce.toNat,
    toLex (record.validFromDaa.toNat, (record.validUntilDaa.getD (UInt64.ofNat u64Max)).toNat))

def activeForAccount (store : DelegationStore) (anchor : Bytes32) (accountId : AccountId) :
    Option (DelegationId × DelegationRecordV1) :=
  match maxByKey (fun pair => recencyKey pair.2) (store.recordsAt anchor accountId) with
  | some pair => if pair.2.status = .active then some pair else none
  | none => none

def findEntryByAnchorAccountNonce (store : DelegationStore) (anchor : Bytes32)
    (accountId : AccountId) (nonce : UInt64) : Option (DelegationId × DelegationRecordV1) :=
  (store.byAnchorAccount.bucket (anchor, accountId)).findSome? fun id =>
    match store.byId id with
    | some record => if record.nonce = nonce then some (id, record) else none
    | none => none

def findByAnchorAccountNonce (store : DelegationStore) (anchor : Bytes32) (accountId : AccountId)
    (nonce : UInt64) : Option DelegationRecordV1 :=
  (store.findEntryByAnchorAccountNonce anchor accountId nonce).map (·.2)

def recordsForRequest (store : DelegationStore) (requestId : Bytes32) : List DelegationRecordV1 :=
  (store.requestIndex.bucket requestId).filterMap store.byId

/-- The entries in the order in which the map is iterated. -/
def storedEntries (store : DelegationStore) : List StoredDelegation :=
  store.entryById.entries.map fun entry => ⟨entry.1, entry.2.record, entry.2.requestId⟩

def clear (store : DelegationStore) : DelegationStore :=
  { store with entryById := ∅, byAnchorAccount := ∅, requestIndex := ∅, nextId := 0 }

/-- One entry of the file, with the greatest identifier so far. -/
def loadEntry (loading : DelegationStore × Option UInt64) (stored : StoredDelegation) :
    DelegationStore × Option UInt64 :=
  (loading.1.addEntry stored.id ⟨stored.record, stored.requestId⟩,
    some (match loading.2 with
      | some previous => if previous ≤ stored.id then stored.id else previous
      | none => stored.id))

/-- The identifier behind the greatest one. -/
def nextIdAfter (maxId : Option UInt64) : UInt64 :=
  match maxId with
  | some greatest => if greatest.toNat = u64Max then greatest else greatest + 1
  | none => 0

def loadEntries (store : DelegationStore) (entries : List StoredDelegation) : DelegationStore :=
  let loaded := entries.foldl loadEntry (store, none)
  { loaded.1 with nextId := nextIdAfter loaded.2 }

/-- The memory is cleared first, and stays empty if the file is absent or cannot be read. -/
def loadFromStorage (store : DelegationStore) (file : Option (List UInt8)) :
    DelegationStore × Except Error Nat :=
  match file with
  | none => (store.clear, .ok 0)
  | some bytes =>
    match tryFromSlice FileEnvelope.deserialize bytes with
    | .error error => (store.clear, .error (.io error))
    | .ok envelope =>
      if envelope.magic ≠ storageMagic then
        (store.clear, .error (.custom "invalid delegation storage magic"))
      else if envelope.version ≠ storageVersion then
        (store.clear, .error (.custom "unsupported delegation storage version"))
      else
        let loaded := store.clear.loadEntries envelope.entries
        (loaded, .ok loaded.entryById.entries.length)

/-! ## Consistency -/

def anchorAccount (entry : DelegationEntry) : Option (Bytes32 × AccountId) :=
  some (entry.record.anchor, entry.record.accountId)

/-- The indexes list the entries, identifiers are below the counter, and no two records of an
anchor and account have the same nonce. -/
structure Valid (store : DelegationStore) : Prop where
  anchorIndex : Indexes store.entryById store.byAnchorAccount anchorAccount
  requests : Indexes store.entryById store.requestIndex (·.requestId)
  id_lt : ∀ id entry, store.entryById.lookup id = some entry → id < store.nextId
  nonce_unique : ∀ id id' entry entry', store.entryById.lookup id = some entry →
    store.entryById.lookup id' = some entry' → anchorAccount entry = anchorAccount entry' →
    entry.record.nonce = entry'.record.nonce → id = id'

variable {store : DelegationStore} {id : DelegationId} {record : DelegationRecordV1}

theorem byId_eq_some :
    store.byId id = some record ↔
      ∃ entry, store.entryById.lookup id = some entry ∧ entry.record = record :=
  Option.map_eq_some_iff

theorem valid_new : new.Valid where
  anchorIndex := empty
  requests := empty
  id_lt := by simp [new]
  nonce_unique := by simp [new]

variable {anchor : Bytes32} {accountId : AccountId}

theorem mem_recordsAt_iff :
    (id, record) ∈ store.recordsAt anchor accountId ↔
      id ∈ store.byAnchorAccount.bucket (anchor, accountId) ∧ store.byId id = some record := by
  simp [recordsAt]

theorem mem_recordsAt (hvalid : store.Valid) :
    (id, record) ∈ store.recordsAt anchor accountId ↔
      store.byId id = some record ∧ record.anchor = anchor ∧ record.accountId = accountId := by
  rw [mem_recordsAt_iff, hvalid.anchorIndex.mem_bucket, byId]
  cases store.entryById.lookup id with
  | none => simp
  | some entry =>
    simp only [anchorAccount, Option.map_some, Option.some.injEq, exists_eq_left', Prod.mk.injEq]
    refine and_comm.trans (and_congr_right ?_)
    rintro rfl
    rfl

/-- A nonce is above the latest one if it is above all of them. -/
theorem latestNonce_lt (hvalid : store.Valid) {nonce : UInt64} :
    (∀ current, store.latestNonce anchor accountId = some current → current < nonce) ↔
      ∀ id record, store.byId id = some record → record.anchor = anchor →
        record.accountId = accountId → record.nonce < nonce := by
  refine maxByKey_lt_iff.trans ?_
  simp only [forall_mem_map, Prod.forall, mem_recordsAt hvalid, and_imp]
  rfl

variable {requestId : Option Bytes32}

/-- An update succeeds exactly if its nonce is above the latest one. -/
theorem upsert_eq_ok {result : DelegationId × DelegationStore} :
    store.upsert record requestId = .ok result ↔
      (∀ current, store.latestNonce record.anchor record.accountId = some current →
        current < record.nonce) ∧
      (store.nextId, store.issueId.addEntry store.nextId ⟨record, requestId⟩) = result := by
  rw [upsert]
  cases hlatest : store.latestNonce record.anchor record.accountId with
  | none => simp
  | some current =>
    simp only [Option.some.injEq, forall_eq', Outcome.ite_error_eq_ok, UInt64.not_le,
      Except.ok.injEq]

theorem byId_upsert {stored : DelegationRecordV1} {id' : DelegationId} {store' : DelegationStore}
    (hupsert : store.upsert record requestId = .ok (id, store')) :
    store'.byId id' = some stored ↔
      (id' = id ∧ record = stored) ∨ (id' ≠ id ∧ store.byId id' = some stored) := by
  obtain ⟨-, hresult⟩ := upsert_eq_ok.mp hupsert
  cases hresult
  simp only [byId, addEntry, issueId, lookup_insert_eq_ite]
  by_cases hid : id' = store.nextId
  · simp [hid]
  · simp [hid]

variable {entry : DelegationEntry}

/-- A new entry with a nonce that its anchor and account do not have yet. -/
theorem Valid.addEntry (hvalid : store.Valid)
    (hnonce : ∀ id' entry', store.entryById.lookup id' = some entry' →
      anchorAccount entry' = anchorAccount entry → entry'.record.nonce ≠ entry.record.nonce)
    (hnext : store.nextId < store.nextId + 1) :
    (store.issueId.addEntry store.nextId entry).Valid := by
  have hold : ∀ id, store.entryById.lookup id = none ∨ id ≠ store.nextId := by
    intro id
    cases hlookup : store.entryById.lookup id with
    | none => exact .inl rfl
    | some entry => exact .inr (UInt64.ne_of_lt (hvalid.id_lt id entry hlookup))
  have hfresh : store.entryById.lookup store.nextId = none := (hold _).resolve_right (· rfl)
  refine ⟨hvalid.anchorIndex.insert hfresh, hvalid.requests.insert hfresh, ?_, ?_⟩
  · intro id entry' hlookup
    rcases lookup_insert_eq_some.mp hlookup with ⟨rfl, -⟩ | ⟨-, hlookup⟩
    · exact hnext
    · exact UInt64.lt_trans (hvalid.id_lt id entry' hlookup) hnext
  · intro id id' first second hfirst hsecond hkey hsame
    rcases lookup_insert_eq_some.mp hfirst with ⟨rfl, rfl⟩ | ⟨-, hfirst⟩
    · rcases lookup_insert_eq_some.mp hsecond with ⟨rfl, -⟩ | ⟨-, hsecond⟩
      · rfl
      · exact absurd hsame.symm (hnonce id' second hsecond hkey.symm)
    · rcases lookup_insert_eq_some.mp hsecond with ⟨rfl, rfl⟩ | ⟨-, hsecond⟩
      · exact absurd hsame (hnonce id first hfirst hkey)
      · exact hvalid.nonce_unique id id' first second hfirst hsecond hkey hsame

/-- Entries that differ at most in the warning mark. -/
def SameDelegation (entry entry' : DelegationEntry) : Prop :=
  entry.record.unmarked = entry'.record.unmarked ∧ entry.requestId = entry'.requestId

theorem SameDelegation.nonce_eq {entry' : DelegationEntry} (hsame : SameDelegation entry entry') :
    entry.record.nonce = entry'.record.nonce := by
  have hnonce := congrArg nonce hsame.1
  exact hnonce

theorem SameDelegation.anchorAccount_eq {entry' : DelegationEntry}
    (hsame : SameDelegation entry entry') : anchorAccount entry = anchorAccount entry' := by
  have hkey := congrArg (fun record : DelegationRecordV1 => some (record.anchor, record.accountId))
    hsame.1
  exact hkey

/-- Every identifier still refers to the same delegation. -/
def Persists (store store' : DelegationStore) : Prop :=
  ∀ id entry, store.entryById.lookup id = some entry →
    ∃ entry', store'.entryById.lookup id = some entry' ∧ SameDelegation entry entry'

theorem Persists.refl (store : DelegationStore) : Persists store store :=
  fun _ entry hlookup => ⟨entry, hlookup, rfl, rfl⟩

theorem Persists.trans {first second third : DelegationStore} (hfirst : Persists first second)
    (hsecond : Persists second third) : Persists first third := by
  intro id entry hlookup
  obtain ⟨entry', hlookup', hrecord, hrequest⟩ := hfirst id entry hlookup
  obtain ⟨entry'', hlookup'', hrecord', hrequest'⟩ := hsecond id entry' hlookup'
  exact ⟨entry'', hlookup'', hrecord.trans hrecord', hrequest.trans hrequest'⟩

/-- A stored record keeps its identifier. -/
theorem upsert_spec (hvalid : store.Valid) {store' : DelegationStore}
    (hupsert : store.upsert record requestId = .ok (id, store'))
    (hnext : store.nextId < store.nextId + 1) :
    store'.Valid ∧ store'.nextId = store.nextId + 1 ∧ Persists store store' := by
  obtain ⟨hlatest, hresult⟩ := upsert_eq_ok.mp hupsert
  cases hresult
  have hnonce := (latestNonce_lt hvalid).mp hlatest
  refine ⟨hvalid.addEntry ?_ hnext, rfl, ?_⟩
  · intro id' entry' hlookup hkey hsame
    obtain ⟨hanchor, haccount⟩ := Prod.mk.inj (Option.some.inj hkey)
    have hlt := hnonce id' entry'.record (byId_eq_some.mpr ⟨entry', hlookup, rfl⟩) hanchor haccount
    exact UInt64.ne_of_lt hlt hsame
  · intro id' entry' hlookup
    have hid : id' ≠ store.nextId := UInt64.ne_of_lt (hvalid.id_lt id' entry' hlookup)
    exact ⟨entry', (AList.lookup_insert_ne hid).trans hlookup, rfl, rfl⟩

theorem markWarnedAt_spec (hvalid : store.Valid) (id : DelegationId) (warnedAtDaa : UInt64) :
    (store.markWarnedAt id warnedAtDaa).Valid ∧
      (store.markWarnedAt id warnedAtDaa).nextId = store.nextId ∧
      Persists store (store.markWarnedAt id warnedAtDaa) := by
  rw [markWarnedAt]
  cases hlookup : store.entryById.lookup id with
  | none => exact ⟨hvalid, rfl, Persists.refl store⟩
  | some entry =>
    -- An entry after the mark comes from one before it with the same delegation.
    have hback : ∀ id' marked,
        (store.entryById.insert id
          { entry with record := { entry.record with warnedAtDaa := some warnedAtDaa } }).lookup
            id' = some marked →
        ∃ entry', store.entryById.lookup id' = some entry' ∧ SameDelegation entry' marked := by
      intro id' marked hmarked
      rcases lookup_insert_eq_some.mp hmarked with ⟨rfl, rfl⟩ | ⟨-, hmarked⟩
      · exact ⟨entry, hlookup, rfl, rfl⟩
      · exact ⟨marked, hmarked, rfl, rfl⟩
    refine ⟨⟨hvalid.anchorIndex.replace hlookup rfl, hvalid.requests.replace hlookup rfl, ?_, ?_⟩,
      rfl, ?_⟩
    · intro id' marked hmarked
      obtain ⟨entry', hentry', -⟩ := hback id' marked hmarked
      exact hvalid.id_lt id' entry' hentry'
    · intro first second marked marked' hfirst hsecond hkey hnonce
      obtain ⟨entry', hentry', hsame⟩ := hback first marked hfirst
      obtain ⟨entry'', hentry'', hsame'⟩ := hback second marked' hsecond
      apply hvalid.nonce_unique first second entry' entry'' hentry' hentry''
      · rw [hsame.anchorAccount_eq, hkey, hsame'.anchorAccount_eq]
      · rw [hsame.nonce_eq, hnonce, hsame'.nonce_eq]
    · intro id' entry' hentry'
      by_cases hid : id' = id
      · subst hid
        cases hlookup.symm.trans hentry'
        exact ⟨_, AList.lookup_insert _, rfl, rfl⟩
      · exact ⟨entry', (AList.lookup_insert_ne hid).trans hentry', rfl, rfl⟩

/-! ## Loading -/

/-- The entries read so far are those in the store, and the greatest identifier is kept. -/
structure Loaded (entries : List StoredDelegation) (loading : DelegationStore × Option UInt64) :
    Prop where
  lookup_iff : ∀ id entry, loading.1.entryById.lookup id = some entry ↔
    ⟨id, entry.record, entry.requestId⟩ ∈ entries
  anchorIndex : Indexes loading.1.entryById loading.1.byAnchorAccount anchorAccount
  requests : Indexes loading.1.entryById loading.1.requestIndex (·.requestId)
  maxId_eq_none : loading.2 = none → entries = []
  maxId_mem : ∀ maxId, loading.2 = some maxId → maxId ∈ entries.map (·.id)
  le_maxId : ∀ maxId, loading.2 = some maxId → ∀ stored ∈ entries, stored.id ≤ maxId

variable {entries : List StoredDelegation}

theorem Loaded.loadEntry {loading : DelegationStore × Option UInt64}
    (hloaded : Loaded entries loading) {stored : StoredDelegation}
    (hfresh : stored.id ∉ entries.map (·.id)) :
    Loaded (entries ++ [stored]) (loadEntry loading stored) := by
  have hnew : loading.1.entryById.lookup stored.id = none := by
    cases hlookup : loading.1.entryById.lookup stored.id with
    | none => rfl
    | some entry =>
      have hmem := (hloaded.lookup_iff stored.id entry).mp hlookup
      exact absurd (mem_map.mpr ⟨_, hmem, rfl⟩) hfresh
  have hgreatest : ∀ maxId, (DelegationStore.loadEntry loading stored).2 = some maxId →
      (maxId = stored.id ∨ loading.2 = some maxId) ∧
        stored.id ≤ maxId ∧ ∀ previous, loading.2 = some previous → previous ≤ maxId := by
    intro maxId hmax
    cases hprevious : loading.2 with
    | none =>
      simp only [DelegationStore.loadEntry, hprevious, Option.some.injEq] at hmax
      exact ⟨.inl hmax.symm, UInt64.le_of_eq hmax, nofun⟩
    | some previous =>
      simp only [DelegationStore.loadEntry, hprevious, Option.some.injEq] at hmax
      split at hmax
      next hle =>
        subst hmax
        exact ⟨.inl rfl, UInt64.le_refl _, fun _ hsome => Option.some.inj hsome ▸ hle⟩
      next hle =>
        subst hmax
        exact ⟨.inr rfl, UInt64.le_of_lt (UInt64.not_le.mp hle),
          fun _ hsome => UInt64.le_of_eq (Option.some.inj hsome).symm⟩
  refine ⟨?_, hloaded.anchorIndex.insert hnew, hloaded.requests.insert hnew, nofun, ?_, ?_⟩
  · intro id entry
    rw [mem_append, mem_singleton, ← hloaded.lookup_iff id entry]
    rw [DelegationStore.loadEntry, addEntry, lookup_insert_eq_ite]
    by_cases hid : id = stored.id
    · subst hid
      cases entry
      cases stored
      simp [hnew, eq_comm]
    · cases stored
      simp_all
  · intro maxId hmax
    rw [map_append, mem_append]
    rcases (hgreatest maxId hmax).1 with rfl | hprevious
    · exact .inr (.head _)
    · exact .inl (hloaded.maxId_mem maxId hprevious)
  · intro maxId hmax other hother
    obtain ⟨-, hlast⟩ := hgreatest maxId hmax
    rcases mem_append.mp hother with hold | hnew
    · cases hprevious : loading.2 with
      | none =>
        rw [hloaded.maxId_eq_none hprevious] at hold
        cases hold
      | some previous =>
        exact UInt64.le_trans (hloaded.le_maxId previous hprevious other hold)
          (hlast.2 previous hprevious)
    · rw [mem_singleton.mp hnew]
      exact hlast.1

theorem loaded_foldl (hnodup : (entries.map (·.id)).Nodup) :
    Loaded entries (entries.foldl loadEntry (new, none)) := by
  induction entries using reverseRecOn with
  | nil => exact ⟨by simp [new], empty, empty, fun _ => rfl, nofun, nofun⟩
  | append_singleton entries last ih =>
    rw [map_append] at hnodup
    obtain ⟨hentries, -, hdisjoint⟩ := nodup_append'.mp hnodup
    rw [foldl_append, foldl_cons]
    exact (ih hentries).loadEntry fun hmem => hdisjoint hmem (mem_singleton_self _)

theorem mem_storedEntries {stored : StoredDelegation} :
    stored ∈ store.storedEntries ↔
      store.entryById.lookup stored.id = some ⟨stored.record, stored.requestId⟩ := by
  rw [storedEntries, mem_map, lookup_eq_some]
  constructor
  · rintro ⟨entry, hentry, rfl⟩
    exact hentry
  · intro hentry
    exact ⟨_, hentry, rfl⟩

/-- A counter below its limit does not wrap around. -/
theorem toNat_succ_of_lt {counter : UInt64} (hlt : counter.toNat < u64Max) :
    (counter + 1).toNat = counter.toNat + 1 := by
  simp only [u64Max, wordBound] at hlt
  rw [UInt64.toNat_add, UInt64.toNat_one, mod_eq_of_lt (by omega)]

/-- The identifier behind one that is below some other. -/
theorem nextIdAfter_spec {maxId nextId : UInt64} (hlt : maxId < nextId) :
    maxId < nextIdAfter (some maxId) ∧ nextIdAfter (some maxId) ≤ nextId := by
  have hltNat : maxId.toNat < nextId.toNat := lt_iff_toNat_lt.mp hlt
  have hmax : maxId.toNat < u64Max := hltNat.trans_le (le_pred_of_lt nextId.toNat_lt)
  rw [nextIdAfter, if_neg hmax.ne, lt_iff_toNat_lt, le_iff_toNat_le,
    toNat_succ_of_lt hmax]
  exact ⟨lt_succ_self _, hltNat⟩

/-- The store after a file of the entries of a store was loaded. -/
theorem loadEntries_spec {saved : DelegationStore} (hvalid : saved.Valid)
    (hperm : entries.Perm saved.storedEntries) :
    (new.loadEntries (entries.map .kept)).Valid ∧
      (new.loadEntries (entries.map .kept)).nextId ≤ saved.nextId ∧
      ∀ id, (new.loadEntries (entries.map .kept)).entryById.lookup id =
        (saved.entryById.lookup id).map DelegationEntry.kept := by
  have hids : ((entries.map StoredDelegation.kept).map (·.id)).Nodup := by
    rw [map_map]
    refine (hperm.map (·.id)).nodup_iff.mpr ?_
    rw [storedEntries, map_map]
    exact saved.entryById.keys_nodup
  have hloaded := loaded_foldl hids
  have hlookup : ∀ id entry,
      (new.loadEntries (entries.map .kept)).entryById.lookup id = some entry ↔
      ∃ entry', saved.entryById.lookup id = some entry' ∧ entry'.kept = entry := by
    intro id entry
    refine (hloaded.lookup_iff id entry).trans ?_
    rw [mem_map]
    constructor
    · rintro ⟨stored, hmem, hstored⟩
      obtain ⟨rfl, hrecord, hrequest⟩ := StoredDelegation.mk.inj hstored
      refine ⟨_, mem_storedEntries.mp (hperm.subset hmem), ?_⟩
      rw [DelegationEntry.kept, hrecord, hrequest]
    · rintro ⟨entry', hentry', rfl⟩
      exact ⟨⟨id, entry'.record, entry'.requestId⟩,
        hperm.symm.subset (mem_storedEntries.mpr hentry'), rfl⟩
  have hmaxId : ∀ maxId, ((entries.map StoredDelegation.kept).foldl loadEntry (new, none)).2 =
      some maxId → maxId < saved.nextId := by
    intro maxId hmax
    have hmem := hloaded.maxId_mem maxId hmax
    rw [map_map, mem_map] at hmem
    obtain ⟨stored, hstored, rfl⟩ := hmem
    have hsaved := mem_storedEntries.mp (hperm.subset hstored)
    exact hvalid.id_lt _ _ hsaved
  refine ⟨⟨hloaded.anchorIndex, hloaded.requests, ?_, ?_⟩, ?_, ?_⟩
  · intro id entry hentry
    have hmem := (hloaded.lookup_iff id entry).mp hentry
    show id < nextIdAfter _
    cases hmax : ((entries.map StoredDelegation.kept).foldl loadEntry (new, none)).2 with
    | none =>
      rw [hloaded.maxId_eq_none hmax] at hmem
      cases hmem
    | some maxId =>
      exact UInt64.lt_of_le_of_lt (hloaded.le_maxId maxId hmax _ hmem)
        (nextIdAfter_spec (hmaxId maxId hmax)).1
  · intro id id' entry entry' hentry hentry' hkey hnonce
    obtain ⟨before, hbefore, rfl⟩ := (hlookup id entry).mp hentry
    obtain ⟨before', hbefore', rfl⟩ := (hlookup id' entry').mp hentry'
    exact hvalid.nonce_unique id id' before before' hbefore hbefore' hkey hnonce
  · show nextIdAfter _ ≤ _
    cases hmax : ((entries.map StoredDelegation.kept).foldl loadEntry (new, none)).2 with
    | none => exact UInt64.zero_le
    | some maxId => exact (nextIdAfter_spec (hmaxId maxId hmax)).2
  · intro id
    apply Option.ext
    intro entry
    rw [hlookup id entry, Option.map_eq_some_iff]

/-- The file of some entries is loaded as these entries, whatever the store held before. -/
theorem loadFromStorage_of_serialize (store : DelegationStore) {bytes : List UInt8}
    (hwrite : (FileEnvelope.new entries).serialize = .ok bytes) :
    store.loadFromStorage (some bytes) =
      (new.loadEntries (entries.map .kept),
        .ok (new.loadEntries (entries.map .kept)).entryById.entries.length) := by
  have hread := FileEnvelope.readsAs_kept.tryFromSlice hwrite
  rw [loadFromStorage, hread]
  rfl

/-! ## Queries -/

/-- The list of an index entry is the one that is found under its key. -/
theorem bucket_of_mem {entry : Sigma fun _ : Bytes32 × AccountId => List DelegationId}
    (hentry : entry ∈ store.byAnchorAccount.entries) :
    store.byAnchorAccount.bucket entry.1 = entry.2 := by
  rw [bucket, lookup_eq_some.mpr hentry, Option.getD_some]

section

variable (hvalid : store.Valid)

include hvalid

theorem mem_byAnchor :
    (id, record) ∈ store.byAnchor anchor ↔
      store.byId id = some record ∧ record.anchor = anchor := by
  simp only [byAnchor, mem_flatMap, mem_filter, beq_iff_eq]
  constructor
  · rintro ⟨entry, ⟨hentry, rfl⟩, hmem⟩
    rw [← bucket_of_mem hentry] at hmem
    obtain ⟨hrecord, hanchor, -⟩ := (mem_recordsAt hvalid).mp hmem
    exact ⟨hrecord, hanchor⟩
  · rintro ⟨hrecord, rfl⟩
    have hmem := (mem_recordsAt hvalid).mpr ⟨hrecord, rfl, rfl⟩
    cases hlookup : store.byAnchorAccount.lookup (record.anchor, record.accountId) with
    | none =>
      rw [recordsAt, bucket, hlookup] at hmem
      cases hmem
    | some ids =>
      rw [recordsAt, bucket, hlookup] at hmem
      exact ⟨⟨_, ids⟩, ⟨lookup_eq_some.mp hlookup, rfl⟩, hmem⟩

theorem nodup_byAnchor (anchor : Bytes32) : (store.byAnchor anchor).Nodup := by
  rw [byAnchor, nodup_flatMap]
  constructor
  · intro entry hentry
    have hnodup := hvalid.anchorIndex.nodup_bucket entry.1
    rw [bucket_of_mem (mem_of_mem_filter hentry)] at hnodup
    refine hnodup.filterMap ?_
    intro id id' pair hpair hpair'
    obtain ⟨_, -, rfl⟩ := Option.map_eq_some_iff.mp hpair
    obtain ⟨_, -, hid⟩ := Option.map_eq_some_iff.mp hpair'
    exact (congrArg Prod.fst hid).symm
  · have hkeys := nodupKeys_iff_pairwise.mp store.byAnchorAccount.nodupKeys
    refine ((hkeys.imp_of_mem ?_).filter _)
    intro entry entry' hentry hentry' hne pair hpair hpair'
    dsimp only at hpair hpair'
    rw [← bucket_of_mem hentry] at hpair
    rw [← bucket_of_mem hentry'] at hpair'
    obtain ⟨-, hanchor, haccount⟩ := (mem_recordsAt hvalid).mp hpair
    obtain ⟨-, hanchor', haccount'⟩ := (mem_recordsAt hvalid).mp hpair'
    exact hne (Prod.ext (hanchor.symm.trans hanchor') (haccount.symm.trans haccount'))

theorem Valid.byId_unique {id' : DelegationId} {record' : DelegationRecordV1}
    (hrecord : store.byId id = some record) (hrecord' : store.byId id' = some record')
    (hanchor : record.anchor = record'.anchor) (haccount : record.accountId = record'.accountId)
    (hnonce : record.nonce = record'.nonce) : id = id' := by
  obtain ⟨entry, hentry, rfl⟩ := byId_eq_some.mp hrecord
  obtain ⟨entry', hentry', rfl⟩ := byId_eq_some.mp hrecord'
  refine hvalid.nonce_unique id id' entry entry' hentry hentry' ?_ hnonce
  rw [anchorAccount, anchorAccount, hanchor, haccount]

theorem findEntryByAnchorAccountNonce_eq_some {nonce : UInt64} :
    store.findEntryByAnchorAccountNonce anchor accountId nonce = some (id, record) ↔
      store.byId id = some record ∧ record.anchor = anchor ∧ record.accountId = accountId ∧
        record.nonce = nonce := by
  have hsound : ∀ pair, store.findEntryByAnchorAccountNonce anchor accountId nonce = some pair →
      store.byId pair.1 = some pair.2 ∧ pair.2.anchor = anchor ∧ pair.2.accountId = accountId ∧
        pair.2.nonce = nonce := by
    intro pair hfound
    obtain ⟨id', hid', hfound⟩ := exists_of_findSome?_eq_some hfound
    cases hrecord : store.byId id' with
    | none => simp [hrecord] at hfound
    | some record' =>
      simp only [hrecord, Option.ite_none_right_eq_some, Option.some.injEq] at hfound
      obtain ⟨rfl, rfl⟩ := hfound
      have hat := (mem_recordsAt hvalid).mp (mem_recordsAt_iff.mpr ⟨hid', hrecord⟩)
      exact ⟨hrecord, hat.2.1, hat.2.2, rfl⟩
  refine ⟨hsound (id, record), ?_⟩
  rintro ⟨hrecord, rfl, rfl, rfl⟩
  cases hfound :
      store.findEntryByAnchorAccountNonce record.anchor record.accountId record.nonce with
  | none =>
    have hmem := mem_recordsAt_iff.mp ((mem_recordsAt hvalid).mpr ⟨hrecord, rfl, rfl⟩)
    have hnone := findSome?_eq_none_iff.mp hfound id hmem.1
    simp [hrecord] at hnone
  | some pair =>
    obtain ⟨hrecord', hanchor, haccount, hnonce⟩ := hsound pair hfound
    obtain rfl := hvalid.byId_unique hrecord' hrecord hanchor haccount hnonce
    rw [Option.mem_unique hrecord hrecord']

theorem mem_recordsForRequest {requestId : Bytes32} :
    record ∈ store.recordsForRequest requestId ↔
      ∃ id, store.entryById.lookup id = some ⟨record, some requestId⟩ := by
  simp only [recordsForRequest, mem_filterMap, hvalid.requests.mem_bucket, byId_eq_some]
  refine exists_congr fun id => ?_
  cases store.entryById.lookup id with
  | none => simp
  | some entry =>
    cases entry
    simp [and_comm]

theorem activeForAccount_eq_some :
    store.activeForAccount anchor accountId = some (id, record) ↔
      store.byId id = some record ∧ record.anchor = anchor ∧ record.accountId = accountId ∧
        record.status = .active ∧
        ∀ id' record', store.byId id' = some record' → record'.anchor = anchor →
          record'.accountId = accountId → record'.nonce ≤ record.nonce := by
  rw [activeForAccount]
  cases hlatest : maxByKey (fun pair => recencyKey pair.2) (store.recordsAt anchor accountId) with
  | none =>
    have hempty := maxByKey_eq_none.mp hlatest
    refine ⟨nofun, ?_⟩
    rintro ⟨hrecord, hanchor, haccount, -, -⟩
    have hmem := (mem_recordsAt hvalid).mpr ⟨hrecord, hanchor, haccount⟩
    rw [hempty] at hmem
    cases hmem
  | some pair =>
    obtain ⟨hmem, hgreatest⟩ := maxByKey_eq_some hlatest
    obtain ⟨hpair, hanchor, haccount⟩ := (mem_recordsAt hvalid).mp hmem
    have hle : ∀ id' record', store.byId id' = some record' → record'.anchor = anchor →
        record'.accountId = accountId → record'.nonce ≤ pair.2.nonce := by
      intro id' record' hrecord' hanchor' haccount'
      have hmem' := (mem_recordsAt hvalid).mpr ⟨hrecord', hanchor', haccount'⟩
      rcases Prod.Lex.toLex_le_toLex.mp (hgreatest _ hmem') with hlt | ⟨heq, -⟩
      · exact hlt.le
      · exact heq.le
    constructor
    · intro hactive
      rw [Option.ite_none_right_eq_some] at hactive
      obtain ⟨hstatus, hactive⟩ := hactive
      cases hactive
      exact ⟨hpair, hanchor, haccount, hstatus, hle⟩
    · rintro ⟨hrecord, hanchor', haccount', hstatus, hle'⟩
      -- Two records of the greatest nonce are one record.
      have hnonce : pair.2.nonce = record.nonce :=
        UInt64.le_antisymm (hle' pair.1 pair.2 hpair hanchor haccount)
          (hle id record hrecord hanchor' haccount')
      obtain rfl := hvalid.byId_unique hpair hrecord (hanchor.trans hanchor'.symm)
        (haccount.trans haccount'.symm) hnonce
      cases hpair.symm.trans hrecord
      exact if_pos hstatus

end

end DelegationStore

/-! ## Runs -/

/-- The store and the content of its file, decrypted. -/
structure DelegationWorld where
  store : DelegationStore
  file : Option (List UInt8)

inductive DelegationOperation where
  | upsert (record : DelegationRecordV1) (requestId : Option Bytes32)
  | markWarnedAt (id : DelegationId) (warnedAtDaa : UInt64)
  | save (entries : List StoredDelegation)
  | load
  | loadFresh

namespace DelegationOperation

/-- The number of identifiers that an operation may give out. -/
def issued : DelegationOperation → Nat
  | upsert _ _ => 1
  | _ => 0

def isLoad : DelegationOperation → Bool
  | load | loadFresh => true
  | _ => false

end DelegationOperation

namespace DelegationWorld

open DelegationStore

def init : DelegationWorld := ⟨.new, none⟩

/-- The operations of the store. A save writes the entries in any order, and a load goes into the
same store or into a fresh one. -/
inductive Step : DelegationWorld → DelegationOperation → DelegationWorld → Prop where
  | upserted {world : DelegationWorld} {record : DelegationRecordV1} {requestId : Option Bytes32}
      {id : DelegationId} {store : DelegationStore} :
      world.store.upsert record requestId = .ok (id, store) →
        Step world (.upsert record requestId) { world with store := store }
  | upsertFailed {world : DelegationWorld} {record : DelegationRecordV1}
      {requestId : Option Bytes32} {error : Error} :
      world.store.upsert record requestId = .error error →
        Step world (.upsert record requestId) world
  | marked (world : DelegationWorld) (id : DelegationId) (warnedAtDaa : UInt64) :
      Step world (.markWarnedAt id warnedAtDaa)
        { world with store := world.store.markWarnedAt id warnedAtDaa }
  | saved {world : DelegationWorld} {entries : List StoredDelegation} {bytes : List UInt8} :
      entries.Perm world.store.storedEntries → (FileEnvelope.new entries).serialize = .ok bytes →
        Step world (.save entries) { world with file := some bytes }
  | saveFailed {world : DelegationWorld} {entries : List StoredDelegation} {error : Borsh.Error} :
      entries.Perm world.store.storedEntries →
        (FileEnvelope.new entries).serialize = .error error → Step world (.save entries) world
  | loaded (world : DelegationWorld) :
      Step world .load { world with store := (world.store.loadFromStorage world.file).1 }
  | loadedFresh (world : DelegationWorld) :
      Step world .loadFresh
        { world with store := (DelegationStore.new.loadFromStorage world.file).1 }

/-- The file holds the entries of a store, in any order. -/
structure FileOf (issued : Nat) (file : Option (List UInt8)) (saved : DelegationStore) : Prop where
  valid : saved.Valid
  nextId_le : saved.nextId.toNat ≤ issued
  written : ∃ entries bytes, entries.Perm saved.storedEntries ∧
    (FileEnvelope.new entries).serialize = .ok bytes ∧ file = some bytes

/-- At most `issued` identifiers have been given out, and those of the base refer to the same
delegations in memory and in the file. -/
structure Consistent (base : DelegationStore) (issued : Nat) (world : DelegationWorld) : Prop where
  valid : world.store.Valid
  nextId_le : world.store.nextId.toNat ≤ issued
  persists : Persists base world.store
  file : (world.file = none ∧ Persists base .new) ∨
    ∃ saved, FileOf issued world.file saved ∧ Persists base saved

variable {base : DelegationStore} {issued : Nat} {world world' : DelegationWorld}
  {operation : DelegationOperation}

theorem consistent_init : Consistent .new 0 init where
  valid := valid_new
  nextId_le := le_refl 0
  persists := nofun
  file := .inl ⟨rfl, nofun⟩

/-- What an operation other than a load does to the store. -/
theorem Step.store_spec (hvalid : world.store.Valid)
    (hissued : world.store.nextId.toNat + operation.issued ≤ u64Max)
    (hload : operation.isLoad = false) (hstep : Step world operation world') :
    world'.store.Valid ∧ world'.store.nextId.toNat ≤ world.store.nextId.toNat + operation.issued ∧
      Persists world.store world'.store := by
  cases hstep with
  | upserted hupsert =>
    have hsucc := toNat_succ_of_lt (lt_of_succ_le hissued)
    have hnext : world.store.nextId < world.store.nextId + 1 := by
      rw [lt_iff_toNat_lt, hsucc]
      exact lt_succ_self _
    obtain ⟨hvalid', hnextId, hpersists⟩ := upsert_spec hvalid hupsert hnext
    refine ⟨hvalid', ?_, hpersists⟩
    rw [hnextId, hsucc]
    rfl
  | upsertFailed => exact ⟨hvalid, le_add_right _ _, Persists.refl _⟩
  | marked id warnedAtDaa =>
    obtain ⟨hvalid', hnextId, hpersists⟩ := markWarnedAt_spec hvalid id warnedAtDaa
    exact ⟨hvalid', hnextId ▸ le_refl _, hpersists⟩
  | saved | saveFailed => exact ⟨hvalid, le_refl _, Persists.refl _⟩
  | loaded | loadedFresh => cases hload

section

variable (hworld : Consistent base issued world)

include hworld

/-- A load takes the store back to what the file holds. -/
theorem Consistent.load (store : DelegationStore) :
    Consistent base issued { world with store := (store.loadFromStorage world.file).1 } := by
  rcases hworld.file with ⟨hnone, hbase⟩ | ⟨saved, hfile, hbase⟩
  · rw [hnone]
    exact ⟨valid_new, zero_le _, hbase, .inl ⟨rfl, hbase⟩⟩
  · obtain ⟨entries, bytes, hperm, hwrite, hbytes⟩ := hfile.written
    obtain ⟨hvalid, hnextId, hlookup⟩ := loadEntries_spec hfile.valid hperm
    have hpersists : Persists saved (new.loadEntries (entries.map .kept)) :=
      fun id entry hentry => ⟨entry.kept, by rw [hlookup, hentry, Option.map_some], rfl, rfl⟩
    refine ⟨?_, ?_, ?_, .inr ⟨saved, hfile, hbase⟩⟩
    all_goals rw [hbytes, loadFromStorage_of_serialize store hwrite]
    · exact hvalid
    · exact (le_iff_toNat_le.mp hnextId).trans hfile.nextId_le
    · exact hbase.trans hpersists

theorem Consistent.step (hissued : issued + operation.issued ≤ u64Max)
    (hstep : Step world operation world') : Consistent base (issued + operation.issued) world' := by
  by_cases hload : operation.isLoad = true
  · cases hstep with
    | loaded => exact hworld.load world.store
    | loadedFresh => exact hworld.load .new
    | _ => cases hload
  · have hbound : world.store.nextId.toNat + operation.issued ≤ u64Max :=
      (Nat.add_le_add_right hworld.nextId_le _).trans hissued
    obtain ⟨hvalid, hnextId, hpersists⟩ :=
      hstep.store_spec hworld.valid hbound (Bool.eq_false_of_not_eq_true hload)
    have hnextId' := hnextId.trans (Nat.add_le_add_right hworld.nextId_le _)
    refine ⟨hvalid, hnextId', hworld.persists.trans hpersists, ?_⟩
    cases hstep with
    | saved hperm hwrite =>
      exact .inr ⟨world.store, ⟨hworld.valid, hnextId', _, _, hperm, hwrite, rfl⟩, hworld.persists⟩
    | loaded | loadedFresh => exact absurd rfl hload
    | _ =>
      refine hworld.file.imp_right ?_
      rintro ⟨saved, hfile, hbase⟩
      exact ⟨saved, ⟨hfile.valid, hfile.nextId_le.trans (le_add_right _ _), hfile.written⟩, hbase⟩

variable {operations : List DelegationOperation}

theorem Consistent.run (hrun : Runs Step world operations world')
    (hissued : issued + (operations.map DelegationOperation.issued).sum ≤ u64Max) :
    Consistent base (issued + (operations.map DelegationOperation.issued).sum) world' :=
  hrun.invariant_of_weight (Consistent base)
    (fun _ _ _ _ _ hcount hbefore hstep => hbefore.step hcount hstep) hissued hworld

/-- Between two loads nothing is lost. -/
theorem Consistent.persists_of_not_load (hrun : Runs Step world operations world')
    (hissued : issued + (operations.map DelegationOperation.issued).sum ≤ u64Max)
    (hload : ∀ operation ∈ operations, operation.isLoad = false) :
    Persists world.store world'.store := by
  refine (hrun.invariant_of_weight
    (fun count state => Consistent base count state ∧ Persists world.store state.store)
    (fun operation hmem count before after hcount hbefore hstep => ?_) hissued
    ⟨hworld, Persists.refl _⟩).2
  obtain ⟨hconsistent, hpersists⟩ := hbefore
  have hroom := (Nat.add_le_add_right hconsistent.nextId_le operation.issued).trans hcount
  obtain ⟨-, -, hstepPersists⟩ := hstep.store_spec hconsistent.valid hroom (hload operation hmem)
  exact ⟨hconsistent.step hcount hstep, hpersists.trans hstepPersists⟩

/-- What was saved survives whatever is loaded later. -/
theorem Consistent.persists_of_save {entries : List StoredDelegation} {bytes : List UInt8}
    (hrun : Runs Step world (.save entries :: operations) world')
    (hissued : issued + ((.save entries :: operations).map DelegationOperation.issued).sum ≤ u64Max)
    (hwrite : (FileEnvelope.new entries).serialize = .ok bytes) :
    Persists world.store world'.store := by
  cases hrun with
  | cons hsave hrest =>
  cases hsave with
  | saveFailed _ hfailed =>
    rw [hwrite] at hfailed
    cases hfailed
  | saved hperm hwritten =>
    have hsaved : Consistent world.store issued { world with file := some _ } :=
      ⟨hworld.valid, hworld.nextId_le, Persists.refl _,
        .inr ⟨world.store, ⟨hworld.valid, hworld.nextId_le, _, _, hperm, hwritten, rfl⟩,
          Persists.refl _⟩⟩
    exact (hsaved.run hrest (by simpa [DelegationOperation.issued] using hissued)).persists

end

theorem length_loadEntries {saved : DelegationStore} (hvalid : saved.Valid)
    {entries : List StoredDelegation} (hperm : entries.Perm saved.storedEntries) :
    (DelegationStore.new.loadEntries (entries.map .kept)).entryById.entries.length =
      saved.entryById.entries.length := by
  obtain ⟨-, -, hlookup⟩ := loadEntries_spec hvalid hperm
  have hkeys : (DelegationStore.new.loadEntries (entries.map .kept)).entryById.keys.Perm
      saved.entryById.keys := by
    refine (perm_ext_iff_of_nodup (AList.keys_nodup _) (AList.keys_nodup _)).mpr ?_
    intro id
    rw [← AList.mem_keys, ← AList.mem_keys, ← isSome_lookup, ← isSome_lookup, hlookup,
      Option.isSome_map]
  simpa only [AList.keys, keys, length_map] using hkeys.length_eq

end DelegationWorld

/-- A record of version 0 that carries a warning mark. -/
def markedRecord : DelegationRecordV1 := { sampleRecord with version := 0, warnedAtDaa := some 150 }

end Qaspa.Wallet
