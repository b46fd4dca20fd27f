import Qaspa.Wallet.MasterResponse

/-! # Replayed responses

Responses are applied one after another, and in between accounts ask for their delegation. As long
as no response brings back a record that a later one has superseded, every account that was touched
points to the record with the greatest nonce. An old response that is applied again moves the
pointer back.
-/

namespace Qaspa.Wallet

open HashMap List DelegationStore DelegationWallet Option StealthAccount

/-- A stored record with the greatest nonce of its anchor and account. -/
def DelegationStore.IsLatest (store : DelegationStore) (id : DelegationId)
    (record : DelegationRecordV1) : Prop :=
  store.byId id = some record ∧
    ∀ id' record', store.byId id' = some record' → record'.anchor = record.anchor →
      record'.accountId = record.accountId → record'.nonce ≤ record.nonce

structure DelegationCall where
  request : MasterDelegationRequestBodyV1
  response : MasterDelegationResponseBodyV1
  forceNetworkMismatch : Bool
  faults : StorageFaults

inductive DelegationEvent where
  | apply (call : DelegationCall)
  | metadata (accountId : AccountId) (currentDaa : UInt64)

/-- How many records an event can store. -/
def DelegationEvent.weight : DelegationEvent → Nat
  | apply call => call.response.delegations.length
  | metadata _ _ => 0

namespace DelegationWallet

/-- An account whose pointer refers to the latest record of its anchor. -/
def PointsToLatest (wallet : DelegationWallet) (accountId : AccountId) : Prop :=
  ∃ account id record, wallet.accounts.lookup accountId = some (.stealth account) ∧
    account.masterAnchor = some record.anchor ∧ account.delegationId = some id ∧
    record.accountId = accountId ∧ wallet.store.IsLatest id record

/-- An account that is as it was and of which no record is stored. -/
def Untouched (initial wallet : DelegationWallet) (accountId : AccountId) : Prop :=
  wallet.accounts.lookup accountId = initial.accounts.lookup accountId ∧
    ∀ id record, wallet.store.byId id = some record → record.accountId ≠ accountId

/-- Every account that was touched points to the latest record. -/
structure Pointed (initial : DelegationWallet) (issued : Nat) (wallet : DelegationWallet) :
    Prop where
  valid : wallet.store.Valid
  issued_le : wallet.store.nextId.toNat ≤ issued
  pointed : ∀ accountId, Untouched initial wallet accountId ∨ wallet.PointsToLatest accountId

variable {initial wallet wallet' : DelegationWallet} {accountId : AccountId} {issued : Nat}
  {account : StealthAccount} {response : MasterDelegationResponseBodyV1}
  {record : DelegationRecordV1} {records : List DelegationRecordV1}

/-! ## Moving pointers -/

theorem lookup_setDelegation_ne {other : AccountId} {anchor : Bytes32} {id : DelegationId}
    (hne : other ≠ accountId) :
    (wallet.setDelegation accountId account anchor id).accounts.lookup other =
      wallet.accounts.lookup other :=
  AList.lookup_insert_ne hne

theorem pointsToLatest_setDelegation {id : DelegationId}
    (hlatest : wallet.store.IsLatest id record) :
    (wallet.setDelegation record.accountId account record.anchor id).PointsToLatest
      record.accountId :=
  ⟨account.setDelegation record.anchor (some id), id, record, AList.lookup_insert _, rfl, rfl, rfl,
    hlatest⟩

/-- The pointer of an account moves to the latest record of an anchor. -/
theorem Pointed.setDelegation (hwallet : Pointed initial issued wallet) {id : DelegationId}
    (hlatest : wallet.store.IsLatest id record) :
    Pointed initial issued
      (wallet.setDelegation record.accountId account record.anchor id) where
  valid := hwallet.valid
  issued_le := hwallet.issued_le
  pointed := by
    intro other
    by_cases hother : other = record.accountId
    · subst hother
      exact .inr (pointsToLatest_setDelegation hlatest)
    · rcases hwallet.pointed other with ⟨hlookup, hnone⟩ | ⟨account', id', record', hlookup, hrest⟩
      · exact .inl ⟨(lookup_setDelegation_ne hother).trans hlookup, hnone⟩
      · exact .inr ⟨account', id', record', (lookup_setDelegation_ne hother).trans hlookup, hrest⟩

variable {store : DelegationStore}

/-- A record above all stored ones is the latest, and the latest records of other accounts stay
the latest. -/
theorem isLatest_upsert {store' : DelegationStore} (hvalid : store.Valid)
    {requestId : Option Bytes32} {id : DelegationId}
    (hupsert : store.upsert record requestId = .ok (id, store')) :
    store'.IsLatest id record ∧
      ∀ id' record', record'.accountId ≠ record.accountId → store.IsLatest id' record' →
        store'.IsLatest id' record' := by
  obtain ⟨hlatest, hresult⟩ := upsert_eq_ok.mp hupsert
  have habove := (latestNonce_lt hvalid).mp hlatest
  refine ⟨⟨(byId_upsert hupsert).mpr (.inl ⟨rfl, rfl⟩), ?_⟩, ?_⟩
  · intro id' record' hrecord' hanchor haccount
    rcases (byId_upsert hupsert).mp hrecord' with ⟨-, rfl⟩ | ⟨-, hold⟩
    · exact UInt64.le_refl _
    · exact UInt64.le_of_lt (habove id' record' hold hanchor haccount)
  · rintro id' record' hother ⟨hrecord', hgreatest⟩
    obtain ⟨entry, hentry, rfl⟩ := byId_eq_some.mp hrecord'
    have hid : id' ≠ id := by
      rw [← (Prod.mk.inj hresult).1]
      exact UInt64.ne_of_lt (hvalid.id_lt id' entry hentry)
    refine ⟨(byId_upsert hupsert).mpr (.inr ⟨hid, hrecord'⟩), ?_⟩
    intro id'' record'' hrecord'' hanchor haccount
    rcases (byId_upsert hupsert).mp hrecord'' with ⟨-, rfl⟩ | ⟨-, hold⟩
    · exact absurd haccount.symm hother
    · exact hgreatest id'' record'' hold hanchor haccount

/-- A new record is stored and its account points to it. -/
theorem Pointed.upsert (hwallet : Pointed initial issued wallet) {requestId : Option Bytes32}
    {id : DelegationId} (hupsert : wallet.store.upsert record requestId = .ok (id, store))
    (hroom : wallet.store.nextId.toNat < u64Max) :
    Pointed initial (issued + 1) ({ wallet with store := store }.setDelegation record.accountId
      account record.anchor id) := by
  obtain ⟨hstore, hissued⟩ := upsert_room hwallet.valid hupsert hroom
  obtain ⟨hlatest, hothers⟩ := isLatest_upsert hwallet.valid hupsert
  refine ⟨hstore, ?_, fun other => ?_⟩
  · have hle := hwallet.issued_le
    change store.nextId.toNat ≤ issued + 1
    omega
  · by_cases hother : other = record.accountId
    · subst hother
      exact .inr (pointsToLatest_setDelegation hlatest)
    · rcases hwallet.pointed other with
        ⟨hlookup, hnone⟩ | ⟨account', id', record', hlookup, hanchor, hpointer, rfl, hlatest'⟩
      · refine .inl ⟨(lookup_setDelegation_ne hother).trans hlookup, ?_⟩
        intro id' record' hrecord'
        rcases (byId_upsert hupsert).mp hrecord' with ⟨-, rfl⟩ | ⟨-, hold⟩
        · exact fun heq => hother heq.symm
        · exact hnone id' record' hold
      · exact .inr ⟨account', id', record', (lookup_setDelegation_ne hother).trans hlookup, hanchor,
          hpointer, rfl, hothers id' record' hother hlatest'⟩

/-! ## One response -/

/-- A record that is stored already is the latest of its account, among the stored records and
those of the response. -/
def ReplaysLatest (store : DelegationStore) (records : List DelegationRecordV1) : Prop :=
  ∀ record ∈ records, ∀ id existing, store.byId id = some existing →
    existing.anchor = record.anchor → existing.accountId = record.accountId →
    existing.nonce = record.nonce →
    store.IsLatest id existing ∧
      ∀ record' ∈ records, record'.accountId = record.accountId → record'.nonce ≤ record.nonce

/-- A wallet in the middle of a response of which some records are done. -/
structure Midway (initial : DelegationWallet) (before : DelegationStore) (issued : Nat)
    (done : List DelegationRecordV1) (wallet : DelegationWallet) : Prop
    extends Pointed initial issued wallet where
  origin : ∀ id record, wallet.store.byId id = some record →
    before.byId id = some record ∨ record ∈ done

variable {before : DelegationStore} {done : List DelegationRecordV1}

section

variable (hwallet : Midway initial before issued done wallet)

include hwallet

theorem Midway.skip (record : DelegationRecordV1) :
    Midway initial before (issued + 1) (done ++ [record]) wallet where
  valid := hwallet.valid
  issued_le := Nat.le_succ_of_le hwallet.issued_le
  pointed := hwallet.pointed
  origin id record' hrecord' :=
    (hwallet.origin id record' hrecord').imp_right (mem_append_left _)

variable {stats' stats : MasterDelegationApplyResponse}

/-- One record of a response. -/
theorem Midway.applyRecord (hroom : issued < u64Max)
    (hreplays : ReplaysLatest before (done ++ record :: records))
    (hnodup : ((done ++ record :: records).map DelegationRecordV1.key).Nodup)
    (hanchor : record.anchor = response.masterAnchor) {faults : StorageFaults}
    (happlied : wallet.applyRecord faults response stats record = (wallet', .ok stats')) :
    Midway initial before (issued + 1) (done ++ [record]) wallet' := by
  have heffect := wallet.applyRecord_effect faults stats hanchor
  rw [happlied] at heffect
  cases heffect with
  | missing | stale | kept => exact hwallet.skip record
  | @moved _ id existing account hfound haccount =>
    obtain ⟨hexisting, hanchor', haccount', hnonce⟩ :=
      (findEntryByAnchorAccountNonce_eq_some hwallet.valid).mp hfound
    have hsame : existing.anchor = record.anchor := hanchor'.trans hanchor.symm
    -- the stored record that a response brings again is the latest at its turn
    have hlatest : wallet.store.IsLatest id existing := by
      refine ⟨hexisting, fun id' record' hrecord' hanchor' haccount'' => ?_⟩
      rcases hwallet.origin id existing hexisting with hbefore | hdone
      · obtain ⟨hlatest, hgreatest⟩ := hreplays record (by simp) id existing hbefore hsame haccount'
          hnonce
        rcases hwallet.origin id' record' hrecord' with hbefore' | hdone'
        · exact hlatest.2 id' record' hbefore' hanchor' haccount''
        · rw [hnonce]
          exact hgreatest record' (mem_append_left _ hdone') (haccount''.trans haccount')
      · -- a record that is done has another key
        rw [map_append, nodup_append'] at hnodup
        have hkey : existing.key = record.key := Prod.ext haccount' hnonce
        exact absurd (mem_map_of_mem hdone) fun hmem => hnodup.2.2 hmem (by simp [hkey])
    have hmoved : Pointed initial issued
        (wallet.setDelegation existing.accountId account existing.anchor id) :=
      hwallet.toPointed.setDelegation hlatest
    rw [hsame, haccount'] at hmoved
    exact Midway.skip ⟨hmoved, hwallet.origin⟩ record
  | @added _ id store account haccount hupsert =>
    refine ⟨hwallet.toPointed.upsert hupsert (Nat.lt_of_le_of_lt hwallet.issued_le hroom), ?_⟩
    intro id' record' hrecord'
    rcases (byId_upsert hupsert).mp hrecord' with ⟨-, rfl⟩ | ⟨-, hold⟩
    · exact .inr (by simp)
    · exact (hwallet.origin id' record' hold).imp_right (mem_append_left _)

theorem Midway.applyRecords (hroom : issued + records.length ≤ u64Max)
    (hreplays : ReplaysLatest before (done ++ records))
    (hnodup : ((done ++ records).map DelegationRecordV1.key).Nodup)
    (hanchor : ∀ record ∈ records, record.anchor = response.masterAnchor) {faults : StorageFaults}
    (happlied : applyRecords faults response wallet stats records = (wallet', .ok
      stats')) : Midway initial before (issued + records.length) (done ++ records) wallet' := by
  induction records generalizing wallet stats issued done with
  | nil =>
    cases happlied
    simpa using hwallet
  | cons record records ih =>
    obtain ⟨hrecord, hrecords⟩ := forall_mem_cons.mp hanchor
    rw [applyRecords] at happlied
    rw [length_cons] at hroom
    cases hfirst : wallet.applyRecord faults response stats record with
    | mk middle outcome =>
      rw [hfirst] at happlied
      cases outcome with
      | error error => cases (Prod.mk.inj happlied).2
      | ok stats'' =>
        have hmiddle := hwallet.applyRecord (by omega) hreplays hnodup hrecord hfirst
        have hcount : issued + (records.length + 1) = issued + 1 + records.length := by omega
        rw [append_cons] at hreplays hnodup ⊢
        rw [length_cons, hcount]
        exact ih hmiddle (by omega) hreplays hnodup hrecords happlied

end

/-! ## Asking for the delegation -/

theorem usable_eq_true {currentDaa : UInt64} {anchor : Bytes32}
    (husable : account.usable accountId currentDaa anchor record = true) :
    record.anchor = anchor ∧ record.accountId = accountId := by
  obtain ⟨-, hvalid⟩ := Bool.and_eq_true_iff.mp husable
  rw [validateDelegationRecord] at hvalid
  by_cases hanchor : record.anchor = anchor
  · by_cases haccount : record.accountId = accountId
    · exact ⟨hanchor, haccount⟩
    · simp [hanchor, haccount, Except.toBool] at hvalid
  · simp [hanchor, Except.toBool] at hvalid

/-- A delegation is the one the account points to, or the latest record, which the account then
points to. -/
theorem delegationMetadata_cases (account : StealthAccount) (accountId : AccountId)
    (hvalid : store.Valid) (currentDaa : UInt64) :
    (∃ anchor, account.delegationMetadata accountId store currentDaa = ((anchor, none), account)) ∨
      (∃ id record, account.delegationMetadata accountId store currentDaa =
          ((some record.anchor, some id), account) ∧
        account.masterAnchor = some record.anchor ∧ account.delegationId = some id ∧
        store.byId id = some record ∧ record.accountId = accountId) ∨
      ∃ id record, account.delegationMetadata accountId store currentDaa =
          ((some record.anchor, some id), account.setDelegation record.anchor (some id)) ∧
        record.accountId = accountId ∧ store.IsLatest id record := by
  rw [delegationMetadata]
  cases hanchor : account.masterAnchor with
  | none => exact .inl ⟨none, rfl⟩
  | some anchor =>
    dsimp only
    cases hexplicit : account.explicitDelegation accountId store currentDaa anchor with
    | some id =>
      obtain ⟨id', hid, hbound⟩ := bind_eq_some_iff.mp hexplicit
      obtain ⟨record, hrecord, hbound⟩ := bind_eq_some_iff.mp hbound
      obtain ⟨hactive, hid'⟩ := ite_none_right_eq_some.mp hbound
      obtain rfl := some.inj hid'
      obtain ⟨rfl, haccount⟩ := usable_eq_true (Bool.and_eq_true_iff.mp hactive).2
      exact .inr (.inl ⟨id', record, rfl, rfl, hid, hrecord, haccount⟩)
    | none =>
      cases hfallback : account.fallbackDelegation accountId store currentDaa anchor with
      | some id =>
        obtain ⟨active, hfound, hbound⟩ := bind_eq_some_iff.mp hfallback
        obtain ⟨-, hid⟩ := ite_none_right_eq_some.mp hbound
        obtain ⟨id', record⟩ := active
        cases hid
        obtain ⟨hrecord, rfl, rfl, -, hgreatest⟩ :=
          (activeForAccount_eq_some hvalid).mp hfound
        refine .inr (.inr ⟨id', record, ?_, rfl, hrecord, hgreatest⟩)
        rw [StealthAccount.setDelegation]
      | none => exact .inl ⟨some anchor, rfl⟩

/-- The account as `delegation_metadata` leaves it. -/
def queryMetadata (wallet : DelegationWallet) (accountId : AccountId) (account : StealthAccount)
    (currentDaa : UInt64) : DelegationWallet :=
  { wallet with
    accounts := wallet.accounts.insert accountId
      (.stealth (account.delegationMetadata accountId wallet.store currentDaa).2) }

section

variable (hwallet : Pointed initial issued wallet)
  (haccount : wallet.accounts.lookup accountId = some (.stealth account))

include hwallet haccount

theorem Pointed.queryMetadata (currentDaa : UInt64) :
    Pointed initial issued (wallet.queryMetadata accountId account currentDaa) := by
  -- An account that is written back as it was answers every lookup as before.
  have hkept (hsame : (account.delegationMetadata accountId wallet.store currentDaa).2 = account) :
      Pointed initial issued (wallet.queryMetadata accountId account currentDaa) := by
    have hlookup : ∀ other, (wallet.queryMetadata accountId account currentDaa).accounts.lookup
        other = wallet.accounts.lookup other := by
      intro other
      rw [DelegationWallet.queryMetadata, hsame]
      by_cases hother : other = accountId
      · rw [hother, AList.lookup_insert, haccount]
      · exact AList.lookup_insert_ne hother
    refine ⟨hwallet.valid, hwallet.issued_le, fun other => ?_⟩
    rcases hwallet.pointed other with ⟨hsame', hnone⟩ | ⟨account', id, record, hpointer, hrest⟩
    · exact .inl ⟨(hlookup other).trans hsame', hnone⟩
    · exact .inr ⟨account', id, record, (hlookup other).trans hpointer, hrest⟩
  rcases delegationMetadata_cases account accountId hwallet.valid currentDaa with
    ⟨anchor, hresult⟩ | ⟨id, record, hresult, -⟩ | ⟨id, record, hresult, rfl, hlatest⟩
  · exact hkept (congrArg Prod.snd hresult)
  · exact hkept (congrArg Prod.snd hresult)
  · rw [queryMetadata, congrArg Prod.snd hresult]
    exact hwallet.setDelegation hlatest

end

/-! ## Runs -/

section Runs

variable {Digest SecretKey : Type} (keyedHash : (key message : List UInt8) → Digest)
  (scheme : MlDsa Digest SecretKey) (context : MasterContext)

/-- A successful application, or a question for a delegation. -/
inductive Step : DelegationWallet → DelegationEvent → DelegationWallet → Prop where
  | apply {wallet wallet' : DelegationWallet} {call : DelegationCall}
      {stats : MasterDelegationApplyResponse}
      (happlied : applyMasterDelegationResponseInner keyedHash scheme context wallet call.faults
        call.request call.response call.forceNetworkMismatch = (wallet', .ok stats)) :
      Step wallet (.apply call) wallet'
  | metadata {wallet : DelegationWallet} {accountId : AccountId} {account : StealthAccount}
      {currentDaa : UInt64}
      (haccount : wallet.accounts.lookup accountId = some (.stealth account)) :
      Step wallet (.metadata accountId currentDaa)
        (wallet.queryMetadata accountId account currentDaa)

/-- An application that brings back no superseded record. -/
def Supersedes (wallet : DelegationWallet) : DelegationEvent → Prop
  | .apply call => ∀ validated, validateResponse keyedHash scheme context call.request call.response
      call.forceNetworkMismatch = .ok validated → ReplaysLatest wallet.store validated.records
  | .metadata _ _ => True

def OrderedStep (wallet : DelegationWallet) (event : DelegationEvent)
    (wallet' : DelegationWallet) : Prop :=
  Step keyedHash scheme context wallet event wallet' ∧
    Supersedes keyedHash scheme context wallet event

variable {keyedHash scheme context}

theorem applyResponse_eq_ok {call : DelegationCall} {stats : MasterDelegationApplyResponse}
    (happlied : applyMasterDelegationResponseInner keyedHash scheme context wallet call.faults
      call.request call.response call.forceNetworkMismatch = (wallet', .ok stats)) :
    ∃ validated, validateResponse keyedHash scheme context call.request call.response
        call.forceNetworkMismatch = .ok validated ∧
      applyRecords call.faults call.response wallet ⟨0, validated.skipped, []⟩
        validated.records = (wallet', .ok stats) := by
  rw [applyMasterDelegationResponseInner] at happlied
  cases hvalidated : validateResponse keyedHash scheme context call.request call.response
      call.forceNetworkMismatch with
  | error error =>
    rw [hvalidated] at happlied
    cases (Prod.mk.inj happlied).2
  | ok validated =>
    refine ⟨validated, rfl, ?_⟩
    simp only [hvalidated] at happlied
    revert happlied
    generalize applyRecords call.faults call.response wallet
      ⟨0, validated.skipped, []⟩ validated.records = applied
    obtain ⟨wallet'', outcome⟩ := applied
    intro happlied
    cases outcome with
    | error error => cases (Prod.mk.inj happlied).2
    | ok stats' =>
      dsimp only at happlied
      split at happlied
      · cases (Prod.mk.inj happlied).2
      · split at happlied
        · cases (Prod.mk.inj happlied).2
        · exact happlied

theorem Pointed.step {event : DelegationEvent} (hwallet : Pointed initial issued wallet)
    (hroom : issued + event.weight ≤ u64Max)
    (hstep : OrderedStep keyedHash scheme context wallet event wallet') :
    Pointed initial (issued + event.weight) wallet' := by
  obtain ⟨hstep, hordered⟩ := hstep
  cases hstep with
  | metadata haccount => exact hwallet.queryMetadata haccount _
  | @apply _ call stats happlied =>
    obtain ⟨validated, hvalidated, hrecords⟩ := applyResponse_eq_ok happlied
    have haccepted := accepted_of_validateResponse hvalidated
    have hlength : issued + validated.records.length ≤ issued + call.response.delegations.length :=
      Nat.add_le_add_left haccepted.length_le issued
    have hstart : Midway initial wallet.store issued [] wallet :=
      ⟨hwallet, fun id record hrecord => .inl hrecord⟩
    have hend := hstart.applyRecords (Nat.le_trans hlength hroom) (hordered validated hvalidated)
      haccepted.nodup haccepted.anchor_eq hrecords
    exact { hend.toPointed with issued_le := Nat.le_trans hend.issued_le hlength }

/-- As long as no response brings back a superseded record and the identifiers do not run out,
every account that was touched points to the stored record with the greatest nonce of its anchor,
and no account uses a record below the greatest nonce. -/
theorem delegations_follow_latest {events : List DelegationEvent}
    (hempty : initial.store = .new)
    (hrun : Runs (OrderedStep keyedHash scheme context) initial events wallet)
    (hroom : (events.map DelegationEvent.weight).sum ≤ u64Max) :
    (∀ accountId, Untouched initial wallet accountId ∨ wallet.PointsToLatest accountId) ∧
      ∀ accountId account currentDaa anchor id,
        wallet.accounts.lookup accountId = some (.stealth account) →
        (account.delegationMetadata accountId wallet.store currentDaa).1 = (anchor, some id) →
        ∃ record, wallet.store.IsLatest id record ∧ anchor = some record.anchor ∧
          record.accountId = accountId := by
  have hinitial : Pointed initial 0 initial := by
    refine ⟨hempty ▸ DelegationStore.valid_new, by simp [hempty, DelegationStore.new], ?_⟩
    exact fun accountId => .inl ⟨rfl, by simp [hempty, DelegationStore.new, DelegationStore.byId]⟩
  have hwallet := hrun.invariant_of_weight (fun issued => Pointed initial issued)
    (fun event _ issued before after hcount hbefore hstep => hbefore.step hcount hstep)
    (by rwa [Nat.zero_add]) hinitial
  refine ⟨hwallet.pointed, fun accountId account currentDaa anchor id haccount hmetadata => ?_⟩
  rcases delegationMetadata_cases account accountId hwallet.valid currentDaa with
    ⟨anchor', hresult⟩ | ⟨id', record, hresult, hanchor, hpointer, hrecord, hid⟩ |
    ⟨id', record, hresult, hid, hlatest⟩
  · rw [hresult] at hmetadata
    cases (Prod.mk.inj hmetadata).2
  · -- the pointer of the account is to the latest record
    rw [hresult] at hmetadata
    cases hmetadata
    rcases hwallet.pointed accountId with
      ⟨-, hnone⟩ | ⟨account', id, record', haccount', -, hpointer', -, hlatest⟩
    · exact absurd hid (hnone _ record hrecord)
    · obtain rfl := Account.stealth.inj (Option.mem_unique haccount haccount')
      cases hpointer.symm.trans hpointer'
      cases hrecord.symm.trans hlatest.1
      exact ⟨record, hlatest, rfl, hid⟩
  · rw [hresult] at hmetadata
    cases hmetadata
    exact ⟨record, hlatest, rfl, hid⟩

end Runs

/-- The signed response to a request for the given records. -/
def sampleCall (records : List DelegationRecordV1) : DelegationCall :=
  ⟨sampleRequest records, sampleResponse records, false, noFaults⟩

/-- The entries of a store decide whether the records of a response may be applied. -/
theorem replaysLatest_of_entries {store : DelegationStore}
    (hentries : ∀ record ∈ records, ∀ entry ∈ store.entryById.entries,
      entry.2.record.nonce = record.nonce →
      (∀ entry' ∈ store.entryById.entries, entry'.2.record.nonce ≤ entry.2.record.nonce) ∧
        ∀ record' ∈ records, record'.nonce ≤ record.nonce) :
    ReplaysLatest store records := by
  intro record hrecord id existing hexisting _ _ hnonce
  obtain ⟨entry, hentry, rfl⟩ := byId_eq_some.mp hexisting
  obtain ⟨hstored, hothers⟩ := hentries record hrecord _ (lookup_eq_some.mp hentry) hnonce
  refine ⟨⟨hexisting, fun id' record' hrecord' _ _ => ?_⟩,
    fun record' hmem _ => hothers record' hmem⟩
  obtain ⟨entry', hentry', rfl⟩ := byId_eq_some.mp hrecord'
  exact hstored _ (lookup_eq_some.mp hentry')

theorem orderedStep_applySample (stats : MasterDelegationApplyResponse)
    (happlied : (applySample wallet records).2 = .ok stats)
    (hvalidated : validateResponse (fun _ => id) openScheme sampleContext (sampleRequest records)
      (sampleResponse records) false = .ok ⟨records.map signedSample, 0⟩)
    (hreplays : ReplaysLatest wallet.store (records.map signedSample)) :
    OrderedStep (fun _ => id) openScheme sampleContext wallet (.apply (sampleCall records))
      (applySample wallet records).1 := by
  refine ⟨.apply (Prod.ext rfl happlied), fun validated hvalidated' => ?_⟩
  cases hvalidated.symm.trans hvalidated'
  exact hreplays

/-- A delegation, its revocation, and the revocation once more. -/
theorem delegations_follow_latest_replayed :
    let delegated := [sampleDelegation 1 1 .active]
    let revoked := [sampleDelegation 1 2 (.revoked 150)]
    ∃ wallet, Runs (OrderedStep (fun _ => id) openScheme sampleContext) sampleWallet
        [.apply (sampleCall delegated), .apply (sampleCall revoked), .apply (sampleCall revoked)]
        wallet ∧
      ∀ accountId, Untouched sampleWallet wallet accountId ∨ wallet.PointsToLatest accountId := by
  intro delegated revoked
  have hrun : Runs (OrderedStep (fun _ => id) openScheme sampleContext) sampleWallet
      [.apply (sampleCall delegated), .apply (sampleCall revoked), .apply (sampleCall revoked)] _ :=
    .cons (orderedStep_applySample ⟨1, 0, []⟩ (by decide +kernel) (by decide +kernel)
        (replaysLatest_of_entries (by decide +kernel))) <|
      .cons (orderedStep_applySample ⟨1, 0, []⟩ (by decide +kernel) (by decide +kernel)
        (replaysLatest_of_entries (by decide +kernel))) <|
      .cons (orderedStep_applySample ⟨0, 1, []⟩ (by decide +kernel) (by decide +kernel)
        (replaysLatest_of_entries (by decide +kernel))) <| .nil _
  exact ⟨_, hrun, (delegations_follow_latest rfl hrun (by decide)).1⟩

/-- The first delegation of an account is revoked by a second record; the response with the first
one, applied again, moves the account back to it, and the account uses it although the store still
holds the revocation. -/
theorem delegations_roll_back :
    let first := applySample sampleWallet [sampleDelegation 1 1 .active]
    let second := applySample first.1 [sampleDelegation 1 2 (.revoked 150)]
    let replayed := applySample second.1 [sampleDelegation 1 1 .active]
    first.2 = .ok ⟨1, 0, []⟩ ∧ second.2 = .ok ⟨1, 0, []⟩ ∧ replayed.2 = .ok ⟨0, 1, []⟩ ∧
      (replayed.1.store.byId 1).map (fun record => (record.nonce, record.status)) =
        some (2, .revoked 150) ∧
      ∃ account, replayed.1.accounts.lookup 1 = some (.stealth account) ∧
        (account.delegationMetadata 1 replayed.1.store 160).1 = (some 7, some 0) := by
  refine ⟨?_, ?_, ?_, ?_, ⟨some 7, some 0, 3, 2⟩, ?_⟩ <;> decide +kernel

end DelegationWallet

end Qaspa.Wallet
