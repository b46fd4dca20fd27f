import Qaspa.Script.Opcodes
import Qaspa.Wallet.EphemeralKeyStore
import Qaspa.Wallet.UtxoReservation

/-! # Stealth outputs in notifications

Stealth outputs have no address: an account recognizes them by its secret keys. The processor asks
the accounts in turn who owns an added output, notes the owner in an index, and finds it there when
the output is removed. A notification is processed in two passes, the added outputs first and the
removed ones second, so that an output on both sides ends up removed.
-/

namespace Qaspa.Wallet

open HashMap Script List Option AList UtxoWorld

/-! ## The delegation of an output -/

/-- The delegation that covers an output, or the reason why none does. -/
structure SelectedDelegation where
  id : Option DelegationId
  record : Option DelegationRecordV1
  orphanReason : Option OrphanReason

def DelegationRecordV1.covers (record : DelegationRecordV1) (blockDaa : UInt64) : Bool :=
  record.status == .active && record.validFromDaa ≤ blockDaa &&
    (match record.validUntilDaa with
    | some limit => blockDaa ≤ limit
    | none => true)

/-- The first of the covering records with the greatest nonce. -/
def selectCovering (blockDaa : UInt64) (candidates : List (DelegationId × DelegationRecordV1)) :
    Option (DelegationId × DelegationRecordV1) :=
  candidates.foldl
    (fun covering candidate =>
      if candidate.2.covers blockDaa &&
          (match covering with
          | some best => best.2.nonce < candidate.2.nonce
          | none => true) then some candidate
      else covering)
    none

def endedBefore (blockDaa : UInt64) (candidates : List (DelegationId × DelegationRecordV1)) :
    Bool :=
  match maxByKey UInt64.toNat (candidates.filterMap fun candidate => candidate.2.validUntilDaa) with
  | some limit => limit < blockDaa
  | none => false

/-- A revoked record with the greatest nonce overrides all earlier ones. -/
def selectDelegationFromRecords (blockDaa : UInt64)
    (candidates : List (DelegationId × DelegationRecordV1)) : SelectedDelegation :=
  match maxByKey (fun candidate => candidate.2.nonce.toNat) candidates with
  | none => ⟨none, none, some .noDelegation⟩
  | some (_, latest) =>
    match latest.status with
    | .revoked _ =>
      if endedBefore blockDaa candidates then ⟨none, none, some .delegationExpired⟩
      else ⟨none, some latest, some .delegationRevoked⟩
    | .active | .expired _ =>
      match selectCovering blockDaa candidates with
      | some (id, record) => ⟨some id, some record, none⟩
      | none =>
        if endedBefore blockDaa candidates then ⟨none, none, some .delegationExpired⟩
        else ⟨none, none, some .noDelegation⟩

def DelegationStore.hasAnyForAccount (store : DelegationStore) (accountId : AccountId) : Bool :=
  store.entryById.entries.any fun entry => entry.2.record.accountId == accountId

def selectDelegationForUtxo (store : DelegationStore) (masterAnchor : Option Bytes32)
    (accountId : AccountId) (blockDaa : UInt64) : SelectedDelegation :=
  match masterAnchor with
  | none => ⟨none, none, none⟩
  | some anchor =>
    let candidates := (store.byAnchor anchor).filter fun candidate =>
      candidate.2.accountId == accountId
    if candidates.isEmpty then
      if store.hasAnyForAccount accountId then ⟨none, none, some .anchorMismatch⟩
      else ⟨none, none, some .noDelegation⟩
    else selectDelegationFromRecords blockDaa candidates

/-! ### Revocations -/

section Selection

variable {blockDaa : UInt64} {candidates : List (DelegationId × DelegationRecordV1)}

/-- An active record whose window contains the score. -/
@[mk_iff]
structure DelegationRecordV1.ActiveAt (record : DelegationRecordV1) (blockDaa : UInt64) : Prop where
  active : record.status = .active
  starts : record.validFromDaa ≤ blockDaa
  ends : ∀ limit ∈ record.validUntilDaa, blockDaa ≤ limit

def DelegationRecordV1.Revoked (record : DelegationRecordV1) : Prop :=
  ∃ revokedDaa, record.status = .revoked revokedDaa

theorem DelegationRecordV1.covers_iff {record : DelegationRecordV1} :
    record.covers blockDaa = true ↔ record.ActiveAt blockDaa := by
  rw [activeAt_iff]
  cases hlimit : record.validUntilDaa <;> simp [covers, hlimit, and_assoc]

/-- The fold keeps the newest of the covering records it has passed. -/
theorem selectCovering_spec (blockDaa : UInt64)
    (candidates : List (DelegationId × DelegationRecordV1)) :
    (∀ best ∈ selectCovering blockDaa candidates,
      best ∈ candidates ∧ best.2.ActiveAt blockDaa) ∧
    ∀ other ∈ candidates, other.2.ActiveAt blockDaa →
      ∃ best ∈ selectCovering blockDaa candidates, other.2.nonce ≤ best.2.nonce := by
  induction candidates using reverseRecOn with
  | nil => exact ⟨nofun, nofun⟩
  | append_singleton candidates last ih =>
    have hstep : selectCovering blockDaa (candidates ++ [last]) =
        if last.2.covers blockDaa && (selectCovering blockDaa candidates).all
          (fun best => best.2.nonce < last.2.nonce) then some last
        else selectCovering blockDaa candidates := by
      rw [selectCovering, foldl_append, ← selectCovering]
      cases selectCovering blockDaa candidates <;> rfl
    obtain ⟨hheld, hbound⟩ := ih
    rw [hstep, forall_mem_append, forall_mem_singleton]
    split
    next hnewer =>
      rw [Bool.and_eq_true, DelegationRecordV1.covers_iff, Option.all_eq_true] at hnewer
      refine ⟨?_, fun other hother hactive => ⟨last, rfl, ?_⟩,
        fun _ => ⟨last, rfl, UInt64.le_refl _⟩⟩
      · rintro best ⟨⟩
        exact ⟨mem_append_right _ (mem_singleton_self _), hnewer.1⟩
      · obtain ⟨best, hbest, hle⟩ := hbound other hother hactive
        have hlt := of_decide_eq_true (hnewer.2 best hbest)
        exact UInt64.le_of_lt (UInt64.lt_of_le_of_lt hle hlt)
    next holder =>
      rw [Bool.and_eq_true, DelegationRecordV1.covers_iff, Option.all_eq_true] at holder
      refine ⟨fun best hbest => (hheld best hbest).imp_left (mem_append_left _), hbound, ?_⟩
      intro hactive
      by_contra hnone
      exact holder ⟨hactive, fun best hbest => decide_eq_true
        (UInt64.not_le.mp fun hle => hnone ⟨best, hbest, hle⟩)⟩

/-- The newest of the candidates is revoked. -/
def NewestRevoked (candidates : List (DelegationId × DelegationRecordV1)) : Prop :=
  ∃ newest ∈ candidates, newest.2.Revoked ∧ ∀ other ∈ candidates, other.2.nonce ≤ newest.2.nonce

/-- The newest covering record is selected, unless the newest record is revoked. -/
theorem selectDelegationFromRecords_of_valid (hvalid : ¬ NewestRevoked candidates) :
    (selectDelegationFromRecords blockDaa candidates).id =
        (selectCovering blockDaa candidates).map Prod.fst ∧
      (selectDelegationFromRecords blockDaa candidates).record =
        (selectCovering blockDaa candidates).map Prod.snd := by
  rw [selectDelegationFromRecords]
  cases hlatest : maxByKey (fun candidate => candidate.2.nonce.toNat) candidates with
  | none =>
    rw [maxByKey_eq_none.mp hlatest]
    exact ⟨rfl, rfl⟩
  | some latest =>
    obtain ⟨hmem, hle⟩ := maxByKey_eq_some hlatest
    dsimp only
    split
    next revokedDaa hrevoked => exact absurd ⟨latest, hmem, ⟨revokedDaa, hrevoked⟩, hle⟩ hvalid
    all_goals
      split
      next hcovering =>
        rw [hcovering]
        exact ⟨rfl, rfl⟩
      next hcovering =>
        rw [hcovering]
        split <;> exact ⟨rfl, rfl⟩

section Distinct

variable (hdistinct : (candidates.map fun candidate => candidate.2.nonce).Nodup)

include hdistinct

theorem eq_of_nonces {first second : DelegationId × DelegationRecordV1}
    (hfirst : first ∈ candidates)
    (hsecond : second ∈ candidates) (hle : first.2.nonce ≤ second.2.nonce)
    (hge : second.2.nonce ≤ first.2.nonce) : first = second :=
  List.inj_on_of_nodup_map hdistinct hfirst hsecond (UInt64.le_antisymm hle hge)

theorem selectDelegationFromRecords_of_revoked (hrevoked : NewestRevoked candidates) :
    (selectDelegationFromRecords blockDaa candidates).id = none := by
  obtain ⟨newest, hnewest, ⟨revokedDaa, hstatus⟩, hle⟩ := hrevoked
  rw [selectDelegationFromRecords]
  cases hlatest : maxByKey (fun candidate => candidate.2.nonce.toNat) candidates with
  | none => rfl
  | some latest =>
    obtain ⟨hmem, hge⟩ := maxByKey_eq_some hlatest
    obtain rfl := eq_of_nonces hdistinct hnewest hmem (hge newest hnewest) (hle latest hmem)
    simp only [hstatus]
    split <;> rfl

/-- A selected delegation is the newest of those that cover the score, and no newer record is
revoked, if and only if the newest record is revoked, no record covers the score, or a covering
record is newer than every revoked one. -/
theorem selectDelegationFromRecords_not_revoked :
    (∀ id, (selectDelegationFromRecords blockDaa candidates).id = some id →
      ∃ record, (id, record) ∈ candidates ∧
        (selectDelegationFromRecords blockDaa candidates).record = some record ∧
        record.ActiveAt blockDaa ∧
        (∀ other ∈ candidates, other.2.ActiveAt blockDaa → other.2.nonce ≤ record.nonce) ∧
        ∀ other ∈ candidates, record.nonce < other.2.nonce → ¬ other.2.Revoked) ↔
    NewestRevoked candidates ∨ (∀ other ∈ candidates, ¬ other.2.ActiveAt blockDaa) ∨
      ∀ revoked ∈ candidates, revoked.2.Revoked →
        ∃ other ∈ candidates, other.2.ActiveAt blockDaa ∧ revoked.2.nonce < other.2.nonce := by
  by_cases hrevoked : NewestRevoked candidates
  · rw [selectDelegationFromRecords_of_revoked hdistinct hrevoked]
    exact iff_of_true nofun (.inl hrevoked)
  obtain ⟨hheld, hbound⟩ := selectCovering_spec blockDaa candidates
  obtain ⟨hid, hrecord⟩ := selectDelegationFromRecords_of_valid hrevoked
  rw [hid, hrecord, or_iff_right hrevoked]
  cases hcovering : selectCovering blockDaa candidates with
  | none =>
    refine iff_of_true nofun (.inl fun other hother hactive => ?_)
    obtain ⟨best, hbest, _⟩ := hbound other hother hactive
    cases hcovering.symm.trans hbest
  | some best =>
    obtain ⟨hmem, hactive⟩ := hheld best hcovering
    constructor
    · intro hselected
      obtain ⟨record, hrecordMem, _, hcovers, _, hnewer⟩ := hselected best.1 rfl
      refine .inr fun revoked hrevokedMem hstatus => ⟨_, hrecordMem, hcovers, ?_⟩
      by_contra hle
      by_cases hge : revoked.2.nonce ≤ record.nonce
      · obtain rfl := eq_of_nonces hdistinct hrecordMem hrevokedMem (UInt64.not_lt.mp hle) hge
        obtain ⟨revokedDaa, hstatus⟩ := hstatus
        cases hstatus.symm.trans hcovers.active
      · exact hnewer revoked hrevokedMem (UInt64.not_le.mp hge) hstatus
    · rintro hcases id ⟨⟩
      have hgreatest : ∀ other ∈ candidates, other.2.ActiveAt blockDaa →
          other.2.nonce ≤ best.2.nonce := by
        intro other hother hcovers
        obtain ⟨_, hbest, hle⟩ := hbound other hother hcovers
        cases hcovering.symm.trans hbest
        exact hle
      refine ⟨best.2, hmem, rfl, hactive, hgreatest, fun other hother hnewer hstatus => ?_⟩
      rcases hcases with hnone | hafter
      · exact hnone best hmem hactive
      · obtain ⟨later, hlater, hcovers, hlt⟩ := hafter other hother hstatus
        exact UInt64.lt_irrefl _
          (UInt64.lt_of_lt_of_le (UInt64.lt_trans hnewer hlt) (hgreatest later hlater hcovers))

end Distinct

/-- A delegation, its revocation and a delegation that starts at score 500. -/
def renewedRecords : List (DelegationId × DelegationRecordV1) :=
  [(0, sampleRecord), (1, { sampleRecord with nonce := 2, status := .revoked 120 }),
    (2, { sampleRecord with nonce := 3, validFromDaa := 500, validUntilDaa := none })]

/-- Before the new delegation starts, the selection falls back to the revoked one. -/
theorem selectDelegationFromRecords_selects_revoked :
    (renewedRecords.map fun candidate => candidate.2.nonce).Nodup ∧
      (selectDelegationFromRecords 150 renewedRecords).id = some 0 ∧
      (0, sampleRecord) ∈ renewedRecords ∧
      ∃ other ∈ renewedRecords, sampleRecord.nonce < other.2.nonce ∧ other.2.Revoked := by
  refine ⟨by decide, by decide, .head _, ?_⟩
  exact ⟨_, .tail _ (.head _), by decide, 120, rfl⟩

theorem selectDelegationFromRecords_not_revoked_renewed :
    (selectDelegationFromRecords 500 renewedRecords).id = some 2 ∧
      ∃ record, (2, record) ∈ renewedRecords ∧ record.ActiveAt 500 ∧
        ∀ other ∈ renewedRecords, record.nonce < other.2.nonce → ¬ other.2.Revoked := by
  have hselected : (selectDelegationFromRecords 500 renewedRecords).id = some 2 := by decide
  have hrevoked : ∀ revoked ∈ renewedRecords, revoked.2.Revoked →
      ∃ other ∈ renewedRecords, other.2.ActiveAt 500 ∧ revoked.2.nonce < other.2.nonce := by
    refine List.forall_mem_cons.mpr ⟨nofun, List.forall_mem_cons.mpr ⟨fun _ => ?_, ?_⟩⟩
    · exact ⟨_, List.mem_of_getElem? (i := 2) rfl, ⟨rfl, by decide, nofun⟩, by decide⟩
    · simp [DelegationRecordV1.Revoked, sampleRecord]
  obtain ⟨record, hmem, _, hactive, _, hvalid⟩ :=
    (selectDelegationFromRecords_not_revoked (by decide)).mpr (.inr (.inr hrevoked)) 2 hselected
  exact ⟨hselected, record, hmem, hactive, hvalid⟩

end Selection

/-! ## Accounts -/

structure RpcUtxosByAddressesEntry where
  hasAddress : Bool
  outpoint : TransactionOutpoint
  utxoEntry : UtxoEntry
  deriving DecidableEq, Repr

def RpcUtxosByAddressesEntry.toReference (entry : RpcUtxosByAddressesEntry) : UtxoEntryReference :=
  ⟨entry.outpoint, entry.utxoEntry⟩

/-- What the handlers read and never change: the decoding of an output script, the periods of the
network and the delegations of the wallet. -/
structure StealthSetting (Output : Type) where
  parse : List UInt8 → Option Output
  params : NetworkParams
  delegations : DelegationStore

/-- An account. The secret keys recognize an output and derive the key that spends it. -/
structure StealthHandler (Output : Type) where
  unlocked : Bool
  recognize : Output → Option EphemeralKeyData
  masterAnchor : Option Bytes32
  ephemeralKeys : EphemeralKeyStore
  utxos : UtxoWorld

section Model

variable {Output : Type} (setting : StealthSetting Output)

def extractStealthOutput (scriptPublicKey : ScriptPublicKey) : Option Output :=
  if scriptPublicKey.version ≠ stealthScriptVersion then none
  else if scriptPublicKey.script.length ≠ stealthOutputSize then none
  else setting.parse scriptPublicKey.script

namespace StealthHandler

def tryClaimUtxoInternal (handler : StealthHandler Output) (scriptPublicKey : ScriptPublicKey) :
    Option EphemeralKeyData :=
  if scriptPublicKey.version ≠ stealthScriptVersion then none
  else (extractStealthOutput setting scriptPublicKey).bind handler.recognize

/-- Store the key of an output with the delegation that covers it. -/
def storeKey (handler : StealthHandler Output) (accountId : AccountId)
    (entry : RpcUtxosByAddressesEntry) (data : EphemeralKeyData) : StealthHandler Output :=
  let blockDaa := entry.utxoEntry.blockDaaScore
  let safetyMargin := UInt64.ofNat setting.params.userTransactionMaturityPeriodDaa
  let selected :=
    selectDelegationForUtxo setting.delegations handler.masterAnchor accountId blockDaa
  let validUntil := (selected.record.bind (·.validUntilDaa)).map fun limit =>
    EphemeralKeyStore.saturatingAdd limit safetyMargin
  let status : EphemeralKeyStatus :=
    match selected.orphanReason with
    | some reason => .orphaned reason
    | none => .pending blockDaa
  { handler with
    ephemeralKeys := (handler.ephemeralKeys.storeWithMetadata entry.outpoint data blockDaa
      handler.masterAnchor selected.id validUntil).setStatus entry.outpoint status }

def tryClaimUtxo (handler : StealthHandler Output) (accountId : AccountId)
    (entry : RpcUtxosByAddressesEntry) : Option (StealthHandler Output) :=
  if handler.unlocked then
    (handler.tryClaimUtxoInternal setting entry.utxoEntry.scriptPublicKey).map
      (handler.storeKey setting accountId entry)
  else none

def addUtxo (handler : StealthHandler Output) (entry : RpcUtxosByAddressesEntry)
    (currentDaaScore : UInt64) : StealthHandler Output :=
  { handler with
    utxos :=
      handler.utxos.handleUtxoAdded setting.params [entry.toReference] currentDaaScore.toNat }

/-- Mark the key and remove the output. -/
def removeUtxo (handler : StealthHandler Output) (entry : RpcUtxosByAddressesEntry)
    (currentDaaScore : UInt64) : StealthHandler Output :=
  { handler with
    ephemeralKeys := handler.ephemeralKeys.markRemoved entry.outpoint currentDaaScore
    utxos := handler.utxos.handleUtxoRemoved [entry.toReference] }

end StealthHandler

/-! ## The processor -/

structure StealthWorld (Output : Type) where
  handlers : HashMap AccountId (StealthHandler Output)
  outpointIndex : HashMap TransactionOutpoint AccountId

namespace StealthWorld

def getHandlerForOutpoint (world : StealthWorld Output) (outpoint : TransactionOutpoint) :
    Option (AccountId × StealthHandler Output) :=
  (world.outpointIndex.lookup outpoint).bind fun id =>
    (world.handlers.lookup id).map fun handler => (id, handler)

/-- The first account that claims an output. -/
def claimant (world : StealthWorld Output) (entry : RpcUtxosByAddressesEntry) :
    Option (AccountId × StealthHandler Output) :=
  world.handlers.entries.findSome? fun registered =>
    (registered.2.tryClaimUtxo setting registered.1 entry).map fun handler =>
      (registered.1, handler)

def setHandler (world : StealthWorld Output) (id : AccountId) (handler : StealthHandler Output) :
    StealthWorld Output :=
  { world with handlers := world.handlers.insert id handler }

def addEntry (currentDaaScore : UInt64) (world : StealthWorld Output)
    (entry : RpcUtxosByAddressesEntry) : StealthWorld Output :=
  match world.getHandlerForOutpoint entry.outpoint with
  | some (id, handler) => world.setHandler id (handler.addUtxo setting entry currentDaaScore)
  | none =>
    match world.claimant setting entry with
    | some (id, handler) =>
      { world.setHandler id (handler.addUtxo setting entry currentDaaScore) with
        outpointIndex := world.outpointIndex.insert entry.outpoint id }
    | none => world

def removeEntry (currentDaaScore : UInt64) (world : StealthWorld Output)
    (entry : RpcUtxosByAddressesEntry) : StealthWorld Output :=
  match world.getHandlerForOutpoint entry.outpoint with
  | some (id, handler) =>
    { world.setHandler id (handler.removeUtxo entry currentDaaScore) with
      outpointIndex := world.outpointIndex.erase entry.outpoint }
  | none => world

def handleStealthUtxoChanged (world : StealthWorld Output)
    (added removed : List RpcUtxosByAddressesEntry) (currentDaaScore : UInt64) :
    StealthWorld Output :=
  removed.foldl (removeEntry currentDaaScore)
    (added.foldl (addEntry setting currentDaaScore) world)

/-- The entries of a general notification that are taken for stealth outputs. -/
def stealthEntries (entries : List RpcUtxosByAddressesEntry) : List RpcUtxosByAddressesEntry :=
  entries.filter fun entry =>
    !entry.hasAddress && entry.utxoEntry.scriptPublicKey.version == stealthScriptVersion

/-- The entries without an address; those with one concern the contexts of other accounts. -/
def handleUtxoChanged (world : StealthWorld Output)
    (added removed : List RpcUtxosByAddressesEntry) (currentDaaScore : UInt64) :
    StealthWorld Output :=
  world.handleStealthUtxoChanged setting (stealthEntries added) (stealthEntries removed)
    currentDaaScore

end StealthWorld

end Model

/-! ## One output in a context -/

namespace UtxoWorld

variable {world : UtxoWorld} {params : NetworkParams} {currentDaaScore : Nat}

theorem insert_spec (utxo : UtxoEntryReference) (forceMaturity : Bool) :
    (world.insert params utxo currentDaaScore forceMaturity).processor.outgoing =
        world.processor.outgoing ∧
      ∀ outpoint, outpoint ∈ (world.insert params utxo currentDaaScore forceMaturity).context.map ↔
        outpoint ∈ world.context.map ∨ outpoint = utxo.outpoint := by
  unfold insert
  split
  next hmem => exact ⟨rfl, fun outpoint => (or_iff_left_of_imp fun heq => heq ▸ hmem).symm⟩
  · obtain ⟨-, hmap, houtgoing⟩ := world.outgoing_place utxo
      (if forceMaturity then .confirmed else utxo.maturity params currentDaaScore)
    refine ⟨houtgoing, fun outpoint => ?_⟩
    rw [hmap, mem_insert, or_comm]

/-- An added output is tracked unless it was made by a batch transaction. -/
theorem handleUtxoAdded_spec (utxo : UtxoEntryReference) :
    (world.handleUtxoAdded params [utxo] currentDaaScore).processor.outgoing =
        world.processor.outgoing ∧
      ∀ outpoint, outpoint ∈ (world.handleUtxoAdded params [utxo] currentDaaScore).context.map ↔
        outpoint ∈ world.context.map ∨
          outpoint = utxo.outpoint ∧ ¬BatchOutput world.processor.outgoing utxo.outpoint := by
  rw [handleUtxoAdded, foldl_cons, foldl_nil]
  unfold addUtxo BatchOutput UtxoEntryReference.transactionId
  cases houtgoing : world.processor.outgoing.lookup utxo.outpoint.transactionId with
  | none => simpa using insert_spec utxo false
  | some tx =>
    cases hbatch : tx.isBatch with
    | true => simp [hbatch]
    | false => simpa [hbatch] using insert_spec utxo true

theorem removeOne_spec (world : UtxoWorld) (mature : List TransactionOutpoint)
    (removed : TransactionOutpoint) :
    (removeOne (world, mature) removed).1.processor.outgoing = world.processor.outgoing ∧
      ∀ outpoint, outpoint ∈ (removeOne (world, mature) removed).1.context.map ↔
        outpoint ∈ world.context.map ∧ outpoint ≠ removed := by
  unfold removeOne
  by_cases hmap : removed ∈ world.context.map
  · have herase : ∀ outpoint, outpoint ∈ world.context.map.erase removed ↔
        outpoint ∈ world.context.map ∧ outpoint ≠ removed := fun outpoint => by
      rw [mem_erase, and_comm]
    rw [if_pos hmap]
    split
    · exact ⟨rfl, herase⟩
    · split
      · exact ⟨rfl, herase⟩
      · exact ⟨rfl, herase⟩
  · rw [if_neg hmap]
    refine ⟨rfl, fun _ => (and_iff_left_of_imp ?_).symm⟩
    rintro hmem rfl
    exact hmap hmem

end UtxoWorld

/-! ## One entry of a notification -/

namespace StealthWorld

variable {Output : Type} {setting : StealthSetting Output} {currentDaaScore : UInt64}

/-- An account owns the outputs whose scripts its keys recognize. -/
def Owns (setting : StealthSetting Output) (handler : StealthHandler Output)
    (scriptPublicKey : ScriptPublicKey) : Prop :=
  (handler.tryClaimUtxoInternal setting scriptPublicKey).isSome

def Tracks (handler : StealthHandler Output) (outpoint : TransactionOutpoint) : Prop :=
  outpoint ∈ handler.utxos.context.map

def HoldsKey (handler : StealthHandler Output) (outpoint : TransactionOutpoint) : Prop :=
  outpoint ∈ handler.ephemeralKeys.keys

/-- A registered account. -/
def Registered (world : StealthWorld Output) (id : AccountId) (handler : StealthHandler Output) :
    Prop :=
  world.handlers.lookup id = some handler

/-- What the processor knows before a notification. The transaction that made an output fixes its
script, an output has one owner, the tracked outputs are in the index, and the index lists outputs
of the account whose keys are held. -/
structure Known (setting : StealthSetting Output)
    (script : TransactionOutpoint → ScriptPublicKey) (world : StealthWorld Output) : Prop where
  exclusive : ∀ id id' handler handler' scriptPublicKey, world.Registered id handler →
    world.Registered id' handler' → Owns setting handler scriptPublicKey →
      Owns setting handler' scriptPublicKey → id = id'
  tracked : ∀ id handler outpoint, world.Registered id handler → Tracks handler outpoint →
    world.outpointIndex.lookup outpoint = some id
  indexed : ∀ outpoint id, world.outpointIndex.lookup outpoint = some id →
    ∃ handler, world.Registered id handler ∧ Owns setting handler (script outpoint) ∧
      HoldsKey handler outpoint

/-- The parts of an account that no notification changes. -/
structure SameAccount (handler handler' : StealthHandler Output) : Prop where
  unlocked : handler'.unlocked = handler.unlocked
  recognize : handler'.recognize = handler.recognize
  outgoing : handler'.utxos.processor.outgoing = handler.utxos.processor.outgoing
  keys : ∀ outpoint, HoldsKey handler outpoint → HoldsKey handler' outpoint

theorem SameAccount.refl (handler : StealthHandler Output) : SameAccount handler handler :=
  ⟨rfl, rfl, rfl, fun _ hkey => hkey⟩

theorem SameAccount.trans {first second third : StealthHandler Output}
    (hfirst : SameAccount first second) (hsecond : SameAccount second third) :
    SameAccount first third :=
  ⟨hsecond.unlocked.trans hfirst.unlocked, hsecond.recognize.trans hfirst.recognize,
    hsecond.outgoing.trans hfirst.outgoing, fun outpoint hkey =>
      hsecond.keys outpoint (hfirst.keys outpoint hkey)⟩

variable {handler handler' : StealthHandler Output}

theorem SameAccount.owns (hsame : SameAccount handler handler')
    (scriptPublicKey : ScriptPublicKey) :
    Owns setting handler' scriptPublicKey ↔ Owns setting handler scriptPublicKey := by
  unfold Owns StealthHandler.tryClaimUtxoInternal
  rw [hsame.recognize]

/-- The effect of an added output on its owner. -/
structure Gains (handler handler' : StealthHandler Output) (outpoint : TransactionOutpoint) :
    Prop extends SameAccount handler handler' where
  key : HoldsKey handler' outpoint
  tracks : ∀ other, Tracks handler' other ↔ Tracks handler other ∨
    other = outpoint ∧ ¬UtxoWorld.BatchOutput handler.utxos.processor.outgoing outpoint

/-- The effect of a removed output on its owner. -/
structure Loses (handler handler' : StealthHandler Output) (outpoint : TransactionOutpoint) :
    Prop extends SameAccount handler handler' where
  tracks : ∀ other, Tracks handler' other ↔ Tracks handler other ∧ other ≠ outpoint

variable {entry : RpcUtxosByAddressesEntry}

theorem gains_addUtxo (hkey : HoldsKey handler entry.outpoint) :
    Gains handler (handler.addUtxo setting entry currentDaaScore) entry.outpoint where
  unlocked := rfl
  recognize := rfl
  outgoing := (handleUtxoAdded_spec _).1
  keys := fun _ hkey => hkey
  key := hkey
  tracks := (handleUtxoAdded_spec _).2

variable {id : AccountId}

theorem gains_storeKey (data : EphemeralKeyData) :
    Gains handler ((handler.storeKey setting id entry data).addUtxo setting entry currentDaaScore)
      entry.outpoint where
  unlocked := rfl
  recognize := rfl
  outgoing := (handleUtxoAdded_spec _).1
  keys := fun _ hkey => (mem_insert _).mpr (.inr hkey)
  key := (mem_insert _).mpr (.inl rfl)
  tracks := (handleUtxoAdded_spec _).2

variable {script : TransactionOutpoint → ScriptPublicKey} {world : StealthWorld Output}

variable {world' : StealthWorld Output}

theorem registered_insert {other : AccountId} {found : StealthHandler Output}
    (hhandlers : world'.handlers = world.handlers.insert id handler') :
    world'.Registered other found ↔
      other = id ∧ handler' = found ∨ other ≠ id ∧ world.Registered other found := by
  unfold Registered
  rw [hhandlers, lookup_insert_eq_some]

section Known

variable (hknown : Known setting script world)

include hknown

/-- What an added entry can do: its owner gains it, or no account that is unlocked owns it. -/
theorem addEntry_cases (currentDaaScore : UInt64)
    (hscript : entry.utxoEntry.scriptPublicKey = script entry.outpoint) :
    (∃ id handler handler', world.Registered id handler ∧
      Owns setting handler (script entry.outpoint) ∧ Gains handler handler' entry.outpoint ∧
      (addEntry setting currentDaaScore world entry).handlers = world.handlers.insert id handler' ∧
      ∀ outpoint, (addEntry setting currentDaaScore world entry).outpointIndex.lookup outpoint =
        if outpoint = entry.outpoint then some id else world.outpointIndex.lookup outpoint) ∨
    addEntry setting currentDaaScore world entry = world ∧
      ∀ id handler, world.Registered id handler → handler.unlocked = true →
        ¬Owns setting handler (script entry.outpoint) := by
  unfold addEntry getHandlerForOutpoint
  cases hindex : world.outpointIndex.lookup entry.outpoint with
  | some id =>
    obtain ⟨handler, hregistered, howns, hkey⟩ := hknown.indexed entry.outpoint id hindex
    rw [Registered] at hregistered
    rw [bind_some, hregistered, map_some]
    dsimp only
    refine .inl ⟨id, handler, _, hregistered, howns, gains_addUtxo hkey, rfl, fun outpoint => ?_⟩
    split
    next heq => exact heq ▸ hindex
    · rfl
  | none =>
    rw [bind_none]
    cases hclaimant : world.claimant setting entry with
    | none =>
      refine .inr ⟨rfl, fun id handler hregistered hunlocked => ?_⟩
      rw [← hscript]
      rw [claimant, findSome?_eq_none_iff] at hclaimant
      have hnone := hclaimant ⟨id, handler⟩ (lookup_eq_some.mp hregistered)
      simp only [StealthHandler.tryClaimUtxo, hunlocked, if_true, map_eq_none_iff] at hnone
      simp [Owns, hnone]
    | some claimed =>
      -- the account that claims the output owns it and stores its key
      obtain ⟨⟨id, handler⟩, hentry, hsome⟩ := exists_of_findSome?_eq_some hclaimant
      obtain ⟨handler', hclaim, rfl⟩ := map_eq_some_iff.mp hsome
      unfold StealthHandler.tryClaimUtxo at hclaim
      split at hclaim
      · obtain ⟨data, hdata, rfl⟩ := map_eq_some_iff.mp hclaim
        rw [hscript] at hdata
        exact .inl ⟨id, handler, _, lookup_eq_some.mpr hentry, isSome_of_eq_some hdata,
          gains_storeKey data, rfl, fun outpoint => lookup_insert_eq_ite _ _ _ _⟩
      · cases hclaim

/-- What a removed entry can do: its owner loses it, or no account tracks it. -/
theorem removeEntry_cases (currentDaaScore : UInt64) (entry : RpcUtxosByAddressesEntry) :
    (∃ id handler handler', world.Registered id handler ∧
      world.outpointIndex.lookup entry.outpoint = some id ∧
      Loses handler handler' entry.outpoint ∧
      (removeEntry currentDaaScore world entry).handlers = world.handlers.insert id handler' ∧
      (removeEntry currentDaaScore world entry).outpointIndex =
        world.outpointIndex.erase entry.outpoint) ∨
    removeEntry currentDaaScore world entry = world ∧
      world.outpointIndex.lookup entry.outpoint = none := by
  unfold removeEntry getHandlerForOutpoint
  cases hindex : world.outpointIndex.lookup entry.outpoint with
  | some id =>
    obtain ⟨handler, hregistered, -, -⟩ := hknown.indexed entry.outpoint id hindex
    rw [Registered] at hregistered
    rw [bind_some, hregistered, map_some]
    obtain ⟨houtgoing, htracks⟩ := removeOne_spec handler.utxos [] entry.outpoint
    exact .inl ⟨id, handler, handler.removeUtxo entry currentDaaScore, hregistered, rfl,
      ⟨⟨rfl, rfl, houtgoing, fun _ hkey => hkey⟩, htracks⟩, rfl, rfl⟩
  | none => exact .inr ⟨rfl, rfl⟩

/-- One account changes, and the index at the outpoint of an entry. -/
theorem Known.replace (changed : TransactionOutpoint) (slot : Option AccountId)
    (hregistered : world.Registered id handler) (hsame : SameAccount handler handler')
    (hhandlers : world'.handlers = world.handlers.insert id handler')
    (hindex : ∀ outpoint, world'.outpointIndex.lookup outpoint =
      if outpoint = changed then slot else world.outpointIndex.lookup outpoint)
    (hothers : ∀ outpoint ≠ changed, Tracks handler' outpoint → Tracks handler outpoint)
    (htracked : Tracks handler' changed → slot = some id)
    (hslot : ∀ other, slot = some other →
      other = id ∧ Owns setting handler (script changed) ∧ HoldsKey handler' changed)
    (hbefore : ∀ other, world.outpointIndex.lookup changed = some other → other = id) :
    Known setting script world' where
  exclusive := by
    have howner : ∀ other found scriptPublicKey, world'.Registered other found →
        Owns setting found scriptPublicKey →
        ∃ before, world.Registered other before ∧ Owns setting before scriptPublicKey := by
      intro other found scriptPublicKey hfound howns
      rcases (registered_insert hhandlers).mp hfound with ⟨rfl, rfl⟩ | ⟨_, hbefore⟩
      · exact ⟨handler, hregistered, (hsame.owns scriptPublicKey).mp howns⟩
      · exact ⟨found, hbefore, howns⟩
    intro first second handler₁ handler₂ scriptPublicKey hfirst hsecond howns₁ howns₂
    obtain ⟨before₁, hbefore₁, howns₁⟩ := howner first handler₁ scriptPublicKey hfirst howns₁
    obtain ⟨before₂, hbefore₂, howns₂⟩ := howner second handler₂ scriptPublicKey hsecond howns₂
    exact hknown.exclusive first second before₁ before₂ scriptPublicKey hbefore₁ hbefore₂ howns₁
      howns₂
  tracked := by
    intro other found outpoint hfound htracks
    rw [hindex]
    rcases (registered_insert hhandlers).mp hfound with ⟨rfl, rfl⟩ | ⟨hne, hfound⟩
    · split
      next heq => exact htracked (heq ▸ htracks)
      next hother => exact hknown.tracked _ _ _ hregistered (hothers outpoint hother htracks)
    · have hlookup := hknown.tracked other found outpoint hfound htracks
      rwa [if_neg]
      rintro rfl
      exact hne (hbefore other hlookup)
  indexed := by
    intro outpoint other hlookup
    have hself : world'.Registered id handler' :=
      (registered_insert hhandlers).mpr (.inl ⟨rfl, rfl⟩)
    rw [hindex] at hlookup
    split at hlookup
    next heq =>
      subst heq
      obtain ⟨rfl, howns, hkey⟩ := hslot other hlookup
      exact ⟨handler', hself, (hsame.owns _).mpr howns, hkey⟩
    · obtain ⟨found, hfound, howns, hkey⟩ := hknown.indexed outpoint other hlookup
      by_cases hother : other = id
      · subst hother
        cases hfound.symm.trans hregistered
        exact ⟨handler', hself, (hsame.owns _).mpr howns, hsame.keys outpoint hkey⟩
      · exact ⟨found, (registered_insert hhandlers).mpr (.inr ⟨hother, hfound⟩), howns, hkey⟩

theorem Known.addEntry (currentDaaScore : UInt64)
    (hscript : entry.utxoEntry.scriptPublicKey = script entry.outpoint) :
    Known setting script (StealthWorld.addEntry setting currentDaaScore world entry) := by
  rcases addEntry_cases hknown currentDaaScore hscript with
    ⟨id, handler, handler', hregistered, howns, hgains, hhandlers, hindex⟩ | ⟨hsame, -⟩
  · refine hknown.replace _ _ hregistered hgains.toSameAccount hhandlers hindex ?_ (fun _ => rfl)
      ?_ ?_
    · intro outpoint hne htracks
      exact ((hgains.tracks outpoint).mp htracks).resolve_right fun hnew => hne hnew.1
    · intro other heq
      exact ⟨(some.inj heq).symm, howns, hgains.key⟩
    · intro other hlookup
      obtain ⟨found, hfound, howns', -⟩ := hknown.indexed _ other hlookup
      exact hknown.exclusive other id found handler _ hfound hregistered howns' howns
  · rw [hsame]
    exact hknown

theorem Known.removeEntry (currentDaaScore : UInt64) (entry : RpcUtxosByAddressesEntry) :
    Known setting script (StealthWorld.removeEntry currentDaaScore world entry) := by
  rcases removeEntry_cases hknown currentDaaScore entry with
    ⟨id, handler, handler', hregistered, hindex, hloses, hhandlers, herase⟩ | ⟨hsame, -⟩
  · refine hknown.replace entry.outpoint none hregistered hloses.toSameAccount hhandlers ?_ ?_ ?_
      nofun ?_
    · exact fun outpoint => herase ▸ lookup_erase_eq_ite _ _ _
    · exact fun outpoint _ htracks => ((hloses.tracks outpoint).mp htracks).1
    · exact fun htracks => absurd rfl ((hloses.tracks _).mp htracks).2
    · exact fun other hlookup => mem_unique hlookup hindex
  · rw [hsame]
    exact hknown

end Known

/-! ## Notifications -/

/-- An account after a part of a notification, with the outputs that it tracks then. -/
structure Follows (world : StealthWorld Output) (id : AccountId) (handler : StealthHandler Output)
    (tracks : TransactionOutpoint → Prop) (handler' : StealthHandler Output) : Prop where
  registered : world.Registered id handler'
  same : SameAccount handler handler'
  tracks : ∀ outpoint, Tracks handler' outpoint ↔ tracks outpoint

/-- The outpoints of a list of entries. -/
def Lists (entries : List RpcUtxosByAddressesEntry) (outpoint : TransactionOutpoint) : Prop :=
  ∃ entry ∈ entries, entry.outpoint = outpoint

variable {entries : List RpcUtxosByAddressesEntry} {outpoint : TransactionOutpoint}

theorem lists_cons :
    Lists (entry :: entries) outpoint ↔ outpoint = entry.outpoint ∨ Lists entries outpoint := by
  simp [Lists, eq_comm]

variable {added removed : List RpcUtxosByAddressesEntry}

/-- The entries have the scripts of their outputs. -/
def Scripted (script : TransactionOutpoint → ScriptPublicKey)
    (entries : List RpcUtxosByAddressesEntry) : Prop :=
  ∀ entry ∈ entries, entry.utxoEntry.scriptPublicKey = script entry.outpoint

/-- The outputs that an account owns come without an address. -/
def Unaddressed (setting : StealthSetting Output) (script : TransactionOutpoint → ScriptPublicKey)
    (handler : StealthHandler Output) (entries : List RpcUtxosByAddressesEntry) : Prop :=
  ∀ entry ∈ entries, Owns setting handler (script entry.outpoint) → entry.hasAddress = false

/-- The filter of general notifications keeps what an account owns. -/
theorem lists_stealthEntries (haddress : Unaddressed setting script handler entries)
    (hscript : Scripted script entries) (howns : Owns setting handler (script outpoint)) :
    Lists (stealthEntries entries) outpoint ↔ Lists entries outpoint := by
  have hversion : (script outpoint).version = stealthScriptVersion := by
    by_contra hne
    simp [Owns, StealthHandler.tryClaimUtxoInternal, hne] at howns
  refine exists_congr fun entry => and_congr_left ?_
  rintro rfl
  refine mem_filter.trans (and_iff_left_of_imp fun hentry => ?_)
  simp [haddress entry hentry howns, hscript entry hentry, hversion]

/-- An output that an account takes up when it is added: it is owned and was not made by one of the
batch transactions of the wallet. -/
def TakesUp (setting : StealthSetting Output) (script : TransactionOutpoint → ScriptPublicKey)
    (handler : StealthHandler Output) (outpoint : TransactionOutpoint) : Prop :=
  Owns setting handler (script outpoint) ∧
    ¬UtxoWorld.BatchOutput handler.utxos.processor.outgoing outpoint

theorem SameAccount.takesUp (hsame : SameAccount handler handler') :
    TakesUp setting script handler' outpoint ↔ TakesUp setting script handler outpoint := by
  rw [TakesUp, TakesUp, hsame.owns, hsame.outgoing]

/-- The outputs that an account tracks after a notification. -/
def Expected (setting : StealthSetting Output) (script : TransactionOutpoint → ScriptPublicKey)
    (handler : StealthHandler Output) (added removed : List RpcUtxosByAddressesEntry)
    (outpoint : TransactionOutpoint) : Prop :=
  (Tracks handler outpoint ∨ Lists added outpoint ∧ TakesUp setting script handler outpoint) ∧
    ¬Lists removed outpoint

section Follows

variable (hknown : Known setting script world) (hregistered : world.Registered id handler)

include hknown hregistered

theorem addEntry_follows (hunlocked : handler.unlocked = true)
    (currentDaaScore : UInt64)
    (hscript : entry.utxoEntry.scriptPublicKey = script entry.outpoint) :
    ∃ handler', Follows (addEntry setting currentDaaScore world entry) id handler
      (fun outpoint => Tracks handler outpoint ∨
        outpoint = entry.outpoint ∧ TakesUp setting script handler outpoint) handler' := by
  have hforeign : ¬Owns setting handler (script entry.outpoint) → ∀ outpoint,
      Tracks handler outpoint ↔ Tracks handler outpoint ∨
        outpoint = entry.outpoint ∧ TakesUp setting script handler outpoint := by
    intro hnot outpoint
    refine (or_iff_left ?_).symm
    rintro ⟨rfl, howns, _⟩
    exact hnot howns
  rcases addEntry_cases hknown currentDaaScore hscript with
    ⟨owner, before, after, hbefore, howns, hgains, hhandlers, -⟩ | ⟨hsame, hnobody⟩
  · by_cases hid : id = owner
    · subst hid
      cases hbefore.symm.trans hregistered
      refine ⟨after, (registered_insert hhandlers).mpr (.inl ⟨rfl, rfl⟩), hgains.toSameAccount,
        fun outpoint => ?_⟩
      refine (hgains.tracks outpoint).trans (or_congr_right (and_congr_right ?_))
      rintro rfl
      exact (and_iff_right howns).symm
    · have hnot : ¬Owns setting handler (script entry.outpoint) := fun howns' =>
        hid (hknown.exclusive id owner handler before _ hregistered hbefore howns' howns)
      exact ⟨handler, (registered_insert hhandlers).mpr (.inr ⟨hid, hregistered⟩), .refl handler,
        hforeign hnot⟩
  · rw [hsame]
    exact ⟨handler, hregistered, .refl handler, hforeign (hnobody id handler hregistered hunlocked)⟩

theorem removeEntry_follows (currentDaaScore : UInt64) (entry : RpcUtxosByAddressesEntry) :
    ∃ handler', Follows (removeEntry currentDaaScore world entry) id handler
      (fun outpoint => Tracks handler outpoint ∧ outpoint ≠ entry.outpoint) handler' := by
  have hforeign : world.outpointIndex.lookup entry.outpoint ≠ some id → ∀ outpoint,
      Tracks handler outpoint ↔ Tracks handler outpoint ∧ outpoint ≠ entry.outpoint := by
    intro hnot outpoint
    refine (and_iff_left_of_imp ?_).symm
    rintro htracks rfl
    exact hnot (hknown.tracked id handler _ hregistered htracks)
  rcases removeEntry_cases hknown currentDaaScore entry with
    ⟨owner, before, after, hbefore, hindex, hloses, hhandlers, -⟩ | ⟨hsame, hnone⟩
  · by_cases hid : id = owner
    · subst hid
      cases hbefore.symm.trans hregistered
      exact ⟨after, (registered_insert hhandlers).mpr (.inl ⟨rfl, rfl⟩), hloses.toSameAccount,
        hloses.tracks⟩
    · refine ⟨handler, (registered_insert hhandlers).mpr (.inr ⟨hid, hregistered⟩), .refl handler,
        hforeign fun hlookup => ?_⟩
      exact hid (mem_unique hlookup hindex)
  · rw [hsame]
    exact ⟨handler, hregistered, .refl handler, hforeign (by rw [hnone]; exact nofun)⟩

theorem addEntries_follows (hunlocked : handler.unlocked = true) (currentDaaScore : UInt64)
    (hscript : Scripted script entries) :
    Known setting script (entries.foldl (addEntry setting currentDaaScore) world) ∧
      ∃ handler', Follows (entries.foldl (addEntry setting currentDaaScore) world) id handler
        (fun outpoint => Tracks handler outpoint ∨
          Lists entries outpoint ∧ TakesUp setting script handler outpoint) handler' := by
  induction entries generalizing world handler with
  | nil => exact ⟨hknown, handler, hregistered, .refl handler, fun outpoint => by simp [Lists]⟩
  | cons entry entries ih =>
    obtain ⟨hscript₁, hscript₂⟩ := forall_mem_cons.mp hscript
    obtain ⟨middle, hmiddle⟩ :=
      addEntry_follows hknown hregistered hunlocked currentDaaScore hscript₁
    obtain ⟨hknown', last, hlast⟩ := ih (hknown.addEntry currentDaaScore hscript₁)
      hmiddle.registered (hmiddle.same.unlocked.trans hunlocked) hscript₂
    refine ⟨hknown', last, hlast.registered, hmiddle.same.trans hlast.same, fun outpoint => ?_⟩
    rw [hlast.tracks, hmiddle.tracks, hmiddle.same.takesUp, lists_cons]
    tauto

theorem removeEntries_follows (currentDaaScore : UInt64)
    (entries : List RpcUtxosByAddressesEntry) :
    Known setting script (entries.foldl (removeEntry currentDaaScore) world) ∧
      ∃ handler', Follows (entries.foldl (removeEntry currentDaaScore) world) id handler
        (fun outpoint => Tracks handler outpoint ∧ ¬Lists entries outpoint) handler' := by
  induction entries generalizing world handler with
  | nil => exact ⟨hknown, handler, hregistered, .refl handler, fun outpoint => by simp [Lists]⟩
  | cons entry entries ih =>
    obtain ⟨middle, hmiddle⟩ := removeEntry_follows hknown hregistered currentDaaScore entry
    obtain ⟨hknown', last, hlast⟩ :=
      ih (hknown.removeEntry currentDaaScore entry) hmiddle.registered
    refine ⟨hknown', last, hlast.registered, hmiddle.same.trans hlast.same, fun outpoint => ?_⟩
    rw [hlast.tracks, hmiddle.tracks, lists_cons]
    tauto

/-- Removed outputs are removed whether or not they were added by the same notification. -/
theorem handleStealthUtxoChanged_follows (hunlocked : handler.unlocked = true)
    (hscript : Scripted script added) (currentDaaScore : UInt64) :
    Known setting script (world.handleStealthUtxoChanged setting added removed currentDaaScore) ∧
      ∃ handler', Follows (world.handleStealthUtxoChanged setting added removed currentDaaScore) id
        handler (Expected setting script handler added removed) handler' := by
  obtain ⟨hknown₁, middle, hmiddle⟩ := addEntries_follows hknown hregistered hunlocked
    currentDaaScore hscript
  obtain ⟨hknown₂, last, hlast⟩ :=
    removeEntries_follows hknown₁ hmiddle.registered currentDaaScore removed
  refine ⟨hknown₂, last, hlast.registered, hmiddle.same.trans hlast.same, fun outpoint => ?_⟩
  rw [hlast.tracks, hmiddle.tracks, Expected]

theorem Known.owns (htracks : Tracks handler outpoint) :
    Owns setting handler (script outpoint) ∧ HoldsKey handler outpoint := by
  have hlookup := hknown.tracked id handler outpoint hregistered htracks
  obtain ⟨found, hfound, hholds⟩ := hknown.indexed outpoint id hlookup
  cases hfound.symm.trans hregistered
  exact hholds

theorem handleUtxoChanged_follows (hunlocked : handler.unlocked = true)
    (hscript : Scripted script (added ++ removed))
    (haddress : Unaddressed setting script handler (added ++ removed)) (currentDaaScore : UInt64) :
    Known setting script (world.handleUtxoChanged setting added removed currentDaaScore) ∧
      ∃ handler', Follows (world.handleUtxoChanged setting added removed currentDaaScore) id
        handler (Expected setting script handler added removed) handler' := by
  obtain ⟨hadded, hremoved⟩ := forall_mem_append.mp haddress
  obtain ⟨hscript, hscript'⟩ := forall_mem_append.mp hscript
  have hfiltered : Scripted script (stealthEntries added) := fun entry hentry =>
    hscript entry (mem_of_mem_filter hentry)
  obtain ⟨hknown', last, hlast⟩ := handleStealthUtxoChanged_follows hknown hregistered hunlocked
    hfiltered currentDaaScore
  refine ⟨hknown', last, hlast.registered, hlast.same, fun outpoint => ?_⟩
  rw [hlast.tracks, Expected, Expected]
  by_cases howns : Owns setting handler (script outpoint)
  · rw [lists_stealthEntries hadded hscript howns, lists_stealthEntries hremoved hscript' howns]
  · have hnot : ¬Tracks handler outpoint := fun htracks => howns (hknown.owns hregistered htracks).1
    simp [TakesUp, howns, hnot]

end Follows

/-- An account after a notification tracks an owned output exactly when the notification adds it,
or when it was tracked before and is not removed, and holds the keys of the tracked outputs. -/
structure AppliedDiff (setting : StealthSetting Output)
    (script : TransactionOutpoint → ScriptPublicKey) (handler : StealthHandler Output)
    (added removed : List RpcUtxosByAddressesEntry) (handler' : StealthHandler Output) : Prop where
  tracks : ∀ outpoint, Owns setting handler (script outpoint) →
    (Tracks handler' outpoint ↔
      Lists added outpoint ∨ Tracks handler outpoint ∧ ¬Lists removed outpoint)
  keys : ∀ outpoint, Tracks handler' outpoint → HoldsKey handler' outpoint

/-- An owned output that is added is not removed by the same notification, and it is tracked
already or not made by one of the batch transactions of the wallet. -/
def Clear (setting : StealthSetting Output) (script : TransactionOutpoint → ScriptPublicKey)
    (handler : StealthHandler Output) (added removed : List RpcUtxosByAddressesEntry) : Prop :=
  ∀ outpoint, Owns setting handler (script outpoint) → Lists added outpoint →
    ¬Lists removed outpoint ∧ (Tracks handler outpoint ∨
      ¬UtxoWorld.BatchOutput handler.utxos.processor.outgoing outpoint)

theorem Follows.appliedDiff_iff (hknown : Known setting script world')
    (hfollows : Follows world' id handler (Expected setting script handler added removed)
      handler') :
    AppliedDiff setting script handler added removed handler' ↔
      Clear setting script handler added removed := by
  have hkeys : ∀ outpoint, Tracks handler' outpoint → HoldsKey handler' outpoint :=
    fun _ htracks => (hknown.owns hfollows.registered htracks).2
  refine ⟨fun hdiff outpoint howns hadded => ?_, fun hclear => ⟨fun outpoint howns => ?_, hkeys⟩⟩
  · have htracks := (hdiff.tracks outpoint howns).mpr (.inl hadded)
    obtain ⟨hheld, hremoved⟩ := (hfollows.tracks outpoint).mp htracks
    exact ⟨hremoved, hheld.imp_right fun htaken => htaken.2.2⟩
  · have hadded := hclear outpoint howns
    rw [hfollows.tracks, Expected, TakesUp]
    tauto

/-- A notification is applied as a diff by either handler if and only if it is clear. A second pass
through the other handler changes nothing. -/
theorem notification_applied_as_diff (hknown : Known setting script world)
    (hregistered : world.Registered id handler) (hunlocked : handler.unlocked = true)
    (hscript : Scripted script (added ++ removed)) (currentDaaScore : UInt64) :
    ∃ stealth,
      (world.handleStealthUtxoChanged setting added removed currentDaaScore).Registered id stealth ∧
      (AppliedDiff setting script handler added removed stealth ↔
        Clear setting script handler added removed) ∧
      (Unaddressed setting script handler (added ++ removed) → ∃ general both both',
        (world.handleUtxoChanged setting added removed currentDaaScore).Registered id general ∧
        (AppliedDiff setting script handler added removed general ↔
          Clear setting script handler added removed) ∧
        ((world.handleStealthUtxoChanged setting added removed currentDaaScore).handleUtxoChanged
          setting added removed currentDaaScore).Registered id both ∧
        ((world.handleUtxoChanged setting added removed currentDaaScore).handleStealthUtxoChanged
          setting added removed currentDaaScore).Registered id both' ∧
        ∀ outpoint, (Tracks general outpoint ↔ Tracks stealth outpoint) ∧
          (Tracks both outpoint ↔ Tracks stealth outpoint) ∧
          (Tracks both' outpoint ↔ Tracks stealth outpoint)) := by
  have hadded := (forall_mem_append.mp hscript).1
  obtain ⟨hknown₁, stealth, hstealth⟩ := handleStealthUtxoChanged_follows hknown hregistered
    hunlocked hadded currentDaaScore
  refine ⟨stealth, hstealth.registered, hstealth.appliedDiff_iff hknown₁, fun haddress => ?_⟩
  obtain ⟨hknown₂, general, hgeneral⟩ := handleUtxoChanged_follows hknown hregistered
    hunlocked hscript haddress currentDaaScore
  obtain ⟨-, both, hboth⟩ := handleUtxoChanged_follows hknown₁ hstealth.registered
    (hstealth.same.unlocked.trans hunlocked) hscript
    (fun entry hentry howns => haddress entry hentry ((hstealth.same.owns _).mp howns))
    currentDaaScore
  obtain ⟨-, both', hboth'⟩ := handleStealthUtxoChanged_follows hknown₂ hgeneral.registered
    (hgeneral.same.unlocked.trans hunlocked) hadded currentDaaScore
  refine ⟨general, both, both', hgeneral.registered, hgeneral.appliedDiff_iff hknown₂,
    hboth.registered, hboth'.registered, fun outpoint => ⟨?_, ?_, ?_⟩⟩
  · rw [hgeneral.tracks, hstealth.tracks]
  · rw [hboth.tracks, Expected, hstealth.tracks, hstealth.same.takesUp, Expected]
    tauto
  · rw [hboth'.tracks, hstealth.tracks, Expected, hgeneral.tracks, hgeneral.same.takesUp, Expected]
    tauto

/-! ## An output on both sides -/

/-- Every script of the right length is an output. -/
def openSetting : StealthSetting (List UInt8) where
  parse := some
  params := ⟨1000, 500, 100⟩
  delegations := .new

/-- An account that recognizes every output. -/
def openHandler : StealthHandler (List UInt8) where
  unlocked := true
  recognize := fun _ => some ⟨[1], [2], [3]⟩
  masterAnchor := none
  ephemeralKeys := .new
  utxos := .init

def openWorld : StealthWorld (List UInt8) := ⟨(∅ : HashMap _ _).insert 1 openHandler, ∅⟩

def openScript : ScriptPublicKey := ⟨stealthScriptVersion, List.replicate 66 0⟩

/-- An output that was accepted at a score. -/
def openEntry (blockDaaScore : UInt64) : RpcUtxosByAddressesEntry :=
  ⟨false, ⟨9, 0⟩, ⟨1000, openScript, blockDaaScore, false⟩⟩

theorem known_openWorld : Known openSetting (fun _ => openScript) openWorld where
  exclusive := by
    have hone : ∀ id handler, openWorld.Registered id handler → id = 1 := by
      intro id handler hregistered
      by_contra hne
      rw [Registered, openWorld, lookup_insert_ne hne] at hregistered
      cases hregistered
    intro id id' handler handler' _ hid hid' _ _
    rw [hone id handler hid, hone id' handler' hid']
  tracked := by
    intro id handler outpoint hregistered htracks
    have hhandlers : openWorld.handlers =
        (⟨∅, ∅⟩ : StealthWorld (List UInt8)).handlers.insert 1 openHandler := rfl
    rcases (registered_insert hhandlers).mp hregistered with ⟨_, rfl⟩ | ⟨_, hnone⟩
    · exact absurd htracks (notMem_empty outpoint)
    · cases hnone
  indexed := fun _ _ hlookup => (nomatch hlookup)

theorem notification_applied_as_diff_added :
    ∃ stealth, (openWorld.handleStealthUtxoChanged openSetting [openEntry 10] [] 200).Registered 1
      stealth ∧ AppliedDiff openSetting (fun _ => openScript) openHandler [openEntry 10] []
        stealth := by
  have hscript : Scripted (fun _ => openScript) ([openEntry 10] ++ []) := by
    rintro _ ⟨⟩
    · rfl
    · contradiction
  have hclear : Clear openSetting (fun _ => openScript) openHandler [openEntry 10] [] := by
    refine fun outpoint _ _ => ⟨nofun, .inr ?_⟩
    rintro ⟨_, hlookup, _⟩
    cases hlookup
  have hopen : openWorld.Registered 1 openHandler := rfl
  obtain ⟨stealth, hregistered, hdiff, _⟩ := notification_applied_as_diff known_openWorld
    hopen rfl hscript 200
  exact ⟨stealth, hregistered, hdiff.mpr hclear⟩

/-- After a reorganisation a tracked output is in both lists, with different scores: the account
no longer tracks it. -/
theorem notification_drops_output :
    let tracks := fun world : StealthWorld (List UInt8) => (world.handlers.lookup 1).any
      fun handler => decide ((⟨9, 0⟩ : TransactionOutpoint) ∈ handler.utxos.context.map)
    let before := openWorld.handleStealthUtxoChanged openSetting [openEntry 10] [] 200
    tracks before = true ∧
      tracks (before.handleUtxoChanged openSetting [openEntry 150] [openEntry 10] 200) = false := by
  decide

end StealthWorld

end Qaspa.Wallet
