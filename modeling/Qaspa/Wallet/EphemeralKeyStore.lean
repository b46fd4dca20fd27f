import Qaspa.Wallet.EphemeralKeys

/-! # Keeping the spending keys

The keys of received stealth outputs live in memory and in a file. A save takes a snapshot of the
memory, writes it, and then clears the mark that says that the memory has changed; whatever is
stored between the snapshot and the end of the save loses its mark. Unlocking an account replaces
the memory by the file. The keys survive if nothing is stored during a save and an account is only
unlocked when its last changes have been saved.
-/

namespace Qaspa.Wallet

open HashMap List

/-! ## The store in memory -/

structure EphemeralKeyStore where
  keys : HashMap TransactionOutpoint EphemeralKeyData
  statuses : HashMap TransactionOutpoint EphemeralKeyStatus
  delegations : HashMap TransactionOutpoint (Option Bytes32 × Option UInt64)
  createdDaaScores : HashMap TransactionOutpoint UInt64
  validUntilDaa : HashMap TransactionOutpoint (Option UInt64)
  modified : Bool

def EphemeralKeyStatus.default : EphemeralKeyStatus := .pending 0

namespace EphemeralKeyStore

def new : EphemeralKeyStore := ⟨∅, ∅, ∅, ∅, ∅, false⟩

/-- Enter all fields of an entry. -/
def insertEntry (store : EphemeralKeyStore) (entry : EphemeralKeyEntry) : EphemeralKeyStore where
  keys := store.keys.insert entry.outpoint entry.data
  statuses := store.statuses.insert entry.outpoint entry.status
  delegations := store.delegations.insert entry.outpoint (entry.masterAnchor, entry.delegationId)
  createdDaaScores := store.createdDaaScores.insert entry.outpoint entry.createdDaaScore
  validUntilDaa := store.validUntilDaa.insert entry.outpoint entry.validUntilDaa
  modified := store.modified

def eraseEntry (store : EphemeralKeyStore) (outpoint : TransactionOutpoint) :
    EphemeralKeyStore where
  keys := store.keys.erase outpoint
  statuses := store.statuses.erase outpoint
  delegations := store.delegations.erase outpoint
  createdDaaScores := store.createdDaaScores.erase outpoint
  validUntilDaa := store.validUntilDaa.erase outpoint
  modified := store.modified

def setModified (store : EphemeralKeyStore) (modified : Bool) : EphemeralKeyStore :=
  { store with modified := modified }

def storeWithMetadata (store : EphemeralKeyStore) (outpoint : TransactionOutpoint)
    (data : EphemeralKeyData) (createdDaaScore : UInt64) (masterAnchor : Option Bytes32)
    (delegationId : Option UInt64) (validUntilDaa : Option UInt64) : EphemeralKeyStore :=
  (store.insertEntry ⟨outpoint, data, .pending createdDaaScore, masterAnchor, delegationId,
    createdDaaScore, validUntilDaa⟩).setModified true

def remove (store : EphemeralKeyStore) (outpoint : TransactionOutpoint) : EphemeralKeyStore :=
  (store.eraseEntry outpoint).setModified true

/-- A status is only confirmed if there is one; the mark is set in any case. -/
def confirm (store : EphemeralKeyStore) (outpoint : TransactionOutpoint) (daaScore : UInt64) :
    EphemeralKeyStore :=
  { store with
    statuses := if outpoint ∈ store.statuses then
      store.statuses.insert outpoint (.confirmed daaScore) else store.statuses
    modified := true }

def setStatus (store : EphemeralKeyStore) (outpoint : TransactionOutpoint)
    (status : EphemeralKeyStatus) : EphemeralKeyStore :=
  { store with statuses := store.statuses.insert outpoint status, modified := true }

def staleEntryMaxAgeDaa : UInt64 := 200000

def saturatingAdd (left right : UInt64) : UInt64 :=
  UInt64.ofNat (min (left.toNat + right.toNat) u64Max)

def markRemoved (store : EphemeralKeyStore) (outpoint : TransactionOutpoint)
    (currentDaaScore : UInt64) : EphemeralKeyStore :=
  let validUntil := (store.validUntilDaa.lookup outpoint).join
  let status := (store.statuses.lookup outpoint).getD .default
  let ttlDaa := saturatingAdd currentDaaScore staleEntryMaxAgeDaa
  let plannedExpiry :=
    match validUntil with
    | some limit => if limit ≤ ttlDaa then limit else ttlDaa
    | none => ttlDaa
  let newStatus :=
    match validUntil with
    | some limit => if limit < currentDaaScore then .expired else status
    | none => status
  { store with
    validUntilDaa := store.validUntilDaa.insert outpoint (some plannedExpiry)
    statuses := store.statuses.insert outpoint newStatus
    modified := true }

def isExpired (store : EphemeralKeyStore) (currentDaaScore : UInt64)
    (outpoint : TransactionOutpoint) (status : EphemeralKeyStatus) : Bool :=
  (match (store.validUntilDaa.lookup outpoint).join with
    | some limit => limit < currentDaaScore
    | none => false) || status == .expired

/-- The outpoints that are cleaned up at a score. -/
def expiredOutpoints (store : EphemeralKeyStore) (currentDaaScore : UInt64) :
    List TransactionOutpoint :=
  (store.statuses.entries.filter fun entry =>
    store.isExpired currentDaaScore entry.1 entry.2).map (·.1)

def cleanupExpired (store : EphemeralKeyStore) (currentDaaScore : UInt64) : EphemeralKeyStore :=
  match store.expiredOutpoints currentDaaScore with
  | [] => store
  | outpoint :: rest => ((outpoint :: rest).foldl eraseEntry store).setModified true

/-- The entry of a key, with defaults for the fields that are missing. -/
def entryOf (store : EphemeralKeyStore) (outpoint : TransactionOutpoint)
    (data : EphemeralKeyData) : EphemeralKeyEntry :=
  let delegation := (store.delegations.lookup outpoint).getD (none, none)
  { outpoint := outpoint
    data := data
    status := (store.statuses.lookup outpoint).getD .default
    masterAnchor := delegation.1
    delegationId := delegation.2
    createdDaaScore := (store.createdDaaScores.lookup outpoint).getD 0
    validUntilDaa := (store.validUntilDaa.lookup outpoint).join }

/-- The entries in the order in which the map is iterated. -/
def entries (store : EphemeralKeyStore) : List EphemeralKeyEntry :=
  store.keys.entries.map fun entry => store.entryOf entry.1 entry.2

def loadEntries (store : EphemeralKeyStore) (entries : List EphemeralKeyEntry) :
    EphemeralKeyStore :=
  (entries.foldl insertEntry store).setModified false

def markSaved (store : EphemeralKeyStore) : EphemeralKeyStore := store.setModified false

/-- The mark is not touched. -/
def clear (store : EphemeralKeyStore) : EphemeralKeyStore :=
  { store with
    keys := ∅, statuses := ∅, delegations := ∅, createdDaaScores := ∅, validUntilDaa := ∅ }

end EphemeralKeyStore

/-! ## The account -/

structure PendingEphemeralPersist where
  queue : List TransactionOutpoint
  dirty : Bool

namespace PendingEphemeralPersist

def new : PendingEphemeralPersist := ⟨[], false⟩

def markDirty (pending : PendingEphemeralPersist) (outpoint : TransactionOutpoint) :
    PendingEphemeralPersist :=
  ⟨pending.queue ++ [outpoint], true⟩

end PendingEphemeralPersist

/-- A save behind its snapshot. A save from the queue holds the lock of the queue to its end. -/
structure Save where
  queued : Bool
  snapshot : List EphemeralKeyEntry
  written : Bool

/-- How far the loading of an unlock has come. -/
inductive LoadStage where
  | start
  | cleared
  | loaded
  deriving DecidableEq, Repr

/-- Locking and unlocking hold the keys of the account to their end. -/
inductive Session where
  | locked
  | unlocking (stage : LoadStage)
  | unlocked
  | locking
  deriving DecidableEq, Repr

inductive KeyChange where
  | storeWithMetadata (outpoint : TransactionOutpoint) (data : EphemeralKeyData)
      (createdDaaScore : UInt64) (masterAnchor : Option Bytes32) (delegationId : Option UInt64)
      (validUntilDaa : Option UInt64)
  | remove (outpoint : TransactionOutpoint)
  | confirm (outpoint : TransactionOutpoint) (daaScore : UInt64)
  | setStatus (outpoint : TransactionOutpoint) (status : EphemeralKeyStatus)
  | markRemoved (outpoint : TransactionOutpoint) (currentDaaScore : UInt64)
  | cleanupExpired (currentDaaScore : UInt64)

def EphemeralKeyStore.change (store : EphemeralKeyStore) : KeyChange → EphemeralKeyStore
  | .storeWithMetadata outpoint data createdDaaScore masterAnchor delegationId validUntilDaa =>
    store.storeWithMetadata outpoint data createdDaaScore masterAnchor delegationId validUntilDaa
  | .remove outpoint => store.remove outpoint
  | .confirm outpoint daaScore => store.confirm outpoint daaScore
  | .setStatus outpoint status => store.setStatus outpoint status
  | .markRemoved outpoint currentDaaScore => store.markRemoved outpoint currentDaaScore
  | .cleanupExpired currentDaaScore => store.cleanupExpired currentDaaScore

/-- The steps of the tasks of one account. -/
inductive KeyEvent where
  | change (change : KeyChange)
  | notePending (outpoint : TransactionOutpoint)
  | flush
  | write (index : Nat) (succeeds : Bool)
  | markSaved (index : Nat)
  | beginUnlock
  | clear
  | load (readable : Bool)
  | endUnlock
  | beginLock
  | endLock

/-- An account with its file. The keys that were stored and not removed are kept as a history. -/
structure KeyWorld where
  store : EphemeralKeyStore
  file : Option (List EphemeralKeyEntry)
  pending : PendingEphemeralPersist
  session : Session
  saves : List Save
  live : HashMap TransactionOutpoint EphemeralKeyData

namespace KeyWorld

def init : KeyWorld := ⟨.new, none, .new, .locked, [], ∅⟩

/-- The keys that a change adds to the history and removes from it. -/
def liveAfter (world : KeyWorld) : KeyChange → HashMap TransactionOutpoint EphemeralKeyData
  | .storeWithMetadata outpoint data .. => world.live.insert outpoint data
  | .remove outpoint => world.live.erase outpoint
  | .cleanupExpired currentDaaScore =>
    (world.store.expiredOutpoints currentDaaScore).foldl (fun live outpoint => live.erase outpoint)
      world.live
  | .confirm .. | .setStatus .. | .markRemoved .. => world.live

def queueLocked (world : KeyWorld) : Bool := world.saves.any (·.queued)

def fileEntries (world : KeyWorld) : List EphemeralKeyEntry := world.file.getD []

/-- A flush with the secret at hand, up to the snapshot. A save returns at once if the memory is
not marked, and the queue is then emptied. -/
def beginSave (world : KeyWorld) : KeyWorld :=
  if world.pending.dirty && !world.store.modified then { world with pending := .new }
  else { world with saves := world.saves ++ [⟨world.pending.dirty, world.store.entries, false⟩] }

/-- Unlocking holds the secret, so that a flush which needs it waits; the account that is locked
has none. -/
def flush (world : KeyWorld) : Option KeyWorld :=
  if world.queueLocked then none
  else if !world.pending.dirty && !world.store.modified then some world
  else
    match world.session with
    | .unlocking _ => none
    | .locked => some world
    | .unlocked | .locking => some world.beginSave

def write (world : KeyWorld) (index : Nat) (succeeds : Bool) : Option KeyWorld :=
  match world.saves[index]? with
  | some ⟨queued, snapshot, false⟩ =>
    if succeeds then
      some { world with
        file := some snapshot
        saves := world.saves.set index ⟨queued, snapshot, true⟩ }
    else some { world with saves := world.saves.eraseIdx index }
  | _ => none

def markSaved (world : KeyWorld) (index : Nat) : Option KeyWorld :=
  match world.saves[index]? with
  | some ⟨queued, _, true⟩ =>
    some { world with
      store := world.store.markSaved
      pending := if queued then .new else world.pending
      saves := world.saves.eraseIdx index }
  | _ => none

/-- An absent file leaves the memory empty, and so does a file that cannot be read: the error is
ignored. -/
def load (world : KeyWorld) (readable : Bool) : KeyWorld :=
  { world with
    store :=
      match world.file with
      | none => world.store
      | some entries => if readable then world.store.loadEntries entries else world.store
    session := .unlocking .loaded }

/-- A step, if the tasks can take it. -/
def step (world : KeyWorld) : KeyEvent → Option KeyWorld
  | .change change =>
    some { world with store := world.store.change change, live := world.liveAfter change }
  | .notePending outpoint =>
    if world.queueLocked then none
    else some { world with pending := world.pending.markDirty outpoint }
  | .flush => world.flush
  | .write index succeeds => world.write index succeeds
  | .markSaved index => world.markSaved index
  | .beginUnlock =>
    match world.session with
    | .locked | .unlocked => some { world with session := .unlocking .start }
    | .unlocking _ | .locking => none
  | .clear =>
    if world.session = .unlocking .start then
      some { world with
        store := world.store.clear.setModified false
        session := .unlocking .cleared }
    else none
  | .load readable =>
    if world.session = .unlocking .cleared then some (world.load readable) else none
  | .endUnlock =>
    -- The last flush of an unlock waits for the secret that the unlock itself holds.
    if world.session = .unlocking .loaded ∧ !world.queueLocked ∧ !world.pending.dirty ∧
        !world.store.modified then some { world with session := .unlocked }
    else none
  | .beginLock =>
    if world.session = .unlocked then some { world with session := .locking } else none
  | .endLock =>
    if world.session = .locking then some { world with session := .locked } else none

def run (world : KeyWorld) (events : List KeyEvent) : Option KeyWorld := events.foldlM step world

end KeyWorld

namespace EphemeralKeyStore

/-! ## Entries and files -/

variable {store : EphemeralKeyStore} {entry : EphemeralKeyEntry} {outpoint : TransactionOutpoint}

theorem mem_entries : entry ∈ store.entries ↔
    ∃ data, store.keys.lookup entry.outpoint = some data ∧
      store.entryOf entry.outpoint data = entry := by
  simp only [entries, mem_map, lookup_eq_some]
  constructor
  · rintro ⟨⟨outpoint, data⟩, hmem, rfl⟩
    exact ⟨data, hmem, rfl⟩
  · rintro ⟨data, hmem, hentry⟩
    exact ⟨⟨entry.outpoint, data⟩, hmem, hentry⟩

theorem nodup_entries (store : EphemeralKeyStore) : (store.entries.map (·.outpoint)).Nodup := by
  rw [entries, map_map]
  exact store.keys.nodupKeys

theorem mem_entries_insertEntry {other : EphemeralKeyEntry} :
    other ∈ (store.insertEntry entry).entries ↔
      other = entry ∨ other.outpoint ≠ entry.outpoint ∧ other ∈ store.entries := by
  rw [mem_entries]
  by_cases houtpoint : other.outpoint = entry.outpoint
  · have hkey : (store.insertEntry entry).keys.lookup other.outpoint = some entry.data :=
      houtpoint ▸ AList.lookup_insert _
    have hself : (store.insertEntry entry).entryOf other.outpoint entry.data = entry := by
      rw [houtpoint]
      simp [entryOf, insertEntry]
    simp only [hkey, Option.some.injEq, exists_eq_left', hself]
    simp only [houtpoint, ne_eq, not_true_eq_false, false_and, or_false]
    exact eq_comm
  · have hkey : (store.insertEntry entry).keys.lookup other.outpoint =
        store.keys.lookup other.outpoint := AList.lookup_insert_ne houtpoint
    have hother : other ≠ entry := fun heq => houtpoint (congrArg _ heq)
    have hsame : ∀ data, (store.insertEntry entry).entryOf other.outpoint data =
        store.entryOf other.outpoint data := fun data => by
      simp [entryOf, insertEntry, AList.lookup_insert_ne houtpoint]
    simp only [hkey, hsame, hother, houtpoint, ne_eq, not_false_eq_true, true_and, false_or]
    exact mem_entries.symm

/-- A file with distinct outpoints is loaded as it is. -/
theorem mem_loadEntries (hempty : store.entries = []) {entries : List EphemeralKeyEntry}
    (hnodup : (entries.map (·.outpoint)).Nodup) :
    entry ∈ (store.loadEntries entries).entries ↔ entry ∈ entries := by
  change entry ∈ (entries.foldl insertEntry store).entries ↔ entry ∈ entries
  induction entries using reverseRecOn with
  | nil => rw [foldl_nil, hempty]
  | append_singleton entries last ih =>
    rw [map_append, nodup_append'] at hnodup
    rw [foldl_append, foldl_cons, foldl_nil, mem_entries_insertEntry,
      ih hnodup.1, mem_append, mem_singleton, or_comm]
    refine or_congr_left (and_iff_right_of_imp ?_)
    intro hmem heq
    exact hnodup.2.2 (mem_map_of_mem hmem) (by simp [heq])

end EphemeralKeyStore

namespace KeyWorld

/-! ## Runs that keep the keys -/

/-- Keys change only while the account is unlocked and no save is under way, an account is only
unlocked when its changes are saved, and its file can be read. -/
def Orderly (world : KeyWorld) : KeyEvent → Prop
  | .change _ => world.session = .unlocked ∧ world.saves = []
  | .beginUnlock => world.store.modified = false ∧ world.saves = []
  | .load readable => readable = true
  | _ => True

def OrderlyStep (world : KeyWorld) (event : KeyEvent) (world' : KeyWorld) : Prop :=
  world.step event = some world' ∧ world.Orderly event

def InFile (world : KeyWorld) (outpoint : TransactionOutpoint) (data : EphemeralKeyData) : Prop :=
  ∃ entry ∈ world.fileEntries, entry.outpoint = outpoint ∧ entry.data = data

/-- The memory and the file hold the same entries. -/
def InSync (world : KeyWorld) : Prop :=
  ∀ entry, entry ∈ world.store.entries ↔ entry ∈ world.fileEntries

/-- The memory holds all keys, and every save under way has them in its snapshot. -/
structure Held (world : KeyWorld) : Prop where
  live : ∀ outpoint data, world.live.lookup outpoint = some data →
    world.store.keys.lookup outpoint = some data
  sync : world.store.modified = false → world.InSync
  snapshot : ∀ save ∈ world.saves, save.snapshot = world.store.entries
  written : ∀ save ∈ world.saves, save.written = true → world.file = some save.snapshot

/-- The file holds all keys and nothing is under way. -/
structure Filed (world : KeyWorld) : Prop where
  live : ∀ outpoint data, world.live.lookup outpoint = some data → world.InFile outpoint data
  unmodified : world.store.modified = false
  idle : world.saves = []

/-- Where the keys are in each session. -/
def Located (world : KeyWorld) : Prop :=
  match world.session with
  | .locked => world.Filed ∨ world.Held
  | .unlocking .start => world.Filed
  | .unlocking .cleared => world.Filed ∧ world.store.entries = []
  | .unlocking .loaded | .unlocked | .locking => world.Held

structure Safe (world : KeyWorld) : Prop where
  nodup : (world.fileEntries.map (·.outpoint)).Nodup
  located : world.Located

variable {world world' : KeyWorld}

theorem Held.filed (hheld : world.Held) (hmodified : world.store.modified = false)
    (hidle : world.saves = []) : world.Filed := by
  refine ⟨fun outpoint data hlive => ?_, hmodified, hidle⟩
  have hkey := hheld.live outpoint data hlive
  have hmem : world.store.entryOf outpoint data ∈ world.store.entries :=
    EphemeralKeyStore.mem_entries.mpr ⟨data, hkey, rfl⟩
  exact ⟨_, (hheld.sync hmodified _).mp hmem, rfl, rfl⟩

/-! ### Changes -/

theorem keys_cleanupExpired (store : EphemeralKeyStore) (currentDaaScore : UInt64) :
    (store.cleanupExpired currentDaaScore).keys =
      (store.expiredOutpoints currentDaaScore).foldl (fun keys outpoint => keys.erase outpoint)
        store.keys := by
  rw [EphemeralKeyStore.cleanupExpired]
  cases hexpired : store.expiredOutpoints currentDaaScore with
  | nil => rfl
  | cons outpoint outpoints =>
    exact (foldl_hom EphemeralKeyStore.keys fun _ _ => rfl).symm

theorem Held.change (hheld : world.Held) (hidle : world.saves = []) (change : KeyChange) :
    Held { world with store := world.store.change change, live := world.liveAfter change } where
  live := by
    -- the keys that were stored and not removed stay in memory
    intro outpoint data hafter
    cases change with
    | storeWithMetadata stored data' =>
      exact lookup_insert_eq_some.mpr ((lookup_insert_eq_some.mp hafter).imp_right
        (And.imp_right (hheld.live outpoint data)))
    | remove removed =>
      exact lookup_erase_eq_some.mpr ((lookup_erase_eq_some.mp hafter).imp_right
        (hheld.live outpoint data))
    | cleanupExpired currentDaaScore =>
      change ((world.store.expiredOutpoints currentDaaScore).foldl (fun live outpoint =>
        live.erase outpoint) world.live).lookup outpoint = some data at hafter
      change (world.store.cleanupExpired currentDaaScore).keys.lookup outpoint = some data
      rw [keys_cleanupExpired]
      rw [lookup_foldl_erase] at hafter ⊢
      split at hafter
      · cases hafter
      next hkept => rw [if_neg hkept, hheld.live outpoint data hafter]
    | confirm | setStatus | markRemoved => exact hheld.live outpoint data hafter
  sync := by
    intro hmodified
    -- a change that leaves no mark leaves everything
    have hself : world.store.change change = world.store := by
      cases change with
      | cleanupExpired currentDaaScore =>
        rw [EphemeralKeyStore.change, EphemeralKeyStore.cleanupExpired] at hmodified ⊢
        cases hexpired : world.store.expiredOutpoints currentDaaScore with
        | nil => rfl
        | cons outpoint outpoints =>
          rw [hexpired] at hmodified
          cases hmodified
      | storeWithMetadata | remove | confirm | setStatus | markRemoved => cases hmodified
    intro entry
    rw [hself] at hmodified ⊢
    exact hheld.sync hmodified entry
  snapshot := by simp [hidle]
  written := by simp [hidle]

/-! ### Saves -/

theorem Held.beginSave (hheld : world.Held) : world.beginSave.Held := by
  rw [KeyWorld.beginSave]
  split
  · exact ⟨hheld.live, hheld.sync, hheld.snapshot, hheld.written⟩
  · refine ⟨hheld.live, hheld.sync, ?_, ?_⟩
    · intro save hsave
      rcases mem_append.mp hsave with hold | hnew
      · exact hheld.snapshot save hold
      · rw [mem_singleton.mp hnew]
    · intro save hsave hwritten
      rcases mem_append.mp hsave with hold | hnew
      · exact hheld.written save hold hwritten
      · rw [mem_singleton.mp hnew] at hwritten
        cases hwritten

/-- The sessions in which the memory may be without the keys. -/
def Unloaded (session : Session) : Prop :=
  session = .unlocking .start ∨ session = .unlocking .cleared

theorem Held.located (hheld : world.Held) (hsession : ¬ Unloaded world.session) :
    world.Located := by
  rw [Located]
  split
  · exact .inr hheld
  next hstart => exact absurd (.inl hstart) hsession
  next hcleared => exact absurd (.inr hcleared) hsession
  all_goals exact hheld

/-- Only a memory that holds all keys is being saved. -/
theorem Located.held_of_save (hlocated : world.Located) {save : Save} (hsave : save ∈ world.saves) :
    world.Held ∧ ¬ Unloaded world.session := by
  have hbusy : ¬ world.Filed := by
    intro hfiled
    rw [hfiled.idle] at hsave
    cases hsave
  rw [Located] at hlocated
  rw [Unloaded]
  split at hlocated
  next hsession => exact ⟨hlocated.resolve_left hbusy, by simp [hsession]⟩
  · exact absurd hlocated hbusy
  · exact absurd hlocated.1 hbusy
  all_goals exact ⟨hlocated, by simp [*]⟩

/-- A finished write leaves the snapshot, which is the memory, in the file. -/
theorem Safe.write (hsafe : world.Safe) {index : Nat} {succeeds : Bool}
    (hwrite : world.write index succeeds = some world') : world'.Safe := by
  rw [KeyWorld.write] at hwrite
  split at hwrite
  next queued snapshot hsave =>
    have hmem := mem_of_getElem? hsave
    obtain ⟨hheld, hsession⟩ := hsafe.located.held_of_save hmem
    have hsnapshot : snapshot = world.store.entries := hheld.snapshot _ hmem
    split at hwrite
    · cases hwrite
      refine ⟨?_, Held.located ⟨hheld.live, ?_, ?_, ?_⟩ hsession⟩
      · rw [hsnapshot]
        exact world.store.nodup_entries
      · intro _ entry
        change entry ∈ world.store.entries ↔ entry ∈ snapshot
        rw [hsnapshot]
      · intro save hset
        rcases mem_or_eq_of_mem_set hset with hold | rfl
        · exact hheld.snapshot save hold
        · exact hsnapshot
      · intro save hset _
        rcases mem_or_eq_of_mem_set hset with hold | rfl
        · exact congrArg some (hsnapshot.trans (hheld.snapshot save hold).symm)
        · rfl
    · cases hwrite
      refine ⟨hsafe.nodup, Held.located ⟨hheld.live, hheld.sync, ?_, ?_⟩ hsession⟩
      · exact fun save herased => hheld.snapshot save (mem_of_mem_eraseIdx herased)
      · exact fun save herased => hheld.written save (mem_of_mem_eraseIdx herased)
  · cases hwrite

theorem Safe.markSaved (hsafe : world.Safe) {index : Nat}
    (hmark : world.markSaved index = some world') : world'.Safe := by
  rw [KeyWorld.markSaved] at hmark
  split at hmark
  next queued snapshot hsave =>
    have hmem := mem_of_getElem? hsave
    obtain ⟨hheld, hsession⟩ := hsafe.located.held_of_save hmem
    cases hmark
    refine ⟨hsafe.nodup, Held.located ⟨hheld.live, ?_, ?_, ?_⟩ hsession⟩
    · intro _ entry
      change entry ∈ world.store.entries ↔ entry ∈ world.file.getD []
      rw [hheld.written _ hmem rfl, ← hheld.snapshot _ hmem]
      rfl
    · exact fun save herased => hheld.snapshot save (mem_of_mem_eraseIdx herased)
    · exact fun save herased => hheld.written save (mem_of_mem_eraseIdx herased)
  · cases hmark

theorem Safe.flush (hsafe : world.Safe) (hflush : world.flush = some world') : world'.Safe := by
  have hbegin (hsession : world.session = .unlocked ∨ world.session = .locking) :
      world.beginSave.Safe := by
    have hheld : world.Held := by
      have hlocated := hsafe.located
      rw [Located] at hlocated
      rcases hsession with hsession | hsession
      · rwa [hsession] at hlocated
      · rwa [hsession] at hlocated
    have hsame : world.beginSave.session = world.session ∧ world.beginSave.file = world.file := by
      rw [KeyWorld.beginSave]
      split
      · exact ⟨rfl, rfl⟩
      · exact ⟨rfl, rfl⟩
    refine ⟨?_, hheld.beginSave.located ?_⟩
    · rw [fileEntries, hsame.2]
      exact hsafe.nodup
    · rw [hsame.1, Unloaded]
      rcases hsession with hsession | hsession <;> simp [hsession]
  rw [KeyWorld.flush] at hflush
  split_ifs at hflush
  · exact Option.some.inj hflush ▸ hsafe
  · split at hflush
    · cases hflush
    · exact Option.some.inj hflush ▸ hsafe
    next hsession => exact Option.some.inj hflush ▸ hbegin (.inl hsession)
    next hsession => exact Option.some.inj hflush ▸ hbegin (.inr hsession)

/-! ### Sessions -/

theorem Filed.load (hfiled : world.Filed) (hempty : world.store.entries = [])
    (hnodup : (world.fileEntries.map (·.outpoint)).Nodup) : (world.load true).Held := by
  have hsync : (world.load true).InSync := by
    intro entry
    cases hfile : world.file with
    | none => simp [KeyWorld.load, fileEntries, hfile, hempty]
    | some entries =>
      simpa [KeyWorld.load, fileEntries, hfile] using
        EphemeralKeyStore.mem_loadEntries hempty hnodup
  have hidle : (world.load true).saves = [] := hfiled.idle
  refine ⟨?_, fun _ => hsync, by simp [hidle], by simp [hidle]⟩
  intro outpoint data hlive
  obtain ⟨entry, hentry, rfl, rfl⟩ := hfiled.live outpoint data hlive
  obtain ⟨data, hkey, hdata⟩ := EphemeralKeyStore.mem_entries.mp ((hsync entry).mpr hentry)
  rw [hkey]
  exact congrArg some (congrArg EphemeralKeyEntry.data hdata)

theorem Filed.setSession (hfiled : world.Filed) (session : Session) :
    Filed { world with session := session } :=
  ⟨hfiled.live, hfiled.unmodified, hfiled.idle⟩

theorem Held.setSession (hheld : world.Held) (session : Session) :
    Held { world with session := session } :=
  ⟨hheld.live, hheld.sync, hheld.snapshot, hheld.written⟩

theorem Located.setPending (hlocated : world.Located) (pending : PendingEphemeralPersist) :
    Located { world with pending := pending } := by
  have hheld (hheld : world.Held) : Held { world with pending := pending } :=
    ⟨hheld.live, hheld.sync, hheld.snapshot, hheld.written⟩
  have hfiled (hfiled : world.Filed) : Filed { world with pending := pending } :=
    ⟨hfiled.live, hfiled.unmodified, hfiled.idle⟩
  rw [Located] at hlocated ⊢
  dsimp only
  split at hlocated
  · exact hlocated.imp hfiled hheld
  · exact hfiled hlocated
  · exact ⟨hfiled hlocated.1, hlocated.2⟩
  all_goals exact hheld hlocated

theorem Safe.step {event : KeyEvent} (hsafe : world.Safe)
    (hstep : OrderlyStep world event world') : world'.Safe := by
  obtain ⟨hstep, horderly⟩ := hstep
  have hlocated := hsafe.located
  cases event with
  | flush => exact hsafe.flush hstep
  | write index succeeds => exact hsafe.write hstep
  | markSaved index => exact hsafe.markSaved hstep
  | change change =>
    obtain ⟨hsession, hidle⟩ := horderly
    cases hstep
    rw [Located, hsession] at hlocated
    refine ⟨hsafe.nodup, (hlocated.change hidle change).located ?_⟩
    simp [Unloaded, hsession]
  | notePending outpoint =>
    rw [KeyWorld.step] at hstep
    split at hstep
    · cases hstep
    · cases hstep
      exact ⟨hsafe.nodup, hlocated.setPending _⟩
  | beginUnlock =>
    obtain ⟨hmodified, hidle⟩ := horderly
    rw [KeyWorld.step] at hstep
    rw [Located] at hlocated
    split at hstep <;> cases hstep
    next hsession =>
      rw [hsession] at hlocated
      have hfiled := hlocated.elim id fun hheld => hheld.filed hmodified hidle
      exact ⟨hsafe.nodup, hfiled.setSession _⟩
    next hsession =>
      rw [hsession] at hlocated
      exact ⟨hsafe.nodup, (hlocated.filed hmodified hidle).setSession _⟩
  | clear =>
    obtain ⟨hsession, hstep⟩ := Option.ite_none_right_eq_some.mp hstep
    cases hstep
    rw [Located, hsession] at hlocated
    exact ⟨hsafe.nodup, ⟨hlocated.live, rfl, hlocated.idle⟩, rfl⟩
  | load readable =>
    obtain ⟨hsession, hstep⟩ := Option.ite_none_right_eq_some.mp hstep
    cases hstep
    obtain rfl : readable = true := horderly
    rw [Located, hsession] at hlocated
    exact ⟨hsafe.nodup, hlocated.1.load hlocated.2 hsafe.nodup⟩
  | endUnlock =>
    obtain ⟨⟨hsession, -⟩, hstep⟩ := Option.ite_none_right_eq_some.mp hstep
    cases hstep
    rw [Located, hsession] at hlocated
    exact ⟨hsafe.nodup, hlocated.setSession _⟩
  | beginLock =>
    obtain ⟨hsession, hstep⟩ := Option.ite_none_right_eq_some.mp hstep
    cases hstep
    rw [Located, hsession] at hlocated
    exact ⟨hsafe.nodup, hlocated.setSession _⟩
  | endLock =>
    obtain ⟨hsession, hstep⟩ := Option.ite_none_right_eq_some.mp hstep
    cases hstep
    rw [Located, hsession] at hlocated
    exact ⟨hsafe.nodup, .inr (hlocated.setSession _)⟩

/-- Along every orderly run each key that was stored and not removed is in memory or in the file,
and an unlocked account whose memory is not marked as changed is in step with its file. -/
theorem keys_survive {events : List KeyEvent} (hrun : Runs OrderlyStep init events world) :
    (∀ outpoint data, world.live.lookup outpoint = some data →
      world.store.keys.lookup outpoint = some data ∨ world.InFile outpoint data) ∧
    (world.session = .unlocked → world.store.modified = false → world.InSync) := by
  have hsafe := hrun.invariant Safe (fun _ _ _ hbefore hstep => hbefore.step hstep)
    ⟨List.nodup_nil, .inl ⟨nofun, rfl, rfl⟩⟩
  have hlocated := hsafe.located
  rw [Located] at hlocated
  constructor
  · intro outpoint data hlive
    split at hlocated
    · exact hlocated.elim (fun hfiled => .inr (hfiled.live outpoint data hlive))
        (fun hheld => .inl (hheld.live outpoint data hlive))
    · exact .inr (hlocated.live outpoint data hlive)
    · exact .inr (hlocated.1.live outpoint data hlive)
    all_goals exact .inl (hlocated.live outpoint data hlive)
  · intro hsession hmodified
    rw [hsession] at hlocated
    exact hlocated.sync hmodified

/-! ## A key that is lost -/

def sampleKey : EphemeralKeyData := ⟨[1], [2], [3]⟩

def storeKey (index : UInt32) : KeyEvent :=
  .change (.storeWithMetadata ⟨9, index⟩ sampleKey 0 none none none)

def unlockEvents : List KeyEvent := [.beginUnlock, .clear, .load true, .endUnlock]

/-- A key is stored and saved, and the account is locked and unlocked. -/
theorem keys_survive_saved :
    ∃ world, Runs OrderlyStep init (unlockEvents ++ [storeKey 0, .flush, .write 0 true,
        .markSaved 0, .beginLock, .endLock] ++ unlockEvents) world ∧
      (world.store.keys.lookup ⟨9, 0⟩ = some sampleKey ∨ world.InFile ⟨9, 0⟩ sampleKey) := by
  have hrun : Runs OrderlyStep init (unlockEvents ++ [storeKey 0, .flush, .write 0 true,
      .markSaved 0, .beginLock, .endLock] ++ unlockEvents) _ :=
    .cons ⟨rfl, rfl, rfl⟩ <| .cons ⟨rfl, trivial⟩ <| .cons ⟨rfl, rfl⟩ <| .cons ⟨rfl, trivial⟩ <|
      .cons ⟨rfl, rfl, rfl⟩ <| .cons ⟨rfl, trivial⟩ <| .cons ⟨rfl, trivial⟩ <|
      .cons ⟨rfl, trivial⟩ <| .cons ⟨rfl, trivial⟩ <| .cons ⟨rfl, trivial⟩ <|
      .cons ⟨rfl, rfl, rfl⟩ <| .cons ⟨rfl, trivial⟩ <| .cons ⟨rfl, rfl⟩ <| .cons ⟨rfl, trivial⟩ <|
      .nil _
  exact ⟨_, hrun, (keys_survive hrun).1 ⟨9, 0⟩ sampleKey rfl⟩

/-- A second key is stored while the first one is being written. The end of the save clears its
mark, so that neither its place in the queue nor locking the account saves it, and unlocking drops
it. -/
theorem keys_lost :
    ((init.run (unlockEvents ++ [storeKey 0, .notePending ⟨9, 0⟩, .flush, storeKey 1,
        .write 0 true, .markSaved 0])).any fun world =>
      world.session = .unlocked && !world.store.modified && world.saves.isEmpty &&
        world.store.keys.lookup ⟨9, 1⟩ == some sampleKey &&
        world.fileEntries.all (·.outpoint != ⟨9, 1⟩)) = true ∧
    ((init.run (unlockEvents ++ [storeKey 0, .notePending ⟨9, 0⟩, .flush, storeKey 1,
        .write 0 true, .markSaved 0, .notePending ⟨9, 1⟩, .flush, .beginLock, .flush, .endLock] ++
        unlockEvents)).any fun world =>
      world.live.lookup ⟨9, 1⟩ == some sampleKey && world.store.keys.lookup ⟨9, 1⟩ == none &&
        world.fileEntries.all (·.outpoint != ⟨9, 1⟩)) = true := by
  decide +kernel

end KeyWorld

end Qaspa.Wallet
