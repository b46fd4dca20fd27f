import Mathlib.Data.List.Sort
import Qaspa.Lib.NetDiff
import Qaspa.Reachability.Store

/-! # The staging reachability store

Changes of the reachability store are staged in memory and committed to the database in
one batch. Block data is staged as a whole. A staged set keeps its full ordered list for
reading, and the net additions and deletions for the commit, so that only the elements
that changed are written.
-/

namespace Qaspa.Reachability

open Database Outcome

variable {Hash : Type} [DecidableEq Hash]

/-! ## The database store -/

/-- Sort by a key that is computed once for each element. Lists without two elements are
left alone. -/
def sortByCachedKey {ε α κ : Type} [LinearOrder κ] (key : α → Outcome ε κ) (list : List α) :
    Outcome ε (List α) :=
  if list.length < 2 then .ok list
  else do
    let keyed ← list.mapM fun element => do return (← key element, element)
    return (keyed.insertionSort fun left right => left.1 ≤ right.1).map Prod.snd

/-- A net change of a set, with the full set that it leads to. -/
structure StagingSetEntry (Hash : Type) extends NetDiff Hash where
  set : List Hash

/-- The sets of one kind, one for each block. Cached sets are in the order of their
intervals. -/
structure DbReachabilitySet (Hash : Type) where
  access : DbSetAccess Hash
  cache : HashMap Hash (List Hash)

namespace DbReachabilitySet

/-- A read from the database is cached; the cached set is what the next read would give. -/
def read (set : DbReachabilitySet Hash) (hash : Hash)
    (intervalOf : Hash → StoreResult Hash Interval) : StoreResult Hash (List Hash) :=
  match set.cache.lookup hash with
  | some entry => .ok entry
  | none => sortByCachedKey intervalOf (set.access.bucketIterator hash)

def commitStagingEntry (set : DbReachabilitySet Hash) (hash : Hash)
    (entry : StagingSetEntry Hash) : DbReachabilitySet Hash where
  cache := set.cache.insert hash entry.set
  access := entry.additions.foldl (fun access element => access.write hash element)
    (entry.deletions.foldl (fun access element => access.delete hash element) set.access)

def delete (set : DbReachabilitySet Hash) (hash : Hash) : DbReachabilitySet Hash :=
  ⟨set.access.deleteBucket hash, set.cache.erase hash⟩

end DbReachabilitySet

structure DbReachabilityStore (Hash : Type) where
  access : HashMap Hash (ReachabilityData Hash)
  childrenAccess : DbReachabilitySet Hash
  fcsAccess : DbReachabilitySet Hash
  reindexRoot : Option Hash

namespace DbReachabilityStore

variable (store : DbReachabilityStore Hash)

def readData (hash : Hash) : StoreResult Hash (ReachabilityData Hash) :=
  found (.entry hash) (store.access.lookup hash)

def has (hash : Hash) : Bool := (store.access.lookup hash).isSome

/-- The interval of an element of a set, which has to be there. -/
def intervalOf (hash : Hash) : StoreResult Hash Interval := do
  let data ← unwrap (store.access.lookup hash)
  return data.interval

def getChildren (hash : Hash) : StoreResult Hash (List Hash) :=
  store.childrenAccess.read hash store.intervalOf

def getFutureCoveringSet (hash : Hash) : StoreResult Hash (List Hash) :=
  store.fcsAccess.read hash store.intervalOf

def getReindexRoot : StoreResult Hash Hash := found .item store.reindexRoot

/-- The same database, read without what the caches hold. -/
def cloneWithNewCache : DbReachabilityStore Hash :=
  { store with
    childrenAccess := ⟨store.childrenAccess.access, ∅⟩
    fcsAccess := ⟨store.fcsAccess.access, ∅⟩ }

end DbReachabilityStore

/-! ## Staged sets -/

namespace StagingSetEntry

def new (cachedSet : List Hash) : StagingSetEntry Hash := ⟨⟨[], []⟩, cachedSet⟩

def append (entry : StagingSetEntry Hash) (element : Hash) : StagingSetEntry Hash :=
  ⟨entry.markAddition element, entry.set ++ [element]⟩

def insert (entry : StagingSetEntry Hash) (element : Hash) (insertionIndex : Nat) :
    StoreResult Hash (StagingSetEntry Hash) := do
  let set ← vecInsert entry.set insertionIndex element
  return ⟨entry.markAddition element, set⟩

def replace (entry : StagingSetEntry Hash) (replacedHash : Hash) (replacedIndex : Nat)
    (replaceWith : List Hash) : StoreResult Hash (StagingSetEntry Hash) := do
  let set ← vecSplice entry.set replacedIndex replaceWith
  return ⟨replaceWith.foldl NetDiff.markAddition (entry.markDeletion replacedHash), set⟩

end StagingSetEntry

/-- The staged set of a hash. A set that is not staged yet is read from the store. -/
def stagedEntry (read : Hash → StoreResult Hash (List Hash))
    (staged : HashMap Hash (StagingSetEntry Hash)) (hash : Hash) :
    StoreResult Hash (StagingSetEntry Hash) :=
  match staged.lookup hash with
  | some entry => .ok entry
  | none => do return StagingSetEntry.new (← read hash)

def updateEntry (read : Hash → StoreResult Hash (List Hash))
    (staged : HashMap Hash (StagingSetEntry Hash)) (hash : Hash)
    (update : StagingSetEntry Hash → StoreResult Hash (StagingSetEntry Hash)) :
    StoreResult Hash (HashMap Hash (StagingSetEntry Hash)) := do
  let entry ← stagedEntry read staged hash
  let entry ← update entry
  return staged.insert hash entry

/-! ## The staging store -/

structure StagingReachabilityStore (Hash : Type) where
  storeRead : DbReachabilityStore Hash
  stagingWrites : HashMap Hash (ReachabilityData Hash)
  stagingChildren : HashMap Hash (StagingSetEntry Hash)
  stagingFcs : HashMap Hash (StagingSetEntry Hash)
  stagingDeletions : List Hash
  stagingReindexRoot : Option Hash

namespace StagingReachabilityStore

def new (storeRead : DbReachabilityStore Hash) : StagingReachabilityStore Hash :=
  ⟨storeRead, ∅, ∅, ∅, [], none⟩

/-- Write everything that is staged. Deletions come after all other changes. -/
def commit (store : StagingReachabilityStore Hash) : DbReachabilityStore Hash :=
  let access := store.stagingWrites.entries.foldl
    (fun access entry => access.insert entry.1 entry.2)
    store.storeRead.access
  let childrenAccess := store.stagingChildren.entries.foldl
    (fun set entry => set.commitStagingEntry entry.1 entry.2) store.storeRead.childrenAccess
  let fcsAccess := store.stagingFcs.entries.foldl
    (fun set entry => set.commitStagingEntry entry.1 entry.2) store.storeRead.fcsAccess
  { access := store.stagingDeletions.foldl (fun access hash => access.erase hash) access
    childrenAccess := store.stagingDeletions.foldl DbReachabilitySet.delete childrenAccess
    fcsAccess := store.stagingDeletions.foldl DbReachabilitySet.delete fcsAccess
    reindexRoot := store.stagingReindexRoot.or store.storeRead.reindexRoot }

def checkNotInDeletions (store : StagingReachabilityStore Hash) (hash : Hash) :
    StoreResult Hash Unit :=
  if hash ∈ store.stagingDeletions then .error (.err (.keyNotFound (.entry hash))) else .ok ()

/-- The data of a block, staged or stored. -/
def readData (store : StagingReachabilityStore Hash) (hash : Hash) :
    StoreResult Hash (ReachabilityData Hash) :=
  match store.stagingWrites.lookup hash with
  | some data => .ok data
  | none => store.storeRead.readData hash

/-- A set of a block, staged or stored. -/
def readSet (staged : HashMap Hash (StagingSetEntry Hash))
    (read : Hash → StoreResult Hash (List Hash)) (hash : Hash) : StoreResult Hash (List Hash) :=
  match staged.lookup hash with
  | some entry => .ok entry.set
  | none => read hash

/-- Deleted hashes are not inserted again, so the deletions are not looked at. -/
def insert (store : StagingReachabilityStore Hash) (hash parent : Hash) (interval : Interval)
    (height : Nat) : StoreResult Hash (StagingReachabilityStore Hash) :=
  if store.storeRead.has hash then .error (.err (.hashAlreadyExists hash))
  else
    match store.stagingWrites.lookup hash with
    | none => .ok { store with
        stagingWrites := store.stagingWrites.insert hash ⟨parent, interval, height⟩ }
    | some _ => .error (.err (.hashAlreadyExists hash))

/-- Change the data of a block. -/
def updateData (store : StagingReachabilityStore Hash) (hash : Hash)
    (update : ReachabilityData Hash → ReachabilityData Hash) :
    StoreResult Hash (StagingReachabilityStore Hash) := do
  let data ← store.readData hash
  return { store with stagingWrites := store.stagingWrites.insert hash (update data) }

def updateChildren (store : StagingReachabilityStore Hash) (hash : Hash)
    (update : StagingSetEntry Hash → StoreResult Hash (StagingSetEntry Hash)) :
    StoreResult Hash (StagingReachabilityStore Hash) := do
  let staged ← updateEntry store.storeRead.getChildren store.stagingChildren hash update
  return { store with stagingChildren := staged }

def updateFcs (store : StagingReachabilityStore Hash) (hash : Hash)
    (update : StagingSetEntry Hash → StoreResult Hash (StagingSetEntry Hash)) :
    StoreResult Hash (StagingReachabilityStore Hash) := do
  let staged ← updateEntry store.storeRead.getFutureCoveringSet store.stagingFcs hash update
  return { store with stagingFcs := staged }

instance : ReachabilityStore Hash (StagingReachabilityStore Hash) where
  has store hash := .ok (!decide (hash ∈ store.stagingDeletions) &&
    ((store.stagingWrites.lookup hash).isSome || store.storeRead.has hash))
  getInterval store hash := do
    store.checkNotInDeletions hash
    return (← store.readData hash).interval
  getParent store hash := do
    store.checkNotInDeletions hash
    return (← store.readData hash).parent
  getChildren store hash := do
    store.checkNotInDeletions hash
    readSet store.stagingChildren store.storeRead.getChildren hash
  getFutureCoveringSet store hash := do
    store.checkNotInDeletions hash
    readSet store.stagingFcs store.storeRead.getFutureCoveringSet hash
  getHeight store hash := do
    store.checkNotInDeletions hash
    return (← store.readData hash).height
  getReindexRoot store :=
    match store.stagingReindexRoot with
    | some root => .ok root
    | none => store.storeRead.getReindexRoot
  count store := .ok ((store.storeRead.access.keys ++ store.stagingWrites.keys).dedup.filter
    (· ∉ store.stagingDeletions)).length
  insert := insert
  setInterval store hash interval :=
    store.updateData hash fun data => { data with interval := interval }
  setParent store hash newParent :=
    store.updateData hash fun data => { data with parent := newParent }
  appendChild store hash child := store.updateChildren hash fun entry => .ok (entry.append child)
  insertFutureCoveringItem store hash fci insertionIndex :=
    store.updateFcs hash fun entry => entry.insert fci insertionIndex
  replaceChild store hash replacedHash replacedIndex replaceWith :=
    store.updateChildren hash fun entry => entry.replace replacedHash replacedIndex replaceWith
  replaceFutureCoveringItem store hash replacedHash replacedIndex replaceWith :=
    store.updateFcs hash fun entry => entry.replace replacedHash replacedIndex replaceWith
  delete store hash := .ok { store with
    stagingWrites := store.stagingWrites.erase hash
    stagingDeletions := store.stagingDeletions.insert hash }
  setReindexRoot store root := .ok { store with stagingReindexRoot := some root }

end StagingReachabilityStore

end Qaspa.Reachability
