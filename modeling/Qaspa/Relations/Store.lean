import Qaspa.Database.Access
import Qaspa.Lib.HashMap
import Qaspa.Lib.Search
import Qaspa.Lib.Vec

/-! # Relations stores

A relations store keeps the parents of each block in order, and its children as a set.
The operations on whole blocks are written once, over the primitive writes of a store:
in memory, in the database, or staged over the database.

A set of children is a list here; its order stands for the order in which the set is
iterated.
-/

namespace Qaspa.Relations

open Database Outcome

variable {Hash : Type} [DecidableEq Hash]

class RelationsStore (Hash : outParam Type) (Store : Type) where
  getParents : Store → Hash → StoreResult Hash (List Hash)
  getChildren : Store → Hash → StoreResult Hash (List Hash)
  has : Store → Hash → StoreResult Hash Bool
  counts : Store → StoreResult Hash (Nat × Nat)
  setParents : Store → Hash → List Hash → StoreResult Hash Store
  deleteEntries : Store → Hash → StoreResult Hash Store
  insertChild : Store → Hash → Hash → StoreResult Hash Store
  deleteChild : Store → Hash → Hash → StoreResult Hash Store

/-- The first occurrence of each hash. -/
def blockUnique (hashes : List Hash) : List Hash := hashes.reverse.dedup.reverse

/-! ## Operations on whole blocks -/

section Operations

variable {Store : Type} [RelationsStore Hash Store]

open RelationsStore

/-- A new entry. Repeated parents are dropped. -/
def insert (store : Store) (hash : Hash) (parents : List Hash) : StoreResult Hash Store := do
  if ← has store hash then .error (.err (.hashAlreadyExists hash))
  else
    let parents :=
      if parents.length ≠ (blockUnique parents).length then blockUnique parents else parents
    let store ← setParents store hash parents
    parents.foldlM (fun store parent => insertChild store parent hash) store

def delete (store : Store) (hash : Hash) : StoreResult Hash Store := do
  let parents ← getParents store hash
  let store ← deleteEntries store hash
  parents.foldlM (fun store parent => deleteChild store parent hash) store

def replaceParent (store : Store) (hash replacedParent : Hash) (replaceWith : List Hash) :
    StoreResult Hash Store := do
  let parents ← getParents store hash
  let replacedIndex ← unwrap (parents.idxOf? replacedParent)
  let parents ← vecSwapRemove parents replacedIndex
  let store ← setParents store hash (parents ++ replaceWith)
  replaceWith.foldlM (fun store parent => insertChild store parent hash) store

/-- A call whose error is a panic of the caller. -/
def orPanic {α : Type} : StoreResult Hash α → StoreResult Hash α
  | .error (.err _) => .error .panic
  | result => result

/-- Remove a block from the relations of a level. A child that has no other parent is
connected to the origin. -/
def deleteLevelRelations (origin : Hash) (store : Store) (hash : Hash) :
    StoreResult Hash Store := do
  let children ← getChildren store hash
  let store ← children.foldlM (fun store child => do
    let childParents ← orPanic (getParents store child)
    let replaceWith := if childParents = [hash] then [origin] else []
    orPanic (replaceParent store child hash replaceWith)) store
  orPanic (delete store hash)

/-- The answers of the reachability service that a deletion asks for. The interval of a block
contains itself, so that a block is its own ancestor. -/
structure Reachability (Hash : Type) where
  getChainParent : Hash → Option Hash
  isDagAncestorOf : Hash → Hash → Bool
  isDagAncestorOf_self : ∀ hash, isDagAncestorOf hash hash = true

/-- The parents of a deleted block that a child needs, since they are not in the past of one
of its other parents. -/
def neededGrandparents (reachability : Reachability Hash) (hash : Hash)
    (parents childParents : List Hash) : List Hash :=
  let otherParents := childParents.filter (· ≠ hash)
  parents.filter fun grandparent => !otherParents.any (reachability.isDagAncestorOf grandparent)

/-- The blocks that a block merges, without its selected parent. No block is queued twice, so
the number of blocks bounds the rounds of the search. -/
def unorderedMergesetWithoutSelectedParent (reachability : Reachability Hash) (store : Store)
    (selectedParent : Hash) (parents : List Hash) : StoreResult Hash (List Hash) := do
  let (blocks, _) ← counts store
  let queue := parents.filter (· ≠ selectedParent)
  Search.search (fun block => (getParents store block).toOption)
    (reachability.isDagAncestorOf · selectedParent) (parents.length + blocks)
    ⟨queue, queue.dedup, []⟩

/-- Remove a block from the reachability relations, and connect its children to its parents
where that is needed to keep the ancestry of the other blocks. Returns the mergeset of the
block. -/
def deleteReachabilityRelations (reachability : Reachability Hash) (store : Store) (hash : Hash) :
    StoreResult Hash (List Hash × Store) := do
  let selectedParent ← unwrap (reachability.getChainParent hash)
  let parents ← orPanic (getParents store hash)
  let children ← orPanic (getChildren store hash)
  let mergeset ← unorderedMergesetWithoutSelectedParent reachability store selectedParent parents
  let store ← children.foldlM (fun store child => do
    let childParents ← orPanic (getParents store child)
    orPanic (replaceParent store child hash
      (neededGrandparents reachability hash parents childParents))) store
  let store ← orPanic (delete store hash)
  return (mergeset, store)

end Operations

/-! ## In memory -/

structure MemoryRelationsStore (Hash : Type) where
  parentsMap : HashMap Hash (List Hash)
  childrenMap : HashMap Hash (List Hash)

namespace MemoryRelationsStore

/-- The children in the order in which they were added. -/
def childrenOf (store : MemoryRelationsStore Hash) (parent : Hash) : List Hash :=
  (store.childrenMap.lookup parent).getD []

def has (store : MemoryRelationsStore Hash) (hash : Hash) : Bool :=
  (store.parentsMap.lookup hash).isSome

instance : RelationsStore Hash (MemoryRelationsStore Hash) where
  getParents store hash := found (.entry hash) (store.parentsMap.lookup hash)
  getChildren store hash :=
    if !store.has hash then .error (.err (.keyNotFound (.entry hash)))
    else .ok (store.childrenOf hash).dedup
  has store hash := .ok (store.has hash)
  counts store := .ok (store.parentsMap.entries.length, store.parentsMap.entries.length)
  setParents store hash parents :=
    .ok { store with parentsMap := store.parentsMap.insert hash parents }
  deleteEntries store hash := .ok ⟨store.parentsMap.erase hash, store.childrenMap.erase hash⟩
  insertChild store parent child := .ok { store with
    childrenMap := store.childrenMap.insert parent (store.childrenOf parent ++ [child]) }
  deleteChild store parent child :=
    if child ∈ store.childrenOf parent then .ok { store with
      childrenMap := store.childrenMap.insert parent ((store.childrenOf parent).erase child) }
    else .ok store

end MemoryRelationsStore

/-! ## In the database -/

structure DbRelationsStore (Hash : Type) where
  parentsAccess : HashMap Hash (List Hash)
  childrenStore : DbSetAccess Hash

namespace DbRelationsStore

def has (store : DbRelationsStore Hash) (hash : Hash) : Bool :=
  (store.parentsAccess.lookup hash).isSome

instance : RelationsStore Hash (DbRelationsStore Hash) where
  getParents store hash := found (.entry hash) (store.parentsAccess.lookup hash)
  -- Sets of children that are not there are just empty, so the parents are looked at.
  getChildren store hash :=
    if !store.has hash then .error (.err (.keyNotFound (.entry hash)))
    else .ok (store.childrenStore.bucketIterator hash)
  has store hash := .ok (store.has hash)
  counts store := .ok (store.parentsAccess.entries.length, store.parentsAccess.entries.length)
  setParents store hash parents :=
    .ok { store with parentsAccess := store.parentsAccess.insert hash parents }
  deleteEntries store hash :=
    .ok ⟨store.parentsAccess.erase hash, store.childrenStore.deleteBucket hash⟩
  insertChild store parent child :=
    .ok { store with childrenStore := store.childrenStore.write parent child }
  deleteChild store parent child :=
    .ok { store with childrenStore := store.childrenStore.delete parent child }

end DbRelationsStore

/-! ## Staged -/

structure StagingRelationsStore (Hash : Type) where
  store : DbRelationsStore Hash
  entryDeletions : List Hash
  parentsOverrides : HashMap Hash (List Hash)
  childrenInsertions : HashMap Hash (List Hash)
  childrenDeletions : HashMap Hash (List Hash)

/-- The set under a key, empty if there is none. -/
def setAt (sets : HashMap Hash (List Hash)) (key : Hash) : List Hash := (sets.lookup key).getD []

namespace StagingRelationsStore

def new (store : DbRelationsStore Hash) : StagingRelationsStore Hash := ⟨store, [], ∅, ∅, ∅⟩

def checkNotInEntryDeletions (staging : StagingRelationsStore Hash) (hash : Hash) :
    StoreResult Hash Unit :=
  if hash ∈ staging.entryDeletions then .error (.err (.keyNotFound (.entry hash))) else .ok ()

def checkNotInChildrenDeletions (staging : StagingRelationsStore Hash) (parent child : Hash) :
    StoreResult Hash Unit :=
  if child ∈ setAt staging.childrenDeletions parent then
    .error (.err (.keyNotFound (.bucketed parent child)))
  else .ok ()

def getParents (staging : StagingRelationsStore Hash) (hash : Hash) :
    StoreResult Hash (List Hash) := do
  staging.checkNotInEntryDeletions hash
  match staging.parentsOverrides.lookup hash with
  | some data => .ok data
  | none => RelationsStore.getParents staging.store hash

def getChildren (staging : StagingRelationsStore Hash) (hash : Hash) :
    StoreResult Hash (List Hash) := do
  staging.checkNotInEntryDeletions hash
  let storeChildren ← match RelationsStore.getChildren staging.store hash with
    | .ok children => .ok children
    | .error (.err (.keyNotFound key)) =>
      -- A new entry is not an error.
      if (staging.parentsOverrides.lookup hash).isSome ||
          (staging.childrenInsertions.lookup hash).isSome then .ok []
      else .error (.err (.keyNotFound key))
    | .error fault => .error fault
  let insertions := setAt staging.childrenInsertions hash
  let deletions := setAt staging.childrenDeletions hash
  return (storeChildren ++ insertions).dedup.filter (· ∉ deletions)

def insertChild (staging : StagingRelationsStore Hash) (parent child : Hash) :
    StoreResult Hash (StagingRelationsStore Hash) := do
  staging.checkNotInEntryDeletions parent
  staging.checkNotInChildrenDeletions parent child
  let children := (setAt staging.childrenInsertions parent).insert child
  return { staging with childrenInsertions := staging.childrenInsertions.insert parent children }

def deleteChild (staging : StagingRelationsStore Hash) (parent child : Hash) :
    StoreResult Hash (StagingRelationsStore Hash) := do
  staging.checkNotInEntryDeletions parent
  let childrenInsertions := match staging.childrenInsertions.lookup parent with
    | some children => staging.childrenInsertions.insert parent (children.filter (· ≠ child))
    | none => staging.childrenInsertions
  let deletions := (setAt staging.childrenDeletions parent).insert child
  return { staging with
    childrenInsertions := childrenInsertions
    childrenDeletions := staging.childrenDeletions.insert parent deletions }

instance : RelationsStore Hash (StagingRelationsStore Hash) where
  getParents := getParents
  getChildren := getChildren
  has staging hash := .ok (!decide (hash ∈ staging.entryDeletions) &&
    ((staging.parentsOverrides.lookup hash).isSome || staging.store.has hash))
  counts staging :=
    let count := ((staging.store.parentsAccess.keys ++ staging.parentsOverrides.keys).dedup.filter
      (· ∉ staging.entryDeletions)).length
    .ok (count, count)
  setParents staging hash parents :=
    .ok { staging with parentsOverrides := staging.parentsOverrides.insert hash parents }
  deleteEntries staging hash := .ok { staging with
    parentsOverrides := staging.parentsOverrides.erase hash
    childrenDeletions := staging.childrenDeletions.erase hash
    childrenInsertions := staging.childrenInsertions.erase hash
    entryDeletions := staging.entryDeletions.insert hash }
  insertChild := insertChild
  deleteChild := deleteChild

/-- Write everything that is staged. Deletions come after all other changes. -/
def commit (staging : StagingRelationsStore Hash) : DbRelationsStore Hash :=
  let parentsAccess := staging.parentsOverrides.entries.foldl
    (fun access entry => access.insert entry.1 entry.2) staging.store.parentsAccess
  let inserted := staging.childrenInsertions.entries.foldl
    (fun access entry => entry.2.foldl (fun access child => access.write entry.1 child) access)
    staging.store.childrenStore
  let emptied := staging.entryDeletions.foldl DbSetAccess.deleteBucket inserted
  { parentsAccess :=
      staging.entryDeletions.foldl (fun access hash => access.erase hash) parentsAccess
    childrenStore := staging.childrenDeletions.entries.foldl
      (fun access entry => entry.2.foldl (fun access child => access.delete entry.1 child) access)
      emptied }

end StagingRelationsStore

end Qaspa.Relations
