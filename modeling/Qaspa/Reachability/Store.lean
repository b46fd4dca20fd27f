import Mathlib.Data.Prod.Lex
import Qaspa.Database.Access
import Qaspa.Lib.HashMap
import Qaspa.Lib.Vec

/-! # The reachability store

Reachability keeps, for each block, its parent and height in the reachability tree,
its interval, and two ordered sets: the tree children and the future covering set.
The interface of a store is the class `ReachabilityStore`; the store in memory keeps
everything about a block in one record.
-/

namespace Qaspa.Reachability

open Database Outcome

/-! ## Intervals -/

/-- The numbers from the first to the last one. -/
structure Interval where
  start : Nat
  last : Nat
  deriving DecidableEq, Repr

namespace Interval

/-- Intervals compare by their first number, then by their last. -/
def key (interval : Interval) : Nat ×ₗ Nat := toLex (interval.start, interval.last)

theorem key_injective : Function.Injective key := by
  rintro ⟨start, last⟩ ⟨start', last'⟩ hkey
  obtain ⟨rfl, rfl⟩ := Prod.mk.inj (toLex.injective hkey)
  rfl

instance : LinearOrder Interval := LinearOrder.lift' key key_injective

end Interval

/-! ## The interface -/

structure ReachabilityData (Hash : Type) where
  parent : Hash
  interval : Interval
  height : Nat
  deriving DecidableEq, Repr

variable {Hash : Type}

class ReachabilityStore (Hash : outParam Type) (Store : Type) where
  has : Store → Hash → StoreResult Hash Bool
  getInterval : Store → Hash → StoreResult Hash Interval
  getParent : Store → Hash → StoreResult Hash Hash
  getChildren : Store → Hash → StoreResult Hash (List Hash)
  getFutureCoveringSet : Store → Hash → StoreResult Hash (List Hash)
  getHeight : Store → Hash → StoreResult Hash Nat
  getReindexRoot : Store → StoreResult Hash Hash
  count : Store → StoreResult Hash Nat
  insert : Store → Hash → Hash → Interval → Nat → StoreResult Hash Store
  setInterval : Store → Hash → Interval → StoreResult Hash Store
  setParent : Store → Hash → Hash → StoreResult Hash Store
  appendChild : Store → Hash → Hash → StoreResult Hash Store
  insertFutureCoveringItem : Store → Hash → Hash → Nat → StoreResult Hash Store
  replaceChild : Store → Hash → Hash → Nat → List Hash → StoreResult Hash Store
  replaceFutureCoveringItem : Store → Hash → Hash → Nat → List Hash → StoreResult Hash Store
  delete : Store → Hash → StoreResult Hash Store
  setReindexRoot : Store → Hash → StoreResult Hash Store

/-! ## The store in memory -/

structure MemoryReachabilityData (Hash : Type) extends ReachabilityData Hash where
  children : List Hash
  futureCoveringSet : List Hash
  deriving DecidableEq, Repr

structure MemoryReachabilityStore (Hash : Type) where
  map : HashMap Hash (MemoryReachabilityData Hash)
  reindexRoot : Option Hash

namespace MemoryReachabilityStore

variable [DecidableEq Hash]

def new : MemoryReachabilityStore Hash := ⟨∅, none⟩

def getData (store : MemoryReachabilityStore Hash) (hash : Hash) :
    StoreResult Hash (MemoryReachabilityData Hash) :=
  found (.entry hash) (store.map.lookup hash)

/-- Change the data of a hash in place. -/
def updateData (store : MemoryReachabilityStore Hash) (hash : Hash)
    (update : MemoryReachabilityData Hash → StoreResult Hash (MemoryReachabilityData Hash)) :
    StoreResult Hash (MemoryReachabilityStore Hash) := do
  let data ← store.getData hash
  let data ← update data
  return { store with map := store.map.insert hash data }

def insert (store : MemoryReachabilityStore Hash) (hash parent : Hash) (interval : Interval)
    (height : Nat) : StoreResult Hash (MemoryReachabilityStore Hash) :=
  match store.map.lookup hash with
  | none => .ok { store with map := store.map.insert hash ⟨⟨parent, interval, height⟩, [], []⟩ }
  | some _ => .error (.err (.hashAlreadyExists hash))

/-- The assertions of the replacements on the replaced hash are of debug builds only. -/
instance : ReachabilityStore Hash (MemoryReachabilityStore Hash) where
  has store hash := .ok (store.map.lookup hash).isSome
  getInterval store hash := do return (← store.getData hash).interval
  getParent store hash := do return (← store.getData hash).parent
  getChildren store hash := do return (← store.getData hash).children
  getFutureCoveringSet store hash := do return (← store.getData hash).futureCoveringSet
  getHeight store hash := do return (← store.getData hash).height
  getReindexRoot store := found .item store.reindexRoot
  count store := .ok store.map.entries.length
  insert := insert
  setInterval store hash interval :=
    store.updateData hash fun data => .ok { data with interval := interval }
  setParent store hash newParent :=
    store.updateData hash fun data => .ok { data with parent := newParent }
  appendChild store hash child :=
    store.updateData hash fun data => .ok { data with children := data.children ++ [child] }
  insertFutureCoveringItem store hash fci insertionIndex :=
    store.updateData hash fun data => do
      let set ← vecInsert data.futureCoveringSet insertionIndex fci
      return { data with futureCoveringSet := set }
  replaceChild store hash _ replacedIndex replaceWith :=
    store.updateData hash fun data => do
      let set ← vecSplice data.children replacedIndex replaceWith
      return { data with children := set }
  replaceFutureCoveringItem store hash _ replacedIndex replaceWith :=
    store.updateData hash fun data => do
      let set ← vecSplice data.futureCoveringSet replacedIndex replaceWith
      return { data with futureCoveringSet := set }
  delete store hash := .ok { store with map := store.map.erase hash }
  setReindexRoot store root := .ok { store with reindexRoot := some root }

end MemoryReachabilityStore

/-! ## Operations and reads -/

inductive Operation (Hash : Type) where
  | insert (hash parent : Hash) (interval : Interval) (height : Nat)
  | setInterval (hash : Hash) (interval : Interval)
  | setParent (hash newParent : Hash)
  | appendChild (hash child : Hash)
  | insertFutureCoveringItem (hash fci : Hash) (insertionIndex : Nat)
  | replaceChild (hash replacedHash : Hash) (replacedIndex : Nat) (replaceWith : List Hash)
  | replaceFutureCoveringItem (hash replacedHash : Hash) (replacedIndex : Nat)
      (replaceWith : List Hash)
  | delete (hash : Hash)
  | setReindexRoot (root : Hash)
  deriving DecidableEq, Repr

namespace Operation

def apply {Store : Type} [ReachabilityStore Hash Store] (operation : Operation Hash)
    (store : Store) : StoreResult Hash Store :=
  match operation with
  | insert hash parent interval height => ReachabilityStore.insert store hash parent interval height
  | setInterval hash interval => ReachabilityStore.setInterval store hash interval
  | setParent hash newParent => ReachabilityStore.setParent store hash newParent
  | appendChild hash child => ReachabilityStore.appendChild store hash child
  | insertFutureCoveringItem hash fci insertionIndex =>
    ReachabilityStore.insertFutureCoveringItem store hash fci insertionIndex
  | replaceChild hash replacedHash replacedIndex replaceWith =>
    ReachabilityStore.replaceChild store hash replacedHash replacedIndex replaceWith
  | replaceFutureCoveringItem hash replacedHash replacedIndex replaceWith =>
    ReachabilityStore.replaceFutureCoveringItem store hash replacedHash replacedIndex replaceWith
  | delete hash => ReachabilityStore.delete store hash
  | setReindexRoot root => ReachabilityStore.setReindexRoot store root

/-- The hash whose entry an operation works on. -/
def hash? : Operation Hash → Option Hash
  | insert hash _ _ _ => some hash
  | setInterval hash _ => some hash
  | setParent hash _ => some hash
  | appendChild hash _ => some hash
  | insertFutureCoveringItem hash _ _ => some hash
  | replaceChild hash _ _ _ => some hash
  | replaceFutureCoveringItem hash _ _ _ => some hash
  | delete hash => some hash
  | setReindexRoot _ => none

end Operation

inductive Query (Hash : Type) where
  | has (hash : Hash)
  | getInterval (hash : Hash)
  | getParent (hash : Hash)
  | getChildren (hash : Hash)
  | getFutureCoveringSet (hash : Hash)
  | getHeight (hash : Hash)
  | getReindexRoot
  | count
  deriving DecidableEq, Repr

inductive Answer (Hash : Type) where
  | flag (value : Bool)
  | interval (value : Interval)
  | hash (value : Hash)
  | hashes (value : List Hash)
  | number (value : Nat)
  deriving DecidableEq, Repr

namespace Query

def read {Store : Type} [ReachabilityStore Hash Store] (query : Query Hash) (store : Store) :
    StoreResult Hash (Answer Hash) :=
  match query with
  | has hash => return .flag (← ReachabilityStore.has store hash)
  | getInterval hash => return .interval (← ReachabilityStore.getInterval store hash)
  | getParent hash => return .hash (← ReachabilityStore.getParent store hash)
  | getChildren hash => return .hashes (← ReachabilityStore.getChildren store hash)
  | getFutureCoveringSet hash =>
    return .hashes (← ReachabilityStore.getFutureCoveringSet store hash)
  | getHeight hash => return .number (← ReachabilityStore.getHeight store hash)
  | getReindexRoot => return .hash (← ReachabilityStore.getReindexRoot store)
  | count => return .number (← ReachabilityStore.count store)

/-- The hash whose set a query reads. -/
def set? : Query Hash → Option Hash
  | getChildren hash => some hash
  | getFutureCoveringSet hash => some hash
  | _ => none

end Query

end Qaspa.Reachability
