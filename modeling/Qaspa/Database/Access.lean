import Mathlib.Data.List.Nodup
import Qaspa.Lib.Outcome

/-! # Access to the database

Errors of the stores, and the access to sets of hashes. A set is a bucket of keys, one
for each element, so that the database keeps one list of pairs for all sets of a store.
The order of the pairs stands for the order in which a bucket is iterated.

Writes go through a batch that the caller writes at the end. Nothing is read in between,
so a write here takes effect at once. Caches that only repeat what the database holds
are left out.
-/

namespace Qaspa.Database

open List

/-- A key, without the bytes that keep the stores of one database apart. -/
inductive DbKey (Hash : Type) where
  | entry (hash : Hash)
  | bucketed (bucket hash : Hash)
  | item
  deriving DecidableEq, Repr

inductive StoreError (Hash : Type) where
  | keyNotFound (key : DbKey Hash)
  | hashAlreadyExists (hash : Hash)
  deriving DecidableEq, Repr

abbrev StoreResult (Hash : Type) := Outcome (StoreError Hash)

variable {Hash : Type}

/-- A value that may be missing, under its key. -/
def found {α : Type} (key : DbKey Hash) : Option α → StoreResult Hash α
  | some value => .ok value
  | none => .error (.err (.keyNotFound key))

/-- The sets of a store, as pairs of a bucket and an element. -/
structure DbSetAccess (Hash : Type) where
  entries : List (Hash × Hash)
  nodup : entries.Nodup

namespace DbSetAccess

variable [DecidableEq Hash] (access : DbSetAccess Hash)

def empty : DbSetAccess Hash := ⟨[], List.nodup_nil⟩

def bucketIterator (key : Hash) : List Hash :=
  access.entries.filterMap fun entry => if entry.1 = key then some entry.2 else none

def write (key data : Hash) : DbSetAccess Hash :=
  ⟨access.entries.insert (key, data), access.nodup.insert⟩

def delete (key data : Hash) : DbSetAccess Hash :=
  ⟨access.entries.filter (· ≠ (key, data)), access.nodup.filter _⟩

def deleteBucket (key : Hash) : DbSetAccess Hash :=
  ⟨access.entries.filter (·.1 ≠ key), access.nodup.filter _⟩

variable {key data : Hash}

theorem mem_bucketIterator : data ∈ access.bucketIterator key ↔ (key, data) ∈ access.entries := by
  simp [bucketIterator]

theorem nodup_bucketIterator (key : Hash) : (access.bucketIterator key).Nodup := by
  apply access.nodup.filterMap
  rintro ⟨bucket, element⟩ ⟨bucket', element'⟩ data hdata hdata'
  split at hdata
  next hbucket =>
    split at hdata'
    next hbucket' => simp_all
    · cases hdata'
  · cases hdata

variable {bucket element : Hash}

@[simp] theorem mem_write :
    element ∈ (access.write key data).bucketIterator bucket ↔
      (bucket = key ∧ element = data) ∨ element ∈ access.bucketIterator bucket := by
  simp [mem_bucketIterator, write]

@[simp] theorem mem_delete :
    element ∈ (access.delete key data).bucketIterator bucket ↔
      element ∈ access.bucketIterator bucket ∧ ¬ (bucket = key ∧ element = data) := by
  simp [mem_bucketIterator, delete]
  tauto

@[simp] theorem mem_deleteBucket :
    element ∈ (access.deleteBucket key).bucketIterator bucket ↔
      element ∈ access.bucketIterator bucket ∧ bucket ≠ key := by
  simp [mem_bucketIterator, deleteBucket]

/-! ## Loops -/

theorem mem_foldl_write {elements : List Hash} :
    element ∈ (elements.foldl (fun access data => access.write key data) access).bucketIterator
        bucket ↔
      element ∈ access.bucketIterator bucket ∨ (bucket = key ∧ element ∈ elements) := by
  induction elements generalizing access with
  | nil => simp
  | cons first elements ih =>
    rw [foldl_cons, ih, mem_write, mem_cons]
    tauto

theorem mem_foldl_delete {elements : List Hash} :
    element ∈ (elements.foldl (fun access data => access.delete key data) access).bucketIterator
        bucket ↔
      element ∈ access.bucketIterator bucket ∧ ¬ (bucket = key ∧ element ∈ elements) := by
  induction elements generalizing access with
  | nil => simp
  | cons first elements ih =>
    rw [foldl_cons, ih, mem_delete, mem_cons]
    tauto

theorem mem_foldl_deleteBucket {keys : List Hash} :
    element ∈ (keys.foldl deleteBucket access).bucketIterator bucket ↔
      element ∈ access.bucketIterator bucket ∧ bucket ∉ keys := by
  induction keys generalizing access with
  | nil => simp
  | cons first keys ih =>
    rw [foldl_cons, ih, mem_deleteBucket, mem_cons]
    tauto

end DbSetAccess

end Qaspa.Database
