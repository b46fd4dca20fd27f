import Mathlib.Data.List.Dedup
import Qaspa.Reachability.StagingRefinement

/-! # Reads and commits of the staging store

A staging store that stands for a store in memory answers every read as that store
does, and its commit leaves in the database the elements of the staged sets.
-/

namespace Qaspa.Reachability

open Database Outcome ReachabilityStore Operation MemoryReachabilityStore DbReachabilitySet
  DbSetAccess Option ReachabilityData HashMap

variable {Hash : Type} [DecidableEq Hash]

/-! ## Sorting -/

theorem mapM_eq_ok {ε α β : Type} {f : α → Except ε β} {g : α → β} {list : List α}
    (hf : ∀ x ∈ list, f x = .ok (g x)) : list.mapM f = .ok (list.map g) := by
  induction list with
  | nil => rfl
  | cons first list ih =>
    rw [List.mapM_cons, hf first (by simp), ih fun x hx => hf x (by simp [hx])]
    rfl

/-- Sorting by keys that are all there. -/
theorem sortByCachedKey_eq_ok {ε α κ : Type} [LinearOrder κ] {key : α → Outcome ε κ} {value : α → κ}
    {list : List α} (hkey : ∀ x ∈ list, key x = .ok (value x)) :
    ∃ sorted, sortByCachedKey key list = .ok sorted ∧ sorted.Perm list ∧
      sorted.Pairwise fun left right => value left ≤ value right := by
  unfold sortByCachedKey
  split
  next hshort =>
    refine ⟨list, rfl, .refl _, ?_⟩
    match list, hshort with
    | [], _ => exact .nil
    | [_], _ => exact List.pairwise_singleton _ _
  · have hmapM : (list.mapM fun element => do return (← key element, element)) =
        .ok (list.map fun element => (value element, element)) :=
      mapM_eq_ok fun x hx => by simp [hkey x hx]
    rw [hmapM]
    refine ⟨_, rfl, ?_, ?_⟩
    · have hperm := (List.perm_insertionSort (fun left right : κ × α => left.1 ≤ right.1)
        (list.map fun element => (value element, element))).map Prod.snd
      simpa [Function.comp_def] using hperm
    · rw [List.pairwise_map]
      have hsorted := List.pairwise_insertionSort (fun left right : κ × α => left.1 ≤ right.1)
        (list.map fun element => (value element, element))
      refine hsorted.imp_of_mem fun {left right} hleft hright hle => ?_
      have hpair : ∀ pair ∈ (list.map fun element => (value element, element)).insertionSort
          fun left right : κ × α => left.1 ≤ right.1, pair.1 = value pair.2 := by
        intro pair hpair
        obtain ⟨element, _, rfl⟩ := List.mem_map.mp ((List.mem_insertionSort _).mp hpair)
        rfl
      rwa [← hpair left hleft, ← hpair right hright]

namespace StagingReachabilityStore

variable {history : List (Operation Hash)} {staging : StagingReachabilityStore Hash}
  {memory : MemoryReachabilityStore Hash}

/-! ## Reads -/

section

variable (hrefines : Refines history staging memory)

include hrefines

theorem Refines.checkNotInDeletions_bind {α : Type} (hash : Hash) (next : StoreResult Hash α)
    (read : MemoryReachabilityData Hash → α)
    (hnext : hash ∉ staging.stagingDeletions → next = (do return read (← memory.getData hash))) :
    (do staging.checkNotInDeletions hash; next) = (do return read (← memory.getData hash)) := by
  unfold checkNotInDeletions
  by_cases hdeleted : hash ∈ staging.stagingDeletions
  · simp [hdeleted, getData, found, hrefines.deleted hash hdeleted]
  · simp [hdeleted, hnext hdeleted]

theorem Refines.readData_bind {α : Type} (hash : Hash) (read : ReachabilityData Hash → α) :
    (do
      staging.checkNotInDeletions hash
      return read (← staging.readData hash)) =
    (do return read (← memory.getData hash).toReachabilityData) := by
  apply hrefines.checkNotInDeletions_bind hash _ fun data => read data.toReachabilityData
  intro hkept
  rw [hrefines.readData_eq hkept, getData]
  cases memory.map.lookup hash <;> rfl

theorem Refines.readSet_bind {hash : Hash}
    (hset : (memory.map.lookup hash).isSome ∨ .delete hash ∈ history) (kind : SetKind) :
    (do
      staging.checkNotInDeletions hash
      readSet (staging.stagedOf kind) (staging.storeRead.readSet kind) hash) =
    (do return (← memory.getData hash).setAt kind) := by
  apply hrefines.checkNotInDeletions_bind hash _ fun data => data.setAt kind
  intro hkept
  rw [(hrefines.sets kind hash hkept).readSet_eq, getData]
  rcases hset with hknown | hdeleted
  · obtain ⟨data, hdata⟩ := isSome_iff_exists.mp hknown
    rw [memory.setOf_of_lookup hdata, hdata]
    rfl
  · exact absurd ((hrefines.mem_deletions hash).mpr hdeleted) hkept

theorem Refines.has_eq (hash : Hash) :
    (!decide (hash ∈ staging.stagingDeletions) &&
      ((staging.stagingWrites.lookup hash).isSome || staging.storeRead.has hash)) =
        (memory.map.lookup hash).isSome := by
  by_cases hdeleted : hash ∈ staging.stagingDeletions
  · simp [hdeleted, hrefines.deleted hash hdeleted]
  · have hdata := congrArg isSome (hrefines.data hash hdeleted)
    rw [isSome_map] at hdata
    simp [hdeleted, ← hdata, DbReachabilityStore.has]

theorem Refines.count_eq :
    ((staging.storeRead.access.keys ++ staging.stagingWrites.keys).dedup.filter
      (· ∉ staging.stagingDeletions)).length = memory.map.entries.length := by
  have hperm : ((staging.storeRead.access.keys ++ staging.stagingWrites.keys).dedup.filter
      (· ∉ staging.stagingDeletions)).Perm memory.map.keys := by
    rw [List.perm_ext_iff_of_nodup ((List.nodup_dedup _).filter _) memory.map.keys_nodup]
    intro hash
    rw [List.mem_filter, List.mem_dedup, List.mem_append]
    simp only [← AList.mem_keys, ← isSome_lookup, ← hrefines.has_eq]
    simp [and_comm, or_comm, DbReachabilityStore.has]
  rw [hperm.length_eq, AList.keys, List.keys, List.length_map]

/-- Every read is answered alike. The sets are read for hashes that are there or were deleted. -/
theorem Refines.read_eq (query : Query Hash)
    (hset : ∀ hash, query.set? = some hash →
      (memory.map.lookup hash).isSome ∨ .delete hash ∈ history) :
    query.read staging = query.read memory := by
  cases query with
  | has hash => simp only [Query.read, has, hrefines.has_eq]
  | getInterval hash =>
    simp only [Query.read, getInterval]
    rw [hrefines.readData_bind hash interval]
  | getParent hash =>
    simp only [Query.read, getParent]
    rw [hrefines.readData_bind hash parent]
  | getHeight hash =>
    simp only [Query.read, getHeight]
    rw [hrefines.readData_bind hash height]
  | getChildren hash =>
    have hread := hrefines.readSet_bind (hset hash rfl) .children
    exact congrArg (fun result => do return Answer.hashes (← result)) hread
  | getFutureCoveringSet hash =>
    have hread := hrefines.readSet_bind (hset hash rfl) .futureCoveringSet
    exact congrArg (fun result => do return Answer.hashes (← result)) hread
  | getReindexRoot =>
    have hroot := hrefines.reindexRoot
    simp only [Query.read, getReindexRoot, ← hroot]
    cases staging.stagingReindexRoot <;> rfl
  | count => simp only [Query.read, count, hrefines.count_eq]

end

/-! ## The commit -/

theorem lookup_access_commit (store : StagingReachabilityStore Hash) (hash : Hash) :
    store.commit.access.lookup hash =
      if hash ∈ store.stagingDeletions then none
      else (store.stagingWrites.lookup hash).or (store.storeRead.access.lookup hash) := by
  have hwrites := lookup_foldl_insert_map id store.stagingWrites store.storeRead.access hash
  rw [map_id, id_eq] at hwrites
  simp only [commit, lookup_foldl_erase]
  rw [← hwrites]
  rfl

/-- The stored elements of a set. -/
def stored (set : DbReachabilitySet Hash) (hash : Hash) : Set Hash :=
  { element | element ∈ set.access.bucketIterator hash }

/-- The commit of the staged entries applies each of them to its own set. -/
theorem stored_commitStagingEntries (staged : HashMap Hash (StagingSetEntry Hash))
    (set : DbReachabilitySet Hash) (hash : Hash) :
    stored (staged.entries.foldl (fun set entry => set.commitStagingEntry entry.1 entry.2) set)
      hash =
      (staged.lookup hash).elim (stored set hash) fun entry => { element |
        (element ∈ stored set hash ∧ element ∉ entry.deletions) ∨ element ∈ entry.additions } := by
  apply foldl_entries_view (fun set => stored set hash) commitStagingEntry
    fun entry stored =>
      { element | (element ∈ stored ∧ element ∉ entry.deletions) ∨ element ∈ entry.additions }
  · simp [stored, commitStagingEntry, mem_foldl_write,
      mem_foldl_delete]
  · intro set other entry hother
    simp [stored, commitStagingEntry, mem_foldl_write,
      mem_foldl_delete, hother]

theorem stored_foldl_delete (hashes : List Hash) (set : DbReachabilitySet Hash) (hash : Hash) :
    stored (hashes.foldl delete set) hash =
      { element | element ∈ stored set hash ∧ hash ∉ hashes } := by
  have haccess : (hashes.foldl delete set).access =
      hashes.foldl deleteBucket set.access := by
    induction hashes generalizing set with
    | nil => rfl
    | cons first hashes ih => simp only [List.foldl_cons, ih, DbReachabilitySet.delete]
  simp [stored, haccess, mem_foldl_deleteBucket]

theorem setsOf_commit (store : StagingReachabilityStore Hash) (kind : SetKind) :
    store.commit.setsOf kind = store.stagingDeletions.foldl delete
      ((store.stagedOf kind).entries.foldl (fun set entry => set.commitStagingEntry entry.1 entry.2)
        (store.storeRead.setsOf kind)) := by
  cases kind <;> rfl

/-- The commit leaves in the database the sets of the store in memory. -/
theorem Refines.perm_commit (hrefines : Refines history staging memory) (kind : SetKind)
    (hash : Hash) :
    ((staging.commit.setsOf kind).access.bucketIterator hash).Perm (memory.setOf kind hash) := by
  have hmem : ∀ element, element ∈ (staging.commit.setsOf kind).access.bucketIterator hash ↔
      element ∈ memory.setOf kind hash := by
    intro element
    change element ∈ stored (staging.commit.setsOf kind) hash ↔ _
    rw [setsOf_commit, stored_foldl_delete, Set.mem_ofPred_eq]
    by_cases hdeleted : hash ∈ staging.stagingDeletions
    · simp [hdeleted, MemoryReachabilityStore.setOf, hrefines.deleted hash hdeleted]
    · obtain ⟨entry, hentry, htracks⟩ := hrefines.sets kind hash hdeleted
      rw [stored_commitStagingEntries, ← htracks.leads.current_iff]
      unfold stagedEntry at hentry
      split at hentry
      next hlookup =>
        cases hentry
        simp [hlookup, hdeleted, stored]
      next hlookup =>
        obtain ⟨list, _, hnew⟩ := bind_eq_ok.mp hentry
        cases hnew
        simp [hlookup, hdeleted, StagingSetEntry.new, stored]
  have hnodup : (memory.setOf kind hash).Nodup := by
    by_cases hdeleted : hash ∈ staging.stagingDeletions
    · simp [MemoryReachabilityStore.setOf, hrefines.deleted hash hdeleted]
    · obtain ⟨entry, _, htracks⟩ := hrefines.sets kind hash hdeleted
      exact htracks.nodup
  exact (List.perm_ext_iff_of_nodup (nodup_bucketIterator _ _) hnodup).mpr hmem

/-- The interval that the store in memory has for a hash. -/
def intervalIn (memory : MemoryReachabilityStore Hash) (hash : Hash) : Interval :=
  ((memory.map.lookup hash).map fun data => data.interval).getD ⟨1, 0⟩

/-- Read without a cache, a committed set has the elements of the staged one in the order of
their intervals. -/
theorem Refines.readSet_commit (hrefines : Refines history staging memory) (kind : SetKind)
    (hash : Hash)
    (hknown : ∀ element ∈ memory.setOf kind hash, (memory.map.lookup element).isSome) :
    ∃ elements, staging.commit.cloneWithNewCache.readSet kind hash = .ok elements ∧
      elements.Perm (memory.setOf kind hash) ∧
      elements.Pairwise fun left right => intervalIn memory left ≤ intervalIn memory right := by
  have hperm := hrefines.perm_commit kind hash
  have hinterval : ∀ element ∈ (staging.commit.setsOf kind).access.bucketIterator hash,
      staging.commit.intervalOf element = .ok (intervalIn memory element) := by
    intro element helement
    obtain ⟨data, hdata⟩ := isSome_iff_exists.mp (hknown element (hperm.mem_iff.mp helement))
    have hkept : element ∉ staging.stagingDeletions := by
      intro hdeleted
      rw [hrefines.deleted element hdeleted] at hdata
      cases hdata
    have hlookup := lookup_access_commit staging element
    rw [if_neg hkept, hrefines.data element hkept, hdata] at hlookup
    simp [DbReachabilityStore.intervalOf, hlookup, intervalIn, hdata, unwrap]
  obtain ⟨elements, hread, helements, hsorted⟩ := sortByCachedKey_eq_ok hinterval
  refine ⟨elements, ?_, helements.trans hperm, hsorted⟩
  cases kind <;> exact hread

/-- What the two stores agree on after the operations. -/
structure Agrees (operations : List (Operation Hash)) (staging : StagingReachabilityStore Hash)
    (memory : MemoryReachabilityStore Hash) : Prop where
  read_eq : ∀ query : Query Hash,
    (∀ hash, query.set? = some hash → (memory.map.lookup hash).isSome ∨ .delete hash ∈ operations) →
    query.read staging = query.read memory
  perm_commit : ∀ kind hash,
    ((staging.commit.setsOf kind).access.bucketIterator hash).Perm (memory.setOf kind hash)
  readSet_commit : ∀ kind hash,
    (∀ element ∈ memory.setOf kind hash, (memory.map.lookup element).isSome) →
    ∃ elements, staging.commit.cloneWithNewCache.readSet kind hash = .ok elements ∧
      elements.Perm (memory.setOf kind hash) ∧
      elements.Pairwise fun left right => intervalIn memory left ≤ intervalIn memory right

/-- The staging store over a database ends every run of permitted operations as the store in
memory does, and agrees with it afterwards. -/
theorem run_agrees {base : DbReachabilityStore Hash} (hholds : base.Holds memory)
    {operations : List (Operation Hash)}
    (hoperations : Admissible apply Operation.Permitted [] memory operations) :
    Agree (fun this other => this.1 = other.1 ∧ Agrees operations this.2 other.2)
      (run apply operations (new base)) (run apply operations memory) := by
  have hrun := run_agree (fun history staging memory operation hrefines hpermitted =>
    hrefines.attempt hpermitted) (new_refines hholds) hoperations
  refine hrun.mono fun this other hafter => ⟨hafter.1, ?_⟩
  obtain ⟨-, hrefines⟩ := hafter
  exact {
    read_eq := fun query hset => hrefines.read_eq query (by simpa using hset)
    perm_commit := hrefines.perm_commit
    readSet_commit := hrefines.readSet_commit }

/-! An empty database, and the insertion of two blocks of which the second replaces a third one
as the child of the first. -/

def emptyBase : DbReachabilityStore Nat := ⟨∅, ⟨.empty, ∅⟩, ⟨.empty, ∅⟩, none⟩

theorem emptyBase_holds : emptyBase.Holds .new where
  data hash := by simp [emptyBase, MemoryReachabilityStore.new]
  sets kind hash := by
    cases kind <;>
      simp [emptyBase, DbReachabilityStore.readSet, DbReachabilityStore.setsOf,
        DbReachabilitySet.read, bucketIterator, empty, sortByCachedKey,
        MemoryReachabilityStore.setOf, MemoryReachabilityStore.new]
  reindexRoot := rfl

def sampleOperations : List (Operation Nat) :=
  [.insert 1 0 ⟨1, 9⟩ 0, .insert 2 1 ⟨1, 4⟩ 1, .insert 3 1 ⟨5, 8⟩ 1, .appendChild 1 3,
    .replaceChild 1 3 0 [2], .delete 3]

theorem run_agrees_sample :
    Agree (fun this other => this.1 = other.1 ∧ Agrees sampleOperations this.2 other.2)
      (run apply sampleOperations (new emptyBase))
      (run apply sampleOperations MemoryReachabilityStore.new) := by
  apply run_agrees emptyBase_holds
  refine .cons rfl ⟨by simp, trivial⟩ ?_
  refine .cons rfl ⟨by simp, trivial⟩ ?_
  refine .cons rfl ⟨by simp, trivial⟩ ?_
  refine .cons rfl ⟨by simp, rfl, by decide⟩ ?_
  refine .cons rfl ⟨by simp, rfl, rfl, by decide, by decide⟩ ?_
  exact .cons rfl ⟨by simp, trivial⟩ trivial

/-- Without the hash the two stores differ: an append to a set of an unknown hash and the read of
such a set are errors in memory only. -/
theorem run_agrees_unknown :
    ∃ errors staging errors' memory,
      run apply [.appendChild 7 8, .insert 7 0 ⟨1, 9⟩ 0] (new emptyBase) =
          .ok (errors, staging) ∧
        run apply [.appendChild 7 8, .insert 7 0 ⟨1, 9⟩ 0]
          (MemoryReachabilityStore.new : MemoryReachabilityStore Nat) = .ok (errors', memory) ∧
        errors = [none, none] ∧
        errors' = [some (.keyNotFound (.entry 7)), none] ∧
        (Query.getChildren 7).read staging = .ok (.hashes [8]) ∧
        (Query.getChildren 7).read memory = .ok (.hashes []) ∧
        (Query.getChildren 9).read staging = .ok (.hashes []) ∧
        (Query.getChildren 9).read memory = .error (.err (.keyNotFound (.entry 9))) :=
  ⟨_, _, _, _, rfl, rfl, rfl, rfl, rfl, rfl, rfl, rfl⟩

end StagingReachabilityStore

end Qaspa.Reachability
