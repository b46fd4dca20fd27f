import Qaspa.Relations.Rewiring

/-! # Lawful stores of relations

The store in memory, and the staging store over the database, are lawful. The parents of a
block are staged as a whole, its children as additions and removals; a removal stays forever,
since only deleted blocks are removed from the children of their parents. A commit leaves in the
database what the staging store stands for.
-/

namespace Qaspa.Relations

open Dag Database Outcome HashMap List RelationsStore Contents DbSetAccess

variable {Hash : Type} [DecidableEq Hash] {contents : Contents Hash}

section Sets

variable {sets : HashMap Hash (List Hash)}

theorem mem_setAt_insert {key bucket element : Hash} {elements : List Hash} :
    element ∈ setAt (sets.insert key elements) bucket ↔
      (bucket = key ∧ element ∈ elements) ∨ (bucket ≠ key ∧ element ∈ setAt sets bucket) := by
  by_cases heq : bucket = key
  · subst heq
    simp [setAt]
  · simp [setAt, heq]

theorem mem_setAt_erase {key bucket element : Hash} :
    element ∈ setAt (sets.erase key) bucket ↔ bucket ≠ key ∧ element ∈ setAt sets bucket := by
  by_cases heq : bucket = key
  · subst heq
    simp [setAt]
  · simp [setAt, heq]

end Sets

/-! ## In memory -/

namespace MemoryRelationsStore

structure Represents (store : MemoryRelationsStore Hash) (contents : Contents Hash) : Prop where
  parents : ∀ hash, store.parentsMap.lookup hash = contents.parents hash
  nodup : ∀ parent, (store.childrenOf parent).Nodup
  children : ∀ parent child, child ∈ store.childrenOf parent ↔ contents.children parent child

variable {store : MemoryRelationsStore Hash}

section

variable (hstore : store.Represents contents)

include hstore

theorem Represents.has_eq (hash : Hash) : store.has hash = (contents.parents hash).isSome := by
  rw [has, hstore.parents]

theorem Represents.reads : Reads store contents where
  getParents_eq hash := congrArg (found _) (hstore.parents hash)
  getChildren_eq_ok hash hknown := by
    refine ⟨(store.childrenOf hash).dedup, ?_, nodup_dedup _, fun child => ?_⟩
    · have hhas : store.has hash = true := (hstore.has_eq hash).trans hknown
      simp [getChildren, hhas]
    · rw [mem_dedup, hstore.children]
  getChildren_eq_error hash hunknown := by
    have hhas : store.has hash = false :=
      (hstore.has_eq hash).trans (Bool.eq_false_iff.mpr hunknown)
    simp [getChildren, hhas]
  has_eq hash := congrArg _ (hstore.has_eq hash)
  counts_eq := by
    refine ⟨store.parentsMap.keys, store.parentsMap.keys_nodup, fun hash => ?_, ?_⟩
    · rw [← AList.mem_keys, ← isSome_lookup, hstore.parents]
      rfl
    · simp [counts, AList.keys, keys]

/-- Another list of children for one parent. -/
theorem Represents.setChildren {parent : Hash} {list : List Hash} (hnodup : list.Nodup)
    {children : Hash → Hash → Prop} (hlist : ∀ child, child ∈ list ↔ children parent child)
    (hchildren : ∀ block ≠ parent, children block = contents.children block) :
    Represents { store with childrenMap := store.childrenMap.insert parent list }
      { contents with children := children } where
  parents := hstore.parents
  nodup block := by
    by_cases heq : block = parent
    · subst heq
      simpa [childrenOf] using hnodup
    · simpa [childrenOf, AList.lookup_insert_ne heq] using hstore.nodup block
  children block other := by
    refine mem_setAt_insert.trans ?_
    by_cases heq : block = parent
    · simp [heq, hlist]
    · simp only [heq, false_and, false_or, ne_eq, not_false_eq_true, true_and, hchildren block heq]
      exact hstore.children block other

variable {parent child : Hash}

theorem Represents.insertChild (hnew : ¬ contents.children parent child) :
    Represents { store with
        childrenMap := store.childrenMap.insert parent (store.childrenOf parent ++ [child]) }
      (contents.adopt [parent] child) := by
  have hnot : child ∉ store.childrenOf parent := mt (hstore.children parent child).mp hnew
  apply hstore.setChildren
  · simpa [nodup_append'] using ⟨hstore.nodup parent, hnot⟩
  · simp [hstore.children, or_comm]
  · intro block hne
    simp [hne]

/-- A child is in the list once, so that its removal removes it. -/
theorem Represents.deleteChild (parent child : Hash) :
    Represents { store with
        childrenMap := store.childrenMap.insert parent ((store.childrenOf parent).erase child) }
      (contents.disown [parent] child) := by
  apply hstore.setChildren ((hstore.nodup parent).erase child)
  · simp [(hstore.nodup parent).mem_erase_iff, hstore.children, and_comm]
  · intro block hne
    simp [hne]

end

theorem lawful : Lawful (Represents : MemoryRelationsStore Hash → Contents Hash → Prop) where
  reads := Represents.reads
  setParents parents hstore _ := by
    refine ⟨_, rfl, fun hash => ?_, hstore.nodup, hstore.children⟩
    simp only [lookup_insert_eq_ite, hstore.parents, Contents.setParents,
      Function.update_apply]
  deleteEntries {store contents} hash hstore := by
    refine ⟨_, rfl, fun block => ?_, fun parent => ?_, fun parent child => ?_⟩
    · simp only [lookup_erase_eq_ite, hstore.parents, Contents.deleteEntries,
        Function.update_apply]
    · by_cases heq : parent = hash
      · subst heq
        simp [childrenOf]
      · simpa [childrenOf, AList.lookup_erase_ne heq] using hstore.nodup parent
    · refine mem_setAt_erase.trans (and_congr_right fun _ => ?_)
      exact hstore.children parent child
  insertChild hstore _ _ hnew := ⟨_, rfl, hstore.insertChild hnew⟩
  deleteChild {store contents parent child} hstore _ _ := by
    by_cases hmem : child ∈ store.childrenOf parent
    · exact ⟨_, if_pos hmem, hstore.deleteChild parent child⟩
    · refine ⟨store, if_neg hmem, hstore.parents, hstore.nodup, fun block other => ?_⟩
      rw [hstore.children] at hmem
      simp only [hstore.children, disown, mem_singleton]
      constructor
      · intro hold
        refine ⟨hold, ?_⟩
        rintro ⟨rfl, rfl⟩
        exact hmem hold
      · exact And.left

end MemoryRelationsStore

/-! ## In the database -/

namespace DbRelationsStore

structure Represents (store : DbRelationsStore Hash) (contents : Contents Hash) : Prop where
  parents : ∀ hash, store.parentsAccess.lookup hash = contents.parents hash
  children : ∀ parent child,
    child ∈ store.childrenStore.bucketIterator parent ↔ contents.children parent child

variable {store : DbRelationsStore Hash}

theorem Represents.has_eq (hstore : store.Represents contents) (hash : Hash) :
    store.has hash = (contents.parents hash).isSome := by
  rw [has, hstore.parents]

theorem Represents.reads (hstore : store.Represents contents) : Reads store contents where
  getParents_eq hash := congrArg (found _) (hstore.parents hash)
  getChildren_eq_ok hash hknown := by
    refine ⟨store.childrenStore.bucketIterator hash, ?_,
      store.childrenStore.nodup_bucketIterator hash, hstore.children hash⟩
    have hhas : store.has hash = true := (hstore.has_eq hash).trans hknown
    simp [getChildren, hhas]
  getChildren_eq_error hash hunknown := by
    have hhas : store.has hash = false :=
      (hstore.has_eq hash).trans (Bool.eq_false_iff.mpr hunknown)
    simp [getChildren, hhas]
  has_eq hash := congrArg _ (hstore.has_eq hash)
  counts_eq := by
    refine ⟨store.parentsAccess.keys, store.parentsAccess.keys_nodup, fun hash => ?_, ?_⟩
    · rw [← AList.mem_keys, ← isSome_lookup, hstore.parents]
      rfl
    · simp [counts, AList.keys, keys]

end DbRelationsStore

/-! ## Staged -/

namespace StagingRelationsStore

/-- What a staging store stands for. Only known blocks have staged children, and only deleted
blocks are staged for removal from the children of a block. -/
structure Represents (staging : StagingRelationsStore Hash) (contents : Contents Hash) : Prop where
  deleted : ∀ hash, hash ∈ staging.entryDeletions ↔ contents.deleted hash
  parents : ∀ hash, contents.parents hash = if hash ∈ staging.entryDeletions then none
    else (staging.parentsOverrides.lookup hash).or (staging.store.parentsAccess.lookup hash)
  children : ∀ parent child, contents.children parent child ↔ parent ∉ staging.entryDeletions ∧
    (child ∈ staging.store.childrenStore.bucketIterator parent ∨
      child ∈ setAt staging.childrenInsertions parent) ∧
    child ∉ setAt staging.childrenDeletions parent
  stored_known : ∀ parent child, child ∈ staging.store.childrenStore.bucketIterator parent →
    staging.store.has parent
  insertions_known : ∀ parent, (staging.childrenInsertions.lookup parent).isSome →
    contents.Known parent
  deletions_deleted : ∀ parent child, child ∈ setAt staging.childrenDeletions parent →
    contents.deleted child

variable {staging : StagingRelationsStore Hash}

/-- A database in which only known blocks have children is staged without changes. -/
theorem new_represents {base : DbRelationsStore Hash} {parents : Hash → Option (List Hash)}
    (hbase : base.Represents (.ofParents parents fun _ => False)) (hclosed : Closed parents) :
    (new base).Represents (.ofParents parents fun _ => False) where
  deleted hash := by simp [new, ofParents]
  parents hash := by
    simp [new, hbase.parents]
  children parent child := by
    simp [new, setAt, hbase.children]
  stored_known parent child hchild := by
    have hknown := hclosed parent child ((hbase.children parent child).mp hchild)
    exact (hbase.has_eq parent).trans hknown
  insertions_known parent hinserted := by
    simp [new] at hinserted
  deletions_deleted parent child hdeleted := by
    simp [new, setAt] at hdeleted

namespace Represents

variable (hstaging : staging.Represents contents)

include hstaging

variable {hash : Hash}

theorem not_mem_entryDeletions (hknown : contents.Known hash) : hash ∉ staging.entryDeletions := by
  intro hdeleted
  have hparents := hstaging.parents hash
  rw [if_pos hdeleted] at hparents
  simp [Contents.Known, hparents] at hknown

theorem isSome_parents (hash : Hash) :
    (contents.parents hash).isSome = (!decide (hash ∈ staging.entryDeletions) &&
      ((staging.parentsOverrides.lookup hash).isSome || staging.store.has hash)) := by
  rw [hstaging.parents hash]
  by_cases hdeleted : hash ∈ staging.entryDeletions
  · simp [hdeleted]
  · simp [hdeleted, DbRelationsStore.has]

theorem getParents_eq (hash : Hash) :
    staging.getParents hash = found (.entry hash) (contents.parents hash) := by
  rw [getParents, checkNotInEntryDeletions, hstaging.parents hash]
  by_cases hdeleted : hash ∈ staging.entryDeletions
  · simp [hdeleted, found]
  · cases hoverride : staging.parentsOverrides.lookup hash with
    | none => simp [hdeleted, RelationsStore.getParents]
    | some data => simp [hdeleted, found]

theorem getChildren_eq_ok (hknown : contents.Known hash) :
    ∃ children, staging.getChildren hash = .ok children ∧ children.Nodup ∧
      ∀ child, child ∈ children ↔ contents.children hash child := by
  have hkept := hstaging.not_mem_entryDeletions hknown
  have hsome :
      ((staging.parentsOverrides.lookup hash).isSome || staging.store.has hash) = true := by
    have hisSome := hstaging.isSome_parents hash
    rw [hknown] at hisSome
    simpa [hkept] using hisSome.symm
  refine ⟨(staging.store.childrenStore.bucketIterator hash ++
      setAt staging.childrenInsertions hash).dedup.filter
        (· ∉ setAt staging.childrenDeletions hash), ?_, (nodup_dedup _).filter _,
    fun child => ?_⟩
  · cases hhas : staging.store.has hash with
    | true =>
      simp [getChildren, checkNotInEntryDeletions, hkept, RelationsStore.getChildren, hhas]
    | false =>
      -- A new block. The database holds no children for it.
      have hempty : staging.store.childrenStore.bucketIterator hash = [] := by
        apply eq_nil_iff_forall_not_mem.mpr
        intro child hchild
        have hstored := hstaging.stored_known hash child hchild
        rw [hhas] at hstored
        cases hstored
      rw [hhas, Bool.or_false] at hsome
      simp [getChildren, checkNotInEntryDeletions, hkept, RelationsStore.getChildren, hhas, hsome,
        hempty]
  · rw [hstaging.children]
    simp [hkept]

theorem getChildren_eq_error (hunknown : ¬ contents.Known hash) :
    staging.getChildren hash = .error (.err (.keyNotFound (.entry hash))) := by
  have hisSome := hstaging.isSome_parents hash
  rw [Bool.eq_false_iff.mpr hunknown] at hisSome
  by_cases hdeleted : hash ∈ staging.entryDeletions
  · simp [getChildren, checkNotInEntryDeletions, hdeleted]
  · have hinserted : (staging.childrenInsertions.lookup hash).isSome = false :=
      Bool.eq_false_iff.mpr (mt (hstaging.insertions_known hash) hunknown)
    have hnone : (staging.parentsOverrides.lookup hash).isSome = false ∧
        staging.store.has hash = false := by
      simpa [hdeleted] using hisSome.symm
    simp [getChildren, checkNotInEntryDeletions, hdeleted, RelationsStore.getChildren, hnone.1,
      hnone.2, hinserted]

theorem reads : Reads staging contents where
  getParents_eq := hstaging.getParents_eq
  getChildren_eq_ok hash hknown := hstaging.getChildren_eq_ok hknown
  getChildren_eq_error hash hunknown := hstaging.getChildren_eq_error hunknown
  has_eq hash := congrArg _ (hstaging.isSome_parents hash).symm
  counts_eq := by
    refine ⟨_, (nodup_dedup (staging.store.parentsAccess.keys ++
      staging.parentsOverrides.keys)).filter (· ∉ staging.entryDeletions), fun hash => ?_, rfl⟩
    rw [Contents.Known, hstaging.isSome_parents, mem_filter, mem_dedup, mem_append]
    simp only [← AList.mem_keys, ← isSome_lookup]
    simp only [Bool.and_eq_true, Bool.or_eq_true, Bool.not_eq_true', decide_eq_true_eq,
      decide_eq_false_iff_not]
    tauto

theorem setParents (hkept : ¬ contents.deleted hash) (parents : List Hash) :
    Represents { staging with parentsOverrides := staging.parentsOverrides.insert hash parents }
      (contents.setParents hash parents) := by
  refine { hstaging with
    parents := fun block => ?_
    insertions_known := fun parent hinserted =>
      Contents.Known.setParents (hstaging.insertions_known parent hinserted) }
  by_cases heq : block = hash
  · subst heq
    have hnot : block ∉ staging.entryDeletions := mt (hstaging.deleted block).mp hkept
    simp [Contents.setParents, hnot]
  · simp [Contents.setParents, heq, hstaging.parents]

theorem deleteEntries (hash : Hash) :
    Represents { staging with
        parentsOverrides := staging.parentsOverrides.erase hash
        childrenDeletions := staging.childrenDeletions.erase hash
        childrenInsertions := staging.childrenInsertions.erase hash
        entryDeletions := staging.entryDeletions.insert hash }
      (contents.deleteEntries hash) where
  deleted block := by
    simp [Contents.deleteEntries, hstaging.deleted]
  parents block := by
    by_cases heq : block = hash
    · simp [Contents.deleteEntries, heq]
    · simp [Contents.deleteEntries, heq, hstaging.parents]
  children parent child := by
    simp only [Contents.deleteEntries, hstaging.children, mem_setAt_erase, mem_insert_iff]
    tauto
  stored_known := hstaging.stored_known
  insertions_known parent hinserted := by
    by_cases heq : parent = hash
    · subst heq
      simp at hinserted
    · simp only [AList.lookup_erase_ne heq] at hinserted
      simpa [Contents.Known, Contents.deleteEntries, heq] using
        hstaging.insertions_known parent hinserted
  deletions_deleted parent child hdeleted :=
    .inr (hstaging.deletions_deleted parent child (mem_setAt_erase.mp hdeleted).2)

/-- A kept child is not staged for removal, so that both checks pass. -/
theorem insertChild (hknown : contents.Known parent) (hkept : ¬ contents.deleted child) :
    ∃ next, staging.insertChild parent child = .ok next ∧
      Represents next (contents.adopt [parent] child) := by
  have hparent := hstaging.not_mem_entryDeletions hknown
  have hchild : child ∉ setAt staging.childrenDeletions parent :=
    mt (hstaging.deletions_deleted parent child) hkept
  refine ⟨{ staging with
      childrenInsertions := staging.childrenInsertions.insert parent
        ((setAt staging.childrenInsertions parent).insert child) }, ?_, ?_⟩
  · simp [StagingRelationsStore.insertChild, checkNotInEntryDeletions, hparent,
      checkNotInChildrenDeletions, hchild]
  · refine ⟨hstaging.deleted, hstaging.parents, fun block other => ?_, hstaging.stored_known,
      fun block hinserted => ?_, hstaging.deletions_deleted⟩
    · simp only [adopt, hstaging.children, mem_setAt_insert]
      by_cases heq : block = parent
      · subst heq
        by_cases hother : other = child
        · subst hother
          simp [hparent, hchild]
        · simp [hother]
      · simp [heq]
    · by_cases heq : block = parent
      · exact heq ▸ hknown
      · simp only [AList.lookup_insert_ne heq] at hinserted
        exact hstaging.insertions_known block hinserted

theorem deleteChild (hknown : contents.Known parent) (hdeleted : contents.deleted child) :
    ∃ next, staging.deleteChild parent child = .ok next ∧
      Represents next (contents.disown [parent] child) := by
  have hparent := hstaging.not_mem_entryDeletions hknown
  have hdeletions : ∀ block other, other ∈ setAt (staging.childrenDeletions.insert parent
      ((setAt staging.childrenDeletions parent).insert child)) block ↔
        (block = parent ∧ other = child) ∨ other ∈ setAt staging.childrenDeletions block := by
    intro block other
    rw [mem_setAt_insert]
    by_cases heq : block = parent
    · simp [heq]
    · simp [heq]
  -- What happens to the staged additions, seen through the removals.
  have hstep : ∀ insertions : HashMap Hash (List Hash),
      (∀ block other, other ∈ setAt insertions block ↔
        other ∈ setAt staging.childrenInsertions block ∧ ¬ (block = parent ∧ other = child)) →
      (∀ block, (insertions.lookup block).isSome →
        (staging.childrenInsertions.lookup block).isSome) →
      Represents { staging with
          childrenInsertions := insertions
          childrenDeletions := staging.childrenDeletions.insert parent
            ((setAt staging.childrenDeletions parent).insert child) }
        (contents.disown [parent] child) := by
    intro insertions hmem hsome
    refine ⟨hstaging.deleted, hstaging.parents, fun block other => ?_, hstaging.stored_known,
      fun block hinserted => hstaging.insertions_known block (hsome block hinserted),
      fun block other hother => ?_⟩
    · simp only [disown, hstaging.children, hmem, hdeletions, mem_singleton]
      tauto
    · rcases (hdeletions block other).mp hother with ⟨-, rfl⟩ | hother
      · exact hdeleted
      · exact hstaging.deletions_deleted block other hother
  simp only [StagingRelationsStore.deleteChild, checkNotInEntryDeletions, hparent]
  refine ⟨_, rfl, hstep _ (fun block other => ?_) (fun block hsome => ?_)⟩
  · cases hlookup : staging.childrenInsertions.lookup parent with
    | none =>
      refine ⟨fun hother => ⟨hother, ?_⟩, And.left⟩
      rintro ⟨rfl, rfl⟩
      simp [setAt, hlookup] at hother
    | some children =>
      rw [mem_setAt_insert]
      by_cases heq : block = parent
      · subst heq
        simp [setAt, hlookup]
      · simp [heq]
  · cases hlookup : staging.childrenInsertions.lookup parent with
    | none => simpa [hlookup] using hsome
    | some children =>
      by_cases heq : block = parent
      · subst heq
        simp [hlookup]
      · simpa [hlookup, AList.lookup_insert_ne heq] using hsome

end Represents

theorem lawful : Lawful (Represents : StagingRelationsStore Hash → Contents Hash → Prop) where
  reads := Represents.reads
  setParents parents hstaging hkept := ⟨_, rfl, hstaging.setParents hkept parents⟩
  deleteEntries hash hstaging := ⟨_, rfl, hstaging.deleteEntries hash⟩
  insertChild hstaging hknown hkept _ := hstaging.insertChild hknown hkept
  deleteChild hstaging hknown hdeleted := hstaging.deleteChild hknown hdeleted

/-! ### Commits -/

/-- A loop over staged sets changes every bucket by the set that is staged for it. -/
theorem mem_foldl_sets (step : DbSetAccess Hash → Hash → Hash → DbSetAccess Hash)
    (combine : Prop → Prop → Prop) {parent child : Hash}
    (hstep : ∀ access key (children : List Hash),
      child ∈ (children.foldl (fun access child => step access key child) access).bucketIterator
        parent ↔ combine (child ∈ access.bucketIterator parent) (parent = key ∧ child ∈ children))
    (hnone : ∀ old, combine old False ↔ old) (sets : HashMap Hash (List Hash))
    (access : DbSetAccess Hash) :
    child ∈ (sets.entries.foldl (fun access entry =>
        entry.2.foldl (fun access child => step access entry.1 child) access)
        access).bucketIterator parent ↔
      combine (child ∈ access.bucketIterator parent) (child ∈ setAt sets parent) := by
  have hview := foldl_entries_view
    (fun access : DbSetAccess Hash => child ∈ access.bucketIterator parent)
    (fun access key children => children.foldl (fun access child => step access key child) access)
    (fun children old => combine old (child ∈ children)) parent
    (fun access children => by simp [hstep])
    (fun access other children hother => by simp [hstep, hother, hnone]) sets access
  refine (iff_of_eq hview).trans ?_
  cases hlookup : sets.lookup parent <;> simp [setAt, hlookup, hnone]

theorem Represents.commit (hstaging : staging.Represents contents) :
    staging.commit.Represents contents where
  parents hash := by
    have hwritten := lookup_foldl_insert_map id staging.parentsOverrides
      staging.store.parentsAccess hash
    simp only [StagingRelationsStore.commit, lookup_foldl_erase, hstaging.parents hash]
    split
    · rfl
    · simpa using hwritten
  children parent child := by
    rw [StagingRelationsStore.commit,
      mem_foldl_sets DbSetAccess.delete (fun old staged => old ∧ ¬ staged)
        (fun access _ _ => access.mem_foldl_delete) (by simp),
      mem_foldl_deleteBucket,
      mem_foldl_sets write Or (fun access _ _ => access.mem_foldl_write) (by simp),
      hstaging.children]
    tauto

end StagingRelationsStore

end Qaspa.Relations
