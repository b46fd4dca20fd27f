import Qaspa.Lib.Simulation
import Qaspa.Relations.Staging

/-! # Runs of insertions and deletions

The staging store and the store in memory agree on every run of insertions and deletions in
which no deleted block comes back and every inserted block has known parents.
-/

namespace Qaspa.Relations

open Dag Database Outcome List HashMap DbSetAccess Contents

variable {Hash : Type} [DecidableEq Hash] {contents : Contents Hash}

/-! ## Reads -/

section Reads

variable {Store Other : Type} [RelationsStore Hash Store] [RelationsStore Hash Other]

/-- Two stores answer every read alike. Children are sets, so their order does not matter. -/
structure SameReads (store : Store) (other : Other) : Prop where
  getParents_eq : ∀ hash, RelationsStore.getParents store hash =
    RelationsStore.getParents other hash
  getChildren_agree : ∀ hash, Agree List.Perm (RelationsStore.getChildren store hash)
    (RelationsStore.getChildren other hash)
  has_eq : ∀ hash, RelationsStore.has store hash = RelationsStore.has other hash
  counts_eq : RelationsStore.counts store = RelationsStore.counts other

/-- A block is a child of another one exactly when that one is its parent. -/
def Symmetric (store : Store) : Prop :=
  ∀ x y, (∃ children, RelationsStore.getChildren store y = .ok children ∧ x ∈ children) ↔
    ∃ parents, RelationsStore.getParents store x = .ok parents ∧ y ∈ parents

omit [DecidableEq Hash] in
theorem Reads.sameReads {store : Store} {other : Other} (hstore : Reads store contents)
    (hother : Reads other contents) : SameReads store other where
  getParents_eq hash := (hstore.getParents_eq hash).trans (hother.getParents_eq hash).symm
  getChildren_agree hash := by
    by_cases hknown : contents.Known hash
    · obtain ⟨children, hchildren, hnodup, hmem⟩ := hstore.getChildren_eq_ok hash hknown
      obtain ⟨children', hchildren', hnodup', hmem'⟩ := hother.getChildren_eq_ok hash hknown
      rw [hchildren, hchildren']
      apply Agree.ok
      rw [perm_ext_iff_of_nodup hnodup hnodup']
      exact fun child => (hmem child).trans (hmem' child).symm
    · rw [hstore.getChildren_eq_error hash hknown, hother.getChildren_eq_error hash hknown]
      exact .error _
  has_eq hash := (hstore.has_eq hash).trans (hother.has_eq hash).symm
  counts_eq := by
    obtain ⟨keys, hnodup, hkeys, hcounts⟩ := hstore.counts_eq
    obtain ⟨keys', hnodup', hkeys', hcounts'⟩ := hother.counts_eq
    have hperm : keys.Perm keys' := (perm_ext_iff_of_nodup hnodup hnodup').mpr
      fun hash => (hkeys hash).trans (hkeys' hash).symm
    rw [hcounts, hcounts', hperm.length_eq]

omit [DecidableEq Hash] in
theorem Reads.symmetric {store : Store} {parents : Hash → Option (List Hash)}
    {deleted : Hash → Prop} (hreads : Reads store (.ofParents parents deleted))
    (hclosed : Closed parents) : Symmetric store := by
  intro x y
  have hparents : (∃ list, RelationsStore.getParents store x = .ok list ∧ y ∈ list) ↔
      ParentOf parents y x := by
    rw [hreads.getParents_eq]
    cases hx : parents x <;> simp [ofParents, ParentOf, found, hx]
  rw [hparents]
  by_cases hknown : (ofParents parents deleted).Known y
  · obtain ⟨children, hchildren, -, hmem⟩ := hreads.getChildren_eq_ok y hknown
    simp only [hchildren, Except.ok.injEq, exists_eq_left', hmem]
    rfl
  · simp only [hreads.getChildren_eq_error y hknown, reduceCtorEq, false_and, exists_false,
      false_iff]
    exact fun hparent => hknown (hclosed y x hparent)

end Reads

/-! ## Operations -/

inductive Operation (Hash : Type) where
  | insert (hash : Hash) (parents : List Hash)
  | deleteLevel (hash : Hash)
  | deleteReachability (reachability : Reachability Hash) (hash : Hash)

namespace Operation

def apply {Store : Type} [RelationsStore Hash Store] (origin : Hash) (operation : Operation Hash)
    (store : Store) : StoreResult Hash Store :=
  match operation with
  | .insert hash parents => Relations.insert store hash parents
  | .deleteLevel hash => deleteLevelRelations origin store hash
  | .deleteReachability reachability hash => do
    let (_, next) ← deleteReachabilityRelations reachability store hash
    return next

/-- The block that an operation deletes. -/
def deletes : Operation Hash → Option Hash
  | .insert _ _ => none
  | .deleteLevel hash => some hash
  | .deleteReachability _ hash => some hash

/-- A block is inserted below known blocks and does not come back after its deletion. In a level,
the origin is a root that is not deleted. -/
def Permitted (origin : Hash) (history : List (Operation Hash))
    (memory : MemoryRelationsStore Hash) : Operation Hash → Prop
  | .insert hash parents => memory.has hash ∨
      ((∀ operation ∈ history, operation.deletes ≠ some hash) ∧
        ∀ parent ∈ parents, memory.has parent)
  | .deleteLevel hash => hash ≠ origin ∧ memory.parentsMap.lookup origin = some []
  | .deleteReachability _ _ => True

end Operation

namespace StagingRelationsStore

variable {history : List (Operation Hash)} {staging : StagingRelationsStore Hash}
  {memory : MemoryRelationsStore Hash} {origin : Hash}

/-- Both stores hold the same relations, and the deleted blocks are known from the history. -/
def Refines (history : List (Operation Hash)) (staging : StagingRelationsStore Hash)
    (memory : MemoryRelationsStore Hash) : Prop :=
  ∃ parents deleted, WellFormed parents deleted ∧ staging.Represents (.ofParents parents deleted) ∧
    memory.Represents (.ofParents parents deleted) ∧
    ∀ hash, deleted hash → ∃ operation ∈ history, operation.deletes = some hash

theorem Refines.cons (hrefines : Refines history staging memory) (operation : Operation Hash) :
    Refines (operation :: history) staging memory := by
  obtain ⟨parents, deleted, hwell, hstaging, hmemory, hdeleted⟩ := hrefines
  refine ⟨parents, deleted, hwell, hstaging, hmemory, fun hash hhash => ?_⟩
  obtain ⟨earlier, hearlier, hdeletes⟩ := hdeleted hash hhash
  exact ⟨earlier, .tail _ hearlier, hdeletes⟩

omit [DecidableEq Hash] in
/-- The history after a deletion. -/
theorem exists_deletes {deleted : Hash → Prop} {hash : Hash} {operation : Operation Hash}
    (hdeleted : ∀ block, deleted block → ∃ earlier ∈ history, earlier.deletes = some block)
    (hoperation : operation.deletes = some hash) (block : Hash)
    (hblock : block = hash ∨ deleted block) :
    ∃ earlier ∈ operation :: history, earlier.deletes = some block := by
  rcases hblock with rfl | hblock
  · exact ⟨operation, .head _, hoperation⟩
  · obtain ⟨earlier, hearlier, hdeletes⟩ := hdeleted block hblock
    exact ⟨earlier, .tail _ hearlier, hdeletes⟩

section

variable (hrefines : Refines history staging memory)

include hrefines

theorem Refines.insert {hash : Hash} {list : List Hash}
    (hpermitted : (Operation.insert hash list).Permitted origin history memory) :
    Agree (Refines (.insert hash list :: history)) (Relations.insert staging hash list)
      (Relations.insert memory hash list) := by
  obtain ⟨parents, deleted, hwell, hstaging, hmemory, hdeleted⟩ := hrefines
  by_cases hknown : (parents hash).isSome
  · rw [lawful.insert_eq_error hstaging hknown, MemoryRelationsStore.lawful.insert_eq_error hmemory
      hknown]
    exact .error _
  · have hnew : parents hash = none := Option.not_isSome_iff_eq_none.mp hknown
    obtain hhas | ⟨hfresh, hparents⟩ := hpermitted
    · exact absurd ((hmemory.has_eq hash).symm.trans hhas) hknown
    have hkept : ¬ deleted hash := by
      intro hhash
      obtain ⟨earlier, hearlier, hdeletes⟩ := hdeleted hash hhash
      exact hfresh earlier hearlier hdeletes
    have hlist : ∀ parent ∈ list, (parents parent).isSome := fun parent hparent =>
      (hmemory.has_eq parent).symm.trans (hparents parent hparent)
    obtain ⟨next, hnext, hrepresents⟩ := lawful.insert_eq_ok hstaging hnew hkept hlist
    obtain ⟨next', hnext', hrepresents'⟩ :=
      MemoryRelationsStore.lawful.insert_eq_ok hmemory hnew hkept hlist
    have hwell' := hwell.insert hnew hkept (nodup_blockUnique list)
      fun parent hparent => hlist parent (mem_blockUnique.mp hparent)
    rw [hnext, hnext']
    apply Agree.ok
    exact Refines.cons ⟨_, _, hwell', hrepresents, hrepresents', hdeleted⟩ _

theorem Refines.deleteLevel {hash : Hash}
    (hpermitted : (Operation.deleteLevel hash).Permitted origin history memory) :
    Agree (Refines (.deleteLevel hash :: history)) (deleteLevelRelations origin staging hash)
      (deleteLevelRelations origin memory hash) := by
  obtain ⟨parents, deleted, hwell, hstaging, hmemory, hdeleted⟩ := hrefines
  obtain ⟨hne, horigin⟩ := hpermitted
  have horigin : parents origin = some [] := (hmemory.parents origin).symm.trans horigin
  cases hlist : parents hash with
  | none =>
    rw [lawful.deleteLevelRelations_eq_error hstaging hlist,
      MemoryRelationsStore.lawful.deleteLevelRelations_eq_error hmemory hlist]
    exact .error _
  | some list =>
    obtain ⟨rank, hrank, hfits⟩ := hwell.levelReplacement_fits horigin hne
    obtain ⟨next, hnext, hrepresents⟩ :=
      lawful.deleteLevelRelations_eq_ok hwell hstaging hlist horigin hne
    obtain ⟨next', hnext', hrepresents'⟩ :=
      MemoryRelationsStore.lawful.deleteLevelRelations_eq_ok hwell hmemory hlist horigin hne
    rw [hnext, hnext']
    exact .ok ⟨_, _, hwell.deleteBlock hrank hfits, hrepresents, hrepresents',
      exists_deletes hdeleted rfl⟩

theorem Refines.deleteReachability (reachability : Reachability Hash) (hash : Hash) :
    Agree (Refines (.deleteReachability reachability hash :: history))
      ((Operation.deleteReachability reachability hash).apply origin staging)
      ((Operation.deleteReachability reachability hash).apply origin memory) := by
  obtain ⟨parents, deleted, hwell, hstaging, hmemory, hdeleted⟩ := hrefines
  simp only [Operation.apply]
  by_cases hunknown : reachability.getChainParent hash = none ∨ parents hash = none
  · rw [lawful.deleteReachabilityRelations_eq_error hstaging hunknown,
      MemoryRelationsStore.lawful.deleteReachabilityRelations_eq_error hmemory hunknown]
    exact .error _
  · obtain ⟨hselected, hlist⟩ := not_or.mp hunknown
    obtain ⟨selectedParent, hselected⟩ := Option.ne_none_iff_exists'.mp hselected
    obtain ⟨list, hlist⟩ := Option.ne_none_iff_exists'.mp hlist
    obtain ⟨rank, hrank⟩ := hwell.acyclic
    obtain ⟨mergeset, next, hnext, hrepresents⟩ :=
      lawful.deleteReachabilityRelations_eq_ok hwell hstaging hlist hselected
    obtain ⟨mergeset', next', hnext', hrepresents'⟩ :=
      MemoryRelationsStore.lawful.deleteReachabilityRelations_eq_ok hwell hmemory hlist hselected
    rw [hnext, hnext']
    exact .ok ⟨_, _, hwell.deleteBlock hrank (neededGrandparents_fits hwell hrank hlist),
      hrepresents, hrepresents', exists_deletes hdeleted rfl⟩

theorem Refines.attempt {operation : Operation Hash}
    (hpermitted : operation.Permitted origin history memory) :
    Agree (fun this other => this.1 = other.1 ∧ Refines (operation :: history) this.2 other.2)
      (attempt (Operation.apply origin) operation staging)
      (attempt (Operation.apply origin) operation memory) := by
  apply attempt_agree
  · cases operation with
    | insert hash list => exact hrefines.insert hpermitted
    | deleteLevel hash => exact hrefines.deleteLevel hpermitted
    | deleteReachability reachability hash => exact hrefines.deleteReachability reachability hash
  · exact fun _ _ => hrefines.cons operation

end

/-- The staging store and what its commit leaves in the database answer as the store in memory,
and all three are symmetric. -/
structure Agrees (staging : StagingRelationsStore Hash) (memory : MemoryRelationsStore Hash) :
    Prop where
  staged : SameReads staging memory
  committed : SameReads staging.commit memory
  staged_symmetric : Symmetric staging
  committed_symmetric : Symmetric staging.commit
  memory_symmetric : Symmetric memory

theorem Refines.agrees (hrefines : Refines history staging memory) : Agrees staging memory := by
  obtain ⟨parents, deleted, hwell, hstaging, hmemory, -⟩ := hrefines
  exact {
    staged := hstaging.reads.sameReads hmemory.reads
    committed := hstaging.commit.reads.sameReads hmemory.reads
    staged_symmetric := hstaging.reads.symmetric hwell.closed
    committed_symmetric := hstaging.commit.reads.symmetric hwell.closed
    memory_symmetric := hmemory.reads.symmetric hwell.closed }

/-- Whatever is inserted and deleted through a staging store, it reads as a store in memory that
held the same relations and to which the same was done directly, before and after its commit. -/
theorem run_reads_agree {parents : Hash → Option (List Hash)}
    (hwell : WellFormed parents fun _ => False) {base : DbRelationsStore Hash}
    (hbase : base.Represents (.ofParents parents fun _ => False))
    (hmemory : memory.Represents (.ofParents parents fun _ => False))
    {operations : List (Operation Hash)}
    (hoperations : Admissible (Operation.apply origin) (Operation.Permitted origin) [] memory
      operations) :
    Agree (fun this other => this.1 = other.1 ∧ Agrees this.2 other.2)
      (run (Operation.apply origin) operations (new base))
      (run (Operation.apply origin) operations memory) := by
  have hstart : Refines [] (new base) memory :=
    ⟨parents, _, hwell, new_represents hbase hwell.closed, hmemory, fun _ => False.elim⟩
  have hrun := run_agree (fun history staging memory operation hrefines hpermitted =>
    hrefines.attempt hpermitted) hstart hoperations
  exact hrun.mono fun this other hafter => ⟨hafter.1, hafter.2.agrees⟩

/-! A chain of two blocks above the origin, of which the database holds the first. A third block
joins them, and then they are deleted, one of them as in the reachability relations. -/

def sampleParents (hash : Nat) : Option (List Nat) :=
  if hash = 1 then some [0] else if hash = 0 then some [] else none

def sampleMap : HashMap Nat (List Nat) := .ofList [(1, [0]), (0, [])]

theorem lookup_sampleMap (hash : Nat) : sampleMap.lookup hash = sampleParents hash := by
  simp only [sampleMap, ofList, foldr_cons, foldr_nil,
    lookup_insert_eq_ite, AList.lookup_empty, sampleParents]

def sampleBase : DbRelationsStore Nat := ⟨sampleMap, DbSetAccess.empty.write 0 1⟩

def sampleMemory : MemoryRelationsStore Nat := ⟨sampleMap, .ofList [(0, [1])]⟩

theorem parentOf_sampleParents {x y : Nat} : ParentOf sampleParents x y ↔ x = 0 ∧ y = 1 := by
  unfold ParentOf sampleParents
  split
  next hy => simp [hy]
  next hy => split <;> simp [hy]

theorem sampleParents_wellFormed : WellFormed sampleParents fun _ => False where
  nodup hash list hlist := by
    unfold sampleParents at hlist
    split at hlist
    · cases hlist
      simp
    · split at hlist
      · cases hlist
        simp
      · cases hlist
  closed x y hparent := by
    obtain ⟨rfl, rfl⟩ := parentOf_sampleParents.mp hparent
    rfl
  acyclic := by
    refine ⟨id, fun x y hparent => ?_⟩
    obtain ⟨rfl, rfl⟩ := parentOf_sampleParents.mp hparent
    decide
  deleted_unknown _ := False.elim

theorem sampleBase_represents :
    sampleBase.Represents (.ofParents sampleParents fun _ => False) where
  parents := lookup_sampleMap
  children parent child := by
    simp [sampleBase, ofParents, parentOf_sampleParents, mem_bucketIterator,
      write, empty]

theorem sampleMemory_represents :
    sampleMemory.Represents (.ofParents sampleParents fun _ => False) where
  parents := lookup_sampleMap
  nodup parent := by
    simp only [sampleMemory, MemoryRelationsStore.childrenOf, ofList, foldr_cons,
      lookup_insert_eq_ite]
    split <;> simp
  children parent child := by
    simp only [sampleMemory, MemoryRelationsStore.childrenOf, ofList, foldr_cons,
      lookup_insert_eq_ite, ofParents, parentOf_sampleParents]
    split <;> simp [*]

/-- Larger numbers are later blocks. -/
def sampleReachability : Reachability Nat where
  getChainParent hash := some (hash - 1)
  isDagAncestorOf x y := decide (x ≤ y)
  isDagAncestorOf_self hash := by simp

def sampleOperations : List (Operation Nat) :=
  [.insert 2 [1], .insert 3 [1, 2, 1], .insert 3 [0], .deleteLevel 1, .deleteLevel 7,
    .deleteReachability sampleReachability 2]

theorem run_reads_agree_sample :
    Agree (fun this other => this.1 = other.1 ∧ Agrees this.2 other.2)
      (run (Operation.apply 0) sampleOperations (new sampleBase))
      (run (Operation.apply 0) sampleOperations sampleMemory) := by
  apply run_reads_agree sampleParents_wellFormed sampleBase_represents sampleMemory_represents
  refine .cons rfl (.inr ⟨by simp, by decide⟩) ?_
  refine .cons rfl (.inr ⟨by simp [Operation.deletes], by decide⟩) ?_
  refine .cons rfl (.inl rfl) ?_
  refine .cons rfl ⟨by decide, rfl⟩ ?_
  refine .cons rfl ⟨by decide, rfl⟩ ?_
  exact .cons rfl trivial trivial

/-- The conditions are needed. A deleted block that comes back is refused by the staging store
only; the children of an unknown block, be it a parent of an inserted block or the origin, are
an error in memory only; and the deletion of the origin leaves a block with an unknown parent. -/
theorem run_reads_agree_unpermitted :
    (∃ staging memory,
      run (Operation.apply 0) [.deleteLevel 1, .insert 1 [0]] (new sampleBase) =
          .ok ([none, some (.keyNotFound (.bucketed 0 1))], staging) ∧
        run (Operation.apply 0) [.deleteLevel 1, .insert 1 [0]] sampleMemory =
          .ok ([none, none], memory) ∧
        RelationsStore.getParents staging 1 = .error (.err (.keyNotFound (.entry 1))) ∧
        RelationsStore.getParents memory 1 = .ok [0]) ∧
    (∃ staging memory,
      run (Operation.apply 0) [.insert 2 [9]] (new sampleBase) = .ok ([none], staging) ∧
        run (Operation.apply 0) [.insert 2 [9]] sampleMemory = .ok ([none], memory) ∧
        RelationsStore.getChildren staging 9 = .ok [2] ∧
        RelationsStore.getChildren memory 9 = .error (.err (.keyNotFound (.entry 9)))) ∧
    (∃ staging memory,
      run (Operation.apply 9) [.deleteLevel 0] (new sampleBase) = .ok ([none], staging) ∧
        run (Operation.apply 9) [.deleteLevel 0] sampleMemory = .ok ([none], memory) ∧
        RelationsStore.getChildren staging 9 = .ok [1] ∧
        RelationsStore.getChildren memory 9 = .error (.err (.keyNotFound (.entry 9)))) ∧
    (∃ staging,
      run (Operation.apply 0) [.deleteLevel 0] (new sampleBase) = .ok ([none], staging) ∧
        RelationsStore.getParents staging 1 = .ok [0] ∧
        RelationsStore.getChildren staging 0 = .error (.err (.keyNotFound (.entry 0)))) :=
  ⟨⟨_, _, rfl, rfl, rfl, rfl⟩, ⟨_, _, rfl, rfl, rfl, rfl⟩, ⟨_, _, rfl, rfl, rfl, rfl⟩,
    ⟨_, rfl, rfl, rfl⟩⟩

end StagingRelationsStore

end Qaspa.Relations
