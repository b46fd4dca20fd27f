import Qaspa.Lib.Simulation
import Qaspa.Reachability.Staging

/-! # The staging store refines the store in memory

Both stores perform the same operations. The staging store stands for the store in
memory when what it has staged, over what the database holds, is what the store in
memory has. Every operation keeps this relation, as long as sets are only changed for
hashes that are there.
-/

namespace Qaspa.Reachability

open Database Outcome AList MemoryReachabilityStore MemoryReachabilityData
  StagingReachabilityStore List

variable {Hash : Type} [DecidableEq Hash]

/-- The element at an index is replaced by new ones. -/
structure Replaces (elements : List Hash) (replacedHash : Hash) (replacedIndex : Nat)
    (replaceWith : List Hash) : Prop where
  present : elements[replacedIndex]? = some replacedHash
  nodup : replaceWith.Nodup
  absent : ∀ added ∈ replaceWith, added ≠ replacedHash → added ∉ elements

/-! ## Staged entries -/

/-- The entry lists the elements of the set, and its net changes lead there. -/
structure StagingSetEntry.Tracks (entry : StagingSetEntry Hash) (stored elements : List Hash) :
    Prop where
  set_eq : entry.set = elements
  leads : entry.Leads stored (· ∈ elements)
  nodup : elements.Nodup

namespace StagingSetEntry

variable {entry : StagingSetEntry Hash} {stored elements : List Hash} {element : Hash}

section

variable (htracks : entry.Tracks stored elements)

include htracks

theorem Tracks.append (habsent : element ∉ elements) :
    (entry.append element).Tracks stored (elements ++ [element]) where
  set_eq := by simp [StagingSetEntry.append, htracks.set_eq]
  leads := (htracks.leads.markAddition habsent).congr (by simp [or_comm])
  nodup := nodup_append'.mpr ⟨htracks.nodup, by simp, by simpa using habsent⟩

theorem Tracks.insert (habsent : element ∉ elements) (index : Nat) :
    Agree (fun entry elements => Tracks entry stored elements) (entry.insert element index)
      (vecInsert elements index element) := by
  unfold StagingSetEntry.insert
  rw [htracks.set_eq]
  cases hinsert : (vecInsert elements index element : StoreResult Hash (List Hash)) with
  | error fault => exact .error fault
  | ok result =>
    obtain ⟨hindex, rfl⟩ := vecInsert_eq_ok.mp hinsert
    refine .ok ⟨rfl, (htracks.leads.markAddition habsent).congr ?_, ?_⟩
    · intro x
      rw [mem_insertIdx hindex]
    · rw [(perm_insertIdx _ _ hindex).nodup_iff, nodup_cons]
      exact ⟨habsent, htracks.nodup⟩

theorem Tracks.replace {replacedHash : Hash} {replacedIndex : Nat} {replaceWith : List Hash}
    (hreplaces : Replaces elements replacedHash replacedIndex replaceWith) :
    Agree (fun entry elements => Tracks entry stored elements)
      (entry.replace replacedHash replacedIndex replaceWith)
      (vecSplice elements replacedIndex replaceWith) := by
  obtain ⟨others, result, hothers, hresult, hperm⟩ := vecSplice_eq_ok hreplaces.present replaceWith
  have hnodup := hothers.nodup_iff.mp htracks.nodup
  obtain ⟨hnot, hnodup⟩ := nodup_cons.mp hnodup
  have hmem : ∀ x, x ∈ others ↔ x ≠ replacedHash ∧ x ∈ elements := by
    intro x
    rw [hothers.mem_iff, mem_cons]
    constructor
    · intro hx
      exact ⟨fun heq => hnot (heq ▸ hx), .inr hx⟩
    · rintro ⟨hne, heq | hx⟩
      · exact absurd heq hne
      · exact hx
  have habsent : ∀ x ∈ replaceWith, ¬ (x ≠ replacedHash ∧ x ∈ elements) :=
    fun x hx hboth => hreplaces.absent x hx hboth.1 hboth.2
  have hpresent : replacedHash ∈ elements := hothers.mem_iff.mpr (by simp)
  have hleads := (htracks.leads.markDeletion hpresent).foldl_markAddition hreplaces.nodup habsent
  unfold StagingSetEntry.replace
  rw [htracks.set_eq, hresult]
  refine .ok ⟨rfl, hleads.congr ?_, ?_⟩
  · intro x
    rw [hperm.mem_iff, mem_append, hmem]
  · rw [hperm.nodup_iff, nodup_append']
    exact ⟨hreplaces.nodup, hnodup, fun x hx hx' => habsent x hx ((hmem x).mp hx')⟩

end

end StagingSetEntry

/-! ## The sets of a store -/

/-- The set of a hash, as it is staged or stored, and the elements that the database has. -/
def StagedSet (access : DbSetAccess Hash) (read : Hash → StoreResult Hash (List Hash))
    (staged : HashMap Hash (StagingSetEntry Hash)) (hash : Hash) (elements : List Hash) : Prop :=
  ∃ entry, stagedEntry read staged hash = .ok entry ∧
    entry.Tracks (access.bucketIterator hash) elements

section StagedSet

variable {access : DbSetAccess Hash} {read : Hash → StoreResult Hash (List Hash)}
  {staged staged' : HashMap Hash (StagingSetEntry Hash)} {hash : Hash} {elements : List Hash}

section

variable (hset : StagedSet access read staged hash elements)

include hset

theorem StagedSet.readSet_eq :
    readSet staged read hash = .ok elements := by
  obtain ⟨entry, hentry, htracks⟩ := hset
  unfold stagedEntry at hentry
  unfold readSet
  split at hentry
  · cases hentry
    rw [htracks.set_eq]
  · obtain ⟨list, hlist, hnew⟩ := bind_eq_ok.mp hentry
    cases hnew
    rw [hlist, ← htracks.set_eq]
    rfl

theorem StagedSet.congr (hsame : staged'.lookup hash = staged.lookup hash) :
    StagedSet access read staged' hash elements := by
  unfold StagedSet stagedEntry at hset ⊢
  rwa [hsame]

/-- A change of a staged set goes along with the same change of the list. -/
theorem StagedSet.updateEntry
    {update : StagingSetEntry Hash → StoreResult Hash (StagingSetEntry Hash)}
    {edit : StoreResult Hash (List Hash)}
    (hupdate : ∀ entry : StagingSetEntry Hash, entry.Tracks (access.bucketIterator hash) elements
      → Agree (fun entry elements => entry.Tracks (access.bucketIterator hash) elements) (update
      entry) edit) :
    Agree (fun staged' elements' => StagedSet access read staged' hash elements' ∧
        ∀ other, other ≠ hash → staged'.lookup other = staged.lookup other)
      (updateEntry read staged hash update) edit := by
  obtain ⟨entry, hentry, htracks⟩ := hset
  have hagree := hupdate entry htracks
  simp only [Reachability.updateEntry, hentry, ok_bind]
  generalize update entry = updated at hagree
  cases hagree with
  | error fault => exact .error fault
  | ok htracks' =>
    refine .ok ⟨⟨_, ?_, htracks'⟩, fun other hother => lookup_insert_ne hother⟩
    simp [stagedEntry]

end

end StagedSet

/-- The two sets that a block has. -/
inductive SetKind where
  | children
  | futureCoveringSet

namespace MemoryReachabilityStore

variable (memory : MemoryReachabilityStore Hash)

/-- The set of a hash, empty if the hash is not there. -/
def setOf (kind : SetKind) (hash : Hash) : List Hash :=
  match memory.map.lookup hash, kind with
  | some data, .children => data.children
  | some data, .futureCoveringSet => data.futureCoveringSet
  | none, _ => []

end MemoryReachabilityStore

namespace MemoryReachabilityData

def setAt (data : MemoryReachabilityData Hash) : SetKind → List Hash
  | .children => data.children
  | .futureCoveringSet => data.futureCoveringSet

/-- Replace one of the sets of a block. -/
def withSet (data : MemoryReachabilityData Hash) (set : List Hash) :
    SetKind → MemoryReachabilityData Hash
  | .children => { data with children := set }
  | .futureCoveringSet => { data with futureCoveringSet := set }

end MemoryReachabilityData

theorem MemoryReachabilityStore.setOf_of_lookup (memory : MemoryReachabilityStore Hash)
    {hash : Hash}
    {data : MemoryReachabilityData Hash} (hdata : memory.map.lookup hash = some data)
    (kind : SetKind) : memory.setOf kind hash = data.setAt kind := by
  cases kind <;> simp [setOf, hdata, setAt]

namespace DbReachabilityStore

variable (store : DbReachabilityStore Hash)

def setsOf : SetKind → DbReachabilitySet Hash
  | .children => store.childrenAccess
  | .futureCoveringSet => store.fcsAccess

def readSet (kind : SetKind) (hash : Hash) : StoreResult Hash (List Hash) :=
  (store.setsOf kind).read hash store.intervalOf

/-- The database holds what the store in memory holds. A hash that is not there has empty
sets. -/
structure Holds (memory : MemoryReachabilityStore Hash) : Prop where
  data : ∀ hash, store.access.lookup hash =
    (memory.map.lookup hash).map MemoryReachabilityData.toReachabilityData
  sets : ∀ kind hash, store.readSet kind hash = .ok (memory.setOf kind hash) ∧
    (memory.setOf kind hash).Perm ((store.setsOf kind).access.bucketIterator hash)
  reindexRoot : store.reindexRoot = memory.reindexRoot

end DbReachabilityStore

namespace StagingReachabilityStore

def stagedOf (store : StagingReachabilityStore Hash) : SetKind → HashMap Hash (StagingSetEntry Hash)
  | .children => store.stagingChildren
  | .futureCoveringSet => store.stagingFcs

def withStaged (store : StagingReachabilityStore Hash)
    (staged : HashMap Hash (StagingSetEntry Hash)) : SetKind → StagingReachabilityStore Hash
  | .children => { store with stagingChildren := staged }
  | .futureCoveringSet => { store with stagingFcs := staged }

/-- Change a set of one kind. -/
def updateSet (store : StagingReachabilityStore Hash) (kind : SetKind) (hash : Hash)
    (update : StagingSetEntry Hash → StoreResult Hash (StagingSetEntry Hash)) :
    StoreResult Hash (StagingReachabilityStore Hash) := do
  let staged ← updateEntry (store.storeRead.readSet kind) (store.stagedOf kind) hash update
  return store.withStaged staged kind

/-- The staging store stands for the store in memory after the operations of the history. -/
structure Refines (history : List (Operation Hash)) (staging : StagingReachabilityStore Hash)
    (memory : MemoryReachabilityStore Hash) : Prop where
  mem_deletions : ∀ hash, hash ∈ staging.stagingDeletions ↔ .delete hash ∈ history
  deleted : ∀ hash ∈ staging.stagingDeletions, memory.map.lookup hash = none
  data : ∀ hash, hash ∉ staging.stagingDeletions →
    (staging.stagingWrites.lookup hash).or (staging.storeRead.access.lookup hash) =
      (memory.map.lookup hash).map MemoryReachabilityData.toReachabilityData
  sets : ∀ kind hash, hash ∉ staging.stagingDeletions →
    StagedSet (staging.storeRead.setsOf kind).access (staging.storeRead.readSet kind)
      (staging.stagedOf kind) hash (memory.setOf kind hash)
  reindexRoot : staging.stagingReindexRoot.or staging.storeRead.reindexRoot = memory.reindexRoot

theorem new_refines {base : DbReachabilityStore Hash} {memory : MemoryReachabilityStore Hash}
    (hholds : base.Holds memory) : Refines [] (new base) memory where
  mem_deletions := by simp [new]
  deleted := by simp [new]
  data hash _ := by simp [new, hholds.data]
  sets kind hash _ := by
    obtain ⟨hread, hperm⟩ := hholds.sets kind hash
    refine ⟨.new (memory.setOf kind hash), ?_, rfl, ?_, ?_⟩
    · cases kind <;> simp [stagedEntry, new, stagedOf, hread]
    · exact (NetDiff.Leads.refl _).congr fun x => hperm.mem_iff
    · exact hperm.nodup_iff.mpr (DbSetAccess.nodup_bucketIterator _ _)
  reindexRoot := by simp [new, hholds.reindexRoot]

section Refines

variable {history : List (Operation Hash)} {staging : StagingReachabilityStore Hash}
  {memory : MemoryReachabilityStore Hash} {hash : Hash}

section

variable (hrefines : Refines history staging memory)

include hrefines

variable {operation : Operation Hash}

/-- Only deletions are looked up in the history. -/
theorem Refines.cons (hoperation : ∀ hash, operation ≠ .delete hash) :
    Refines (operation :: history) staging memory :=
  { hrefines with
    mem_deletions := fun hash => by simp [hrefines.mem_deletions, Ne.symm (hoperation hash)] }

section

variable (hkept : hash ∉ staging.stagingDeletions)

include hkept

theorem Refines.readData_eq :
    staging.readData hash = found (.entry hash)
      ((memory.map.lookup hash).map toReachabilityData) := by
  rw [← hrefines.data hash hkept]
  unfold readData
  cases staging.stagingWrites.lookup hash with
  | some data => rfl
  | none => rfl

/-- Staged data of one hash, next to an entry of the store in memory with these data and with
the sets that the hash had. -/
theorem Refines.writeData (data : MemoryReachabilityData Hash)
    (hchildren : data.children = memory.setOf .children hash)
    (hfcs : data.futureCoveringSet = memory.setOf .futureCoveringSet hash) :
    Refines history
      { staging with stagingWrites := staging.stagingWrites.insert hash data.toReachabilityData }
      { memory with map := memory.map.insert hash data } where
  mem_deletions := hrefines.mem_deletions
  deleted other hother := by
    have hne : other ≠ hash := fun heq => hkept (heq ▸ hother)
    rw [lookup_insert_ne hne]
    exact hrefines.deleted other hother
  data other hother := by
    by_cases heq : other = hash
    · subst heq
      simp
    · rw [lookup_insert_ne heq, lookup_insert_ne heq]
      exact hrefines.data other hother
  sets kind other hother := by
    have hsame : setOf
        { memory with map := memory.map.insert hash data } kind other =
          memory.setOf kind other := by
      by_cases heq : other = hash
      · subst heq
        cases kind
        · simp [MemoryReachabilityStore.setOf, hchildren]
        · simp [MemoryReachabilityStore.setOf, hfcs]
      · simp [MemoryReachabilityStore.setOf, lookup_insert_ne heq]
    rw [hsame]
    cases kind <;> exact hrefines.sets _ other hother
  reindexRoot := hrefines.reindexRoot

theorem Refines.insert (parent : Hash) (interval : Interval) (height : Nat) :
    Agree (Refines history) (staging.insert hash parent interval height)
      (memory.insert hash parent interval height) := by
  have hdata := hrefines.data hash hkept
  unfold StagingReachabilityStore.insert MemoryReachabilityStore.insert DbReachabilityStore.has
  cases hmemory : memory.map.lookup hash with
  | some data =>
    rw [hmemory] at hdata
    split
    · exact .error _
    next habsent =>
      rw [Option.not_isSome_iff_eq_none] at habsent
      rw [habsent, Option.or_none] at hdata
      rw [hdata]
      exact .error _
  | none =>
    rw [hmemory, Option.map_none, Option.or_eq_none_iff] at hdata
    simp only [hdata.1, hdata.2]
    exact .ok (hrefines.writeData hkept ⟨⟨parent, interval, height⟩, [], []⟩
      (by simp [MemoryReachabilityStore.setOf, hmemory])
      (by simp [MemoryReachabilityStore.setOf, hmemory]))

theorem Refines.updateData (update : ReachabilityData Hash → ReachabilityData Hash) :
    Agree (Refines history) (staging.updateData hash update)
      (memory.updateData hash fun data =>
        .ok { data with toReachabilityData := update data.toReachabilityData }) := by
  unfold StagingReachabilityStore.updateData MemoryReachabilityStore.updateData
    MemoryReachabilityStore.getData
  rw [hrefines.readData_eq hkept]
  cases hmemory : memory.map.lookup hash with
  | none => exact .error _
  | some data =>
    exact .ok (hrefines.writeData hkept
      { data with toReachabilityData := update data.toReachabilityData }
      (by simp [MemoryReachabilityStore.setOf, hmemory])
      (by simp [MemoryReachabilityStore.setOf, hmemory]))

/-- A staged set of one kind, next to a list of the store in memory. -/
theorem Refines.withStaged {data : MemoryReachabilityData Hash}
    (hmemory : memory.map.lookup hash = some data) (kind : SetKind) {set : List Hash}
    {staged : HashMap Hash (StagingSetEntry Hash)}
    (hset : StagedSet (staging.storeRead.setsOf kind).access (staging.storeRead.readSet kind)
      staged hash set)
    (hothers : ∀ other, other ≠ hash → staged.lookup other = (staging.stagedOf kind).lookup other) :
    Refines history (staging.withStaged staged kind)
      { memory with map := memory.map.insert hash (data.withSet set kind) } := by
  cases kind with
  | children | futureCoveringSet =>
    exact { hrefines with
      deleted := by
        intro other hother
        have hne : other ≠ hash := fun heq => hkept (heq ▸ hother)
        exact (lookup_insert_ne hne).trans (hrefines.deleted other hother)
      data := by
        intro other hother
        refine (hrefines.data other hother).trans ?_
        by_cases heq : other = hash
        · subst heq
          simp [hmemory, withSet]
        · rw [lookup_insert_ne heq]
      sets := by
        intro kind' other hother
        have hset' := hrefines.sets kind' other hother
        by_cases heq : other = hash
        · subst heq
          rw [memory.setOf_of_lookup hmemory] at hset'
          rw [setOf_of_lookup _ (lookup_insert _)]
          cases kind' with
          | children | futureCoveringSet =>
            first
            | exact hset
            | exact hset'
        · simp only [MemoryReachabilityStore.setOf, lookup_insert_ne heq] at hset' ⊢
          cases kind' with
          | children | futureCoveringSet =>
            first
            | exact hset'.congr (hothers other heq)
            | exact hset' }

theorem Refines.updateSet (hknown : (memory.map.lookup hash).isSome) (kind : SetKind)
    {update : StagingSetEntry Hash → StoreResult Hash (StagingSetEntry Hash)}
    (edit : List Hash → StoreResult Hash (List Hash))
    (hupdate : ∀ stored (entry : StagingSetEntry Hash),
      entry.Tracks stored (memory.setOf kind hash) →
      Agree (fun entry elements => entry.Tracks stored elements) (update entry)
        (edit (memory.setOf kind hash))) :
    Agree (Refines history) (staging.updateSet kind hash update)
      (memory.updateData hash
        fun data => do return data.withSet (← edit (data.setAt kind)) kind) := by
  obtain ⟨data, hdata⟩ := Option.isSome_iff_exists.mp hknown
  have hset := (hrefines.sets kind hash hkept).updateEntry (hupdate _)
  simp only [MemoryReachabilityStore.updateData, MemoryReachabilityStore.getData, found, hdata,
    ok_bind, bind_assoc, pure_bind, ← memory.setOf_of_lookup hdata]
  exact hset.bind fun staged set hstaged =>
    .ok (hrefines.withStaged hkept hdata kind hstaged.1 hstaged.2)

end

theorem Refines.delete (hash : Hash) :
    Refines (.delete hash :: history)
      { staging with
        stagingWrites := staging.stagingWrites.erase hash
        stagingDeletions := staging.stagingDeletions.insert hash }
      { memory with map := memory.map.erase hash } where
  mem_deletions other := by simp [hrefines.mem_deletions]
  deleted other hother := by
    rw [HashMap.lookup_erase_eq_ite]
    split
    · rfl
    next heq => exact hrefines.deleted other (by simpa [heq] using hother)
  data other hother := by
    obtain ⟨heq, hkept⟩ : other ≠ hash ∧ other ∉ staging.stagingDeletions := by
      simpa using hother
    rw [lookup_erase_ne heq, lookup_erase_ne heq]
    exact hrefines.data other hkept
  sets kind other hother := by
    obtain ⟨heq, hkept⟩ : other ≠ hash ∧ other ∉ staging.stagingDeletions := by
      simpa using hother
    have hsame : setOf { memory with map := memory.map.erase hash } kind other =
        memory.setOf kind other := by
      simp [MemoryReachabilityStore.setOf, lookup_erase_ne heq]
    rw [hsame]
    cases kind <;> exact hrefines.sets _ other hkept
  reindexRoot := hrefines.reindexRoot

end

end Refines

end StagingReachabilityStore

/-! ## Operations -/

/-- A set is changed for a hash that is there: new elements are absent, and a replaced one is
at its index. -/
def Operation.Fits (memory : MemoryReachabilityStore Hash) : Operation Hash → Prop
  | .appendChild hash child =>
    (memory.map.lookup hash).isSome ∧ child ∉ memory.setOf .children hash
  | .insertFutureCoveringItem hash fci _ =>
    (memory.map.lookup hash).isSome ∧ fci ∉ memory.setOf .futureCoveringSet hash
  | .replaceChild hash replacedHash replacedIndex replaceWith =>
    (memory.map.lookup hash).isSome ∧
      Replaces (memory.setOf .children hash) replacedHash replacedIndex replaceWith
  | .replaceFutureCoveringItem hash replacedHash replacedIndex replaceWith =>
    (memory.map.lookup hash).isSome ∧
      Replaces (memory.setOf .futureCoveringSet hash) replacedHash replacedIndex replaceWith
  | _ => True

/-- An operation that fits and does not touch a hash after its deletion. -/
def Operation.Permitted (history : List (Operation Hash)) (memory : MemoryReachabilityStore Hash)
    (operation : Operation Hash) : Prop :=
  (∀ hash, operation.hash? = some hash → .delete hash ∉ history) ∧ operation.Fits memory

namespace StagingReachabilityStore

variable {history : List (Operation Hash)} {staging : StagingReachabilityStore Hash}
  {memory : MemoryReachabilityStore Hash}

theorem Refines.apply (hrefines : Refines history staging memory)
    (hpermitted : operation.Permitted history memory) :
    Agree (Refines (operation :: history)) (operation.apply staging) (operation.apply memory) := by
  obtain ⟨huntouched, hfits⟩ := hpermitted
  have hkept : ∀ hash, operation.hash? = some hash → hash ∉ staging.stagingDeletions :=
    fun hash hhash hdeleted => huntouched hash hhash ((hrefines.mem_deletions hash).mp hdeleted)
  have hother : ∀ {this : StoreResult Hash _} {other}, (∀ hash, operation ≠ .delete hash) →
      Agree (Refines history) this other → Agree (Refines (operation :: history)) this other :=
    fun hne hagree => hagree.mono fun _ _ hnext => hnext.cons hne
  cases operation with
  | insert hash parent interval height =>
    exact hother (by simp) (hrefines.insert (hkept hash rfl) parent interval height)
  | setInterval hash interval =>
    exact hother (by simp) (hrefines.updateData (hkept hash rfl)
      fun data => { data with interval := interval })
  | setParent hash newParent =>
    exact hother (by simp) (hrefines.updateData (hkept hash rfl)
      fun data => { data with parent := newParent })
  | appendChild hash child =>
    exact hother (by simp) (hrefines.updateSet (hkept hash rfl) hfits.1 .children
      (fun set => .ok (set ++ [child])) fun _ _ htracks => .ok (htracks.append hfits.2))
  | insertFutureCoveringItem hash fci insertionIndex =>
    exact hother (by simp) (hrefines.updateSet (hkept hash rfl) hfits.1 .futureCoveringSet
      (fun set => vecInsert set insertionIndex fci) fun _ _ htracks => htracks.insert hfits.2 _)
  | replaceChild hash replacedHash replacedIndex replaceWith =>
    exact hother (by simp) (hrefines.updateSet (hkept hash rfl) hfits.1 .children
      (fun set => vecSplice set replacedIndex replaceWith)
      fun _ _ htracks => htracks.replace hfits.2)
  | replaceFutureCoveringItem hash replacedHash replacedIndex replaceWith =>
    exact hother (by simp) (hrefines.updateSet (hkept hash rfl) hfits.1 .futureCoveringSet
      (fun set => vecSplice set replacedIndex replaceWith)
      fun _ _ htracks => htracks.replace hfits.2)
  | delete hash => exact .ok (hrefines.delete hash)
  | setReindexRoot root => exact hother (by simp) (.ok { hrefines with reindexRoot := rfl })

theorem Refines.attempt (hrefines : Refines history staging memory)
    (hpermitted : operation.Permitted history memory) :
    Agree (fun this other => this.1 = other.1 ∧ Refines (operation :: history) this.2 other.2)
      (attempt Operation.apply operation staging) (attempt Operation.apply operation memory) := by
  apply attempt_agree (hrefines.apply hpermitted)
  intro error herror
  apply hrefines.cons
  rintro hash rfl
  cases herror

end StagingReachabilityStore

end Qaspa.Reachability
