import Qaspa.Ghostdag.Protocol

/-! # Growth of the block DAG

A node starts from the genesis block and processes headers one at a time: it
checks the parents of the header, runs GHOSTDAG on them and stores the result.
The reachability service is any service that answers correctly for the stored
blocks. What is true of a stored block in terms of its past stays true, since
later blocks do not change that past.
-/

namespace Qaspa.Ghostdag

open Dag Outcome List SortableBlock

variable {Hash : Type} [LinearOrder Hash]

/-! ## Header processing -/

inductive RuleError (Hash : Type) where
  | noParents
  | tooManyParents (count limit : Nat)
  | originParent
  | missingParents (parents : List Hash)
  | invalidParentsRelation (ancestor block : Hash)
  deriving DecidableEq, Repr

namespace GhostdagManager

variable (manager : GhostdagManager Hash) (maxBlockParents : Nat) (stores : Stores Hash)

def checkParentsLimit (parents : List Hash) : Except (RuleError Hash) Unit :=
  if parents.isEmpty then .error .noParents
  else if maxBlockParents < parents.length then
    .error (.tooManyParents parents.length maxBlockParents)
  else .ok ()

def checkParentsNotOrigin (parents : List Hash) : Except (RuleError Hash) Unit :=
  if parents.any (· = manager.origin) then .error .originParent else .ok ()

def checkParentsExist (parents : List Hash) : Except (RuleError Hash) Unit :=
  if (parents.filter fun parent => (stores.relations.lookup parent).isNone).isEmpty then .ok ()
  else .error (.missingParents
    (parents.filter fun parent => (stores.relations.lookup parent).isNone))

/-- A pair of different parents one of which is an ancestor of the other. -/
def incestuousPair (parents : List Hash) : Option (Hash × Hash) :=
  (parents.product parents).find? fun pair =>
    pair.1 ≠ pair.2 && stores.isDagAncestorOf pair.1 pair.2

def checkParentsIncest (parents : List Hash) : Except (RuleError Hash) Unit :=
  match incestuousPair stores parents with
  | some pair => .error (.invalidParentsRelation pair.1 pair.2)
  | none => .ok ()

def checkParents (parents : List Hash) : Except (RuleError Hash) Unit := do
  checkParentsLimit maxBlockParents parents
  checkParentsNotOrigin manager parents
  checkParentsExist stores parents
  checkParentsIncest stores parents

end GhostdagManager

namespace Stores

variable (stores : Stores Hash)

def Known (hash : Hash) : Prop := (stores.relations.lookup hash).isSome

/-- The service answers correctly for all known blocks. -/
def OracleCorrect : Prop :=
  ∀ x y, stores.Known x → stores.Known y →
    (stores.isDagAncestorOf x y = true ↔ InPast stores.relations.lookup x y)

/-- Store a block; the header brings its target and the service its answers. -/
def commit (hash : Hash) (parents : List Hash) (target : Nat) (data : GhostdagData Hash)
    (isDagAncestorOf : Hash → Hash → Bool) : Stores Hash where
  ghostdag := stores.ghostdag.insert hash data
  relations := stores.relations.insert hash parents
  target := Function.update stores.target hash target
  isDagAncestorOf := isDagAncestorOf

end Stores

/-- The stores after the origin and the genesis block have been added. -/
def GhostdagManager.initialStores (manager : GhostdagManager Hash) (target : Hash → Nat)
    (isDagAncestorOf : Hash → Hash → Bool) : Stores Hash where
  ghostdag := ((∅ : HashMap Hash (GhostdagData Hash)).insert manager.origin
    manager.originGhostdagData).insert manager.genesisHash manager.genesisGhostdagData
  relations := ((∅ : HashMap Hash (List Hash)).insert manager.origin []).insert
    manager.genesisHash [manager.origin]
  target := target
  isDagAncestorOf := isDagAncestorOf

/-- The stores that header processing can reach. -/
inductive Built (manager : GhostdagManager Hash) (maxBlockParents : Nat) : Stores Hash → Prop
  | init (target : Hash → Nat) (isDagAncestorOf : Hash → Hash → Bool)
      (horacle : (manager.initialStores target isDagAncestorOf).OracleCorrect) :
      Built manager maxBlockParents (manager.initialStores target isDagAncestorOf)
  | add {stores : Stores Hash} (hbuilt : Built manager maxBlockParents stores) (hash : Hash)
      (parents : List Hash) (target : Nat) (data : GhostdagData Hash)
      (isDagAncestorOf : Hash → Hash → Bool) (hfresh : ¬ stores.Known hash)
      (hchecked : manager.checkParents maxBlockParents stores parents = .ok ())
      (hghostdag : manager.ghostdag stores parents = .ok data)
      (horacle : (stores.commit hash parents target data isDagAncestorOf).OracleCorrect) :
      Built manager maxBlockParents (stores.commit hash parents target data isDagAncestorOf)

/-! ## Reading the stores -/

namespace Stores

variable {stores : Stores Hash} {hash : Hash}

/-- The blue work of a block, zero if there is no data. -/
def workOf (stores : Stores Hash) (hash : Hash) : Nat :=
  (stores.ghostdag.lookup hash).elim 0 GhostdagData.blueWork

def scoreOf (stores : Stores Hash) (hash : Hash) : Nat :=
  (stores.ghostdag.lookup hash).elim 0 GhostdagData.blueScore

/-- A block as it is sorted. -/
def blockKey (stores : Stores Hash) (hash : Hash) : SortableBlock Hash := ⟨hash, stores.workOf hash⟩

theorem blockKey_injective (stores : Stores Hash) : Function.Injective stores.blockKey :=
  fun _ _ heq => congrArg hash heq

section

variable (hknown : (stores.ghostdag.lookup hash).isSome)

include hknown

theorem getBlueWork_eq_ok : stores.getBlueWork hash = .ok (stores.workOf hash) := by
  obtain ⟨data, hdata⟩ := Option.isSome_iff_exists.mp hknown
  simp [getBlueWork, getData, workOf, hdata, unwrap]

theorem getBlueScore_eq_ok : stores.getBlueScore hash = .ok (stores.scoreOf hash) := by
  obtain ⟨data, hdata⟩ := Option.isSome_iff_exists.mp hknown
  simp [getBlueScore, getData, scoreOf, hdata, unwrap]

theorem sortable_eq_ok : stores.sortable hash = .ok (stores.blockKey hash) := by
  simp [sortable, getBlueWork_eq_ok hknown, blockKey]

end

theorem mapM_sortable_eq_ok {blocks : List Hash}
    (hknown : ∀ block ∈ blocks, (stores.ghostdag.lookup block).isSome) :
    blocks.mapM stores.sortable = .ok (blocks.map stores.blockKey) := by
  induction blocks with
  | nil => rfl
  | cons block blocks ih =>
    obtain ⟨hblock, hblocks⟩ := forall_mem_cons.mp hknown
    rw [mapM_cons, sortable_eq_ok hblock, ih hblocks]
    rfl

theorem map_hash_blockKey (blocks : List Hash) :
    (blocks.map stores.blockKey).map SortableBlock.hash = blocks := by
  rw [map_map]
  exact map_id _

/-- The hashes of sorted keys are the blocks in the order of their keys. -/
theorem hashes_of_sorted {keyed : List (SortableBlock Hash)} {blocks : List Hash}
    (hperm : keyed.Perm (blocks.map stores.blockKey)) (hsorted : keyed.Pairwise (· < ·)) :
    (keyed.map SortableBlock.hash).Perm blocks ∧ (keyed.map SortableBlock.hash).Pairwise
      fun left right => stores.blockKey left < stores.blockKey right := by
  have hhashes := hperm.map SortableBlock.hash
  rw [map_hash_blockKey] at hhashes
  refine ⟨hhashes, pairwise_map.mpr (hsorted.imp_of_mem fun hleft hright hlt => ?_)⟩
  obtain ⟨left, _, rfl⟩ := mem_map.mp (hperm.subset hleft)
  obtain ⟨right, _, rfl⟩ := mem_map.mp (hperm.subset hright)
  exact hlt

/-- Sorting known blocks permutes them into strictly ascending order. -/
theorem sortBlocks_eq_ok {blocks : List Hash} (hnodup : blocks.Nodup)
    (hknown : ∀ block ∈ blocks, (stores.ghostdag.lookup block).isSome) :
    ∃ sorted, stores.sortBlocks blocks = .ok sorted ∧ sorted.Perm blocks ∧
      sorted.Pairwise fun left right => stores.blockKey left < stores.blockKey right := by
  obtain ⟨keyed, hkeyed⟩ : ∃ keyed, keyed = (blocks.map stores.blockKey).insertionSort (· ≤ ·) :=
    ⟨_, rfl⟩
  have hperm : keyed.Perm (blocks.map stores.blockKey) := hkeyed ▸ perm_insertionSort _ _
  have hsorted : keyed.Pairwise (· < ·) := by
    have hle : keyed.Pairwise (· ≤ ·) := hkeyed ▸ pairwise_insertionSort (· ≤ ·) _
    have hne : keyed.Nodup := hperm.nodup_iff.mpr (hnodup.map stores.blockKey_injective)
    exact hle.imp₂ (fun _ _ hle hne => lt_of_le_of_ne hle hne) hne
  refine ⟨keyed.map hash, ?_, hashes_of_sorted hperm hsorted⟩
  rw [sortBlocks, mapM_sortable_eq_ok hknown, hkeyed]
  rfl

/-- The selected parent is the greatest parent. -/
theorem findSelectedParent_eq_ok {parents : List Hash} (hparents : parents ≠ [])
    (hknown : ∀ parent ∈ parents, (stores.ghostdag.lookup parent).isSome) :
    ∃ selected ∈ parents, GhostdagManager.findSelectedParent stores parents = .ok selected ∧
      ∀ parent ∈ parents, stores.blockKey parent ≤ stores.blockKey selected := by
  obtain ⟨greatest, hgreatest⟩ : ∃ greatest, (parents.map stores.blockKey).max? = some greatest :=
    Option.isSome_iff_exists.mp (by simpa [isSome_max?_iff] using hparents)
  obtain ⟨hmem, hmax⟩ := max?_eq_some_iff.mp hgreatest
  obtain ⟨selected, hselected, rfl⟩ := mem_map.mp hmem
  refine ⟨selected, hselected, ?_, fun parent hparent => hmax _ (mem_map_of_mem hparent)⟩
  rw [GhostdagManager.findSelectedParent, mapM_sortable_eq_ok hknown, Outcome.ok_bind, hgreatest]
  rfl

end Stores

end Qaspa.Ghostdag
