import Mathlib.Algebra.Order.BigOperators.Group.List
import Mathlib.Algebra.Order.Group.Nat
import Qaspa.Relations.Store

/-! # Operations on relations

What a store holds is said by the parents and the children of each block. A store is lawful
when its primitive writes change what it holds as they should, under the conditions that the
operations on whole blocks meet. From this follows what these operations do to any lawful
store: the relations stay symmetric, and a deletion rewires the children of the deleted block
in the same way in whatever order the store iterates them.
-/

namespace Qaspa.Relations

open Dag Database Outcome List Function Relations

variable {Hash : Type}

/-- What a store holds. The entry of a block is deleted for good, so the deleted blocks are
remembered. -/
@[ext] structure Contents (Hash : Type) where
  parents : Hash → Option (List Hash)
  children : Hash → Hash → Prop
  deleted : Hash → Prop

namespace Contents

variable (contents : Contents Hash)

def Known (hash : Hash) : Prop := (contents.parents hash).isSome

/-- Add a child to several parents. -/
def adopt (parents : List Hash) (hash : Hash) : Contents Hash :=
  { contents with children := fun parent child =>
      (parent ∈ parents ∧ child = hash) ∨ contents.children parent child }

/-- Remove a child from several parents. -/
def disown (parents : List Hash) (hash : Hash) : Contents Hash :=
  { contents with children := fun parent child =>
      contents.children parent child ∧ ¬ (parent ∈ parents ∧ child = hash) }

/-- Contents in which the children are those that name the block as a parent. -/
def ofParents (parents : Hash → Option (List Hash)) (deleted : Hash → Prop) : Contents Hash :=
  ⟨parents, ParentOf parents, deleted⟩

variable [DecidableEq Hash]

def setParents (hash : Hash) (parents : List Hash) : Contents Hash :=
  { contents with parents := Function.update contents.parents hash (some parents) }

def deleteEntries (hash : Hash) : Contents Hash where
  parents := Function.update contents.parents hash none
  children parent child := parent ≠ hash ∧ contents.children parent child
  deleted block := block = hash ∨ contents.deleted block

variable {contents}

theorem Known.setParents {hash block : Hash} {parents : List Hash} (hknown : contents.Known block) :
    (contents.setParents hash parents).Known block := by
  simp only [Known, Contents.setParents, update_apply]
  split
  · rfl
  · exact hknown

end Contents

/-! ## Lists of parents -/

section Lists

variable [DecidableEq Hash]

theorem nodup_blockUnique (hashes : List Hash) : (blockUnique hashes).Nodup :=
  nodup_reverse.mpr (nodup_dedup _)

variable {parents : List Hash} {hash : Hash}

@[simp] theorem mem_blockUnique {hashes : List Hash} :
    hash ∈ blockUnique hashes ↔ hash ∈ hashes := by
  simp [blockUnique]

/-- The check of the lengths only avoids work. -/
theorem ite_blockUnique (hashes : List Hash) :
    (if hashes.length ≠ (blockUnique hashes).length then blockUnique hashes else hashes) =
      blockUnique hashes := by
  split
  · rfl
  next hlength =>
    have hsublist : (hashes.reverse.dedup).Sublist hashes.reverse := dedup_sublist _
    have heq := hsublist.eq_of_length (by simpa [blockUnique, eq_comm] using hlength)
    rw [blockUnique, heq, reverse_reverse]

/-- A list of parents without one of them, as a removal by swapping leaves it. -/
def removeParent (parents : List Hash) (hash : Hash) : List Hash :=
  match parents.getLast? with
  | some last => (parents.set (parents.idxOf hash) last).dropLast
  | none => []

theorem vecSwapRemove_idxOf {ε : Type} (hmem : hash ∈ parents) :
    (vecSwapRemove parents (parents.idxOf hash) : Outcome ε (List Hash)) =
        .ok (removeParent parents hash) ∧
      parents.Perm (hash :: removeParent parents hash) := by
  have hindex := idxOf_lt_length_iff.mpr hmem
  have helement : parents[parents.idxOf hash]? = some hash := by
    rw [getElem?_eq_getElem hindex, getElem_idxOf]
  obtain ⟨result, hresult, hperm⟩ := vecSwapRemove_eq_ok (ε := ε) helement
  have hremove : result = removeParent parents hash := by
    cases hlast : parents.getLast? with
    | none => simp [vecSwapRemove, hlast] at hresult
    | some last =>
      simp only [vecSwapRemove, hlast, if_pos hindex, Except.ok.injEq] at hresult
      simp only [removeParent, hlast, hresult]
  subst hremove
  exact ⟨hresult, hperm⟩

theorem perm_removeParent (hmem : hash ∈ parents) :
    parents.Perm (hash :: removeParent parents hash) :=
  (vecSwapRemove_idxOf (ε := Empty) hmem).2

/-- The parents of a child after the deletion of one of its parents. -/
def replaced (hash : Hash) (replacement : List Hash → List Hash) (parents : List Hash) :
    List Hash :=
  if hash ∈ parents then removeParent parents hash ++ replacement parents else parents

theorem mem_replaced {replacement : List Hash → List Hash} (hnodup : parents.Nodup) {parent : Hash}
    :
    parent ∈ replaced hash replacement parents ↔
      (parent ∈ parents ∧ parent ≠ hash) ∨ (hash ∈ parents ∧ parent ∈ replacement parents) := by
  unfold replaced
  split
  next hmem =>
    have hperm := perm_removeParent hmem
    have hnot : hash ∉ removeParent parents hash := (nodup_cons.mp (hperm.nodup hnodup)).1
    have hiff : parent ∈ removeParent parents hash ↔ parent ∈ parents ∧ parent ≠ hash := by
      rw [hperm.mem_iff, mem_cons]
      constructor
      · intro hparent
        exact ⟨.inr hparent, fun heq => hnot (heq ▸ hparent)⟩
      · rintro ⟨rfl | hparent, hne⟩
        · exact absurd rfl hne
        · exact hparent
    rw [mem_append, hiff]
    simp [hmem]
  next hmem =>
    constructor
    · intro hparent
      exact .inl ⟨hparent, fun heq => hmem (heq ▸ hparent)⟩
    · rintro (⟨hparent, -⟩ | ⟨hmem', -⟩)
      · exact hparent
      · exact absurd hmem' hmem

end Lists

/-! ## Lawful stores -/

section Lawful

variable [DecidableEq Hash] {Store : Type} [RelationsStore Hash Store]

/-- A store answers every read from the given contents. -/
structure Reads (store : Store) (contents : Contents Hash) : Prop where
  getParents_eq : ∀ hash,
    RelationsStore.getParents store hash = found (.entry hash) (contents.parents hash)
  getChildren_eq_ok : ∀ hash, contents.Known hash → ∃ children,
    RelationsStore.getChildren store hash = .ok children ∧ children.Nodup ∧
      ∀ child, child ∈ children ↔ contents.children hash child
  getChildren_eq_error : ∀ hash, ¬ contents.Known hash →
    RelationsStore.getChildren store hash = .error (.err (.keyNotFound (.entry hash)))
  has_eq : ∀ hash, RelationsStore.has store hash = .ok (contents.parents hash).isSome
  counts_eq : ∃ keys : List Hash, keys.Nodup ∧ (∀ hash, hash ∈ keys ↔ contents.Known hash) ∧
    RelationsStore.counts store = .ok (keys.length, keys.length)

/-- The primitive writes of a store do to it what they do to its contents. A
child is only added to a known block that does not have it, and only removed once its own
entry is deleted. -/
structure Lawful (Represents : Store → Contents Hash → Prop) : Prop where
  reads : ∀ {store contents}, Represents store contents → Reads store contents
  setParents : ∀ {store contents hash} parents, Represents store contents →
    ¬ contents.deleted hash →
    ∃ next, RelationsStore.setParents store hash parents = .ok next ∧
      Represents next (contents.setParents hash parents)
  deleteEntries : ∀ {store contents} hash, Represents store contents →
    ∃ next, RelationsStore.deleteEntries store hash = .ok next ∧
      Represents next (contents.deleteEntries hash)
  insertChild : ∀ {store contents parent child}, Represents store contents →
    contents.Known parent → ¬ contents.deleted child → ¬ contents.children parent child →
    ∃ next, RelationsStore.insertChild store parent child = .ok next ∧
      Represents next (contents.adopt [parent] child)
  deleteChild : ∀ {store contents parent child}, Represents store contents →
    contents.Known parent → contents.deleted child →
    ∃ next, RelationsStore.deleteChild store parent child = .ok next ∧
      Represents next (contents.disown [parent] child)

namespace Lawful

variable {Represents : Store → Contents Hash → Prop} (hlawful : Lawful Represents)
  {store : Store} {contents : Contents Hash} {hash : Hash} {parents : List Hash}

include hlawful

section

variable (hstore : Represents store contents)

include hstore

theorem getParents_eq_ok (hparents : contents.parents hash = some parents) :
    RelationsStore.getParents store hash = .ok parents := by
  rw [(hlawful.reads hstore).getParents_eq, hparents]
  rfl

/-- The loop that adds a block to the children of its parents. -/
theorem insertChildren (hnodup : parents.Nodup) (hknown : ∀ parent ∈ parents, contents.Known parent)
    (hkept : ¬ contents.deleted hash) (hnew : ∀ parent ∈ parents, ¬ contents.children parent hash) :
    ∃ next, parents.foldlM (fun store parent => RelationsStore.insertChild store parent hash)
        store = .ok next ∧ Represents next (contents.adopt parents hash) := by
  induction parents generalizing store contents with
  | nil => exact ⟨store, rfl, by simpa [Contents.adopt]⟩
  | cons parent parents ih =>
    obtain ⟨hnot, hnodup⟩ := nodup_cons.mp hnodup
    obtain ⟨middle, hmiddle, hrepresents⟩ := hlawful.insertChild hstore
      (hknown parent (.head _)) hkept (hnew parent (.head _))
    have hnew' : ∀ other ∈ parents, ¬ (contents.adopt [parent] hash).children other hash := by
      intro other hother hchild
      simp only [Contents.adopt, mem_singleton, and_true] at hchild
      rcases hchild with rfl | hchild
      · exact hnot hother
      · exact hnew other (.tail _ hother) hchild
    obtain ⟨next, hnext, hrepresents⟩ := ih hrepresents hnodup
      (fun other hother => hknown other (.tail _ hother)) hkept hnew'
    refine ⟨next, by rw [foldlM_cons, hmiddle, ok_bind, hnext], ?_⟩
    convert hrepresents using 1
    ext block child
    · rfl
    · simp only [Contents.adopt, mem_cons]
      tauto
    · rfl

/-- The loop that removes a deleted block from the children of its parents. -/
theorem deleteChildren (hknown : ∀ parent ∈ parents, contents.Known parent)
    (hdeleted : contents.deleted hash) :
    ∃ next, parents.foldlM (fun store parent => RelationsStore.deleteChild store parent hash)
        store = .ok next ∧ Represents next (contents.disown parents hash) := by
  induction parents generalizing store contents with
  | nil => exact ⟨store, rfl, by simpa [Contents.disown]⟩
  | cons parent parents ih =>
    obtain ⟨middle, hmiddle, hrepresents⟩ := hlawful.deleteChild hstore
      (hknown parent (.head _)) hdeleted
    obtain ⟨next, hnext, hrepresents⟩ := ih hrepresents
      (fun other hother => hknown other (.tail _ hother)) hdeleted
    refine ⟨next, by rw [foldlM_cons, hmiddle, ok_bind, hnext], ?_⟩
    convert hrepresents using 1
    ext block child
    · rfl
    · simp only [Contents.disown, mem_cons]
      tauto
    · rfl

/-- One of the parents of a block is replaced. The block stays in the children of that parent,
whose entry is about to be deleted. -/
theorem replaceParent {child : Hash} (hparents : contents.parents child = some parents)
    (hmem : hash ∈ parents) (hkept : ¬ contents.deleted child) {replaceWith : List Hash}
    (hnodup : replaceWith.Nodup) (hknown : ∀ parent ∈ replaceWith, contents.Known parent)
    (hnew : ∀ parent ∈ replaceWith, ¬ contents.children parent child) :
    ∃ next, replaceParent store child hash replaceWith = .ok next ∧
      Represents next ((contents.setParents child (removeParent parents hash ++ replaceWith)).adopt
        replaceWith child) := by
  have hindex : parents.idxOf? hash = some (parents.idxOf hash) := by
    obtain ⟨index, hindex⟩ := Option.isSome_iff_exists.mp (isSome_idxOf?.mpr hmem)
    rw [idxOf_eq_getD_idxOf?, hindex, Option.getD_some]
  obtain ⟨middle, hmiddle, hrepresents⟩ :=
    hlawful.setParents (removeParent parents hash ++ replaceWith) hstore hkept
  obtain ⟨next, hnext, hrepresents⟩ := hlawful.insertChildren hrepresents hnodup
    (fun parent hparent => (hknown parent hparent).setParents) hkept hnew
  refine ⟨next, ?_, hrepresents⟩
  simp only [Relations.replaceParent, hlawful.getParents_eq_ok hstore hparents, hindex, unwrap,
    (vecSwapRemove_idxOf hmem).1, ok_bind, hmiddle, hnext]

theorem delete (hparents : contents.parents hash = some parents)
    (hknown : ∀ parent ∈ parents, contents.Known parent ∧ parent ≠ hash) :
    ∃ next, delete store hash = .ok next ∧
      Represents next ((contents.deleteEntries hash).disown parents hash) := by
  obtain ⟨middle, hmiddle, hrepresents⟩ := hlawful.deleteEntries hash hstore
  have hknown' : ∀ parent ∈ parents, (contents.deleteEntries hash).Known parent := by
    intro parent hparent
    obtain ⟨hknown, hne⟩ := hknown parent hparent
    simpa [Contents.Known, Contents.deleteEntries, update_apply, hne] using hknown
  obtain ⟨next, hnext, hrepresents⟩ := hlawful.deleteChildren hrepresents hknown' (.inl rfl)
  refine ⟨next, ?_, hrepresents⟩
  simp only [Relations.delete, hlawful.getParents_eq_ok hstore hparents, ok_bind, hmiddle, hnext]

end

end Lawful

end Lawful

/-! ## Graphs of blocks -/

/-- The blocks form a graph without cycles, and no block is a parent of another one twice. -/
structure WellFormed (parents : Hash → Option (List Hash)) (deleted : Hash → Prop) : Prop where
  nodup : ∀ hash list, parents hash = some list → list.Nodup
  closed : Closed parents
  acyclic : ∃ rank : Hash → Nat, ∀ x y, ParentOf parents x y → rank x < rank y
  deleted_unknown : ∀ hash, deleted hash → parents hash = none

section Graphs

variable [DecidableEq Hash] {parents : Hash → Option (List Hash)} {deleted : Hash → Prop}
  {hash : Hash} {replacement : List Hash → List Hash} {rank : Hash → Nat}

/-- The parents after the deletion of a block. -/
def deleteBlock (parents : Hash → Option (List Hash)) (hash : Hash)
    (replacement : List Hash → List Hash) (block : Hash) : Option (List Hash) :=
  if block = hash then none else (parents block).map (replaced hash replacement)

/-- The replacement of a block among the parents of its children consists of other blocks that
are not among them yet, and that are below the child. -/
structure Fits (parents : Hash → Option (List Hash)) (rank : Hash → Nat) (hash : Hash)
    (replacement : List Hash → List Hash) : Prop where
  nodup : ∀ child list, parents child = some list → hash ∈ list → (replacement list).Nodup
  known : ∀ child list, parents child = some list → hash ∈ list →
    ∀ parent ∈ replacement list, (parents parent).isSome
  fresh : ∀ child list, parents child = some list → hash ∈ list →
    ∀ parent ∈ replacement list, parent ≠ hash ∧ parent ∉ list
  rank_lt : ∀ child list, parents child = some list → hash ∈ list →
    ∀ parent ∈ replacement list, rank parent < rank child

omit [DecidableEq Hash] in
theorem WellFormed.not_parentOf_self (hwell : WellFormed parents deleted) (block : Hash) :
    ¬ ParentOf parents block block := by
  obtain ⟨rank, hrank⟩ := hwell.acyclic
  exact fun hself => Nat.lt_irrefl _ (hrank block block hself)

theorem deleteBlock_eq_some {block : Hash} {list : List Hash} :
    deleteBlock parents hash replacement block = some list ↔
      block ≠ hash ∧ ∃ old, parents block = some old ∧ replaced hash replacement old = list := by
  unfold deleteBlock
  split
  next heq => simp [heq]
  next hne => simp [hne]

theorem WellFormed.parentOf_deleteBlock (hwell : WellFormed parents deleted) {x y : Hash} :
    ParentOf (deleteBlock parents hash replacement) x y ↔ y ≠ hash ∧ ∃ list,
      parents y = some list ∧ ((x ∈ list ∧ x ≠ hash) ∨ (hash ∈ list ∧ x ∈ replacement list)) := by
  constructor
  · rintro ⟨list, hlist, hmem⟩
    obtain ⟨hne, old, hold, rfl⟩ := deleteBlock_eq_some.mp hlist
    exact ⟨hne, old, hold, (mem_replaced (hwell.nodup y old hold)).mp hmem⟩
  · rintro ⟨hne, old, hold, hmem⟩
    exact ⟨_, deleteBlock_eq_some.mpr ⟨hne, old, hold, rfl⟩,
      (mem_replaced (hwell.nodup y old hold)).mpr hmem⟩

theorem WellFormed.deleteBlock (hwell : WellFormed parents deleted)
    (hrank : ∀ x y, ParentOf parents x y → rank x < rank y)
    (hfits : Fits parents rank hash replacement) :
    WellFormed (deleteBlock parents hash replacement)
      (fun block => block = hash ∨ deleted block) where
  nodup block list hlist := by
    obtain ⟨-, old, hold, rfl⟩ := deleteBlock_eq_some.mp hlist
    have hnodup := hwell.nodup block old hold
    unfold replaced
    split
    next hmem =>
      have hperm := perm_removeParent hmem
      apply List.Nodup.append (nodup_cons.mp (hperm.nodup hnodup)).2
        (hfits.nodup block old hold hmem)
      intro parent hold' hnew
      exact (hfits.fresh block old hold hmem parent hnew).2
        (hperm.mem_iff.mpr (.tail _ hold'))
    · exact hnodup
  closed x y hparent := by
    obtain ⟨-, list, hlist, hmem⟩ := hwell.parentOf_deleteBlock.mp hparent
    have hx : x ≠ hash ∧ (parents x).isSome := by
      rcases hmem with ⟨hmem, hne⟩ | ⟨hmem, hnew⟩
      · exact ⟨hne, hwell.closed x y ⟨list, hlist, hmem⟩⟩
      · exact ⟨(hfits.fresh y list hlist hmem x hnew).1, hfits.known y list hlist hmem x hnew⟩
    simpa [Relations.deleteBlock, hx.1] using hx.2
  acyclic := by
    refine ⟨rank, fun x y hparent => ?_⟩
    obtain ⟨-, list, hlist, hmem⟩ := hwell.parentOf_deleteBlock.mp hparent
    rcases hmem with ⟨hmem, -⟩ | ⟨hmem, hnew⟩
    · exact hrank x y ⟨list, hlist, hmem⟩
    · exact hfits.rank_lt y list hlist hmem x hnew
  deleted_unknown block hdeleted := by
    rcases hdeleted with rfl | hdeleted
    · simp [deleteBlock]
    · simp [Relations.deleteBlock, hwell.deleted_unknown block hdeleted]

/-- A new block has known parents only, and is no parent yet. -/
theorem WellFormed.insert (hwell : WellFormed parents deleted) (hnew : parents hash = none)
    (hkept : ¬ deleted hash) {list : List Hash} (hnodup : list.Nodup)
    (hknown : ∀ parent ∈ list, (parents parent).isSome) :
    WellFormed (update parents hash (some list)) deleted := by
  have hne : ∀ parent, (parents parent).isSome → parent ≠ hash := by
    rintro parent hparent rfl
    simp [hnew] at hparent
  have hsplit : ∀ x y, ParentOf (update parents hash (some list)) x y ↔
      (y = hash ∧ x ∈ list) ∨ (y ≠ hash ∧ ParentOf parents x y) := by
    intro x y
    by_cases heq : y = hash <;> simp [ParentOf, heq]
  have hparent : ∀ x y, ParentOf (update parents hash (some list)) x y →
      (parents x).isSome := by
    intro x y hedge
    rcases (hsplit x y).mp hedge with ⟨-, hmem⟩ | ⟨-, hedge⟩
    · exact hknown x hmem
    · exact hwell.closed x y hedge
  refine ⟨?_, ?_, ?_, ?_⟩
  · intro block other hother
    by_cases heq : block = hash
    · simp only [heq, update_self, Option.some.injEq] at hother
      exact hother ▸ hnodup
    · rw [update_of_ne heq] at hother
      exact hwell.nodup block other hother
  · intro x y hedge
    have hx := hparent x y hedge
    rwa [update_of_ne (hne x hx)]
  · obtain ⟨rank, hrank⟩ := hwell.acyclic
    refine ⟨update rank hash ((list.map rank).sum + 1), fun x y hedge => ?_⟩
    rw [update_of_ne (hne x (hparent x y hedge))]
    rcases (hsplit x y).mp hedge with ⟨rfl, hmem⟩ | ⟨hy, hedge⟩
    · rw [update_self]
      exact Nat.lt_succ_of_le (le_sum_of_mem (mem_map_of_mem hmem))
    · rw [update_of_ne hy]
      exact hrank x y hedge
  · intro block hdeleted
    have hother : block ≠ hash := by
      rintro rfl
      exact hkept hdeleted
    rw [update_of_ne hother]
    exact hwell.deleted_unknown block hdeleted

end Graphs

end Qaspa.Relations
