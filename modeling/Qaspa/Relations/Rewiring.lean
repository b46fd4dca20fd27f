import Qaspa.Relations.Operations

/-! # Insertion and deletion of blocks

What the operations on whole blocks do to a lawful store that holds symmetric relations. A
deletion replaces the block among the parents of its children one child after another. In
between, the children of the block are those it had before, and all other relations are
symmetric.
-/

namespace Qaspa.Relations

open Dag Database Outcome RelationsStore List Contents

variable {Hash : Type} [DecidableEq Hash] {Store : Type} [RelationsStore Hash Store]
  {Represents : Store → Contents Hash → Prop} {store : Store}
  {parents : Hash → Option (List Hash)} {deleted : Hash → Prop} {hash : Hash}
  (hlawful : Lawful Represents) (hwell : WellFormed parents deleted)
  (hstore : Represents store (.ofParents parents deleted))

omit [DecidableEq Hash] in
@[simp] theorem orPanic_ok {α : Type} (value : α) :
    (orPanic (.ok value) : StoreResult Hash α) = .ok value := rfl

section Insert

include hlawful hstore

theorem Lawful.insert_eq_error (hknown : (parents hash).isSome) (list : List Hash) :
    insert store hash list = .error (.err (.hashAlreadyExists hash)) := by
  have hhas : has store hash = .ok true := by
    rw [(hlawful.reads hstore).has_eq]
    exact congrArg _ hknown
  simp only [insert, hhas, ok_bind, if_true]

theorem Lawful.insert_eq_ok (hnew : parents hash = none) (hkept : ¬ deleted hash) {list : List Hash}
    (hknown : ∀ parent ∈ list, (parents parent).isSome) :
    ∃ next, insert store hash list = .ok next ∧
      Represents next (.ofParents (Function.update parents hash (some (blockUnique list)))
        deleted) := by
  have hhas : has store hash = .ok false := by
    rw [(hlawful.reads hstore).has_eq]
    simp [ofParents, hnew]
  obtain ⟨middle, hmiddle, hrepresents⟩ := hlawful.setParents (blockUnique list) hstore hkept
  have hknown' : ∀ parent ∈ blockUnique list, (ofParents parents deleted).Known parent :=
    fun parent hparent => hknown parent (mem_blockUnique.mp hparent)
  obtain ⟨next, hnext, hrepresents⟩ := hlawful.insertChildren hrepresents
    (nodup_blockUnique list) (fun parent hparent => (hknown' parent hparent).setParents) hkept (by
      rintro parent - ⟨other, hother, -⟩
      rw [hnew] at hother
      cases hother)
  refine ⟨next, ?_, ?_⟩
  · simp only [insert, hhas, ok_bind, Bool.false_eq_true, if_false, ite_blockUnique, hmiddle, hnext]
  · convert hrepresents using 1
    ext parent child
    · rfl
    · by_cases heq : child = hash
      · simp [adopt, Contents.setParents, ofParents, ParentOf, heq, hnew]
      · simp [adopt, Contents.setParents, ofParents, ParentOf, heq]
    · rfl

end Insert

/-! ## Rewiring the children of a block -/

section Rewiring

variable {replacement : List Hash → List Hash} {rank : Hash → Nat}

/-- The parents after some children have been rewired. -/
def rewiredParents (parents : Hash → Option (List Hash)) (hash : Hash)
    (replacement : List Hash → List Hash) (done : List Hash) (block : Hash) :
    Option (List Hash) :=
  if block ∈ done then (parents block).map (replaced hash replacement) else parents block

/-- The contents after some children have been rewired. -/
def rewired (parents : Hash → Option (List Hash)) (deleted : Hash → Prop) (hash : Hash)
    (replacement : List Hash → List Hash) (done : List Hash) : Contents Hash where
  parents := rewiredParents parents hash replacement done
  children parent child :=
    if parent = hash then ParentOf parents hash child
    else ParentOf (rewiredParents parents hash replacement done) parent child
  deleted := deleted

theorem rewired_nil : rewired parents deleted hash replacement [] = .ofParents parents deleted := by
  ext parent child
  · simp [rewired, rewiredParents, ofParents]
  · by_cases heq : parent = hash <;>
      simp [rewired, rewiredParents, ofParents, ParentOf, heq]
  · rfl

variable {done list : List Hash}

theorem isSome_rewiredParents {block : Hash} :
    (rewiredParents parents hash replacement done block).isSome = (parents block).isSome := by
  unfold rewiredParents
  split
  · exact Option.isSome_map
  · rfl

variable (hfits : Fits parents rank hash replacement)

include hwell hfits

/-- One more child. -/
theorem rewired_cons {child : Hash} (hlist : parents child = some list) (hmem : hash ∈ list)
    (hnot : child ∉ done) :
    ((rewired parents deleted hash replacement done).setParents child
        (removeParent list hash ++ replacement list)).adopt (replacement list) child =
      rewired parents deleted hash replacement (child :: done) := by
  have hreplaced : replaced hash replacement list =
      removeParent list hash ++ replacement list := if_pos hmem
  have hparents : Function.update (rewiredParents parents hash replacement done) child
      (some (removeParent list hash ++ replacement list)) =
      rewiredParents parents hash replacement (child :: done) := by
    funext block
    by_cases heq : block = child
    · subst heq
      simp [rewiredParents, hlist, hreplaced]
    · simp [rewiredParents, heq]
  refine Contents.ext hparents ?_ rfl
  funext parent block
  apply propext
  simp only [Contents.adopt, Contents.setParents, rewired]
  by_cases hparent : parent = hash
  · -- The deleted block is not among its replacements.
    subst hparent
    simp only [if_true, or_iff_right_iff_imp]
    rintro ⟨hnew, -⟩
    exact absurd rfl (hfits.fresh child list hlist hmem parent hnew).1
  · simp only [← hparents]
    by_cases heq : block = child
    · subst heq
      have hiff : parent ∈ replaced hash replacement list ↔ _ :=
        mem_replaced (hwell.nodup block list hlist)
      rw [hreplaced] at hiff
      simp only [ParentOf, Function.update_self, rewiredParents, hnot, if_false, hlist,
        Option.some.injEq, exists_eq_left', hiff]
      simp only [hparent, hmem, ne_eq, not_false_eq_true, and_true, true_and]
      exact or_comm
    · simp [ParentOf, heq]

/-- Once all children are rewired, the block itself is deleted. -/
theorem disown_rewired (hdone : ∀ child, child ∈ done ↔ ParentOf parents hash child)
    (hlist : parents hash = some list) :
    ((rewired parents deleted hash replacement done).deleteEntries hash).disown list hash =
      .ofParents (deleteBlock parents hash replacement)
        (fun block => block = hash ∨ deleted block) := by
  have hrewired : ∀ block, block ≠ hash →
      rewiredParents parents hash replacement done block =
        deleteBlock parents hash replacement block := by
    intro block hne
    unfold rewiredParents deleteBlock
    split
    · rfl
    next hnot =>
      cases hblock : parents block with
      | none => rfl
      | some other =>
        have hother : hash ∉ other := fun hmem =>
          hnot ((hdone block).mpr ⟨other, hblock, hmem⟩)
        simp [replaced, hother]
  refine Contents.ext ?_ ?_ rfl
  · funext block
    by_cases heq : block = hash
    · simp [Contents.disown, Contents.deleteEntries, Contents.ofParents, heq, deleteBlock]
    · simp [Contents.disown, Contents.deleteEntries, Contents.ofParents, rewired, heq,
        hrewired block heq]
  · funext parent child
    have hself : hash ∉ done := fun hmem => hwell.not_parentOf_self hash ((hdone hash).mp hmem)
    have hne : ParentOf (deleteBlock parents hash replacement) parent child → parent ≠ hash := by
      intro hparent
      obtain ⟨-, old, hold, hmem⟩ := hwell.parentOf_deleteBlock.mp hparent
      rcases hmem with ⟨-, hne⟩ | ⟨hmem, hnew⟩
      · exact hne
      · exact (hfits.fresh child old hold hmem parent hnew).1
    simp only [Contents.disown, Contents.deleteEntries, Contents.ofParents, rewired]
    by_cases hparent : parent = hash
    · simpa [hparent] using hne
    by_cases hchild : child = hash
    · simp [ParentOf, rewiredParents, hself, hlist, deleteBlock, hparent, hchild]
    · simp [ParentOf, hrewired child hchild, hparent, hchild]

include hlawful

/-- One round of the loop over the children. -/
theorem Lawful.rewire_one
    (hstore : Represents store (rewired parents deleted hash replacement done)) {child : Hash}
    (hchild : ParentOf parents hash child) (hnot : child ∉ done) :
    ∃ next, (do
        let childParents ← orPanic (getParents store child)
        orPanic (Relations.replaceParent store child hash (replacement childParents))) = .ok next ∧
      Represents next (rewired parents deleted hash replacement (child :: done)) := by
  obtain ⟨list, hlist, hmem⟩ := hchild
  have hparents : (rewired parents deleted hash replacement done).parents child = some list := by
    simp [rewired, rewiredParents, hnot, hlist]
  have hkept : ¬ deleted child := by
    intro hdeleted
    rw [hwell.deleted_unknown child hdeleted] at hlist
    cases hlist
  obtain ⟨next, hnext, hrepresents⟩ := hlawful.replaceParent hstore hparents hmem hkept
    (hfits.nodup child list hlist hmem)
    (fun parent hparent => by
      simpa only [Contents.Known, rewired, isSome_rewiredParents] using
        hfits.known child list hlist hmem parent hparent)
    (fun parent hparent hold => by
      obtain ⟨hne, hfresh⟩ := hfits.fresh child list hlist hmem parent hparent
      simp only [rewired, if_neg hne] at hold
      obtain ⟨other, hother, hmem'⟩ := hold
      cases hother.symm.trans hparents
      exact hfresh hmem')
  refine ⟨next, ?_, ?_⟩
  · simp only [hlawful.getParents_eq_ok hstore hparents, orPanic_ok, ok_bind, hnext]
  · rwa [rewired_cons hwell hfits hlist hmem hnot] at hrepresents

/-- The loop over the children, in any order. -/
theorem Lawful.rewire_all {children : List Hash}
    (hstore : Represents store (rewired parents deleted hash replacement done))
    (hchildren : ∀ child ∈ children, ParentOf parents hash child)
    (hnodup : (children ++ done).Nodup) :
    ∃ next, children.foldlM (fun store child => do
        let childParents ← orPanic (getParents store child)
        orPanic (Relations.replaceParent store child hash
          (replacement childParents))) store = .ok next ∧
      Represents next (rewired parents deleted hash replacement (children.reverse ++ done)) := by
  induction children generalizing store done with
  | nil => exact ⟨store, rfl, hstore⟩
  | cons child children ih =>
    obtain ⟨hnot, hrest⟩ := nodup_cons.mp hnodup
    obtain ⟨hnotin, hnotdone⟩ := not_or.mp (mt mem_append.mpr hnot)
    obtain ⟨middle, hmiddle, hrepresents⟩ := hlawful.rewire_one hwell hfits hstore
      (hchildren child (.head _)) hnotdone
    obtain ⟨next, hnext, hrepresents⟩ := ih hrepresents
      (fun other hother => hchildren other (.tail _ hother))
      (nodup_middle.mpr hnodup)
    refine ⟨next, ?_, by simpa using hrepresents⟩
    rw [foldlM_cons, hmiddle, ok_bind, hnext]

include hstore

/-- The loop over the children of a block and the deletion of the block. -/
theorem Lawful.rewire_delete {children : List Hash} (hlist : parents hash = some list)
    (hnodup : children.Nodup)
    (hchildren : ∀ child, child ∈ children ↔ ParentOf parents hash child) :
    ∃ middle next, children.foldlM (fun store child => do
        let childParents ← orPanic (getParents store child)
        orPanic (Relations.replaceParent store child hash
          (replacement childParents))) store = .ok middle ∧
      Relations.delete middle hash = .ok next ∧
      Represents next (.ofParents (deleteBlock parents hash replacement)
        (fun block => block = hash ∨ deleted block)) := by
  have hstart : Represents store (rewired parents deleted hash replacement []) := by
    rwa [rewired_nil]
  obtain ⟨middle, hmiddle, hrepresents⟩ := hlawful.rewire_all hwell hfits hstart
    (fun child hchild => (hchildren child).mp hchild) (by simpa using hnodup)
  rw [append_nil] at hrepresents
  have hdone : ∀ child, child ∈ children.reverse ↔ ParentOf parents hash child := by
    simpa using hchildren
  have hself : hash ∉ children.reverse := fun hmem =>
    hwell.not_parentOf_self hash ((hdone hash).mp hmem)
  have hparents : (rewired parents deleted hash replacement children.reverse).parents hash =
      some list := by
    simp only [rewired, rewiredParents, hself, if_false, hlist]
  obtain ⟨next, hnext, hrepresents⟩ := hlawful.delete hrepresents hparents (by
    intro parent hparent
    have hedge : ParentOf parents parent hash := ⟨list, hlist, hparent⟩
    refine ⟨?_, ?_⟩
    · simpa only [Contents.Known, rewired, isSome_rewiredParents] using
        hwell.closed parent hash hedge
    · rintro rfl
      exact hwell.not_parentOf_self parent hedge)
  refine ⟨middle, next, hmiddle, hnext, ?_⟩
  rwa [disown_rewired hwell hfits hdone hlist] at hrepresents

end Rewiring

/-! ## Deletions from a level -/

section Level

variable {origin : Hash}

/-- What stands for a deleted block among the parents of a child. -/
def levelReplacement (origin hash : Hash) (childParents : List Hash) : List Hash :=
  if childParents = [hash] then [origin] else []

include hwell in
/-- The origin has no parents, so it can be ranked below all other blocks. -/
theorem WellFormed.levelReplacement_fits (horigin : parents origin = some [])
    (hne : hash ≠ origin) :
    ∃ rank : Hash → Nat, (∀ x y, ParentOf parents x y → rank x < rank y) ∧
      Fits parents rank hash (levelReplacement origin hash) := by
  obtain ⟨rank, hrank⟩ := hwell.acyclic
  have hroot : ∀ x y, ParentOf parents x y → y ≠ origin := by
    rintro x y ⟨list, hlist, hmem⟩ rfl
    cases horigin.symm.trans hlist
    exact not_mem_nil hmem
  have hmem : ∀ list parent, parent ∈ levelReplacement origin hash list →
      list = [hash] ∧ parent = origin := by
    intro list parent hparent
    unfold levelReplacement at hparent
    split at hparent
    next heq => exact ⟨heq, mem_singleton.mp hparent⟩
    · exact absurd hparent not_mem_nil
  refine ⟨fun block => if block = origin then 0 else rank block + 1, ?_, ?_, ?_, ?_, ?_⟩
  · intro x y hedge
    have hlt := hrank x y hedge
    simp only [if_neg (hroot x y hedge)]
    split <;> omega
  · intro child list _ _
    unfold levelReplacement
    split <;> simp
  · intro child list _ _ parent hparent
    obtain ⟨-, rfl⟩ := hmem list parent hparent
    simp [horigin]
  · intro child list _ _ parent hparent
    obtain ⟨rfl, rfl⟩ := hmem list parent hparent
    exact ⟨hne.symm, by simpa using hne.symm⟩
  · intro child list hlist hhash parent hparent
    obtain ⟨-, rfl⟩ := hmem list parent hparent
    simp [hroot hash child ⟨list, hlist, hhash⟩]

include hlawful hstore

theorem Lawful.deleteLevelRelations_eq_error (hunknown : parents hash = none) :
    deleteLevelRelations origin store hash = .error (.err (.keyNotFound (.entry hash))) := by
  have hnot : ¬ (ofParents parents deleted).Known hash := by
    simp [Contents.Known, ofParents, hunknown]
  rw [deleteLevelRelations, (hlawful.reads hstore).getChildren_eq_error hash hnot, error_bind]

include hwell

theorem Lawful.deleteLevelRelations_eq_ok {list : List Hash} (hlist : parents hash = some list)
    (horigin : parents origin = some []) (hne : hash ≠ origin) :
    ∃ next, deleteLevelRelations origin store hash = .ok next ∧
      Represents next (.ofParents (deleteBlock parents hash (levelReplacement origin hash))
        (fun block => block = hash ∨ deleted block)) := by
  obtain ⟨rank, -, hfits⟩ := hwell.levelReplacement_fits horigin hne
  have hknown : (ofParents parents deleted).Known hash := by
    simp [Contents.Known, ofParents, hlist]
  obtain ⟨children, hchildren, hnodup, hmem⟩ := (hlawful.reads hstore).getChildren_eq_ok hash hknown
  obtain ⟨middle, next, hmiddle, hnext, hrepresents⟩ :=
    hlawful.rewire_delete hwell hstore hfits hlist hnodup hmem
  refine ⟨next, ?_, hrepresents⟩
  unfold levelReplacement at hmiddle
  simp only [deleteLevelRelations, hchildren, ok_bind, hmiddle, hnext, orPanic_ok]

end Level

/-! ## Deletions from the reachability relations -/

section Reachability

variable {reachability : Reachability Hash} {list : List Hash}

include hwell in
/-- A grandparent that is a parent of the child already is in its own past, hence not needed. -/
theorem neededGrandparents_fits {rank : Hash → Nat}
    (hrank : ∀ x y, ParentOf parents x y → rank x < rank y)
    (hlist : parents hash = some list) :
    Fits parents rank hash (neededGrandparents reachability hash list) := by
  have hmem : ∀ childParents parent,
      parent ∈ neededGrandparents reachability hash list childParents → parent ∈ list :=
    fun childParents parent hparent => mem_of_mem_filter hparent
  refine ⟨?_, ?_, ?_, ?_⟩
  · intro child childParents _ _
    exact (hwell.nodup hash list hlist).filter _
  · intro child childParents _ _ parent hparent
    exact hwell.closed parent hash ⟨list, hlist, hmem childParents parent hparent⟩
  · intro child childParents _ _ parent hparent
    have hne : parent ≠ hash := by
      rintro rfl
      exact hwell.not_parentOf_self parent ⟨list, hlist, hmem childParents parent hparent⟩
    refine ⟨hne, fun hold => ?_⟩
    have hneeded := (mem_filter.mp hparent).2
    have hpast : (childParents.filter (· ≠ hash)).any (reachability.isDagAncestorOf parent) :=
      any_eq_true.mpr ⟨parent, mem_filter.mpr ⟨hold, by simpa using hne⟩,
        reachability.isDagAncestorOf_self parent⟩
    rw [hpast] at hneeded
    cases hneeded
  · intro child childParents hchild hhash parent hparent
    exact (hrank parent hash ⟨list, hlist, hmem childParents parent hparent⟩).trans
      (hrank hash child ⟨childParents, hchild, hhash⟩)

omit [DecidableEq Hash] in
theorem Reads.toOption_getParents (hreads : Reads store (.ofParents parents deleted)) :
    (fun block => (getParents store block).toOption) = parents := by
  funext block
  rw [hreads.getParents_eq]
  cases hblock : (ofParents parents deleted).parents block with
  | none => exact hblock.symm
  | some list => exact hblock.symm

/-- The search for the mergeset ends, with the blocks that are connected to a parent by blocks
outside the past of the selected parent. -/
theorem Reads.unorderedMergeset_eq_ok (hreads : Reads store (.ofParents parents deleted))
    (hwell : WellFormed parents deleted) (hlist : parents hash = some list)
    (reachability : Reachability Hash) (selectedParent : Hash) :
    ∃ mergeset, unorderedMergesetWithoutSelectedParent reachability store selectedParent list =
        .ok mergeset ∧ mergeset.Nodup ∧
      ∀ block, block ∈ mergeset ↔ ∃ first ∈ list.filter (· ≠ selectedParent),
        Search.Connected parents (reachability.isDagAncestorOf · selectedParent) block first := by
  obtain ⟨keys, -, hkeys, hcounts⟩ := hreads.counts_eq
  simp only [unorderedMergesetWithoutSelectedParent, hcounts, hreads.toOption_getParents]
  exact Search.search_spec hwell.closed (fun block hblock => (hkeys block).mpr hblock)
    (fun first hfirst => hwell.closed first hash ⟨list, hlist, mem_of_mem_filter hfirst⟩)
    (Nat.add_le_add_right (length_filter_le _ list) keys.length)

include hlawful hstore

theorem Lawful.deleteReachabilityRelations_eq_error
    (hunknown : reachability.getChainParent hash = none ∨ parents hash = none) :
    deleteReachabilityRelations reachability store hash = .error .panic := by
  cases hselected : reachability.getChainParent hash with
  | none => rw [deleteReachabilityRelations, hselected]; rfl
  | some selectedParent =>
    have hnone : parents hash = none := by simpa [hselected] using hunknown
    have hparents : getParents store hash =
        .error (.err (.keyNotFound (.entry hash))) := by
      rw [(hlawful.reads hstore).getParents_eq]
      simp [ofParents, hnone, found]
    simp [deleteReachabilityRelations, hselected, unwrap, hparents, orPanic]

include hwell

theorem Lawful.deleteReachabilityRelations_eq_ok (hlist : parents hash = some list)
    {selectedParent : Hash}
    (hselected : reachability.getChainParent hash = some selectedParent) :
    ∃ mergeset next, deleteReachabilityRelations reachability store hash = .ok (mergeset, next) ∧
      Represents next (.ofParents
        (deleteBlock parents hash (neededGrandparents reachability hash list))
        (fun block => block = hash ∨ deleted block)) := by
  obtain ⟨rank, hrank⟩ := hwell.acyclic
  have hreads := hlawful.reads hstore
  have hknown : (ofParents parents deleted).Known hash := by
    simp [Contents.Known, ofParents, hlist]
  obtain ⟨children, hchildren, hnodup, hmem⟩ := hreads.getChildren_eq_ok hash hknown
  obtain ⟨mergeset, hmergeset, -, -⟩ :=
    hreads.unorderedMergeset_eq_ok hwell hlist reachability selectedParent
  obtain ⟨middle, next, hmiddle, hnext, hrepresents⟩ := hlawful.rewire_delete hwell hstore
    (neededGrandparents_fits hwell hrank hlist) hlist hnodup hmem
  refine ⟨mergeset, next, ?_, hrepresents⟩
  simp only [deleteReachabilityRelations, hselected, unwrap, hchildren, hmergeset, hmiddle, hnext,
    hlawful.getParents_eq_ok hstore hlist, orPanic_ok, ok_bind, pure_eq_ok]

end Reachability

end Qaspa.Relations
