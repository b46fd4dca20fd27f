import Qaspa.Ghostdag.Growth

/-! # Order of the block DAG

Blue work grows strictly from parents to children, which makes the order by work a
topological one. From it follow the shape of every mergeset, that of the selected
chain, and that the iterators over a mergeset agree.
-/

namespace Qaspa.Ghostdag

open Dag Outcome GhostdagManager List

variable {Hash : Type} [LinearOrder Hash] {manager : GhostdagManager Hash}
  {stores : Stores Hash} {maxBlockParents : Nat}

namespace Stores

abbrev ParentOf (stores : Stores Hash) : Hash → Hash → Prop := Dag.ParentOf stores.relations.lookup

abbrev InPast (stores : Stores Hash) : Hash → Hash → Prop := Dag.InPast stores.relations.lookup

abbrev InStrictPast (stores : Stores Hash) : Hash → Hash → Prop :=
  Dag.InStrictPast stores.relations.lookup

end Stores

/-! ## Checked parents -/

/-- Parents that header validation accepts. -/
structure ParentsOk (manager : GhostdagManager Hash) (stores : Stores Hash)
    (parents : List Hash) : Prop where
  nonempty : parents ≠ []
  known : ∀ parent ∈ parents, stores.Known parent
  ne_origin : ∀ parent ∈ parents, parent ≠ manager.origin
  antichain : ∀ left ∈ parents, ∀ right ∈ parents, left ≠ right → ¬ stores.InPast left right

theorem checkParents_eq_ok {parents : List Hash} (horacle : stores.OracleCorrect)
    (hchecked : manager.checkParents maxBlockParents stores parents = .ok ()) :
    ParentsOk manager stores parents := by
  simp only [checkParents, bind_eq_ok] at hchecked
  obtain ⟨_, hlimit, _, horigin, _, hexist, hincest⟩ := hchecked
  have hknown : ∀ parent ∈ parents, stores.Known parent := by
    unfold checkParentsExist at hexist
    split at hexist
    next hnone =>
      intro parent hparent
      by_contra hunknown
      have hmem : parent ∈ parents.filter fun parent =>
          (stores.relations.lookup parent).isNone :=
        mem_filter.mpr ⟨hparent, by simpa [Stores.Known] using hunknown⟩
      rw [isEmpty_iff.mp hnone] at hmem
      cases hmem
    · cases hexist
  refine ⟨?_, hknown, ?_, ?_⟩
  · rintro rfl
    simp [checkParentsLimit] at hlimit
  · rintro parent hparent rfl
    rw [checkParentsNotOrigin, if_pos (by simpa using hparent)] at horigin
    cases horigin
  · intro left hleft right hright hne hpast
    have hanswer := (horacle left right (hknown left hleft) (hknown right hright)).mpr hpast
    unfold checkParentsIncest at hincest
    split at hincest
    · cases hincest
    next hnone =>
      have hpair := find?_eq_none.mp hnone (left, right)
        (pair_mem_product.mpr ⟨hleft, hright⟩)
      simp [hne, hanswer] at hpair

/-! ## Ordered blocks -/

/-- What holds of the data that GHOSTDAG stored for a block. -/
structure OrderedBlock (manager : GhostdagManager Hash) (stores : Stores Hash) (block : Hash)
    (data : GhostdagData Hash) : Prop where
  parent_ne_origin : ∀ parent, stores.ParentOf parent block → parent ≠ manager.origin
  selectedParent_parent : stores.ParentOf data.selectedParent block
  selectedParent_max : ∀ parent, stores.ParentOf parent block →
    stores.blockKey parent ≤ stores.blockKey data.selectedParent
  blues_head : data.mergesetBlues.head? = some data.selectedParent
  nodup : (data.mergesetBlues ++ data.mergesetReds).Nodup
  mem_mergeset : ∀ x, x ∈ data.mergesetBlues ++ data.mergesetReds ↔
    stores.InStrictPast x block ∧ ¬ stores.InStrictPast x data.selectedParent
  blues_sorted : (data.mergesetBlues.drop 1).Pairwise fun left right =>
    stores.blockKey left < stores.blockKey right
  reds_sorted : data.mergesetReds.Pairwise fun left right =>
    stores.blockKey left < stores.blockKey right
  work_lt : stores.workOf data.selectedParent < data.blueWork
  score_eq : data.blueScore = stores.scoreOf data.selectedParent + data.mergesetBlues.length

/-- What holds of all stored blocks. -/
structure Ordered (manager : GhostdagManager Hash) (stores : Stores Hash) : Prop where
  closed : Dag.Closed stores.relations.lookup
  data_known : ∀ hash, (stores.ghostdag.lookup hash).isSome ↔ stores.Known hash
  oracle : stores.OracleCorrect
  origin_parents : stores.relations.lookup manager.origin = some []
  genesis_parents : stores.relations.lookup manager.genesisHash = some [manager.origin]
  origin_data : stores.ghostdag.lookup manager.origin = some manager.originGhostdagData
  genesis_data : stores.ghostdag.lookup manager.genesisHash = some manager.genesisGhostdagData
  block : ∀ hash data, hash ≠ manager.origin → hash ≠ manager.genesisHash →
    stores.ghostdag.lookup hash = some data → OrderedBlock manager stores hash data

namespace Ordered

variable {x y parent : Hash} {data : GhostdagData Hash}

section

variable (hordered : Ordered manager stores)

include hordered

theorem known_of_lookup (hdata : stores.ghostdag.lookup x = some data) : stores.Known x :=
  (hordered.data_known x).mp (Option.isSome_iff_exists.mpr ⟨data, hdata⟩)

theorem exists_data (hknown : stores.Known x) : ∃ data, stores.ghostdag.lookup x = some data :=
  Option.isSome_iff_exists.mp ((hordered.data_known x).mpr hknown)

theorem not_parentOf_origin : ¬ stores.ParentOf x manager.origin := by
  rintro ⟨list, hlist, hmem⟩
  cases hordered.origin_parents.symm.trans hlist
  cases hmem

theorem parentOf_genesis (hparent : stores.ParentOf x manager.genesisHash) :
    x = manager.origin := by
  obtain ⟨list, hlist, hmem⟩ := hparent
  cases hordered.genesis_parents.symm.trans hlist
  exact mem_singleton.mp hmem

/-- Work grows strictly from a parent to its child. -/
theorem work_lt_of_parentOf (hx : x ≠ manager.origin) (hparent : stores.ParentOf x y) :
    stores.workOf x < stores.workOf y := by
  have hy : y ≠ manager.origin := by
    rintro rfl
    exact hordered.not_parentOf_origin hparent
  have hy' : y ≠ manager.genesisHash := by
    rintro rfl
    exact hx (hordered.parentOf_genesis hparent)
  have hknown : stores.Known y := by
    obtain ⟨list, hlist, _⟩ := hparent
    simp [Stores.Known, hlist]
  obtain ⟨data, hdata⟩ := hordered.exists_data hknown
  have hblock := hordered.block y data hy hy' hdata
  calc stores.workOf x ≤ stores.workOf data.selectedParent :=
        SortableBlock.blueWork_le_of_le (hblock.selectedParent_max x hparent)
    _ < data.blueWork := hblock.work_lt
    _ = stores.workOf y := by rw [Stores.workOf, hdata]; rfl

theorem work_lt (hx : x ≠ manager.origin) (hpast : stores.InStrictPast x y) :
    stores.workOf x < stores.workOf y := by
  induction hpast with
  | single hedge => exact hordered.work_lt_of_parentOf hx hedge
  | @tail middle last hpath hedge ih =>
    refine ih.trans (hordered.work_lt_of_parentOf ?_ hedge)
    rintro rfl
    obtain ⟨parent, hparent, _⟩ := inStrictPast_iff.mp hpath
    exact hordered.not_parentOf_origin hparent

theorem not_inStrictPast_self : ¬ stores.InStrictPast x x := by
  intro hpast
  by_cases hx : x = manager.origin
  · subst hx
    obtain ⟨parent, hparent, _⟩ := inStrictPast_iff.mp hpast
    exact hordered.not_parentOf_origin hparent
  · exact lt_irrefl _ (hordered.work_lt hx hpast)

/-- A list sorted by key is sorted topologically. -/
theorem topological_of_sorted {order : List Hash} (hne : ∀ x ∈ order, x ≠ manager.origin)
    (hsorted : order.Pairwise fun left right => stores.blockKey left < stores.blockKey right) :
    order.Pairwise fun earlier later => ¬ stores.InPast later earlier := by
  refine hsorted.imp_of_mem fun {earlier later} _ hlater hlt hpast => ?_
  rcases inPast_iff.mp hpast with rfl | hstrict
  · exact lt_irrefl _ hlt
  · have hwork := hordered.work_lt (hne later hlater) hstrict
    exact absurd (SortableBlock.blueWork_le_of_le hlt.le) (not_le_of_gt hwork)

theorem known_selectedParent (hblock : OrderedBlock manager stores x data) :
    stores.Known data.selectedParent :=
  hordered.closed _ _ hblock.selectedParent_parent

/-- The genesis block is in the past of every block. -/
theorem genesis_inPast (hx : x ≠ manager.origin) (hknown : stores.Known x) :
    stores.InPast manager.genesisHash x := by
  -- along the selected chain, whose work decreases
  induction hwork : stores.workOf x using Nat.strong_induction_on generalizing x with
  | _ work ih =>
    by_cases hgenesis : x = manager.genesisHash
    · rw [hgenesis]
      exact .refl _
    · obtain ⟨data, hdata⟩ := hordered.exists_data hknown
      have hblock := hordered.block x data hx hgenesis hdata
      have hne := hblock.parent_ne_origin _ hblock.selectedParent_parent
      have hlt := hordered.work_lt_of_parentOf hne hblock.selectedParent_parent
      exact (ih _ (hwork ▸ hlt) hne (hordered.known_selectedParent hblock) rfl).tail
        hblock.selectedParent_parent

theorem origin_inPast (hx : x ≠ manager.origin) (hknown : stores.Known x) :
    stores.InPast manager.origin x := by
  have hedge : stores.ParentOf manager.origin manager.genesisHash :=
    ⟨_, hordered.genesis_parents, mem_singleton_self _⟩
  exact (InStrictPast.of_parentOf hedge).inPast.trans (hordered.genesis_inPast hx hknown)

end

end Ordered

/-! ## Growth keeps the order -/

/-- Later stores agree with earlier ones on the blocks known earlier. -/
structure Stores.Extension (stores later : Stores Hash) : Prop where
  relations : Dag.Extends stores.relations.lookup later.relations.lookup
  data : ∀ hash, stores.Known hash → later.ghostdag.lookup hash = stores.ghostdag.lookup hash
  target : ∀ hash, stores.Known hash → later.target hash = stores.target hash

namespace Stores.Extension

variable {later : Stores Hash} (hextension : stores.Extension later) {x y block : Hash}
  {data : GhostdagData Hash}

include hextension

theorem parentOf_iff (hknown : stores.Known y) : later.ParentOf x y ↔ stores.ParentOf x y :=
  hextension.relations.parentOf_iff hknown

theorem inPast_iff (hclosed : Dag.Closed stores.relations.lookup) (hknown : stores.Known y) :
    later.InPast x y ↔ stores.InPast x y := hextension.relations.inPast_iff hclosed hknown

theorem inStrictPast_iff (hclosed : Dag.Closed stores.relations.lookup) (hknown : stores.Known y) :
    later.InStrictPast x y ↔ stores.InStrictPast x y :=
  hextension.relations.inStrictPast_iff hclosed hknown

theorem workOf (hknown : stores.Known x) : later.workOf x = stores.workOf x := by
  rw [Stores.workOf, Stores.workOf, hextension.data x hknown]

theorem scoreOf (hknown : stores.Known x) : later.scoreOf x = stores.scoreOf x := by
  rw [Stores.scoreOf, Stores.scoreOf, hextension.data x hknown]

theorem blockKey (hknown : stores.Known x) : later.blockKey x = stores.blockKey x := by
  rw [Stores.blockKey, Stores.blockKey, hextension.workOf hknown]

theorem sorted {blocks : List Hash} (hknown : ∀ block ∈ blocks, stores.Known block)
    (hsorted : blocks.Pairwise fun left right => stores.blockKey left < stores.blockKey right) :
    blocks.Pairwise fun left right => later.blockKey left < later.blockKey right :=
  hsorted.imp_of_mem fun hleft hright hlt => by
    rwa [hextension.blockKey (hknown _ hleft), hextension.blockKey (hknown _ hright)]

end Stores.Extension

section Extend

variable {later : Stores Hash} {block : Hash} {data : GhostdagData Hash}

section

variable (hblock : OrderedBlock manager stores block data)
  (hclosed : Dag.Closed stores.relations.lookup) (hknown : stores.Known block)

include hblock hclosed hknown

theorem OrderedBlock.known_mergeset :
    ∀ x ∈ data.mergesetBlues ++ data.mergesetReds, stores.Known x := fun x hx =>
  hclosed.known_of_inPast ((hblock.mem_mergeset x).mp hx).1.inPast hknown

theorem OrderedBlock.extend (hextension : stores.Extension later) :
    OrderedBlock manager later block data := by
  have hmergeset := hblock.known_mergeset hclosed hknown
  have hselected := hclosed _ _ hblock.selectedParent_parent
  exact {
    parent_ne_origin := fun parent hparent =>
      hblock.parent_ne_origin parent ((hextension.parentOf_iff hknown).mp hparent)
    selectedParent_parent := (hextension.parentOf_iff hknown).mpr hblock.selectedParent_parent
    selectedParent_max := by
      intro parent hparent
      have hparent := (hextension.parentOf_iff hknown).mp hparent
      rw [hextension.blockKey (hclosed _ _ hparent), hextension.blockKey hselected]
      exact hblock.selectedParent_max parent hparent
    blues_head := hblock.blues_head
    nodup := hblock.nodup
    mem_mergeset := by
      intro x
      rw [hblock.mem_mergeset, hextension.inStrictPast_iff hclosed hknown,
        hextension.inStrictPast_iff hclosed hselected]
    blues_sorted := hextension.sorted
      (fun x hx => hmergeset x (mem_append_left _ (mem_of_mem_drop hx)))
      hblock.blues_sorted
    reds_sorted := hextension.sorted (fun x hx => hmergeset x (mem_append_right _ hx))
      hblock.reds_sorted
    work_lt := by
      rw [hextension.workOf hselected]
      exact hblock.work_lt
    score_eq := by
      rw [hextension.scoreOf hselected]
      exact hblock.score_eq }

end

variable {hash : Hash} {parents : List Hash} {target : Nat} {isDagAncestorOf : Hash → Hash → Bool}

theorem commit_extension (hfresh : ¬ stores.Known hash) :
    stores.Extension (stores.commit hash parents target data isDagAncestorOf) := by
  have hne : ∀ y, stores.Known y → y ≠ hash := fun y hknown heq => hfresh (heq ▸ hknown)
  exact ⟨fun y hknown => AList.lookup_insert_ne (hne y hknown),
    fun y hknown => AList.lookup_insert_ne (hne y hknown),
    fun y hknown => Function.update_of_ne (hne y hknown) _ _⟩

end Extend

end Qaspa.Ghostdag
