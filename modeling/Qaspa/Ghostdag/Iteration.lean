import Qaspa.Ghostdag.Mergeset

/-! # Iterating a mergeset

A mergeset is stored as blues and reds. Both lists are sorted and they are disjoint,
so the merging iterators never meet two equal blocks: ascending order lists the
mergeset by key, descending order is its reverse, and the consensus order puts every
block behind its ancestors.
-/

namespace Qaspa.Ghostdag

open Dag Outcome List GhostdagData Stores

/-! ## Merging sorted lists -/

section Merge

variable {α : Type} (r : α → α → Prop) (order : α → α → Ordering)

/-- Merging two sorted lists without a common element sorts their union. -/
theorem mergeJoinBy_eq_ok (htrans : ∀ {a b c}, r a b → r b c → r a c)
    (hlt : ∀ {a b}, order a b = .lt → r a b) (hgt : ∀ {a b}, order a b = .gt → r b a)
    (heq : ∀ {a b}, order a b = .eq → a = b) {left right : List α} (hleft : left.Pairwise r)
    (hright : right.Pairwise r) (hdisjoint : left.Disjoint right) :
    ∃ merged, mergeJoinBy order left right = .ok merged ∧ merged.Perm (left ++ right) ∧
      merged.Pairwise r := by
  -- the heads are compared, and the lesser one precedes all that is merged after it
  fun_induction mergeJoinBy order left right with
  | case1 right => exact ⟨right, rfl, .refl _, hright⟩
  | case2 left => exact ⟨left, rfl, by simp, hleft⟩
  | case3 a left b right hcompare ih =>
    obtain ⟨hhead, htail⟩ := pairwise_cons.mp hleft
    obtain ⟨merged, hmerged, hperm, hsorted⟩ :=
      ih htail hright (disjoint_of_disjoint_cons_left hdisjoint)
    refine ⟨a :: merged, by rw [hmerged]; rfl, hperm.cons a, ?_⟩
    refine pairwise_cons.mpr ⟨fun x hx => ?_, hsorted⟩
    rcases mem_append.mp (hperm.subset hx) with hmem | hmem
    · exact hhead x hmem
    · rcases mem_cons.mp hmem with rfl | hmem
      · exact hlt hcompare
      · exact htrans (hlt hcompare) ((pairwise_cons.mp hright).1 x hmem)
  | case4 a left b right hcompare ih =>
    obtain ⟨hhead, htail⟩ := pairwise_cons.mp hright
    obtain ⟨merged, hmerged, hperm, hsorted⟩ :=
      ih hleft htail (disjoint_of_disjoint_cons_right hdisjoint)
    refine ⟨b :: merged, by rw [hmerged]; rfl, (hperm.cons b).trans perm_middle.symm, ?_⟩
    refine pairwise_cons.mpr ⟨fun x hx => ?_, hsorted⟩
    rcases mem_append.mp (hperm.subset hx) with hmem | hmem
    · rcases mem_cons.mp hmem with rfl | hmem
      · exact hgt hcompare
      · exact htrans (hgt hcompare) ((pairwise_cons.mp hleft).1 x hmem)
    · exact hhead x hmem
  | case5 a left b right hcompare =>
    obtain rfl := heq hcompare
    exact absurd (.head _ ..) (hdisjoint (.head _ ..))

end Merge

/-! ## The iterators -/

variable {Hash : Type} [LinearOrder Hash] {manager : GhostdagManager Hash}
  {stores : Stores Hash} {block : Hash} {data : GhostdagData Hash}

/-- The mergeset behind the selected parent. -/
def GhostdagData.rest (data : GhostdagData Hash) : List Hash :=
  data.mergesetBlues.drop 1 ++ data.mergesetReds

namespace OrderedBlock

variable (hblock : OrderedBlock manager stores block data)

include hblock

theorem blues_eq : data.mergesetBlues = data.selectedParent :: data.mergesetBlues.drop 1 := by
  have hhead := hblock.blues_head
  cases hblues : data.mergesetBlues with
  | nil => simp [hblues] at hhead
  | cons first blues =>
    rw [hblues] at hhead
    simp [← Option.some.inj hhead]

theorem mergeset_eq :
    data.mergesetBlues ++ data.mergesetReds = data.selectedParent :: data.rest := by
  rw [rest, ← cons_append, ← hblock.blues_eq]

theorem nodup_rest : data.rest.Nodup := by
  have hnodup := hblock.nodup
  rw [hblock.mergeset_eq] at hnodup
  exact (nodup_cons.mp hnodup).2

theorem mem_mergeset_of_mem_rest {x : Hash} (hx : x ∈ data.rest) :
    x ∈ data.mergesetBlues ++ data.mergesetReds := by
  rw [hblock.mergeset_eq]
  exact .tail _ hx

/-- A block of the mergeset is not in the past of the selected parent. -/
theorem not_inPast_selectedParent {x : Hash} (hx : x ∈ data.rest) :
    ¬ stores.InPast x data.selectedParent := by
  intro hpast
  rcases inPast_iff.mp hpast with rfl | hstrict
  · have hnodup := hblock.nodup
    rw [hblock.mergeset_eq] at hnodup
    exact (nodup_cons.mp hnodup).1 hx
  · exact ((hblock.mem_mergeset x).mp (hblock.mem_mergeset_of_mem_rest hx)).2 hstrict

theorem disjoint_keys : ((data.mergesetBlues.drop 1).map stores.blockKey).Disjoint
    (data.mergesetReds.map stores.blockKey) :=
  disjoint_map stores.blockKey_injective (disjoint_of_nodup_append hblock.nodup_rest)

theorem blues_keys_sorted : ((data.mergesetBlues.drop 1).map stores.blockKey).Pairwise (· < ·) :=
  pairwise_map.mpr hblock.blues_sorted

theorem reds_keys_sorted : (data.mergesetReds.map stores.blockKey).Pairwise (· < ·) :=
  pairwise_map.mpr hblock.reds_sorted

/-- The ascending iterator lists the mergeset by key. -/
theorem ascending_eq_ok (hdata : ∀ x ∈ data.rest, (stores.ghostdag.lookup x).isSome) :
    ∃ ascending, data.ascendingMergesetWithoutSelectedParent stores = .ok ascending ∧
      ascending.Perm (data.rest.map stores.blockKey) ∧ ascending.Pairwise (· < ·) := by
  obtain ⟨hblues, hreds⟩ := forall_mem_append.mp hdata
  rw [ascendingMergesetWithoutSelectedParent, mapM_sortable_eq_ok hblues,
    mapM_sortable_eq_ok hreds, rest, map_append]
  exact mergeJoinBy_eq_ok (· < ·) compare lt_trans compare_lt_iff_lt.mp compare_gt_iff_gt.mp
    compare_eq_iff_eq.mp hblock.blues_keys_sorted hblock.reds_keys_sorted hblock.disjoint_keys

/-- The descending iterator reverses the ascending one. -/
theorem descending_eq_ok (hdata : ∀ x ∈ data.rest, (stores.ghostdag.lookup x).isSome)
    {ascending : List (SortableBlock Hash)}
    (hperm : ascending.Perm (data.rest.map stores.blockKey))
    (hsorted : ascending.Pairwise (· < ·)) :
    data.descendingMergesetWithoutSelectedParent stores = .ok ascending.reverse := by
  obtain ⟨hblues, hreds⟩ := forall_mem_append.mp hdata
  obtain ⟨merged, hmerged, hmergedPerm, hmergedSorted⟩ :=
    mergeJoinBy_eq_ok (· > ·) (fun a b => compare b a)
      (fun hab hbc => lt_trans hbc hab) compare_lt_iff_lt.mp compare_gt_iff_gt.mp
      (fun hcompare => (compare_eq_iff_eq.mp hcompare).symm)
      (pairwise_reverse.mpr hblock.blues_keys_sorted)
      (pairwise_reverse.mpr hblock.reds_keys_sorted)
      (fun x hleft hright => hblock.disjoint_keys (mem_reverse.mp hleft)
        (mem_reverse.mp hright))
  have hsame : merged.Perm ascending.reverse :=
    calc merged.Perm _ := hmergedPerm
      _ |>.Perm _ := (reverse_perm _).append (reverse_perm _)
      _ |>.Perm ascending.reverse := by
        rw [← map_append]
        exact hperm.symm.trans (reverse_perm _).symm
  have hequal : merged = ascending.reverse :=
    hsame.eq_of_pairwise (fun a b _ _ hab hba => absurd hab (lt_asymm hba)) hmergedSorted
      (pairwise_reverse.mpr hsorted)
  rw [descendingMergesetWithoutSelectedParent,
    mapM_sortable_eq_ok fun x hx => hblues x (mem_reverse.mp hx),
    mapM_sortable_eq_ok fun x hx => hreds x (mem_reverse.mp hx), ok_bind, ok_bind,
    map_reverse, map_reverse, hmerged, hequal]

end OrderedBlock

/-! ## The consensus order -/

section Consensus

variable (hordered : Ordered manager stores) (hblock : OrderedBlock manager stores block data)

include hordered hblock

theorem known_rest (hknown : stores.Known block) :
    ∀ x ∈ data.rest, (stores.ghostdag.lookup x).isSome := by
  intro x hx
  exact (hordered.data_known x).mpr
    (hblock.known_mergeset hordered.closed hknown x (hblock.mem_mergeset_of_mem_rest hx))

/-- The origin is in the past of the selected parent, and so in no mergeset. -/
theorem ne_origin_of_mem_rest {x : Hash} (hx : x ∈ data.rest) : x ≠ manager.origin := by
  rintro rfl
  have hmem := hblock.mem_mergeset_of_mem_rest hx
  have hgenesis := hordered.genesis_inPast
    (hblock.parent_ne_origin _ hblock.selectedParent_parent) (hordered.known_selectedParent hblock)
  refine ((hblock.mem_mergeset _).mp hmem).2 (InStrictPast.trans_inPast ?_ hgenesis)
  exact .of_parentOf ⟨_, hordered.genesis_parents, mem_singleton_self _⟩

end Consensus

/-- What the data of a block says about its mergeset: blues and reds list the part of
the past of the block that is not in the past of the selected parent, and the
iterators go through it in the order of the DAG. -/
structure MergesetCorrect (stores : Stores Hash) (block : Hash) (data : GhostdagData Hash) :
    Prop where
  selectedParent_mem : data.selectedParent ∈ data.mergesetBlues
  nodup : (data.mergesetBlues ++ data.mergesetReds).Nodup
  mem_iff : ∀ x, x ∈ data.mergesetBlues ++ data.mergesetReds ↔
    stores.InStrictPast x block ∧ ¬ stores.InStrictPast x data.selectedParent
  work_lt : ∀ parent, stores.ParentOf parent block → ∃ parentData,
    stores.ghostdag.lookup parent = some parentData ∧ parentData.blueWork < data.blueWork
  iterators : ∃ ascending order,
    data.ascendingMergesetWithoutSelectedParent stores = .ok ascending ∧
    data.descendingMergesetWithoutSelectedParent stores = .ok ascending.reverse ∧
    order = ascending.map SortableBlock.hash ∧
    data.consensusOrderedMergeset stores = .ok (data.selectedParent :: order) ∧
    (data.selectedParent :: order).Perm (data.mergesetBlues ++ data.mergesetReds) ∧
    ((data.selectedParent :: order).Pairwise fun earlier later => ¬ stores.InPast later earlier) ∧
    order.Pairwise fun left right => stores.blockKey left < stores.blockKey right

/-- The iterators of an ordered block go through the rest of its mergeset by ascending keys. -/
theorem OrderedBlock.iterators (hordered : Ordered manager stores)
    (hblock : OrderedBlock manager stores block data) (hknown : stores.Known block) :
    ∃ ascending, data.ascendingMergesetWithoutSelectedParent stores = .ok ascending ∧
      data.descendingMergesetWithoutSelectedParent stores = .ok ascending.reverse ∧
      (ascending.map SortableBlock.hash).Perm data.rest ∧
      (ascending.map SortableBlock.hash).Pairwise fun left right =>
        stores.blockKey left < stores.blockKey right := by
  have hdata := known_rest hordered hblock hknown
  obtain ⟨ascending, hascending, hperm, hsorted⟩ := hblock.ascending_eq_ok hdata
  exact ⟨ascending, hascending, hblock.descending_eq_ok hdata hperm hsorted,
    hashes_of_sorted hperm hsorted⟩

/-- Every block whose data GHOSTDAG computed has a correct mergeset. -/
theorem mergesetCorrect_of_built {maxBlockParents : Nat}
    (hbuilt : Built manager maxBlockParents stores)
    (hdata : stores.ghostdag.lookup block = some data) (horigin : block ≠ manager.origin)
    (hgenesis : block ≠ manager.genesisHash) : MergesetCorrect stores block data := by
  have hordered := hbuilt.ordered
  have hknown := hordered.known_of_lookup hdata
  have hblock := hordered.block block data horigin hgenesis hdata
  obtain ⟨ascending, hascending, hdescending, horder, hkeys⟩ := hblock.iterators hordered hknown
  refine ⟨List.mem_of_head? hblock.blues_head, hblock.nodup, hblock.mem_mergeset, ?_, ascending, _,
    hascending, hdescending, rfl, ?_, ?_, ?_, hkeys⟩
  · intro parent hparent
    obtain ⟨parentData, hparentData⟩ := hordered.exists_data (hordered.closed _ _ hparent)
    have hlt := hordered.work_lt_of_parentOf (hblock.parent_ne_origin parent hparent) hparent
    simp only [Stores.workOf, hparentData, hdata] at hlt
    exact ⟨parentData, hparentData, hlt⟩
  · rw [GhostdagData.consensusOrderedMergeset, hascending]
    rfl
  · rw [hblock.mergeset_eq]
    exact horder.cons _
  · refine List.pairwise_cons.mpr
      ⟨fun x hx => hblock.not_inPast_selectedParent (horder.subset hx), ?_⟩
    exact hordered.topological_of_sorted
      (fun x hx => ne_origin_of_mem_rest hordered hblock (horder.subset hx)) hkeys

theorem mergesetCorrect_diamond :
    Built sampleManager 10 sampleStores ∧ MergesetCorrect sampleStores 4 sampleMerge :=
  ⟨built_sampleStores, mergesetCorrect_of_built built_sampleStores rfl (by decide) (by decide)⟩

end Qaspa.Ghostdag
