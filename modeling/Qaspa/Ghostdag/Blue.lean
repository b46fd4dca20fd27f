import Qaspa.Ghostdag.Mergeset
import Qaspa.Lib.Cluster

/-! # Blue sets and recorded anticone sizes

The blue set of a block is the union of the blues along its selected chain. The size
of a blue anticone is recorded wherever it changes; reading it means walking down the
chain to the first record.
-/

namespace Qaspa.Ghostdag

open Dag Outcome

variable {Hash : Type} [LinearOrder Hash] {manager : GhostdagManager Hash}
  {stores later : Stores Hash} {data next : GhostdagData Hash} {block chainBlock : Hash}

/-- A block is among the blues of some data or of the chain below it. The chain ends
at the genesis block. -/
inductive BlueIn (manager : GhostdagManager Hash) (stores : Stores Hash) (block : Hash) :
    GhostdagData Hash → Prop
  | own {data : GhostdagData Hash} (hmem : block ∈ data.mergesetBlues) :
      BlueIn manager stores block data
  | chain {data next : GhostdagData Hash} (hne : data.selectedParent ≠ manager.origin)
      (hnext : stores.ghostdag.lookup data.selectedParent = some next)
      (hblue : BlueIn manager stores block next) : BlueIn manager stores block data

def blueSet (manager : GhostdagManager Hash) (stores : Stores Hash) (data : GhostdagData Hash) :
    Set Hash := {block | BlueIn manager stores block data}

theorem mem_blueSet : block ∈ blueSet manager stores data ↔ block ∈ data.mergesetBlues ∨
    data.selectedParent ≠ manager.origin ∧ ∃ next,
      stores.ghostdag.lookup data.selectedParent = some next ∧
        block ∈ blueSet manager stores next := by
  constructor
  · intro hblue
    cases hblue with
    | own hmem => exact .inl hmem
    | chain hne hnext hblue => exact .inr ⟨hne, _, hnext, hblue⟩
  · rintro (hmem | ⟨hne, _, hnext, hblue⟩)
    · exact .own hmem
    · exact .chain hne hnext hblue

/-- The first record of the size of a block on the way down the chain. -/
inductive SizeAt (manager : GhostdagManager Hash) (stores : Stores Hash) (block : Hash) :
    GhostdagData Hash → Nat → Prop
  | found {data : GhostdagData Hash} {size : Nat}
      (hsize : data.bluesAnticoneSizes.lookup block = some size) :
      SizeAt manager stores block data size
  | chain {data next : GhostdagData Hash} {size : Nat}
      (hnone : data.bluesAnticoneSizes.lookup block = none)
      (hgenesis : data.selectedParent ≠ manager.genesisHash)
      (horigin : data.selectedParent ≠ manager.origin)
      (hnext : stores.ghostdag.lookup data.selectedParent = some next)
      (hsize : SizeAt manager stores block next size) : SizeAt manager stores block data size

/-! ## Walking down the chain -/

theorem scoreOf_eq (hdata : stores.ghostdag.lookup block = some data) :
    stores.scoreOf block = data.blueScore := by
  rw [Stores.scoreOf, hdata]
  rfl

/-- The score drops at every step of the chain above the genesis block. -/
theorem Ordered.scoreOf_selectedParent_lt (hordered : Ordered manager stores)
    (horigin : block ≠ manager.origin) (hgenesis : block ≠ manager.genesisHash)
    (hdata : stores.ghostdag.lookup block = some data) :
    stores.scoreOf data.selectedParent < stores.scoreOf block := by
  have hblock := hordered.block block data horigin hgenesis hdata
  have hpos : 0 < data.mergesetBlues.length :=
    List.length_pos_of_mem (List.mem_of_head? hblock.blues_head)
  rw [scoreOf_eq hdata, hblock.score_eq]
  omega

/-- The walk finds the record within its budget. -/
theorem blueAnticoneSize_eq_ok (hordered : Ordered manager stores) {size : Nat}
    (hsize : SizeAt manager stores block data size) :
    manager.blueAnticoneSize stores block data = .ok size := by
  have hwalk : ∀ fuel, stores.scoreOf data.selectedParent + 2 ≤ fuel →
      manager.blueAnticoneSizeFrom stores block fuel data.bluesAnticoneSizes
        data.selectedParent = .ok size := by
    induction hsize with
    | found hsize =>
      rintro (_ | fuel) hfuel
      · omega
      · simp only [GhostdagManager.blueAnticoneSizeFrom, hsize]
    | @chain data next size hnone hgenesis horigin hnext hsize ih =>
      rintro (_ | fuel) hfuel
      · omega
      · have hlt := hordered.scoreOf_selectedParent_lt horigin hgenesis hnext
        have hrest := ih fuel (by omega)
        simpa only [GhostdagManager.blueAnticoneSizeFrom, hnone, hgenesis, horigin, or_self,
          if_false, Stores.getData, hnext, unwrap, ok_bind] using hrest
  exact hwalk _ le_rfl

/-- Nothing is blue for the genesis block. -/
theorem not_blueIn_genesis : ¬ BlueIn manager stores block manager.genesisGhostdagData := by
  intro hblue
  cases hblue with
  | own hmem => cases hmem
  | chain hne _ _ => exact hne rfl

/-- Blue blocks are in the past. -/
theorem BlueIn.inStrictPast (hordered : Ordered manager stores)
    (hblue : BlueIn manager stores block data) (hne : chainBlock ≠ manager.origin)
    (hdata : stores.ghostdag.lookup chainBlock = some data) :
    stores.InStrictPast block chainBlock := by
  induction hblue generalizing chainBlock with
  | @own data hmem =>
    have hgenesis : chainBlock ≠ manager.genesisHash := by
      rintro rfl
      cases hordered.genesis_data.symm.trans hdata
      cases hmem
    exact (((hordered.block _ _ hne hgenesis hdata).mem_mergeset block).mp
      (List.mem_append_left _ hmem)).1
  | @chain data next hparent hnext _ ih =>
    have hgenesis : chainBlock ≠ manager.genesisHash := by
      rintro rfl
      cases hordered.genesis_data.symm.trans hdata
      exact hparent rfl
    have hblock := hordered.block _ _ hne hgenesis hdata
    exact (ih hparent hnext).trans_inPast
      (InStrictPast.of_parentOf hblock.selectedParent_parent).inPast

end Qaspa.Ghostdag
