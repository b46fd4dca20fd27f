import Mathlib.Data.List.Pairwise
import Mathlib.Data.List.Perm.Subperm

/-! # Growing directed acyclic graphs

A graph is given by the parents of its known nodes. Nodes are added one at a
time, each below the known nodes it names as parents, so the past of a node never
changes once it is known. Nothing here depends on what the nodes are.
-/

namespace Qaspa.Dag

open Relation.TransGen

variable {α : Type}

/-- A node is among the parents of another one. -/
def ParentOf (parents : α → Option (List α)) (x y : α) : Prop :=
  ∃ list, parents y = some list ∧ x ∈ list

/-- Reachability over parent edges, a node reaching itself. -/
def InPast (parents : α → Option (List α)) : α → α → Prop :=
  Relation.ReflTransGen (ParentOf parents)

/-- Reachability over at least one parent edge. -/
def InStrictPast (parents : α → Option (List α)) : α → α → Prop :=
  Relation.TransGen (ParentOf parents)

variable {parents extended : α → Option (List α)} {x y z : α}

theorem InPast.refl (x : α) : InPast parents x x := Relation.ReflTransGen.refl

theorem InPast.trans (hxy : InPast parents x y) (hyz : InPast parents y z) :
    InPast parents x z := Relation.ReflTransGen.trans hxy hyz

theorem InStrictPast.inPast (hpast : InStrictPast parents x y) : InPast parents x y :=
  to_reflTransGen hpast

theorem inPast_iff : InPast parents x y ↔ x = y ∨ InStrictPast parents x y := by
  rw [InPast, Relation.reflTransGen_iff_eq_or_transGen, eq_comm]
  rfl

theorem inStrictPast_iff :
    InStrictPast parents x y ↔ ∃ parent, ParentOf parents parent y ∧ InPast parents x parent := by
  rw [InStrictPast, tail'_iff]
  exact exists_congr fun parent => and_comm

theorem InStrictPast.of_parentOf (hparent : ParentOf parents x y) : InStrictPast parents x y :=
  single hparent

theorem InStrictPast.trans_inPast (hxy : InStrictPast parents x y) (hyz : InPast parents y z) :
    InStrictPast parents x z := trans_left hxy hyz

/-! ## Antichains -/

/-- Neither node reaches the other. -/
def Unrelated (parents : α → Option (List α)) (x y : α) : Prop :=
  ¬ InPast parents x y ∧ ¬ InPast parents y x

/-- No node of a list reaches another one. -/
def Antichain (parents : α → Option (List α)) (nodes : List α) : Prop :=
  nodes.Pairwise (Unrelated parents)

theorem Unrelated.symm (hxy : Unrelated parents x y) : Unrelated parents y x := And.symm hxy

instance : Std.Symm (Unrelated parents) := ⟨fun _ _ hxy => hxy.symm⟩

theorem Antichain.perm {nodes other : List α} (hnodes : Antichain parents nodes)
    (hperm : nodes.Perm other) : Antichain parents other :=
  (hperm.pairwise_iff Unrelated.symm).mp hnodes

theorem antichain_cons {nodes : List α} :
    Antichain parents (x :: nodes) ↔
      (∀ node ∈ nodes, Unrelated parents x node) ∧ Antichain parents nodes :=
  List.pairwise_cons

/-! ## Adding a node -/

/-- Every parent of a known node is known. -/
def Closed (parents : α → Option (List α)) : Prop :=
  ∀ x y, ParentOf parents x y → (parents x).isSome

/-- The known nodes keep their parents. -/
def Extends (parents extended : α → Option (List α)) : Prop :=
  ∀ y, (parents y).isSome → extended y = parents y

theorem Closed.known_of_inPast (hclosed : Closed parents) (hpast : InPast parents x y)
    (hknown : (parents y).isSome) : (parents x).isSome := by
  rcases inPast_iff.mp hpast with rfl | hstrict
  · exact hknown
  · obtain ⟨parent, hparent, _⟩ := head'_iff.mp hstrict
    exact hclosed x parent hparent

variable (hclosed : Closed parents) (hextends : Extends parents extended)

include hextends in
theorem Extends.parentOf_iff (hknown : (parents y).isSome) :
    ParentOf extended x y ↔ ParentOf parents x y := by
  rw [ParentOf, ParentOf, hextends y hknown]

include hclosed hextends

/-- The past of a known node does not change. -/
theorem Extends.inPast_iff (hknown : (parents y).isSome) :
    InPast extended x y ↔ InPast parents x y := by
  constructor
  · intro hpast
    induction hpast with
    | refl => exact .refl x
    | tail _ hedge ih =>
      have hedge := (hextends.parentOf_iff hknown).mp hedge
      exact (ih (hclosed _ _ hedge)).tail hedge
  · intro hpast
    induction hpast with
    | refl => exact .refl x
    | tail _ hedge ih =>
      exact (ih (hclosed _ _ hedge)).tail ((hextends.parentOf_iff hknown).mpr hedge)

theorem Extends.inStrictPast_iff (hknown : (parents y).isSome) :
    InStrictPast extended x y ↔ InStrictPast parents x y := by
  rw [Dag.inStrictPast_iff, Dag.inStrictPast_iff]
  refine exists_congr fun parent => ?_
  rw [hextends.parentOf_iff hknown]
  refine and_congr_right fun hparent => ?_
  exact hextends.inPast_iff hclosed (hclosed parent y hparent)

end Qaspa.Dag
