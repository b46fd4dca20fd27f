import Mathlib.Data.Set.Card
import Qaspa.Lib.Dag

/-! # Anticones and clusters

Two nodes are in each other's anticone when neither reaches the other. In a
`k`-cluster every node has at most `k` nodes of the cluster in its anticone. A
cluster grows one node at a time, and a new node changes the anticones of exactly
the nodes that it is in the anticone of.
-/

namespace Qaspa.Dag

variable {α : Type} {parents : α → Option (List α)} {x y node : α} {nodes : Set α} {k : Nat}

def Anticone (parents : α → Option (List α)) (x y : α) : Prop :=
  ¬ InPast parents x y ∧ ¬ InPast parents y x

/-- The nodes of a set that are in the anticone of a node. -/
def anticoneIn (parents : α → Option (List α)) (nodes : Set α) (x : α) : Set α :=
  {y | y ∈ nodes ∧ Anticone parents y x}

def IsCluster (parents : α → Option (List α)) (k : Nat) (nodes : Set α) : Prop :=
  ∀ x ∈ nodes, (anticoneIn parents nodes x).encard ≤ k

theorem not_anticone_self : ¬ Anticone parents x x := fun hanticone => hanticone.1 (.refl x)

theorem anticoneIn_insert (hanticone : Anticone parents node x) :
    anticoneIn parents (insert node nodes) x = insert node (anticoneIn parents nodes x) := by
  ext y
  constructor
  · rintro ⟨rfl | hmem, hy⟩
    · exact .inl rfl
    · exact .inr ⟨hmem, hy⟩
  · rintro (rfl | ⟨hmem, hy⟩)
    · exact ⟨.inl rfl, hanticone⟩
    · exact ⟨.inr hmem, hy⟩

theorem anticoneIn_insert_of_not (hrelated : ¬ Anticone parents node x) :
    anticoneIn parents (insert node nodes) x = anticoneIn parents nodes x := by
  ext y
  constructor
  · rintro ⟨rfl | hmem, hy⟩
    · exact absurd hy hrelated
    · exact ⟨hmem, hy⟩
  · exact fun ⟨hmem, hy⟩ => ⟨.inr hmem, hy⟩

/-- The anticone of a node among nodes of its past is empty. -/
theorem anticoneIn_eq_empty (hpast : ∀ y ∈ nodes, InPast parents y x) :
    anticoneIn parents nodes x = ∅ := by
  ext y
  exact ⟨fun ⟨hmem, hy⟩ => hy.1 (hpast y hmem), fun hmem => absurd hmem (Set.notMem_empty y)⟩

end Qaspa.Dag
