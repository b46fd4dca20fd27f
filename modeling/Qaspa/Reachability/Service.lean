import Qaspa.Lib.Chain
import Qaspa.Lib.Outcome

/-! # The reachability service

The service answers queries over the selected-parent tree. A chain is walked down by
the parents of the tree, and up by asking for the next block towards a descendant.
-/

namespace Qaspa.Reachability

open Chain

/-- The queries of the service. The origin is the root of the tree. -/
structure ReachabilityService (Hash : Type) where
  origin : Hash
  getChainParent : Hash → Option Hash
  isChainAncestorOf : Hash → Hash → Bool
  getNextChainAncestor : Hash → Hash → Option Hash

namespace ReachabilityService

variable {Hash : Type}

abbrev ChainAncestor (service : ReachabilityService Hash) : Hash → Hash → Prop :=
  Ancestor service.getChainParent

/-- The service answers correctly for the blocks above a given one, and the tree has no
cycles: the rank of a block grows from its parent. -/
structure ChainCorrect (service : ReachabilityService Hash) (root : Hash) (rank : Hash → Nat) :
    Prop where
  rank_lt : ∀ x y, service.getChainParent y = some x → rank x < rank y
  root_parent : service.getChainParent root = some service.origin
  isChainAncestorOf_iff : ∀ x y, service.ChainAncestor root x → service.ChainAncestor root y →
    (service.isChainAncestorOf x y = true ↔ service.ChainAncestor x y)
  getNextChainAncestor_eq : ∀ x y, service.ChainAncestor root x → service.ChainAncestor x y →
    x ≠ y → ∃ next, service.getNextChainAncestor y x = some next ∧
      service.getChainParent next = some x ∧ service.ChainAncestor next y

namespace ChainCorrect

variable {service : ReachabilityService Hash} {root : Hash} {rank : Hash → Nat} {x : Hash}

/-- No block is the origin. -/
theorem ne_origin (hcorrect : service.ChainCorrect root rank)
    (hx : service.ChainAncestor root x) : x ≠ service.origin := by
  rintro rfl
  exact not_ancestor_parent hcorrect.rank_lt hcorrect.root_parent hx

/-- Every block has a parent in the tree. -/
theorem exists_parent (hcorrect : service.ChainCorrect root rank)
    (hx : service.ChainAncestor root x) :
    ∃ parent, service.getChainParent x = some parent ∧
      (x ≠ root → service.ChainAncestor root parent) := by
  by_cases hroot : root = x
  · subst hroot
    exact ⟨_, hcorrect.root_parent, fun hne => absurd rfl hne⟩
  · obtain ⟨parent, hparent, hbelow⟩ := hx.exists_parent hroot
    exact ⟨parent, hparent, fun _ => hbelow⟩

end ChainCorrect

/-! ## Walking the tree -/

variable [DecidableEq Hash]

/-- The service that walks the parents of the tree. -/
def walking (origin : Hash) (parent : Hash → Option Hash) (rank : Hash → Nat) :
    ReachabilityService Hash where
  origin := origin
  getChainParent := parent
  isChainAncestorOf x y := reaches parent (rank y) x y
  getNextChainAncestor descendant ancestor :=
    lastBefore parent (rank descendant) ancestor descendant

theorem walking_correct {origin root : Hash} {parent : Hash → Option Hash} {rank : Hash → Nat}
    (hrank : ∀ x y, parent y = some x → rank x < rank y) (hroot : parent root = some origin) :
    (walking origin parent rank).ChainCorrect root rank where
  rank_lt := hrank
  root_parent := hroot
  isChainAncestorOf_iff _ _ _ _ := reaches_iff hrank le_rfl
  getNextChainAncestor_eq _ _ _ hancestor hne := lastBefore_eq_some hrank hancestor hne le_rfl

/-! A fork on top of the origin `0` and the root `1`: the blocks `2` and `3` are children of the
root, and block `4` is a child of block `3`. -/

def fork : ReachabilityService Nat :=
  .walking 0 (fun block => if block = 1 then some 0 else if block = 2 ∨ block = 3 then some 1
    else if block = 4 then some 3 else none) id

theorem fork_parent {x y : Nat} (hparent : fork.getChainParent y = some x) :
    y = 1 ∧ x = 0 ∨ (y = 2 ∨ y = 3) ∧ x = 1 ∨ y = 4 ∧ x = 3 := by
  simp only [fork, walking] at hparent
  split_ifs at hparent with hone hfork hlast <;> cases hparent
  · exact .inl ⟨hone, rfl⟩
  · exact .inr (.inl ⟨hfork, rfl⟩)
  · exact .inr (.inr ⟨hlast, rfl⟩)

theorem fork_rank_lt (x y : Nat) (hparent : fork.getChainParent y = some x) : x < y := by
  have hcases := fork_parent hparent
  omega

theorem fork_correct : fork.ChainCorrect 1 id := walking_correct fork_rank_lt rfl

end ReachabilityService

end Qaspa.Reachability
