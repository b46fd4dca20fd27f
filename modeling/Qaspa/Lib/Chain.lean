import Mathlib.Order.Nat
import Mathlib.Tactic.Common

/-! # Chains of parent pointers

A forest given by the parent of every node. The ancestors of a node form a chain, so
two ancestors of one node are comparable, and the way between two nodes leads down to
a common ancestor and up again. A rank that grows from parent to child rules out
cycles and bounds every walk.
-/

namespace Qaspa.Chain

open List Relation.ReflTransGen

variable {α : Type}

/-- Reachability over parent pointers, a node being its own ancestor. -/
def Ancestor (parent : α → Option α) : α → α → Prop :=
  Relation.ReflTransGen fun x y => parent y = some x

variable {parent : α → Option α} {x y z : α}

theorem Ancestor.refl (x : α) : Ancestor parent x x := Relation.ReflTransGen.refl

theorem Ancestor.of_parent (hparent : parent y = some x) : Ancestor parent x y :=
  single hparent

theorem Ancestor.trans (hxy : Ancestor parent x y) (hyz : Ancestor parent y z) :
    Ancestor parent x z := Relation.ReflTransGen.trans hxy hyz

/-- The last step up to a node leads through its parent. -/
theorem ancestor_iff_of_parent {p : α} (hparent : parent y = some p) :
    Ancestor parent x y ↔ x = y ∨ Ancestor parent x p := by
  constructor
  · intro hancestor
    rcases cases_tail hancestor with rfl | ⟨middle, hmiddle, hstep⟩
    · exact .inl rfl
    · cases hparent.symm.trans hstep
      exact .inr hmiddle
  · rintro (rfl | hancestor)
    · exact .refl x
    · exact hancestor.trans (.of_parent hparent)

/-- The ancestors of a node are comparable. -/
theorem Ancestor.total (hx : Ancestor parent x z) (hy : Ancestor parent y z) :
    Ancestor parent x y ∨ Ancestor parent y x := by
  induction hx with
  | refl => exact .inr hy
  | @tail middle last _ hstep ih =>
    rcases (ancestor_iff_of_parent hstep).mp hy with rfl | hbelow
    · exact .inl (tail ‹_› hstep)
    · exact ih hbelow

/-- A node has a parent unless nothing else is an ancestor. -/
theorem Ancestor.exists_parent (hancestor : Ancestor parent x y) (hne : x ≠ y) :
    ∃ p, parent y = some p ∧ Ancestor parent x p := by
  rcases cases_tail hancestor with heq | ⟨p, hp, hstep⟩
  · exact absurd heq.symm hne
  · exact ⟨p, hstep, hp⟩

section Rank

variable {rank : α → Nat} (hrank : ∀ x y, parent y = some x → rank x < rank y)

include hrank

theorem Ancestor.rank_le (hancestor : Ancestor parent x y) : rank x ≤ rank y := by
  induction hancestor with
  | refl => exact le_rfl
  | tail _ hstep ih => exact ih.trans (hrank _ _ hstep).le

theorem Ancestor.rank_lt (hancestor : Ancestor parent x y) (hne : x ≠ y) : rank x < rank y := by
  obtain ⟨p, hp, hbelow⟩ := hancestor.exists_parent hne
  exact (hbelow.rank_le hrank).trans_lt (hrank _ _ hp)

theorem Ancestor.antisymm (hxy : Ancestor parent x y) (hyx : Ancestor parent y x) : x = y := by
  by_contra hne
  exact absurd (hxy.rank_lt hrank hne) (hyx.rank_le hrank).not_gt

/-- A parent is no descendant of its child. -/
theorem not_ancestor_parent (hparent : parent y = some x) : ¬ Ancestor parent y x := by
  intro hancestor
  exact absurd (hrank x y hparent) (hancestor.rank_le hrank).not_gt

/-! ## Walking the pointers -/

/-- Look for an ancestor, step by step. -/
def reaches [DecidableEq α] (parent : α → Option α) : Nat → α → α → Bool
  | 0, x, y => x = y
  | fuel + 1, x, y => x = y || (parent y).any (reaches parent fuel x)

/-- The last node before an ancestor. -/
def lastBefore [DecidableEq α] (parent : α → Option α) : Nat → α → α → Option α
  | 0, _, _ => none
  | fuel + 1, x, y => (parent y).bind fun p => if p = x then some y else lastBefore parent fuel x p

variable [DecidableEq α] {fuel : Nat}

theorem reaches_iff (hfuel : rank y ≤ fuel) :
    reaches parent fuel x y = true ↔ Ancestor parent x y := by
  induction fuel generalizing y with
  | zero =>
    rw [reaches, decide_eq_true_iff]
    refine ⟨fun heq => heq ▸ .refl x, fun hancestor => ?_⟩
    by_contra hne
    have hlt := hancestor.rank_lt hrank hne
    omega
  | succ fuel ih =>
    rw [reaches, Bool.or_eq_true, decide_eq_true_iff]
    cases hparent : parent y with
    | none =>
      simp only [Option.any_none, Bool.false_eq_true, or_false]
      refine ⟨fun heq => heq ▸ .refl x, fun hancestor => ?_⟩
      by_contra hne
      obtain ⟨p, hp, _⟩ := hancestor.exists_parent hne
      cases hparent.symm.trans hp
    | some p =>
      have hlt := hrank p y hparent
      rw [Option.any_some, ih (by omega), ancestor_iff_of_parent hparent]

theorem lastBefore_eq_some (hancestor : Ancestor parent x y) (hne : x ≠ y) (hfuel : rank y ≤ fuel) :
    ∃ last, lastBefore parent fuel x y = some last ∧ parent last = some x ∧
      Ancestor parent last y := by
  obtain ⟨p, hparent, hbelow⟩ := hancestor.exists_parent hne
  have hlt := hrank p y hparent
  induction fuel generalizing y p with
  | zero => omega
  | succ fuel ih =>
    rw [lastBefore, hparent, Option.bind_some]
    split
    next heq =>
      subst heq
      exact ⟨y, rfl, hparent, .refl y⟩
    next hne' =>
      obtain ⟨q, hq, hbelow'⟩ := hbelow.exists_parent (Ne.symm hne')
      obtain ⟨last, hlast, hx, hancestor'⟩ :=
        ih hbelow (Ne.symm hne') (by omega) q hq hbelow' (hrank q p hq)
      exact ⟨last, hlast, hx, hancestor'.trans (.of_parent hparent)⟩

end Rank

/-! ## Descents

The nodes on the way from a node down to one of its ancestors, which is itself left
out. -/

/-- The list leads from the first node down to the last one. -/
def Descends (parent : α → Option α) : α → List α → α → Prop
  | x, [], y => x = y
  | x, node :: rest, y => node = x ∧ ∃ p, parent x = some p ∧ Descends parent p rest y

variable {nodes upper lower : List α}

theorem descends_append :
    Descends parent x (upper ++ lower) z ↔
      ∃ y, Descends parent x upper y ∧ Descends parent y lower z := by
  induction upper generalizing x with
  | nil => simp [Descends]
  | cons node upper ih =>
    simp only [cons_append, Descends, ih]
    constructor
    · rintro ⟨rfl, p, hp, y, hupper, hlower⟩
      exact ⟨y, ⟨rfl, p, hp, hupper⟩, hlower⟩
    · rintro ⟨y, ⟨rfl, p, hp, hupper⟩, hlower⟩
      exact ⟨rfl, p, hp, y, hupper, hlower⟩

section

variable (hdescends : Descends parent x nodes y)

include hdescends

theorem Descends.ancestor : Ancestor parent y x := by
  induction nodes generalizing x with
  | nil => exact hdescends ▸ .refl x
  | cons node nodes ih =>
    obtain ⟨_, p, hp, hrest⟩ := hdescends
    exact (ih hrest).trans (.of_parent hp)

theorem Descends.ancestor_of_mem {node : α} (hnode : node ∈ nodes) :
    Ancestor parent node x ∧ Ancestor parent y node := by
  obtain ⟨upper, lower, rfl⟩ := append_of_mem hnode
  obtain ⟨middle, hupper, hlower⟩ := descends_append.mp hdescends
  obtain rfl := hlower.1
  exact ⟨hupper.ancestor, hlower.ancestor⟩

theorem Descends.head?_eq (hne : nodes ≠ []) : nodes.head? = some x := by
  cases nodes with
  | nil => exact absurd rfl hne
  | cons node nodes => simp [hdescends.1]

/-- Each node is followed by its parent. -/
theorem Descends.isChain : nodes.IsChain fun node next => parent node = some next := by
  induction nodes generalizing x with
  | nil => exact .nil
  | cons node nodes ih =>
    obtain ⟨rfl, p, hp, hrest⟩ := hdescends
    cases nodes with
    | nil => exact .singleton _
    | cons next nodes =>
      obtain rfl := hrest.1
      exact isChain_cons_cons.mpr ⟨hp, ih hrest⟩

end

section Rank

variable {rank : α → Nat} (hrank : ∀ x y, parent y = some x → rank x < rank y)

include hrank

theorem Descends.rank_of_mem (hdescends : Descends parent x nodes y) {node : α}
    (hnode : node ∈ nodes) : rank y < rank node ∧ rank node ≤ rank x := by
  induction nodes generalizing x with
  | nil => cases hnode
  | cons first nodes ih =>
    obtain ⟨rfl, p, hp, hrest⟩ := hdescends
    have hlt := hrank p first hp
    rcases mem_cons.mp hnode with rfl | hmem
    · exact ⟨(hrest.ancestor.rank_le hrank).trans_lt hlt, le_rfl⟩
    · exact ⟨(ih hrest hmem).1, (ih hrest hmem).2.trans hlt.le⟩

theorem Descends.nodup (hdescends : Descends parent x nodes y) : nodes.Nodup := by
  induction nodes generalizing x with
  | nil => exact nodup_nil
  | cons node nodes ih =>
    obtain ⟨rfl, p, hp, hrest⟩ := hdescends
    refine nodup_cons.mpr ⟨fun hmem => ?_, ih hrest⟩
    have hle := (hrest.rank_of_mem hrank hmem).2
    have hlt := hrank p node hp
    omega

/-- Of two descents from one node the longer one passes through the end of the other. -/
theorem Descends.split (hupper : Descends parent x upper y) (hnodes : Descends parent x nodes z)
    (hbelow : Ancestor parent z y) :
    ∃ lower, nodes = upper ++ lower ∧ Descends parent y lower z := by
  induction upper generalizing x nodes with
  | nil => exact ⟨nodes, rfl, hupper ▸ hnodes⟩
  | cons node upper ih =>
    obtain ⟨rfl, p, hp, hupper⟩ := hupper
    have hlt := hrank p node hp
    have hle := (hbelow.trans hupper.ancestor).rank_le hrank
    cases nodes with
    | nil =>
      obtain rfl : node = z := hnodes
      omega
    | cons first nodes =>
      obtain ⟨rfl, q, hq, hnodes⟩ := hnodes
      cases hp.symm.trans hq
      obtain ⟨lower, rfl, hlower⟩ := ih hupper hnodes
      exact ⟨lower, rfl, hlower⟩

end Rank

end Qaspa.Chain
