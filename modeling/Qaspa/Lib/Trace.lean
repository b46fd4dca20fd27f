import Mathlib.Algebra.GroupWithZero.Nat
import Mathlib.Tactic.Common

/-! # Runs of a labelled transition system

A run takes one step for each label of a list. What every step preserves holds along the run. A
step may add a weight to a count, and what it preserves may depend on the count so far.
-/

namespace Qaspa

variable {State Label : Type}

/-- The labels of a run in the order of its steps. -/
inductive Runs (Step : State → Label → State → Prop) : State → List Label → State → Prop where
  | nil (state : State) : Runs Step state [] state
  | cons {state middle final : State} {label : Label} {labels : List Label} :
      Step state label middle → Runs Step middle labels final →
        Runs Step state (label :: labels) final

namespace Runs

variable {Step : State → Label → State → Prop} {state final : State} {labels labels' : List Label}

section

variable (hrun : Runs Step state labels final)

include hrun

/-- What every step preserves. -/
theorem invariant (Inv : State → Prop)
    (hstep : ∀ before label after, Inv before → Step before label after → Inv after)
    (hstate : Inv state) : Inv final := by
  induction hrun with
  | nil => exact hstate
  | cons hfirst _ ih => exact ih (hstep _ _ _ hstate hfirst)

/-- What a step preserves as long as the weights of the labels stay within a total. -/
theorem invariant_of_weight {weight : Label → Nat} {total : Nat} (Inv : Nat → State → Prop)
    {count : Nat}
    (hstep : ∀ label ∈ labels, ∀ count before after, count + weight label ≤ total →
      Inv count before → Step before label after → Inv (count + weight label) after)
    (htotal : count + (labels.map weight).sum ≤ total) (hstate : Inv count state) :
    Inv (count + (labels.map weight).sum) final := by
  induction hrun generalizing count with
  | nil => exact hstate
  | cons hfirst _ ih =>
    obtain ⟨hlabel, hlabels⟩ := List.forall_mem_cons.mp hstep
    rw [List.map_cons, List.sum_cons, ← Nat.add_assoc] at htotal ⊢
    have hcount := Nat.le_trans (Nat.le_add_right _ _) htotal
    exact ih hlabels htotal (hlabel _ _ _ hcount hstate hfirst)

end

end Runs

end Qaspa
