import Mathlib.Data.List.Nodup

/-! # Net changes of a set

A set is changed element by element, and the changes since a base set are kept as
two sets: what was added and what was deleted. A change that undoes an earlier one
cancels it. As long as only absent elements are added and only present ones
deleted, the two sets are exactly the differences between the base and the current
set, and applying them to the base gives the current set.

Sets are lists here; their order stands for the order in which they are iterated.
-/

namespace Qaspa

open List

structure NetDiff (α : Type) where
  additions : List α
  deletions : List α

namespace NetDiff

variable {α : Type} [DecidableEq α] {base : List α} {current current' : α → Prop}
  {diff : NetDiff α} {element : α}

def markAddition (diff : NetDiff α) (element : α) : NetDiff α :=
  if element ∈ diff.deletions then
    { diff with deletions := diff.deletions.filter (· ≠ element) }
  else { diff with additions := diff.additions.insert element }

def markDeletion (diff : NetDiff α) (element : α) : NetDiff α :=
  if element ∈ diff.additions then
    { diff with additions := diff.additions.filter (· ≠ element) }
  else { diff with deletions := diff.deletions.insert element }

/-- The diff leads from the base set to the set of the current elements. -/
structure Leads (base : List α) (current : α → Prop) (diff : NetDiff α) : Prop where
  mem_additions : ∀ x, x ∈ diff.additions ↔ current x ∧ x ∉ base
  mem_deletions : ∀ x, x ∈ diff.deletions ↔ x ∈ base ∧ ¬ current x

namespace Leads

omit [DecidableEq α] in
theorem refl (base : List α) : Leads base (· ∈ base) ⟨[], []⟩ := ⟨by simp, by simp⟩

section

variable (hleads : Leads base current diff)

include hleads

omit [DecidableEq α] in
theorem congr (hcurrent : ∀ x, current' x ↔ current x) : Leads base current' diff where
  mem_additions x := by rw [hleads.mem_additions, hcurrent]
  mem_deletions x := by rw [hleads.mem_deletions, hcurrent]

theorem markAddition (habsent : ¬ current element) :
    Leads base (fun x => x = element ∨ current x) (diff.markAddition element) := by
  unfold NetDiff.markAddition
  split
  next hdeleted =>
    -- The element is in the base: adding it back cancels its deletion.
    have hbase : element ∈ base := ((hleads.mem_deletions element).mp hdeleted).1
    constructor
    · intro x
      rw [hleads.mem_additions]
      by_cases hx : x = element
      · subst hx
        simp [hbase]
      · simp [hx]
    · intro x
      rw [mem_filter, hleads.mem_deletions, decide_eq_true_eq]
      tauto
  next hkept =>
    have hbase : element ∉ base := fun hbase =>
      hkept ((hleads.mem_deletions element).mpr ⟨hbase, habsent⟩)
    constructor
    · intro x
      rw [mem_insert_iff, hleads.mem_additions]
      by_cases hx : x = element
      · subst hx
        simp [hbase]
      · simp [hx]
    · intro x
      rw [hleads.mem_deletions]
      by_cases hx : x = element
      · subst hx
        simp [hbase]
      · simp [hx]

theorem markDeletion (hpresent : current element) :
    Leads base (fun x => x ≠ element ∧ current x) (diff.markDeletion element) := by
  unfold NetDiff.markDeletion
  split
  next hadded =>
    have hbase : element ∉ base := ((hleads.mem_additions element).mp hadded).2
    constructor
    · intro x
      rw [mem_filter, hleads.mem_additions, decide_eq_true_eq]
      tauto
    · intro x
      rw [hleads.mem_deletions]
      by_cases hx : x = element
      · subst hx
        simp [hbase]
      · simp [hx]
  next hkept =>
    have hbase : element ∈ base := by
      by_contra hbase
      exact hkept ((hleads.mem_additions element).mpr ⟨hpresent, hbase⟩)
    constructor
    · intro x
      rw [hleads.mem_additions]
      by_cases hx : x = element
      · subst hx
        simp [hbase]
      · simp [hx]
    · intro x
      rw [mem_insert_iff, hleads.mem_deletions]
      by_cases hx : x = element
      · subst hx
        simp [hbase]
      · simp [hx]

/-- Additions of several elements. -/
theorem foldl_markAddition {elements : List α} (hnodup : elements.Nodup)
    (habsent : ∀ x ∈ elements, ¬ current x) :
    Leads base (fun x => x ∈ elements ∨ current x) (elements.foldl NetDiff.markAddition diff) := by
  induction elements generalizing current diff with
  | nil => exact hleads.congr (by simp)
  | cons element elements ih =>
    obtain ⟨hfresh, hnodup⟩ := nodup_cons.mp hnodup
    have hnext := hleads.markAddition (habsent element (by simp))
    refine (ih hnext hnodup ?_).congr (by simp; tauto)
    rintro x hx (rfl | hcurrent)
    · exact hfresh hx
    · exact habsent x (by simp [hx]) hcurrent

omit [DecidableEq α] in
/-- Without the deletions and with the additions, the base is the current set. -/
theorem current_iff (x : α) : (x ∈ base ∧ x ∉ diff.deletions) ∨ x ∈ diff.additions ↔ current x := by
  rw [hleads.mem_additions, hleads.mem_deletions]
  tauto

end

end Leads

end NetDiff

end Qaspa
