import Qaspa.Lib.Outcome

/-! # Binary search

The search halves a window of the list. The comparison may panic, so that it
matters which elements are compared. On a list that a predicate cuts in two the
search for the cut returns it.
-/

namespace Qaspa

open Outcome

variable {ε α : Type}

/-- Halve the window of the given size at the base until one element is left. -/
def searchWindow (compare : α → Outcome ε Ordering) (list : List α) :
    Nat → Nat → Nat → Outcome ε Nat
  | 0, _, _ => .error .outOfFuel
  | fuel + 1, size, base =>
    if 1 < size then do
      let half := size / 2
      let mid := base + half
      let ordering ← compare (← unwrap list[mid]?)
      searchWindow compare list fuel (size - half) (if ordering = .gt then base else mid)
    else .ok base

/-- The position of an element that compares equal, or else the one where it would be
inserted. -/
def binarySearchBy (compare : α → Outcome ε Ordering) (list : List α) : Outcome ε (Nat ⊕ Nat) :=
  if list.length = 0 then .ok (.inr 0)
  else do
    let base ← searchWindow compare list list.length list.length 0
    let ordering ← compare (← unwrap list[base]?)
    if ordering = .eq then return .inl base
    else return .inr (base + if ordering = .lt then 1 else 0)

/-- Compare an element with the cut that a predicate makes. -/
def compareCut (predicate : α → Outcome ε Bool) (element : α) : Outcome ε Ordering := do
  return if ← predicate element then .lt else .gt

/-- The position of the first element that violates the predicate. -/
def partitionPoint (predicate : α → Outcome ε Bool) (list : List α) : Outcome ε Nat := do
  let found ← binarySearchBy (compareCut predicate) list
  return found.elim id id

section PartitionPoint

variable {predicate : α → Outcome ε Bool} {list : List α} {cut : Nat}

/-- The predicate does not fault on the list, and holds exactly in front of the cut. -/
structure Partitioned (predicate : α → Outcome ε Bool) (list : List α) (cut : Nat) : Prop where
  cut_le : cut ≤ list.length
  predicate_eq : ∀ index element, list[index]? = some element →
    predicate element = .ok (decide (index < cut))

section

variable (hcut : Partitioned predicate list cut)

include hcut

theorem Partitioned.compareCut_eq {index : Nat} {element : α}
    (helement : list[index]? = some element) :
    compareCut predicate element = .ok (if index < cut then .lt else .gt) := by
  rw [compareCut, hcut.predicate_eq index element helement]
  simp

/-- The cut stays in the window: it is not in front of the base, unless the base is at the
start of the list, and not behind the end of the window. -/
theorem searchWindow_cut {fuel size base : Nat} (hfuel : size ≤ fuel) (hsize : 0 < size)
    (hwindow : base + size ≤ list.length) (hbase : base = 0 ∨ base < cut) (hend : cut ≤ base + size)
    :
    ∃ final, searchWindow (compareCut predicate) list fuel size base = .ok final ∧
      final < list.length ∧ (final = 0 ∨ final < cut) ∧ cut ≤ final + 1 := by
  induction fuel generalizing size base with
  | zero => omega
  | succ fuel ih =>
    rw [searchWindow]
    split
    next hlarge =>
      have hmid : base + size / 2 < list.length := by omega
      have hget : list[base + size / 2]? = some (list[base + size / 2]) :=
        List.getElem?_eq_getElem hmid
      simp only [hget, unwrap, ok_bind, hcut.compareCut_eq hget]
      by_cases hside : base + size / 2 < cut
      · simp only [if_pos hside, reduceCtorEq, if_false]
        exact ih (by omega) (by omega) (by omega) (.inr hside) (by omega)
      · simp only [if_neg hside, if_true]
        exact ih (by omega) (by omega) (by omega) hbase (by omega)
    next hsmall => exact ⟨base, rfl, by omega, hbase, by omega⟩

theorem partitionPoint_eq : partitionPoint predicate list = .ok cut := by
  have hle := hcut.cut_le
  unfold partitionPoint binarySearchBy
  split
  next hempty =>
    have hzero : cut = 0 := by omega
    simp [hzero]
  next hnonempty =>
    obtain ⟨final, hsearch, hfinal, hlow, hhigh⟩ :=
      searchWindow_cut hcut (Nat.le_refl list.length) (Nat.pos_of_ne_zero hnonempty) (by omega)
        (.inl rfl) (by omega)
    have hget : list[final]? = some list[final] := List.getElem?_eq_getElem hfinal
    simp only [hsearch, ok_bind, hget, unwrap, hcut.compareCut_eq hget]
    by_cases hside : final < cut
    · have hlast : cut = final + 1 := by omega
      simp [hlast]
    · have hfirst : cut = 0 ∧ final = 0 := by omega
      simp [hfirst]

end

end PartitionPoint

end Qaspa
