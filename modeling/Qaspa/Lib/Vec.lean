import Mathlib.Data.List.Nodup
import Mathlib.Data.List.Perm.Basic
import Qaspa.Lib.Outcome

/-! # Vectors that are edited in place

Insertion, replacement and removal at an index. An index out of bounds panics. What
matters to the owner of a set is which elements remain, so each edit is described up to
the order of the elements as well.
-/

namespace Qaspa

open Outcome List

variable {ε α : Type}

/-- Insert an element at an index, shifting the ones behind it. -/
def vecInsert (vec : List α) (index : Nat) (element : α) : Outcome ε (List α) :=
  if index ≤ vec.length then .ok (vec.insertIdx index element) else .error .panic

/-- Replace the element at an index by a list of elements. -/
def vecSplice (vec : List α) (index : Nat) (replaceWith : List α) : Outcome ε (List α) :=
  if index < vec.length then .ok (vec.take index ++ replaceWith ++ vec.drop (index + 1))
  else .error .panic

/-- Remove the element at an index and move the last one to its place. -/
def vecSwapRemove (vec : List α) (index : Nat) : Outcome ε (List α) :=
  match vec.getLast? with
  | some last => if index < vec.length then .ok (vec.set index last).dropLast else .error .panic
  | none => .error .panic

/-- The element at an index. -/
def vecGet (vec : List α) (index : Nat) : Outcome ε α := unwrap vec[index]?

/-- The element a number of places before the end. -/
def vecGetBack (vec : List α) (places : Nat) : Outcome ε α := do
  let index ← U64.sub vec.length places
  vecGet vec index

/-- Take out the element at an index. -/
def vecRemove (vec : List α) (index : Nat) : Outcome ε (α × List α) := do
  let element ← vecGet vec index
  return (element, vec.eraseIdx index)

/-- Split a vector in two at an index. -/
def vecSplitOff (vec : List α) (index : Nat) : Outcome ε (List α × List α) :=
  if index ≤ vec.length then .ok (vec.take index, vec.drop index) else .error .panic

/-- Split off a number of elements at the end. -/
def vecSplitOffBack (vec : List α) (count : Nat) : Outcome ε (List α × List α) := do
  let index ← U64.sub vec.length count
  vecSplitOff vec index

/-- The elements of a range of indices. -/
def vecSlice (vec : List α) (start stop : Nat) : Outcome ε (List α) :=
  if start ≤ stop ∧ stop ≤ vec.length then .ok ((vec.take stop).drop start) else .error .panic

/-- Take out the elements of a range of indices. -/
def vecDrain (vec : List α) (start stop : Nat) : Outcome ε (List α × List α) := do
  let drained ← vecSlice vec start stop
  return (drained, vec.take start ++ vec.drop stop)

section

variable {vec replaceWith : List α} {index : Nat} {element : α}

theorem vecGet_eq_ok (helement : vec[index]? = some element) :
    (vecGet vec index : Outcome ε α) = .ok element :=
  unwrap_eq_ok.mpr helement

theorem vecGetBack_returns {places : Nat} (hpos : 0 < places) (hplaces : places ≤ vec.length) :
    Faultless (vecGetBack vec places : Outcome ε α) := by
  have hindex : vec.length - places < vec.length := by omega
  rw [vecGetBack, U64.sub_of_le hplaces, ok_bind, vecGet_eq_ok (getElem?_eq_getElem hindex)]
  exact returns_ok trivial

theorem vecSplitOffBack_of_le {count : Nat} (hcount : count ≤ vec.length) :
    (vecSplitOffBack vec count : Outcome ε _) =
      .ok (vec.take (vec.length - count), vec.drop (vec.length - count)) := by
  rw [vecSplitOffBack, U64.sub_of_le hcount, ok_bind, vecSplitOff, if_pos (Nat.sub_le _ _)]

theorem vecSplitOffBack_append (front back : List α) :
    (vecSplitOffBack (front ++ back) back.length : Outcome ε _) = .ok (front, back) := by
  rw [vecSplitOffBack_of_le (by simp), length_append, Nat.add_sub_cancel, take_left,
    drop_left]

theorem vecSlice_of_le {start stop : Nat} (hle : start ≤ stop) (hstop : stop ≤ vec.length) :
    (vecSlice vec start stop : Outcome ε _) = .ok ((vec.take stop).drop start) :=
  if_pos ⟨hle, hstop⟩

theorem vecDrain_of_le {start stop : Nat} (hle : start ≤ stop) (hstop : stop ≤ vec.length) :
    (vecDrain vec start stop : Outcome ε _) =
      .ok ((vec.take stop).drop start, vec.take start ++ vec.drop stop) := by
  rw [vecDrain, vecSlice_of_le hle hstop]
  rfl

theorem vecInsert_eq_ok {result : List α} :
    (vecInsert vec index element : Outcome ε (List α)) = .ok result ↔
      index ≤ vec.length ∧ result = vec.insertIdx index element := by
  unfold vecInsert
  split
  next hle => simp [hle, eq_comm]
  next hlt => simp [hlt]

/-- Up to the order, the new elements are added to the other ones. -/
theorem vecSplice_eq_ok (helement : vec[index]? = some element) (replaceWith : List α) :
    ∃ others result, vec.Perm (element :: others) ∧
      (vecSplice vec index replaceWith : Outcome ε (List α)) = .ok result ∧
      result.Perm (replaceWith ++ others) := by
  obtain ⟨hindex, helement⟩ := List.getElem?_eq_some_iff.mp helement
  refine ⟨vec.eraseIdx index, _, ?_, if_pos hindex, ?_⟩
  · have hperm := getElem_cons_eraseIdx_perm hindex
    rw [helement] at hperm
    exact hperm.symm
  · rw [eraseIdx_eq_take_drop_succ, append_assoc]
    exact perm_append_comm_assoc _ _ _

theorem vecSwapRemove_eq_ok (helement : vec[index]? = some element) :
    ∃ result, (vecSwapRemove vec index : Outcome ε (List α)) = .ok result ∧
      vec.Perm (element :: result) := by
  obtain ⟨hindex, helement⟩ := List.getElem?_eq_some_iff.mp helement
  obtain ⟨init, last, rfl⟩ : ∃ init last, vec = init ++ [last] := by
    refine ⟨vec.dropLast, vec.getLast ?_, (dropLast_append_getLast _).symm⟩
    rintro rfl
    simp at hindex
  refine ⟨((init ++ [last]).set index last).dropLast, by simp [vecSwapRemove]; simpa using hindex,
    ?_⟩
  by_cases hlast : index = init.length
  · subst hlast
    subst helement
    simp
  · have hinit : index < init.length := by
      simp at hindex
      omega
    rw [set_append_left _ _ hinit, dropLast_concat]
    rw [getElem_append_left hinit] at helement
    subst helement
    calc List.Perm (init ++ [last]) (last :: init) := perm_append_singleton last init
      List.Perm _ (last :: init[index] :: init.eraseIdx index) :=
        (getElem_cons_eraseIdx_perm hinit).symm.cons last
      List.Perm _ (init[index] :: last :: init.eraseIdx index) := List.Perm.swap _ _ _
      List.Perm _ (init[index] :: init.set index last) :=
        (set_perm_cons_eraseIdx hinit last).symm.cons _

end

end Qaspa
