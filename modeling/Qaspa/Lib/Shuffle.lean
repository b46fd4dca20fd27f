import Mathlib.Data.List.Basic

/-! # Shuffling a list

A list is shuffled in place by swaps with randomly drawn positions. The draws are an
arbitrary function of the position, reduced to the range that is drawn from, so every
outcome of the random generator is covered.
-/

namespace Qaspa.Shuffle

variable {α : Type}

def swap (list : List α) (i j : Nat) : List α := (list.toArray.swapIfInBounds i j).toList

theorem swap_perm (list : List α) (i j : Nat) : (swap list i j).Perm list := by
  rw [swap, Array.swapIfInBounds]
  split
  · split
    · exact (Array.swap_perm _ _).toList
    · exact .refl _
  · exact .refl _

/-- Exchange each position of a range with one that is drawn from the rest of the list. -/
def drawInto (draw : Nat → Nat) (start count : Nat) (list : List α) : List α :=
  (List.range' start count).foldl
    (fun list i => swap list i (i + draw i % (list.length - i))) list

/-- Exchange each position, from the last one down, with one that is drawn up to it, as the
rand crate shuffles a slice. -/
def shuffle (draw : Nat → Nat) (list : List α) : List α :=
  (List.range' 1 (list.length - 1)).reverse.foldl
    (fun list i => swap list i (draw i % (i + 1))) list

theorem foldl_perm {step : List α → Nat → List α} (hstep : ∀ list i, (step list i).Perm list)
    (positions : List Nat) (list : List α) : (positions.foldl step list).Perm list := by
  induction positions generalizing list with
  | nil => exact .refl _
  | cons i positions ih => exact (ih (step list i)).trans (hstep list i)

theorem drawInto_perm (draw : Nat → Nat) (start count : Nat) (list : List α) :
    (drawInto draw start count list).Perm list :=
  foldl_perm (fun _ _ => swap_perm _ _ _) _ _

theorem shuffle_perm (draw : Nat → Nat) (list : List α) : (shuffle draw list).Perm list :=
  foldl_perm (fun _ _ => swap_perm _ _ _) _ _

end Qaspa.Shuffle
