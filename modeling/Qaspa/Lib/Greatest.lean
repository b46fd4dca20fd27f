import Mathlib.Data.List.Sort

/-! # The greatest elements of a list

The `k` greatest elements of a list, in ascending order. Sorted lists are told apart
by how many of their elements lie in each upper set, and taking the `k` greatest
elements caps these numbers at `k`; every law of the operation is an equation between
such numbers.
-/

namespace Qaspa.Greatest

open List

variable {α : Type} [LinearOrder α] {k : Nat} {left right list : List α} {p : α → Bool}

/-- The `k` greatest elements, all of them if there are fewer. -/
def greatest (k : Nat) (list : List α) : List α :=
  (list.insertionSort (· ≤ ·)).drop (list.length - k)

/-- A test that holds of everything above an element it holds of. -/
def Upper (p : α → Bool) : Prop := ∀ ⦃a b⦄, a ≤ b → p a = true → p b = true

theorem sorted_greatest (k : Nat) (list : List α) : (greatest k list).Pairwise (· ≤ ·) :=
  (pairwise_insertionSort (· ≤ ·) list).drop

/-! ## Counting upper sets -/

/-- The last elements of a sorted list are the first ones to be in an upper set. -/
theorem countP_drop_of_sorted (hp : Upper p) (hsorted : list.Pairwise (· ≤ ·)) :
    (list.drop (list.length - k)).countP p = min k (list.countP p) := by
  induction list with
  | nil => simp
  | cons a list ih =>
    obtain ⟨hhead, htail⟩ := pairwise_cons.mp hsorted
    by_cases hk : list.length + 1 ≤ k
    · rw [length_cons, Nat.sub_eq_zero_of_le hk, drop_zero, min_eq_right]
      exact countP_le_length.trans hk
    · have hdrop : (a :: list).length - k = (list.length - k) + 1 := by
        rw [length_cons]
        omega
      rw [hdrop, drop_succ_cons, ih htail, countP_cons]
      by_cases ha : p a = true
      · have hall : list.countP p = list.length :=
          countP_eq_length.mpr fun b hb => hp (hhead b hb) ha
        omega
      · rw [if_neg ha, Nat.add_zero]

theorem countP_greatest (hp : Upper p) : (greatest k list).countP p = min k (list.countP p) := by
  have hperm := perm_insertionSort (· ≤ ·) list
  rw [greatest, ← hperm.length_eq, countP_drop_of_sorted hp (pairwise_insertionSort _ _),
    hperm.countP_eq]

theorem length_greatest (k : Nat) (list : List α) :
    (greatest k list).length = min k list.length := by
  have hcount : (greatest k list).countP (fun _ => true) = min k (list.countP fun _ => true) :=
    countP_greatest fun _ _ _ _ => rfl
  simpa using hcount

theorem upper_le (a : α) : Upper fun b => decide (a ≤ b) := fun _ _ hle ha =>
  decide_eq_true ((of_decide_eq_true ha).trans hle)

theorem upper_lt (a : α) : Upper fun b => decide (a < b) := fun _ _ hle ha =>
  decide_eq_true ((of_decide_eq_true ha).trans_le hle)

/-- Sorted lists with equal numbers in all upper sets are equal. -/
theorem eq_of_countP (hleft : left.Pairwise (· ≤ ·)) (hright : right.Pairwise (· ≤ ·))
    (hcount : ∀ p, Upper p → left.countP p = right.countP p) : left = right := by
  refine List.Perm.eq_of_pairwise' hleft hright (perm_iff_count.mpr fun a => ?_)
  -- the occurrences of an element are what lies at it but not above it
  have hsplit : ∀ list : List α, list.countP (fun b => decide (a ≤ b)) =
      list.count a + list.countP fun b => decide (a < b) := by
    intro list
    induction list with
    | nil => rfl
    | cons b list ih =>
      rw [countP_cons, ih]
      rcases lt_trichotomy a b with hlt | rfl | hgt
      · simp [hlt, hlt.le, hlt.ne']
        omega
      · simp
        omega
      · simp [hgt.not_ge, hgt.not_gt, hgt.ne]
  have hle := hcount _ (upper_le a)
  rw [hsplit, hsplit, hcount _ (upper_lt a)] at hle
  exact Nat.add_right_cancel hle

/-! ## Laws -/

theorem eq_greatest (hsorted : left.Pairwise (· ≤ ·))
    (hcount : ∀ p, Upper p → left.countP p = min k (list.countP p)) : left = greatest k list :=
  eq_of_countP hsorted (sorted_greatest k list) fun p hp =>
    (hcount p hp).trans (countP_greatest hp).symm

theorem greatest_perm (hperm : left.Perm right) : greatest k left = greatest k right :=
  eq_greatest (sorted_greatest k left) fun p hp => by rw [countP_greatest hp, hperm.countP_eq]

/-- What is not among the greatest of a part is not among the greatest of the whole. -/
theorem greatest_append_greatest :
    greatest k (greatest k left ++ greatest k right) = greatest k (left ++ right) :=
  eq_greatest (sorted_greatest _ _) fun p hp => by
    rw [countP_greatest hp, countP_append, countP_append, countP_greatest hp,
      countP_greatest hp]
    omega

/-- Elements below all of `k` greatest ones do not change them. -/
theorem greatest_append_of_lt (hfull : k ≤ left.length)
    (hbelow : ∀ a ∈ right, ∀ b ∈ greatest k left, a ≤ b) :
    greatest k (left ++ right) = greatest k left := by
  refine (eq_greatest (sorted_greatest k left) fun p hp => ?_).symm
  rw [countP_greatest hp, countP_append]
  by_cases hpos : 0 < right.countP p
  · obtain ⟨a, ha, hpa⟩ := countP_pos_iff.mp hpos
    have hall : (greatest k left).countP p = (greatest k left).length :=
      countP_eq_length.mpr fun b hb => hp (hbelow a ha b hb) hpa
    rw [countP_greatest hp, length_greatest] at hall
    omega
  · omega

end Qaspa.Greatest
