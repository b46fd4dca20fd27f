import Mathlib.Algebra.Order.BigOperators.Group.Finset
import Mathlib.Algebra.Order.Ring.Int
import Mathlib.Data.Finsupp.Basic

/-! # Ledgers

A ledger is a partial map that changes one entry at a time: an entry is spent
where it stands, or created where there is none. What the ledger holds, as a
multiset of entries, then changes by the signed sum of the moves, and so does
every total that is additive in the entries.
-/

namespace Qaspa

open List Finsupp

/-- One entry leaves the ledger or enters it. -/
inductive Move (K V : Type) where
  | spend (key : K) (value : V)
  | create (key : K) (value : V)

namespace Move

variable {K V : Type} [DecidableEq K]

def key : Move K V → K
  | .spend key _ | .create key _ => key

def applyTo (book : K → Option V) : Move K V → K → Option V
  | .spend key _ => Function.update book key none
  | .create key value => Function.update book key (some value)

/-- The entry to spend is there, and nothing is where one is created. -/
def Legal (book : K → Option V) : Move K V → Prop
  | .spend key value => book key = some value
  | .create key _ => book key = none

/-- The signed entry a move contributes. -/
noncomputable def count : Move K V → K × V →₀ ℤ
  | .spend key value => Finsupp.single (key, value) (-1)
  | .create key value => Finsupp.single (key, value) 1

theorem applyTo_of_ne {book : K → Option V} {move : Move K V} {key : K} (hkey : key ≠ move.key) :
    move.applyTo book key = book key := by
  cases move with
  | spend spent value | create created value => exact Function.update_of_ne hkey _ _

end Move

namespace Ledger

variable {K V : Type} [DecidableEq K] {book : K → Option V} {move : Move K V}
  {moves others : List (Move K V)}

/-- The ledger after a sequence of moves. -/
def play (book : K → Option V) (moves : List (Move K V)) : K → Option V :=
  moves.foldl (fun book move => move.applyTo book) book

/-- Every move of the sequence is legal when its turn comes. -/
def Legal : (K → Option V) → List (Move K V) → Prop
  | _, [] => True
  | book, move :: moves => move.Legal book ∧ Legal (move.applyTo book) moves

/-- The signed sum of all entries moved. -/
noncomputable def count (moves : List (Move K V)) : K × V →₀ ℤ := (moves.map Move.count).sum

@[simp] theorem play_nil (book : K → Option V) : play book [] = book := rfl

@[simp] theorem play_cons (book : K → Option V) (move : Move K V) (moves : List (Move K V)) :
    play book (move :: moves) = play (move.applyTo book) moves := rfl

theorem legal_append : Legal book (moves ++ others) ↔
    Legal book moves ∧ Legal (play book moves) others := by
  induction moves generalizing book with
  | nil => simp [Legal]
  | cons move moves ih => simp only [cons_append, Legal, ih, play_cons, and_assoc]

omit [DecidableEq K] in
@[simp] theorem count_nil : count ([] : List (Move K V)) = 0 := rfl

omit [DecidableEq K] in
@[simp] theorem count_cons : count (move :: moves) = move.count + count moves := rfl

omit [DecidableEq K] in
theorem count_append : count (moves ++ others) = count moves + count others := by
  rw [count, map_append, sum_append]
  rfl

/-- Only the keys that are moved change. -/
theorem play_of_forall_ne {key : K} (hkey : ∀ move ∈ moves, key ≠ move.key) :
    play book moves key = book key := by
  induction moves generalizing book with
  | nil => rfl
  | cons move moves ih =>
    rw [play_cons, ih fun other hother => hkey other (.tail _ hother)]
    exact Move.applyTo_of_ne (hkey move (.head _ ..))

/-! ## Spending and creating in bulk -/

/-- Spend a list of entries. -/
def spends (entries : List (K × V)) : List (Move K V) :=
  entries.map fun entry => .spend entry.1 entry.2

/-- Create a list of entries. -/
def creates (entries : List (K × V)) : List (Move K V) :=
  entries.map fun entry => .create entry.1 entry.2

variable {entries : List (K × V)}

omit [DecidableEq K] in
theorem forall_key_spends {P : K → Prop} :
    (∀ move ∈ spends entries, P move.key) ↔ ∀ entry ∈ entries, P entry.1 :=
  forall_mem_map

/-- Moves of distinct keys that are legal one by one are legal in a row. -/
theorem legal_of_nodup (hkeys : (moves.map Move.key).Nodup)
    (hlegal : ∀ move ∈ moves, move.Legal book) : Legal book moves := by
  induction moves generalizing book with
  | nil => trivial
  | cons move moves ih =>
    obtain ⟨hfresh, hrest⟩ := nodup_cons.mp hkeys
    refine ⟨hlegal move (.head _), ih hrest fun other hother => ?_⟩
    have hne : other.key ≠ move.key := fun heq => hfresh (heq ▸ mem_map_of_mem hother)
    have hbefore := hlegal other (.tail _ hother)
    cases other with
    | spend _ _ | create _ _ => exact (Move.applyTo_of_ne hne).trans hbefore

/-- Distinct entries that are present can be spent in a row. -/
theorem legal_spends (hkeys : (entries.map Prod.fst).Nodup)
    (hpresent : ∀ entry ∈ entries, book entry.1 = some entry.2) : Legal book (spends entries) := by
  refine legal_of_nodup ?_ (forall_mem_map.mpr hpresent)
  rwa [spends, map_map]

theorem play_spends {key : K} (hkey : key ∈ entries.map Prod.fst) :
    play book (spends entries) key = none := by
  induction entries generalizing book with
  | nil => simp at hkey
  | cons entry entries ih =>
    by_cases hrest : key ∈ entries.map Prod.fst
    · exact ih hrest
    · obtain rfl : key = entry.1 := by simpa [hrest] using hkey
      have hother : ∀ other ∈ entries, entry.1 ≠ other.1 := fun other hother heq =>
        hrest (heq ▸ mem_map_of_mem hother)
      calc play (Function.update book entry.1 none) (spends entries) entry.1
          = Function.update book entry.1 none entry.1 :=
            play_of_forall_ne (forall_key_spends.mpr hother)
        _ = none := Function.update_self ..

/-- Distinct keys that are free can be filled in a row. -/
theorem legal_creates (hkeys : (entries.map Prod.fst).Nodup)
    (habsent : ∀ entry ∈ entries, book entry.1 = none) : Legal book (creates entries) := by
  refine legal_of_nodup ?_ (forall_mem_map.mpr habsent)
  rwa [creates, map_map]

/-! ## What the ledger holds -/

section Holds

variable [DecidableEq V] {held : K × V →₀ ℤ}

/-- The entries of the ledger, each held once. -/
def Holds (book : K → Option V) (held : K × V →₀ ℤ) : Prop :=
  ∀ key value, held (key, value) = if book key = some value then 1 else 0

omit [DecidableEq K] in
theorem holds_empty : Holds (fun _ : K => (none : Option V)) 0 := by
  intro key value
  simp

theorem Holds.applyTo (hheld : Holds book held) (hlegal : move.Legal book) :
    Holds (move.applyTo book) (held + move.count) := by
  intro key value
  rw [Finsupp.add_apply, hheld key value]
  cases move with
  | spend spent removed =>
    have hlegal : book spent = some removed := hlegal
    by_cases hkey : key = spent
    · subst hkey
      by_cases hvalue : removed = value <;> simp [Move.applyTo, Move.count, hlegal, hvalue]
    · simp [Move.applyTo, Move.count, hkey]
  | create created added =>
    have hlegal : book created = none := hlegal
    by_cases hkey : key = created
    · subst hkey
      by_cases hvalue : added = value <;> simp [Move.applyTo, Move.count, hlegal, hvalue]
    · simp [Move.applyTo, Move.count, hkey]

/-- Legal moves change what the ledger holds by their signed sum. -/
theorem Holds.play (hheld : Holds book held) (hlegal : Legal book moves) :
    Holds (play book moves) (held + count moves) := by
  induction moves generalizing book held with
  | nil => simpa using hheld
  | cons move moves ih =>
    rw [count_cons, ← add_assoc]
    exact ih (hheld.applyTo hlegal.1) hlegal.2

end Holds

/-! ## Totals -/

section Total

variable (weight : V → ℤ) {held held' : K × V →₀ ℤ}

/-- The total weight of the entries held. -/
noncomputable def total (held : K × V →₀ ℤ) : ℤ :=
  held.sum fun entry count => count * weight entry.2

omit [DecidableEq K]

@[simp] theorem total_zero : total weight (0 : K × V →₀ ℤ) = 0 := sum_zero_index

theorem total_add : total weight (held + held') = total weight held + total weight held' := by
  exact sum_add_index' (fun _ => zero_mul _) fun _ _ _ => add_mul _ _ _

theorem total_single (entry : K × V) (count : ℤ) :
    total weight (single entry count) = count * weight entry.2 :=
  sum_single_index (zero_mul _)

/-- A ledger of nonnegative entries has a nonnegative total. -/
theorem Holds.total_nonneg [DecidableEq V] {book : K → Option V} (hheld : Holds book held)
    (hweight : ∀ value, 0 ≤ weight value) : 0 ≤ total weight held := by
  refine Finset.sum_nonneg fun entry _ => mul_nonneg ?_ (hweight entry.2)
  rw [hheld entry.1 entry.2]
  split
  · exact zero_le_one
  · exact le_rfl

theorem total_count_spends (entries : List (K × V)) :
    total weight (count (spends entries)) = -(entries.map fun entry => weight entry.2).sum := by
  induction entries with
  | nil => simp [spends]
  | cons entry entries ih =>
    rw [spends, map_cons, count_cons, total_add, ← spends, ih, Move.count, total_single,
      map_cons, List.sum_cons, neg_add, neg_one_mul]

theorem total_count_creates (entries : List (K × V)) :
    total weight (count (creates entries)) = (entries.map fun entry => weight entry.2).sum := by
  induction entries with
  | nil => simp [creates]
  | cons entry entries ih =>
    rw [creates, map_cons, count_cons, total_add, ← creates, ih, Move.count, total_single,
      map_cons, List.sum_cons, one_mul]

end Total

end Ledger

end Qaspa
