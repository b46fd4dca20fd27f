import Qaspa.Lib.Outcome

/-! # Cumulative run lengths

A list with repeated neighbours is encoded by its runs. A run is kept with the
number of elements up to its end, so that the counts grow strictly. The encoding
of a list is canonical: neighbouring runs differ. Expanding panics on counts that
do not grow; on a canonical encoding it gives back the encoded list, and encoding
that list again gives the same runs.
-/

namespace Qaspa.RunLength

open Outcome List

variable {ε α : Type}

/-- Expand the runs behind the first `previous` elements. -/
def expandFrom (previous : Nat) : List (Nat × α) → Outcome ε (List α)
  | [] => .ok []
  | (cumulative, item) :: runs =>
    if previous < cumulative then do
      let rest ← expandFrom cumulative runs
      return List.replicate (cumulative - previous) item ++ rest
    else .error .panic

def expandRle (runs : List (Nat × α)) : Outcome ε (List α) := expandFrom 0 runs

/-- The runs with their lengths, where `count` copies of the item have been seen. -/
def dedupFrom [DecidableEq α] (count : Nat) (item : α) : List α → List (Nat × α)
  | [] => [(count, item)]
  | next :: rest =>
    if item = next then dedupFrom (count + 1) item rest
    else (count, item) :: dedupFrom 1 next rest

/-- The runs with their lengths, as the itertools crate counts them. -/
def dedupWithCount [DecidableEq α] : List α → List (Nat × α)
  | [] => []
  | first :: rest => dedupFrom 1 first rest

/-- Replace the lengths of the runs by the numbers of elements up to their ends. -/
def cumulate (cumulative : Nat) : List (Nat × α) → List (Nat × α)
  | [] => []
  | (count, item) :: runs => (cumulative + count, item) :: cumulate (cumulative + count) runs

def rleCumulative [DecidableEq α] (items : List α) : List (Nat × α) :=
  cumulate 0 (dedupWithCount items)

theorem expandFrom_cons_eq_ok {previous cumulative : Nat} {item : α} {runs : List (Nat × α)}
    {items : List α} :
    (expandFrom previous ((cumulative, item) :: runs) : Outcome ε (List α)) = .ok items ↔
      previous < cumulative ∧ ∃ rest, (expandFrom cumulative runs : Outcome ε (List α)) = .ok rest ∧
        items = replicate (cumulative - previous) item ++ rest := by
  rw [expandFrom]
  split
  next hlt =>
    rw [bind_eq_ok]
    simp [hlt, @eq_comm _ items]
  next hle => simp [hle]

/-- The counts grow strictly from the given one, and neighbouring runs differ. -/
def Canonical : Nat → List (Nat × α) → Prop
  | _, [] => True
  | previous, (cumulative, item) :: runs =>
    previous < cumulative ∧ (∀ run ∈ runs.head?, item ≠ run.2) ∧ Canonical cumulative runs

/-- The number of elements up to the end of the last run. -/
def lastCount (previous : Nat) (runs : List (Nat × α)) : Nat :=
  (runs.getLast?.map Prod.fst).getD previous

@[simp] theorem lastCount_cons (previous : Nat) (run : Nat × α) (runs : List (Nat × α)) :
    lastCount previous (run :: runs) = lastCount run.1 runs := by
  cases runs with
  | nil => rfl
  | cons next runs => simp [lastCount, getLast?_eq_some_getLast]

section Canonical

variable {previous : Nat} {runs : List (Nat × α)}

theorem Canonical.lt_of_mem (hcanonical : Canonical previous runs) {run : Nat × α}
    (hrun : run ∈ runs) : previous < run.1 := by
  induction runs generalizing previous with
  | nil => simp at hrun
  | cons first runs ih =>
    obtain ⟨hlt, _, hrest⟩ := hcanonical
    rcases mem_cons.mp hrun with rfl | hmem
    · exact hlt
    · exact Nat.lt_trans hlt (ih hrest hmem)

/-- The expansion of a canonical encoding. An element is from the first run that ends
behind it. -/
theorem Canonical.expandFrom_eq (hcanonical : Canonical previous runs) :
    ∃ items, (expandFrom previous runs : Outcome ε (List α)) = .ok items ∧
      previous + items.length = lastCount previous runs ∧
      ∀ index, previous ≤ index → index < lastCount previous runs →
        ∃ (cut : Nat) (run : Nat × α), runs[cut]? = some run ∧
          items[index - previous]? = some run.2 ∧
          ∀ (position : Nat) (other : Nat × α), runs[position]? = some other →
            (other.1 ≤ index ↔ position < cut) := by
  induction runs generalizing previous with
  | nil =>
    refine ⟨[], rfl, rfl, fun index hle hlt => ?_⟩
    exact absurd hlt (Nat.not_lt.mpr hle)
  | cons run runs ih =>
    obtain ⟨cumulative, item⟩ := run
    obtain ⟨hlt, _, hrest⟩ := hcanonical
    obtain ⟨items, hitems, hlength, hget⟩ := ih hrest
    refine ⟨replicate (cumulative - previous) item ++ items, ?_, ?_, ?_⟩
    · rw [expandFrom, if_pos hlt, hitems]
      rfl
    · rw [lastCount_cons, ← hlength, length_append, length_replicate]
      omega
    · intro index hle hindex
      rw [lastCount_cons] at hindex
      by_cases hfirst : index < cumulative
      · refine ⟨0, (cumulative, item), rfl, ?_, ?_⟩
        · rw [getElem?_append_left (by simp; omega), getElem?_replicate,
            if_pos (by omega)]
        · intro position other hother
          have hbehind : cumulative ≤ other.1 := by
            rcases mem_cons.mp (mem_of_getElem? hother) with rfl | hmem
            · exact Nat.le_refl _
            · exact Nat.le_of_lt (hrest.lt_of_mem hmem)
          omega
      · obtain ⟨cut, run, hrun, hitem, hcut⟩ := hget index (by omega) hindex
        refine ⟨cut + 1, run, by simpa using hrun, ?_, ?_⟩
        · rw [getElem?_append_right (by simp; omega), length_replicate]
          rwa [show index - previous - (cumulative - previous) = index - cumulative by omega]
        · intro position other hother
          cases position with
          | zero =>
            cases hother
            omega
          | succ position =>
            rw [hcut position other (by simpa using hother)]
            omega

/-! ## Encoding an expansion again -/

variable [DecidableEq α]

theorem dedupFrom_replicate (count : Nat) (item : α) (more : Nat) (rest : List α) :
    dedupFrom count item (replicate more item ++ rest) = dedupFrom (count + more) item rest := by
  induction more generalizing count with
  | zero => simp
  | succ more ih =>
    rw [replicate_succ, cons_append, dedupFrom, if_pos rfl, ih]
    congr 1
    omega

/-- A run ends where another item follows. -/
theorem dedupFrom_of_ne (count : Nat) {item : α} {rest : List α}
    (hnext : ∀ next ∈ rest.head?, item ≠ next) :
    dedupFrom count item rest = (count, item) :: dedupWithCount rest := by
  cases rest with
  | nil => rfl
  | cons next rest => rw [dedupFrom, if_neg (hnext next rfl), dedupWithCount]

omit [DecidableEq α] in
/-- The expansion starts with the item of the first run. -/
theorem head?_of_expandFrom {items : List α}
    (hexpand : (expandFrom previous runs : Outcome ε (List α)) = .ok items) :
    items.head? = runs.head?.map Prod.snd := by
  cases runs with
  | nil =>
    cases hexpand
    rfl
  | cons run runs =>
    obtain ⟨hlt, rest, _, rfl⟩ := expandFrom_cons_eq_ok.mp hexpand
    obtain ⟨more, hmore⟩ := Nat.exists_eq_add_of_lt hlt
    simp [show run.1 - previous = more + 1 by omega, replicate_succ]

/-- The runs of an expansion are the expanded ones. -/
theorem Canonical.cumulate_dedup (hcanonical : Canonical previous runs) {items : List α}
    (hexpand : (expandFrom previous runs : Outcome ε (List α)) = .ok items) :
    cumulate previous (dedupWithCount items) = runs := by
  induction runs generalizing previous items with
  | nil =>
    cases hexpand
    rfl
  | cons run runs ih =>
    obtain ⟨cumulative, item⟩ := run
    obtain ⟨_, hne, hrest⟩ := hcanonical
    obtain ⟨hlt, rest, htail, rfl⟩ := expandFrom_cons_eq_ok.mp hexpand
    obtain ⟨more, rfl⟩ := Nat.exists_eq_add_of_lt hlt
    have hnext : ∀ next ∈ rest.head?, item ≠ next := by
      intro next hmem
      rw [head?_of_expandFrom htail, Option.mem_def, Option.map_eq_some_iff] at hmem
      obtain ⟨run, hrun, rfl⟩ := hmem
      exact hne run hrun
    rw [show previous + more + 1 - previous = more + 1 by omega, replicate_succ,
      cons_append, dedupWithCount, dedupFrom_replicate, dedupFrom_of_ne _ hnext, cumulate,
      show previous + (1 + more) = previous + more + 1 by omega, ih hrest htail]

end Canonical

end Qaspa.RunLength
