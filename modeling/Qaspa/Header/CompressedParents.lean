import Qaspa.Lib.BinarySearch
import Qaspa.Lib.RunLength

/-! # Parents by level

A header lists its parents for every block level. Neighbouring levels mostly share
their parents, so the lists are kept as runs with cumulative counts. A peer sends
the runs themselves; they are checked only against each other, which lets through a
first run that covers no level.
-/

namespace Qaspa.Header

open Outcome RunLength List

variable {Hash : Type}

inductive CompressedParentsError where
  | levelsExceeded
  | levelsNotStrictlyIncreasing
  | notFullyCompressed
  deriving DecidableEq, Repr

/-- The run `(cumCount, parents)` says that the levels from the end of the run before it
up to `cumCount` have these parents. -/
structure CompressedParents (Hash : Type) where
  runs : List (UInt8 × List Hash)
  deriving DecidableEq, Repr

namespace CompressedParents

variable {ε : Type}

def expandedLen (parents : CompressedParents Hash) : Nat :=
  match parents.runs.getLast? with
  | some run => run.1.toNat
  | none => 0

/-- The counts as numbers. -/
def counts (parents : CompressedParents Hash) : List (Nat × List Hash) :=
  parents.runs.map fun run => (run.1.toNat, run.2)

def get (parents : CompressedParents Hash) (index : Nat) : Outcome ε (Option (List Hash)) :=
  if parents.expandedLen ≤ index then .ok none
  else if index = 0 then do
    let run ← unwrap parents.runs[0]?
    return some run.2
  else do
    let i ← partitionPoint
      (fun run => do return decide ((← U64.sub run.1.toNat 1) < index)) parents.runs
    let run ← unwrap parents.runs[i]?
    return some run.2

def expandedIter (parents : CompressedParents Hash) : Outcome ε (List (List Hash)) :=
  expandRle parents.counts

variable [DecidableEq Hash]

/-! ## Conversions -/

/-- Compress the lists of all levels. -/
def tryFromLevels (levels : List (List Hash)) :
    Except CompressedParentsError (CompressedParents Hash) :=
  if 255 < levels.length then .error .levelsExceeded
  else .ok ⟨(rleCumulative levels).map fun run => (UInt8.ofNat run.1, run.2)⟩

/-- Compare each run with the one before it. -/
def checkRuns : List (UInt8 × List Hash) → Except CompressedParentsError Unit
  | (lastCumulativeLevel, lastParents) :: (cumulativeLevel, parents) :: runs =>
    if cumulativeLevel ≤ lastCumulativeLevel then .error .levelsNotStrictlyIncreasing
    else if lastParents = parents then .error .notFullyCompressed
    else checkRuns ((cumulativeLevel, parents) :: runs)
  | _ => .ok ()

/-- Accept the runs that a peer sends. -/
def tryFromRuns (runs : List (UInt8 × List Hash)) :
    Except CompressedParentsError (CompressedParents Hash) := do
  checkRuns runs
  return ⟨runs⟩

/-- The lists of all levels. -/
def toLevels (parents : CompressedParents Hash) : Outcome ε (List (List Hash)) :=
  expandRle parents.counts

/-! ## Accepted runs -/

variable {runs : List (UInt8 × List Hash)} {parents : CompressedParents Hash}

/-- Runs that pass the check are canonical behind any count below the first one. -/
theorem canonical_of_checkRuns (hcheck : checkRuns runs = .ok ()) {previous : Nat}
    (hfirst : ∀ run ∈ runs.head?, previous < run.1.toNat) :
    Canonical previous (counts ⟨runs⟩) := by
  induction runs generalizing previous with
  | nil => trivial
  | cons run runs ih =>
    have hlt : previous < run.1.toNat := hfirst run rfl
    cases runs with
    | nil => exact ⟨hlt, by simp, trivial⟩
    | cons next runs =>
      rw [checkRuns, ite_error_eq_ok, ite_error_eq_ok] at hcheck
      obtain ⟨hincreasing, hne, hrest⟩ := hcheck
      refine ⟨hlt, by simpa using hne, ih hrest ?_⟩
      simpa [UInt8.lt_iff_toNat_lt] using hincreasing

omit [DecidableEq Hash] in
theorem lastCount_counts (parents : CompressedParents Hash) :
    lastCount 0 parents.counts = parents.expandedLen := by
  unfold lastCount counts expandedLen
  rw [getLast?_map]
  cases parents.runs.getLast? <;> rfl

omit [DecidableEq Hash] in
theorem expandedLen_lt (parents : CompressedParents Hash) : parents.expandedLen < 256 := by
  unfold expandedLen
  split
  · exact UInt8.toNat_lt _
  · decide

omit [DecidableEq Hash] in
theorem getElem?_counts {index : Nat} {run : UInt8 × List Hash}
    (hrun : parents.runs[index]? = some run) :
    parents.counts[index]? = some (run.1.toNat, run.2) := by
  simp [counts, hrun]

omit [DecidableEq Hash] in
/-- The lookup of a level finds the run that the level is in. -/
theorem get_eq_ok {levels : List (List Hash)} (hcanonical : Canonical 0 parents.counts)
    (hlevels : (parents.expandedIter : Outcome ε (List (List Hash))) = .ok levels) (index : Nat) :
    (parents.get index : Outcome ε (Option (List Hash))) = .ok levels[index]? := by
  obtain ⟨items, hitems, hlength, hget⟩ := hcanonical.expandFrom_eq
  obtain rfl : items = levels := Except.ok.inj (hitems.symm.trans hlevels)
  rw [lastCount_counts] at hlength
  have hpositive : ∀ (position : Nat) (run : UInt8 × List Hash),
      parents.runs[position]? = some run → 0 < run.1.toNat := fun position run hrun =>
    hcanonical.lt_of_mem (mem_of_getElem? (getElem?_counts hrun))
  unfold get
  split
  next hout => rw [getElem?_eq_none (by omega)]
  next hin =>
    obtain ⟨cut, run, hrun, hitem, hcut⟩ :=
      hget index (Nat.zero_le _) (by rw [lastCount_counts]; omega)
    obtain ⟨stored, hstored, rfl⟩ : ∃ stored, parents.runs[cut]? = some stored ∧
        (stored.1.toNat, stored.2) = run := by
      simpa [counts] using hrun
    have hbound : cut < parents.runs.length := (List.getElem?_eq_some_iff.mp hstored).1
    rw [Nat.sub_zero] at hitem
    rw [hitem]
    split
    next hzero =>
      -- No run ends at the first level, so the first run covers it.
      have hfirst : parents.runs[0]? = some (parents.runs[0]) :=
        getElem?_eq_getElem (Nat.zero_lt_of_lt hbound)
      have hcutZero : cut = 0 := by
        have hends := hcut 0 _ (getElem?_counts hfirst)
        have hcount := hpositive 0 _ hfirst
        omega
      simp [← hcutZero, hstored, unwrap]
    next hlater =>
      apply bind_eq_ok.mpr
      refine ⟨cut, partitionPoint_eq ⟨Nat.le_of_lt hbound, ?_⟩, by simp [hstored, unwrap]⟩
      intro position element helement
      have hends := hcut position _ (getElem?_counts helement)
      have hcount := hpositive position element helement
      have hsub : (U64.sub element.1.toNat 1 : Outcome ε Nat) = .ok (element.1.toNat - 1) := by
        simp
        omega
      simp only [hsub, ok_bind]
      congr 2
      apply propext
      omega

/-- An accepted list of runs is the compression of the lists of all levels, and each level
is looked up in it, exactly if its first run covers a level. -/
theorem tryFromRuns_canonical (haccepted : tryFromRuns runs = .ok parents) :
    (∃ levels : List (List Hash),
      (parents.expandedIter : Outcome ε (List (List Hash))) = .ok levels ∧
      (parents.toLevels : Outcome ε (List (List Hash))) = .ok levels ∧
      levels.length = parents.expandedLen ∧
      (∀ index, (parents.get index : Outcome ε (Option (List Hash))) = .ok levels[index]?) ∧
      tryFromLevels levels = .ok parents) ↔ ∀ run ∈ runs.head?, run.1 ≠ 0 := by
  obtain ⟨hcheck, hruns⟩ := check_bind_eq_ok.mp haccepted
  cases hruns
  constructor
  · -- A first run that covers no level can not be expanded.
    rintro ⟨levels, hexpand, -⟩ run hrun hzero
    obtain ⟨rest, rfl⟩ := head?_eq_some_iff.mp hrun
    simpa [hzero] using (expandFrom_cons_eq_ok.mp hexpand).1
  intro hfirst
  have hcanonical : Canonical 0 (counts ⟨runs⟩) := by
    apply canonical_of_checkRuns hcheck
    intro run hrun
    exact Nat.pos_of_ne_zero fun hzero => hfirst run hrun (UInt8.toNat_inj.mp hzero)
  obtain ⟨levels, hlevels, hlength, _⟩ := hcanonical.expandFrom_eq
  rw [lastCount_counts, Nat.zero_add] at hlength
  refine ⟨levels, hlevels, hlevels, hlength, get_eq_ok hcanonical hlevels, ?_⟩
  have hbound : ¬ 255 < levels.length := by
    have hlt := expandedLen_lt (⟨runs⟩ : CompressedParents Hash)
    omega
  rw [tryFromLevels, if_neg hbound, rleCumulative, hcanonical.cumulate_dedup hlevels]
  simp [counts, Function.comp_def]

theorem tryFromRuns_canonical_pair :
    ∃ levels : List (List Nat),
      (expandedIter ⟨[(3, [1]), (5, [2])]⟩ : Outcome Empty (List (List Nat))) = .ok levels ∧
        levels.length = 5 := by
  have haccepted : tryFromRuns [(3, [1]), (5, [2])] =
      .ok (⟨[(3, [1]), (5, [2])]⟩ : CompressedParents Nat) := rfl
  obtain ⟨levels, hexpanded, _, hlength, _⟩ := (tryFromRuns_canonical haccepted).mpr (by simp)
  exact ⟨levels, hexpanded, hlength⟩

/-- The check accepts a first run that covers no level. Its parents are then returned for
level zero, and the other levels can not be read. -/
theorem tryFromRuns_zero :
    tryFromRuns [(0, [1]), (3, [2])] = .ok (⟨[(0, [1]), (3, [2])]⟩ : CompressedParents Nat) ∧
      (get ⟨[(0, [1]), (3, [2])]⟩ 0 : Outcome Empty (Option (List Nat))) = .ok (some [1]) ∧
      (get ⟨[(0, [1]), (3, [2])]⟩ 1 : Outcome Empty (Option (List Nat))) = .error .panic ∧
      (expandedIter ⟨[(0, [1]), (3, [2])]⟩ : Outcome Empty (List (List Nat))) = .error .panic := by
  refine ⟨rfl, rfl, rfl, rfl⟩

end CompressedParents

end Qaspa.Header
