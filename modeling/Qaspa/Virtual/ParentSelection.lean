import Qaspa.Ghostdag.Order
import Qaspa.Lib.Shuffle

/-! # Selecting virtual parents

Parents are added to the sink one by one as long as their number and the size of the
mergeset allow it. A candidate that would make the mergeset too large is replaced by one of
its ancestors, and the other candidates are pruned against it. The parents and the candidates
that are left form an antichain all along, and the counter is the size of the mergeset of
the parents chosen so far.
-/

namespace Qaspa.Virtual

open Ghostdag Outcome List AList

variable {Hash : Type} [LinearOrder Hash]

inductive MergesetIncreaseResult (Hash : Type) where
  | accepted (increaseSize : Nat)
  | rejected (newCandidate : Hash)
  deriving DecidableEq, Repr

/-- The limits of a block. They admit a block with a single parent. -/
structure BlockLimits where
  maxBlockParents : Nat
  mergesetSizeLimit : Nat
  maxBlockParents_pos : 0 < maxBlockParents
  mergesetSizeLimit_pos : 0 < mergesetSizeLimit

/-! ## The selection -/

/-- Put a block that was not visited at the end of the queue. -/
def visit (state : List Hash × List Hash) (parent : Hash) : List Hash × List Hash :=
  if parent ∈ state.2 then state else (state.1 ++ [parent], parent :: state.2)

/-- Traverse the past of a candidate outside the past of the selected parents, counting the
blocks, until the budget is exceeded. -/
def increaseFrom (stores : Stores Hash) (selectedParents : List Hash) (budget : Nat) :
    Nat → List Hash → List Hash → Nat → Checked (MergesetIncreaseResult Hash)
  | _, [], _, mergesetIncrease => .ok (.accepted mergesetIncrease)
  | 0, _ :: _, _, _ => .error .outOfFuel
  | fuel + 1, current :: queue, visited, mergesetIncrease =>
    if selectedParents.any (stores.isDagAncestorOf current) then
      increaseFrom stores selectedParents budget fuel queue visited mergesetIncrease
    else if budget < mergesetIncrease + 1 then .ok (.rejected current)
    else do
      let currentParents ← unwrap (stores.relations.lookup current)
      let state := currentParents.foldl visit (queue, visited)
      increaseFrom stores selectedParents budget fuel state.1 state.2 (mergesetIncrease + 1)

/-- The count starts with the candidate itself. No block is queued twice. -/
def mergesetIncrease (stores : Stores Hash) (selectedParents : List Hash) (candidate : Hash)
    (budget : Nat) : Checked (MergesetIncreaseResult Hash) := do
  let candidateParents ← unwrap (stores.relations.lookup candidate)
  increaseFrom stores selectedParents budget stores.relations.keys.length candidateParents
    candidateParents 1

namespace BlockLimits

variable (limits : BlockLimits)

def maxVirtualParentCandidates : Nat := limits.maxBlockParents * 3

/-- Keep half of the parents by their blue work and draw the rest. -/
def drawCandidates (draw : Nat → Nat) (candidates : List Hash) : List Hash :=
  if candidates.length > limits.maxVirtualParentCandidates then
    (Shuffle.drawInto draw (limits.maxBlockParents / 2)
      (limits.maxVirtualParentCandidates - limits.maxBlockParents / 2) candidates).take
        limits.maxVirtualParentCandidates
  else if candidates.length > limits.maxBlockParents / 2 then
    candidates.take (limits.maxBlockParents / 2) ++
      Shuffle.shuffle draw (candidates.drop (limits.maxBlockParents / 2))
  else candidates

/-- Add parents until a limit is reached. -/
def addParents (stores : Stores Hash) :
    Nat → List Hash → Nat → List Hash → Checked (List Hash × Nat)
  | _, virtualParents, mergesetSize, [] => .ok (virtualParents, mergesetSize)
  | 0, _, _, _ :: _ => .error .outOfFuel
  | fuel + 1, virtualParents, mergesetSize, candidate :: candidates =>
    if mergesetSize ≥ limits.mergesetSizeLimit ∨ virtualParents.length ≥ limits.maxBlockParents then
      .ok (virtualParents, mergesetSize)
    else do
      match ← mergesetIncrease stores virtualParents candidate
          (limits.mergesetSizeLimit - mergesetSize) with
      | .accepted increaseSize =>
        addParents stores fuel (virtualParents ++ [candidate]) (mergesetSize + increaseSize)
          candidates
      | .rejected newCandidate =>
        if candidates.any (stores.isDagAncestorOf · newCandidate) then
          addParents stores fuel virtualParents mergesetSize candidates
        else
          addParents stores fuel virtualParents mergesetSize
            (candidates.filter (fun h => !stores.isDagAncestorOf newCandidate h) ++ [newCandidate])

/-- The parents before those that break the merge bound are removed, and the size of their
mergeset. A candidate is replaced by smaller and smaller ancestors only. -/
def selectParents (stores : Stores Hash) (draw : Nat → Nat) (selectedParent : Hash)
    (candidates : List Hash) : Checked (List Hash × Nat) := do
  let candidates := limits.drawCandidates draw candidates
  let (virtualParents, mergesetSize) ← limits.addParents stores
    (candidates.length * stores.relations.keys.length) [selectedParent] 1 candidates
  assert (mergesetSize ≤ limits.mergesetSizeLimit)
  assert (virtualParents.length ≤ limits.maxBlockParents)
  return (virtualParents, mergesetSize)

omit [LinearOrder Hash] in
theorem drawCandidates_subperm (draw : Nat → Nat) (candidates : List Hash) :
    (limits.drawCandidates draw candidates).Subperm candidates := by
  rw [drawCandidates]
  split
  · exact (take_sublist _ _).subperm.trans (Shuffle.drawInto_perm _ _ _ _).subperm
  · split
    · have hperm := (Shuffle.shuffle_perm draw
        (candidates.drop (limits.maxBlockParents / 2))).append_left
          (candidates.take (limits.maxBlockParents / 2))
      rw [take_append_drop] at hperm
      exact hperm.subperm
    · exact (List.Perm.refl _).subperm

end BlockLimits

/-! ## Counting the increase -/

/-- A DAG that is queried correctly. The parents of a block form a set. -/
structure CorrectDag (stores : Stores Hash) : Prop where
  closed : Dag.Closed stores.relations.lookup
  oracle : stores.OracleCorrect
  acyclic : ∀ x, ¬ stores.InStrictPast x x
  parents_nodup : ∀ x parents, stores.relations.lookup x = some parents → parents.Nodup

/-- Visiting some blocks queues those that are new. -/
theorem foldl_visit (blocks : List Hash) (queue visited : List Hash) :
    ∃ new, blocks.foldl visit (queue, visited) = (queue ++ new, new.reverse ++ visited) ∧
      new.Nodup ∧ ∀ x, x ∈ new ↔ x ∈ blocks ∧ x ∉ visited := by
  induction blocks generalizing queue visited with
  | nil => exact ⟨[], by simp, nodup_nil, by simp⟩
  | cons block blocks ih =>
    rw [foldl_cons, visit]
    split
    next hmem =>
      obtain ⟨new, hfold, hnodup, hnew⟩ := ih queue visited
      refine ⟨new, hfold, hnodup, fun x => ?_⟩
      rw [hnew, mem_cons]
      by_cases hx : x = block <;> simp [hx, hmem]
    next hmem =>
      obtain ⟨new, hfold, hnodup, hnew⟩ := ih (queue ++ [block]) (block :: visited)
      refine ⟨block :: new, by simpa using hfold, ?_, fun x => ?_⟩
      · refine nodup_cons.mpr ⟨fun hblock => ?_, hnodup⟩
        exact ((hnew block).mp hblock).2 (.head _)
      · rw [mem_cons, hnew]
        by_cases hx : x = block <;> simp [hx, hmem]

namespace CorrectDag

variable {stores : Stores Hash} {selected : List Hash} {candidate : Hash}

/-- In the past of one of the blocks. -/
def Covered (stores : Stores Hash) (blocks : List Hash) (x : Hash) : Prop :=
  ∃ block ∈ blocks, stores.InPast x block

/-- Between two rounds: the visited blocks are queued, counted, or covered by the selected
parents, and the parents of the counted ones have been visited. -/
structure Traversed (stores : Stores Hash) (selected : List Hash) (candidate : Hash)
    (queue visited counted : List Hash) : Prop where
  nodup : visited.Nodup
  below : ∀ x ∈ visited, stores.InStrictPast x candidate
  queue_nodup : queue.Nodup
  queued : ∀ x ∈ queue, x ∈ visited
  cases : ∀ x ∈ visited, x ∈ queue ∨ x ∈ counted ∨ Covered stores selected x
  counted_nodup : counted.Nodup
  counted_visited : ∀ x ∈ counted, x ∈ visited ∧ x ∉ queue ∧ ¬ Covered stores selected x
  expanded : ∀ x parent, x = candidate ∨ x ∈ counted → stores.ParentOf parent x → parent ∈ visited

namespace Traversed

variable {current : Hash} {queue visited counted : List Hash}

section

variable (htraversed : Traversed stores selected candidate (current :: queue) visited counted)

include htraversed

theorem skip (hcovered : Covered stores selected current) :
    Traversed stores selected candidate queue visited counted where
  nodup := htraversed.nodup
  below := htraversed.below
  queue_nodup := (nodup_cons.mp htraversed.queue_nodup).2
  queued x hx := htraversed.queued x (.tail _ hx)
  cases x hx := by
    rcases htraversed.cases x hx with hqueue | hrest
    · rcases mem_cons.mp hqueue with rfl | hqueue
      · exact .inr (.inr hcovered)
      · exact .inl hqueue
    · exact .inr hrest
  counted_nodup := htraversed.counted_nodup
  counted_visited x hx := by
    obtain ⟨hvisited, hqueue, hnot⟩ := htraversed.counted_visited x hx
    exact ⟨hvisited, fun hmem => hqueue (.tail _ hmem), hnot⟩
  expanded := htraversed.expanded

theorem count (hnot : ¬ Covered stores selected current) {parents new : List Hash}
    (hparents : stores.relations.lookup current = some parents) (hnodup : new.Nodup)
    (hnew : ∀ x, x ∈ new ↔ x ∈ parents ∧ x ∉ visited) :
    Traversed stores selected candidate (queue ++ new) (new.reverse ++ visited)
      (current :: counted) := by
  have hvisited := htraversed.queued current (.head _)
  obtain ⟨hcurrent, hqueue⟩ := nodup_cons.mp htraversed.queue_nodup
  have hmem : ∀ x, x ∈ new.reverse ++ visited ↔ x ∈ new ∨ x ∈ visited := by simp
  have hfresh : ∀ x ∈ new, x ∉ visited := fun x hx => ((hnew x).mp hx).2
  exact {
    nodup := by
      refine List.Nodup.append (nodup_reverse.mpr hnodup) htraversed.nodup ?_
      exact fun x hx hold => hfresh x (mem_reverse.mp hx) hold
    below := by
      intro x hx
      rcases (hmem x).mp hx with hx | hx
      · have hedge : stores.ParentOf x current := ⟨parents, hparents, ((hnew x).mp hx).1⟩
        exact (Dag.InStrictPast.of_parentOf hedge).trans_inPast (htraversed.below _ hvisited).inPast
      · exact htraversed.below x hx
    queue_nodup := by
      refine List.Nodup.append hqueue hnodup fun x hx hold => ?_
      exact hfresh x hold (htraversed.queued x (.tail _ hx))
    queued := by
      intro x hx
      rw [hmem]
      rcases mem_append.mp hx with hx | hx
      · exact .inr (htraversed.queued x (.tail _ hx))
      · exact .inl hx
    cases := by
      intro x hx
      rcases (hmem x).mp hx with hx | hx
      · exact .inl (mem_append_right _ hx)
      · rcases htraversed.cases x hx with hqueued | hcounted | hcovered
        · rcases mem_cons.mp hqueued with rfl | hqueued
          · exact .inr (.inl (.head _))
          · exact .inl (mem_append_left _ hqueued)
        · exact .inr (.inl (.tail _ hcounted))
        · exact .inr (.inr hcovered)
    counted_nodup := by
      refine nodup_cons.mpr ⟨fun hold => ?_, htraversed.counted_nodup⟩
      exact (htraversed.counted_visited current hold).2.1 (.head _)
    counted_visited := by
      intro x hx
      have hboth : x ∈ visited ∧ x ∉ queue ∧ ¬ Covered stores selected x := by
        rcases mem_cons.mp hx with rfl | hx
        · exact ⟨hvisited, hcurrent, hnot⟩
        · obtain ⟨hold, hqueued, hcovered⟩ := htraversed.counted_visited x hx
          exact ⟨hold, fun hmem => hqueued (.tail _ hmem), hcovered⟩
      obtain ⟨hold, hqueued, hcovered⟩ := hboth
      refine ⟨(hmem x).mpr (.inr hold), fun happend => ?_, hcovered⟩
      rcases mem_append.mp happend with hx | hx
      · exact hqueued hx
      · exact hfresh x hx hold
    expanded := by
      intro x parent hx hedge
      rw [hmem]
      by_cases hcase : x = candidate ∨ x ∈ counted
      · exact .inr (htraversed.expanded x parent hcase hedge)
      · obtain rfl : x = current := by
          rcases hx with rfl | hx
          · exact absurd (.inl rfl) hcase
          · exact (mem_cons.mp hx).resolve_right fun hold => hcase (.inr hold)
        obtain ⟨list, hlist, hmember⟩ := hedge
        cases hparents.symm.trans hlist
        by_cases hold : parent ∈ visited
        · exact .inr hold
        · exact .inl ((hnew parent).mpr ⟨hmember, hold⟩) }

end

/-- At the end exactly the uncovered past has been counted. -/
theorem mem_counted (htraversed : Traversed stores selected candidate [] visited counted)
    (x : Hash) :
    x ∈ counted ↔ stores.InStrictPast x candidate ∧ ¬ Covered stores selected x := by
  constructor
  · intro hx
    obtain ⟨hvisited, _, hnot⟩ := htraversed.counted_visited x hx
    exact ⟨htraversed.below x hvisited, hnot⟩
  · rintro ⟨hpast, hnot⟩
    -- the path up to the candidate is uncovered as well
    induction hpast using Relation.TransGen.head_induction_on with
    | single hedge =>
      have hvisited := htraversed.expanded candidate _ (.inl rfl) hedge
      exact ((htraversed.cases _ hvisited).resolve_left not_mem_nil).resolve_right hnot
    | @head x middle hedge hpath ih =>
      have hmiddle : ¬ Covered stores selected middle := by
        rintro ⟨block, hblock, hpast⟩
        exact hnot ⟨block, hblock, (Dag.InStrictPast.of_parentOf hedge).inPast.trans hpast⟩
      have hvisited := htraversed.expanded middle x (.inr (ih hmiddle)) hedge
      exact ((htraversed.cases x hvisited).resolve_left not_mem_nil).resolve_right hnot

end Traversed

/-- What the increase means: the size of what the candidate adds, within the budget, or an
uncovered ancestor of the candidate. -/
def IncreaseSpec (stores : Stores Hash) (selected : List Hash) (candidate : Hash) (budget : Nat) :
    MergesetIncreaseResult Hash → Prop
  | .accepted increaseSize => increaseSize ≤ budget ∧ ∃ counted : List Hash, counted.Nodup ∧
      counted.length + 1 = increaseSize ∧
      ∀ x, x ∈ counted ↔ stores.InStrictPast x candidate ∧ ¬ Covered stores selected x
  | .rejected newCandidate => stores.InStrictPast newCandidate candidate ∧
      ¬ Covered stores selected newCandidate

section

variable (hdag : CorrectDag stores) (hcandidate : stores.Known candidate)
  (hselected : ∀ block ∈ selected, stores.Known block)

include hdag hcandidate hselected

theorem increaseFrom_eq_ok {budget fuel : Nat} {queue visited counted : List Hash}
    (htraversed : Traversed stores selected candidate queue visited counted)
    (hbudget : counted.length + 1 ≤ budget)
    (hfuel : queue.length + stores.relations.keys.length ≤ fuel + visited.length) :
    ∃ result, increaseFrom stores selected budget fuel queue visited (counted.length + 1) =
        .ok result ∧ IncreaseSpec stores selected candidate budget result := by
  have hknown : ∀ {queue visited counted : List Hash},
      Traversed stores selected candidate queue visited counted → ∀ x ∈ visited, stores.Known x :=
    fun htraversed x hx =>
      hdag.closed.known_of_inPast (htraversed.below x hx).inPast hcandidate
  induction fuel generalizing queue visited counted with
  | zero =>
    cases queue with
    | nil =>
      exact ⟨_, rfl, hbudget, counted, htraversed.counted_nodup, rfl, htraversed.mem_counted⟩
    | cons current queue =>
      -- no more blocks can be visited than are known
      have hle := (htraversed.nodup.subperm fun x hx => mem_keys.mp
        (lookup_isSome.mp (hknown htraversed x hx))).length_le
      rw [length_cons] at hfuel
      omega
  | succ fuel ih =>
    cases queue with
    | nil =>
      exact ⟨_, rfl, hbudget, counted, htraversed.counted_nodup, rfl, htraversed.mem_counted⟩
    | cons current queue =>
      have hvisited := htraversed.queued current (.head _)
      have hcurrent := hknown htraversed current hvisited
      have hcovered := any_eq_true.trans (exists_congr fun block =>
        and_congr_right fun hblock => hdag.oracle current block hcurrent (hselected block hblock))
      rw [length_cons] at hfuel
      rw [increaseFrom]
      split
      next hany => exact ih (htraversed.skip (hcovered.mp hany)) hbudget (by omega)
      next hany =>
        have hnot : ¬ Covered stores selected current := fun h => hany (hcovered.mpr h)
        split
        · exact ⟨_, rfl, htraversed.below current hvisited, hnot⟩
        next hwithin =>
          obtain ⟨parents, hparents⟩ := Option.isSome_iff_exists.mp hcurrent
          obtain ⟨new, hfold, hnodup, hnew⟩ := foldl_visit parents queue visited
          rw [hparents, unwrap, ok_bind]
          rw [hfold]
          refine ih (htraversed.count hnot hparents hnodup hnew) ?_ ?_
          · rw [length_cons]
            omega
          · rw [length_append, length_append, length_reverse]
            omega

theorem mergesetIncrease_eq_ok {budget : Nat} (hbudget : 1 ≤ budget) :
    ∃ result, mergesetIncrease stores selected candidate budget = .ok result ∧
      IncreaseSpec stores selected candidate budget result := by
  obtain ⟨parents, hparents⟩ := Option.isSome_iff_exists.mp hcandidate
  rw [mergesetIncrease, hparents, unwrap]
  have hnodup := hdag.parents_nodup candidate parents hparents
  have htraversed : Traversed stores selected candidate parents parents [] :=
    { nodup := hnodup
      below := fun x hx => .of_parentOf ⟨parents, hparents, hx⟩
      queue_nodup := hnodup
      queued := fun _ hx => hx
      cases := fun _ hx => .inl hx
      counted_nodup := nodup_nil
      counted_visited := by simp
      expanded := by
        rintro x parent (rfl | hx) ⟨list, hlist, hmem⟩
        · cases hparents.symm.trans hlist
          exact hmem
        · cases hx }
  exact hdag.increaseFrom_eq_ok hcandidate hselected htraversed hbudget (by omega)

end

/-! ## The parents and the candidates -/

/-- The mergeset of a block with the given parents, the first of which is its selected
parent. -/
structure IsMergeset (stores : Stores Hash) (selectedParent : Hash) (parents mergeset : List Hash) :
    Prop where
  nodup : mergeset.Nodup
  mem_iff : ∀ x, x ∈ mergeset ↔ Covered stores parents x ∧ ¬ stores.InStrictPast x selectedParent

/-- Between two rounds. -/
structure Selecting (limits : BlockLimits) (stores : Stores Hash) (sink : Hash)
    (parents : List Hash) (size : Nat) (candidates : List Hash) : Prop where
  head : parents.head? = some sink
  known : ∀ x ∈ parents ++ candidates, stores.Known x
  antichain : Dag.Antichain stores.relations.lookup (parents ++ candidates)
  mergeset : ∃ mergeset, IsMergeset stores sink parents mergeset ∧ mergeset.length = size
  size_le : size ≤ limits.mergesetSizeLimit
  length_le : parents.length ≤ limits.maxBlockParents

variable {limits : BlockLimits} {sink : Hash} {parents candidates : List Hash} {size : Nat}

/-- What the candidates cover, as a bound on the rounds. -/
def pastSize (stores : Stores Hash) (x : Hash) : Nat :=
  (stores.relations.keys.filter (stores.isDagAncestorOf · x)).length

section

variable (hdag : CorrectDag stores)

include hdag

theorem mem_keys_filter {x y : Hash} (hy : stores.Known y) :
    x ∈ stores.relations.keys.filter (stores.isDagAncestorOf · y) ↔ stores.InPast x y := by
  rw [mem_filter]
  constructor
  · rintro ⟨hkey, hanswer⟩
    have hx : stores.Known x := lookup_isSome.mpr (mem_keys.mpr hkey)
    exact (hdag.oracle x y hx hy).mp hanswer
  · intro hpast
    have hx : stores.Known x := hdag.closed.known_of_inPast hpast hy
    exact ⟨mem_keys.mp (lookup_isSome.mp hx), (hdag.oracle x y hx hy).mpr hpast⟩

theorem pastSize_lt {x y : Hash} (hy : stores.Known y) (hpast : stores.InStrictPast x y) :
    pastSize stores x < pastSize stores y := by
  have hx : stores.Known x := hdag.closed.known_of_inPast hpast.inPast hy
  have hfresh : y ∉ stores.relations.keys.filter (stores.isDagAncestorOf · x) := by
    rw [hdag.mem_keys_filter hx]
    exact fun hback => hdag.acyclic y (Relation.TransGen.trans_right hback hpast)
  have hnodup := nodup_cons.mpr ⟨hfresh, (keys_nodup stores.relations).filter _⟩
  refine (hnodup.subperm fun z hz => ?_).length_le
  rw [hdag.mem_keys_filter hy]
  rcases mem_cons.mp hz with rfl | hz
  · exact .refl z
  · exact ((hdag.mem_keys_filter hx).mp hz).trans hpast.inPast

theorem pastSize_pos {x : Hash} (hx : stores.Known x) : 0 < pastSize stores x :=
  length_pos_of_mem ((hdag.mem_keys_filter hx).mpr (.refl x))

/-- The sink alone. -/
theorem Selecting.initial (hknown : ∀ x ∈ sink :: candidates, stores.Known x)
    (hantichain : Dag.Antichain stores.relations.lookup (sink :: candidates)) :
    Selecting limits stores sink [sink] 1 candidates where
  head := rfl
  known := hknown
  antichain := hantichain
  mergeset := by
    refine ⟨[sink], ⟨nodup_singleton sink, fun x => ?_⟩, rfl⟩
    rw [mem_singleton]
    constructor
    · rintro rfl
      exact ⟨⟨x, mem_singleton_self x, .refl x⟩, hdag.acyclic x⟩
    · rintro ⟨⟨block, hblock, hpast⟩, hnot⟩
      obtain rfl := mem_singleton.mp hblock
      exact (Dag.inPast_iff.mp hpast).resolve_right hnot
  size_le := limits.mergesetSizeLimit_pos
  length_le := limits.maxBlockParents_pos

end

namespace Selecting

theorem sink_mem (hselecting : Selecting limits stores sink parents size candidates) :
    sink ∈ parents := mem_of_mem_head? hselecting.head

/-- An accepted candidate becomes a parent. -/
theorem accept (hdag : CorrectDag stores)
    (hselecting : Selecting limits stores sink parents size (candidate :: candidates))
    (hroom : parents.length < limits.maxBlockParents) (hsize : size ≤ limits.mergesetSizeLimit)
    {increaseSize : Nat}
    (hspec : IncreaseSpec stores parents candidate (limits.mergesetSizeLimit - size)
      (.accepted increaseSize)) :
    Selecting limits stores sink (parents ++ [candidate]) (size + increaseSize) candidates := by
  obtain ⟨hbudget, counted, hnodup, hlength, hcounted⟩ := hspec
  obtain ⟨mergeset, hmergeset, hsizeEq⟩ := hselecting.mergeset
  have happend : parents ++ [candidate] ++ candidates = parents ++ candidate :: candidates := by
    simp
  have hunrelated : ∀ parent ∈ parents, Dag.Unrelated stores.relations.lookup parent candidate := by
    intro parent hparent
    exact (pairwise_append.mp hselecting.antichain).2.2 parent hparent candidate
      mem_cons_self
  have huncovered : ¬ Covered stores parents candidate := by
    rintro ⟨parent, hparent, hpast⟩
    exact (hunrelated parent hparent).2 hpast
  -- what is in the past of the sink is covered
  have hsink : ∀ x, stores.InStrictPast x sink → Covered stores parents x :=
    fun x hpast => ⟨sink, hselecting.sink_mem, hpast.inPast⟩
  exact {
    head := by rw [head?_append, hselecting.head, Option.some_or]
    known := by rw [happend]; exact hselecting.known
    antichain := by rw [happend]; exact hselecting.antichain
    mergeset := by
      refine ⟨mergeset ++ candidate :: counted, ⟨?_, fun x => ?_⟩, ?_⟩
      · refine List.Nodup.append hmergeset.nodup (nodup_cons.mpr ⟨fun hmem => ?_, hnodup⟩) ?_
        · exact hdag.acyclic candidate ((hcounted candidate).mp hmem).1
        · intro x hold hadded
          obtain ⟨hcovered, _⟩ := (hmergeset.mem_iff x).mp hold
          rcases mem_cons.mp hadded with rfl | hadded
          · exact huncovered hcovered
          · exact ((hcounted x).mp hadded).2 hcovered
      · have hcover : Covered stores (parents ++ [candidate]) x ↔
            Covered stores parents x ∨ stores.InPast x candidate := by
          simp [Covered]
        have hpastCases : stores.InPast x candidate ↔ x = candidate ∨
            stores.InStrictPast x candidate := Dag.inPast_iff
        have hself : x = candidate → ¬ Covered stores parents x := fun heq => heq ▸ huncovered
        have hinside := hsink x
        rw [mem_append, mem_cons, hmergeset.mem_iff, hcounted, hcover, hpastCases]
        tauto
      · rw [length_append, length_cons]
        omega
    size_le := by omega
    length_le := by
      rw [length_append, length_singleton]
      omega }

theorem drop (hselecting : Selecting limits stores sink parents size (candidate :: candidates)) :
    Selecting limits stores sink parents size candidates := by
  have hsublist : (parents ++ candidates).Sublist (parents ++ candidate :: candidates) :=
    (sublist_cons_self _ _).append_left _
  exact { hselecting with
    known := fun x hx => hselecting.known x (hsublist.subset hx)
    antichain := hselecting.antichain.sublist hsublist }

/-- An uncovered ancestor takes the place of a rejected candidate and of all candidates in
its future. -/
theorem replace (hdag : CorrectDag stores)
    (hselecting : Selecting limits stores sink parents size (candidate :: candidates))
    {newCandidate : Hash} (hpast : stores.InStrictPast newCandidate candidate)
    (hnot : ¬ Covered stores parents newCandidate)
    (hfree : ∀ other ∈ candidates, ¬ stores.InPast other newCandidate) :
    Selecting limits stores sink parents size
      (candidates.filter (fun h => !stores.isDagAncestorOf newCandidate h) ++ [newCandidate]) := by
  have hcandidate := hselecting.known candidate
    (mem_append_right _ (.head _))
  have hnewKnown : stores.Known newCandidate := hdag.closed.known_of_inPast hpast.inPast hcandidate
  have hdrop := hselecting.drop
  have hsublist : (parents ++ candidates.filter
      (fun h => !stores.isDagAncestorOf newCandidate h)).Sublist
      (parents ++ candidates) := filter_sublist.append_left _
  refine { hselecting with known := ?_, antichain := ?_ }
  · intro x hx
    rw [← append_assoc] at hx
    rcases mem_append.mp hx with hx | hx
    · exact hdrop.known x (hsublist.subset hx)
    · rw [mem_singleton.mp hx]
      exact hnewKnown
  · rw [← append_assoc, Dag.Antichain, pairwise_append]
    refine ⟨hdrop.antichain.sublist hsublist, pairwise_singleton _ _, ?_⟩
    intro x hx _ hnew
    rw [mem_singleton.mp hnew]
    rcases mem_append.mp hx with hparent | hother
    · -- a parent below the new candidate would be below the rejected one
      refine ⟨fun hback => ?_, fun hforth => hnot ⟨x, hparent, hforth⟩⟩
      exact ((pairwise_append.mp hselecting.antichain).2.2 x hparent candidate
        mem_cons_self).1 (hback.trans hpast.inPast)
    · obtain ⟨hmem, hkept⟩ := mem_filter.mp hother
      refine ⟨hfree x hmem, fun hforth => ?_⟩
      have hanswer := (hdag.oracle newCandidate x hnewKnown
        (hdrop.known x (mem_append_right _ hmem))).mpr hforth
      simp [hanswer] at hkept

end Selecting

/-- The work that is left: at least one for each candidate. -/
def pendingSize (stores : Stores Hash) (candidates : List Hash) : Nat :=
  (candidates.map (pastSize stores)).sum

omit [LinearOrder Hash] in
theorem pendingSize_cons (x : Hash) (candidates : List Hash) :
    pendingSize stores (x :: candidates) = pastSize stores x + pendingSize stores candidates := by
  simp [pendingSize]

omit [LinearOrder Hash] in
theorem pendingSize_le (candidates : List Hash) :
    pendingSize stores candidates ≤ candidates.length * stores.relations.keys.length := by
  induction candidates with
  | nil => exact Nat.zero_le _
  | cons x candidates ih =>
    have hle : pastSize stores x ≤ stores.relations.keys.length := length_filter_le _ _
    rw [pendingSize_cons, length_cons, Nat.add_mul]
    omega

omit [LinearOrder Hash] in
theorem pendingSize_filter_le (keep : Hash → Bool) (candidates : List Hash) :
    pendingSize stores (candidates.filter keep) ≤ pendingSize stores candidates := by
  induction candidates with
  | nil => exact le_rfl
  | cons x candidates ih =>
    rw [filter_cons, pendingSize_cons]
    split
    · rw [pendingSize_cons]
      omega
    · omega

theorem pendingSize_replace (hdag : CorrectDag stores) (hcandidate : stores.Known candidate)
    {newCandidate : Hash} (hpast : stores.InStrictPast newCandidate candidate) (keep : Hash → Bool)
    (candidates : List Hash) :
    pendingSize stores (candidates.filter keep ++ [newCandidate]) <
      pendingSize stores (candidate :: candidates) := by
  have hle : pendingSize stores (candidates.filter keep) ≤ pendingSize stores candidates :=
    pendingSize_filter_le keep candidates
  have hlt := hdag.pastSize_lt hcandidate hpast
  have happend : pendingSize stores (candidates.filter keep ++ [newCandidate]) =
      pendingSize stores (candidates.filter keep) + pastSize stores newCandidate := by
    simp [pendingSize]
  rw [pendingSize_cons]
  omega

theorem addParents_eq_ok (hdag : CorrectDag stores) {fuel : Nat} (origin : Hash → Prop)
    (hfuel : pendingSize stores candidates ≤ fuel)
    (hselecting : Selecting limits stores sink parents size candidates)
    (hchosen : ∀ x ∈ parents, origin x) (horigin : ∀ x, Covered stores candidates x → origin x) :
    ∃ parents' size' rest, limits.addParents stores fuel parents size candidates =
        .ok (parents', size') ∧
      Selecting limits stores sink parents' size' rest ∧ ∀ x ∈ parents', origin x := by
  induction fuel generalizing parents size candidates with
  | zero =>
    cases candidates with
    | nil => exact ⟨parents, size, [], rfl, hselecting, hchosen⟩
    | cons candidate candidates =>
      have hpos := hdag.pastSize_pos (hselecting.known candidate
        (mem_append_right _ (.head _)))
      rw [pendingSize_cons] at hfuel
      omega
  | succ fuel ih =>
    cases candidates with
    | nil => exact ⟨parents, size, [], rfl, hselecting, hchosen⟩
    | cons candidate candidates =>
      have hcandidate := hselecting.known candidate
        (mem_append_right _ (.head _))
      have hparents : ∀ x ∈ parents, stores.Known x :=
        fun x hx => hselecting.known x (mem_append_left _ hx)
      have hpos := hdag.pastSize_pos hcandidate
      have hrest : pendingSize stores candidates ≤ fuel := by
        rw [pendingSize_cons] at hfuel
        omega
      have horiginRest : ∀ x, Covered stores candidates x → origin x :=
        fun x ⟨other, hother, hpast⟩ => horigin x ⟨other, .tail _ hother, hpast⟩
      rw [BlockLimits.addParents]
      split
      · exact ⟨parents, size, _, rfl, hselecting, hchosen⟩
      next hlimits =>
        obtain ⟨result, hresult, hspec⟩ := hdag.mergesetIncrease_eq_ok hcandidate hparents
          (show 1 ≤ limits.mergesetSizeLimit - size by omega)
        rw [hresult, ok_bind]
        cases result with
        | accepted increaseSize =>
          have haccept := hselecting.accept hdag (by omega) hselecting.size_le hspec
          refine ih hrest haccept ?_ horiginRest
          refine forall_mem_append.mpr ⟨hchosen, forall_mem_singleton.mpr ?_⟩
          exact horigin candidate ⟨candidate, .head _, .refl candidate⟩
        | rejected newCandidate =>
          obtain ⟨hpast, hnot⟩ := hspec
          have hnewKnown : stores.Known newCandidate :=
            hdag.closed.known_of_inPast hpast.inPast hcandidate
          dsimp only
          split
          · exact ih hrest hselecting.drop hchosen horiginRest
          next hany =>
            have hfree : ∀ other ∈ candidates, ¬ stores.InPast other newCandidate := by
              intro other hother hpast'
              refine hany (any_eq_true.mpr ⟨other, hother, ?_⟩)
              exact (hdag.oracle other newCandidate (hselecting.drop.known other
                (mem_append_right _ hother)) hnewKnown).mpr hpast'
            have hless := hdag.pendingSize_replace hcandidate hpast
              (fun h => !stores.isDagAncestorOf newCandidate h) candidates
            refine ih (by omega) (hselecting.replace hdag hpast hnot hfree) hchosen ?_
            rintro x ⟨other, hother, hbelow⟩
            rcases mem_append.mp hother with hother | hother
            · exact horiginRest x ⟨other, (mem_filter.mp hother).1, hbelow⟩
            · rw [mem_singleton.mp hother] at hbelow
              exact horigin x ⟨candidate, .head _, hbelow.trans hpast.inPast⟩

/-- The selection returns, within the limits, and its counter is right. -/
theorem selectParents_eq_ok (limits : BlockLimits) (hdag : CorrectDag stores)
    (hknown : ∀ x ∈ sink :: candidates, stores.Known x)
    (hantichain : Dag.Antichain stores.relations.lookup (sink :: candidates)) (draw : Nat → Nat) :
    ∃ parents size rest, limits.selectParents stores draw sink candidates = .ok (parents, size) ∧
      Selecting limits stores sink parents size rest ∧
      ∀ x ∈ parents, x ∈ [sink] ∨ Covered stores candidates x := by
  have hsubperm := limits.drawCandidates_subperm draw candidates
  obtain ⟨drawn, hperm, hsublist⟩ := hsubperm
  have hdrawnKnown : ∀ x ∈ sink :: limits.drawCandidates draw candidates, stores.Known x := by
    intro x hx
    apply hknown
    rcases mem_cons.mp hx with rfl | hx
    · exact .head _
    · exact .tail _ (hsublist.subset (hperm.mem_iff.mpr hx))
  have hdrawn : Dag.Antichain stores.relations.lookup
      (sink :: limits.drawCandidates draw candidates) :=
    Dag.Antichain.perm (hantichain.sublist (hsublist.cons_cons sink)) (hperm.cons sink)
  have hinitial : Selecting limits stores sink [sink] 1 (limits.drawCandidates draw candidates) :=
    .initial hdag hdrawnKnown hdrawn
  obtain ⟨parents, size, rest, hrun, hselecting, horigin⟩ :=
    hdag.addParents_eq_ok (fun x => x ∈ [sink] ∨ Covered stores candidates x) (pendingSize_le _)
      hinitial (fun _ => .inl) fun x ⟨other, hother, hpast⟩ =>
        .inr ⟨other, hsublist.subset (hperm.mem_iff.mpr hother), hpast⟩
  refine ⟨parents, size, rest, ?_, hselecting, horigin⟩
  rw [BlockLimits.selectParents]
  rw [hrun]
  simp [assert, hselecting.size_le, hselecting.length_le]

end CorrectDag

end Qaspa.Virtual
