import Mathlib.Data.List.Dedup
import Qaspa.Lib.Dag
import Qaspa.Lib.Outcome

/-! # Breadth-first search with pruning

A search that starts from some nodes and moves on to the parents of what it finds,
except for those that a test prunes. The pruned nodes are remembered so that each
is tested once. The search finds exactly the nodes that a path of unpruned nodes
connects to the start, each of them once, and as many rounds as there are nodes
are enough for it.
-/

namespace Qaspa.Search

open Dag Outcome List

variable {ε α : Type} [DecidableEq α]

structure State (α : Type) where
  queue : List α
  found : List α
  pruned : List α

/-- Look at one parent of the current node. -/
def visit (prune : α → Bool) (state : State α) (node : α) : State α :=
  if node ∈ state.found ∨ node ∈ state.pruned then state
  else if prune node then { state with pruned := node :: state.pruned }
  else { state with found := node :: state.found, queue := state.queue ++ [node] }

/-- Take nodes off the queue until it is empty. -/
def search (parents : α → Option (List α)) (prune : α → Bool) : Nat → State α → Outcome ε (List α)
  | _, ⟨[], found, _⟩ => .ok found
  | 0, ⟨_ :: _, _, _⟩ => .error .outOfFuel
  | fuel + 1, ⟨current :: queue, found, pruned⟩ => do
    let list ← unwrap (parents current)
    search parents prune fuel (list.foldl (visit prune) ⟨queue, found, pruned⟩)

/-- A path of unpruned nodes. -/
def Connected (parents : α → Option (List α)) (prune : α → Bool) : α → α → Prop :=
  Relation.ReflTransGen fun x y => ParentOf parents x y ∧ prune x = false

variable {parents : α → Option (List α)} {prune : α → Bool} {start : List α}

/-- What holds between two rounds. The search is complete up to the parents of the
nodes that are still queued. -/
structure Invariant (parents : α → Option (List α)) (prune : α → Bool) (start : List α)
    (state : State α) : Prop where
  nodup : state.found.Nodup
  known : ∀ node ∈ state.found, (parents node).isSome
  queued : ∀ node ∈ state.queue, node ∈ state.found
  started : ∀ node ∈ start, node ∈ state.found
  sound : ∀ node ∈ state.found, ∃ first ∈ start, Connected parents prune node first
  pruned : ∀ node ∈ state.pruned, prune node = true

/-- The nodes found so far whose parents have been looked at. -/
def Expanded (parents : α → Option (List α)) (prune : α → Bool) (state : State α) (node : α) :
    Prop :=
  ∀ parent, ParentOf parents parent node → prune parent = false → parent ∈ state.found

/-- What remains to be done: the queue, and the nodes not found yet. -/
def remaining (bound : Nat) (state : State α) : Nat :=
  state.queue.length + (bound - state.found.length)

/-! ## One round -/

/-- What looking at some parents of a found node does. -/
structure Visited (parents : α → Option (List α)) (prune : α → Bool) (start keys : List α)
    (list : List α) (state next : State α) : Prop where
  invariant : Invariant parents prune start next
  found_subset : state.found ⊆ next.found
  queue_subset : state.queue ⊆ next.queue
  list_found : ∀ node ∈ list, prune node = false → node ∈ next.found
  found_queued : ∀ node ∈ next.found, node ∈ state.found ∨ node ∈ next.queue
  remaining_eq : remaining keys.length next = remaining keys.length state

section Round

variable {keys : List α} {state : State α} (hclosed : Closed parents)
  (hkeys : ∀ node, (parents node).isSome → node ∈ keys)

include hclosed hkeys

theorem Invariant.visit (hinv : Invariant parents prune start state) {child node : α}
    (hchild : child ∈ state.found) (hparent : ParentOf parents node child) :
    Visited parents prune start keys [node] state (Search.visit prune state node) := by
  unfold Search.visit
  split_ifs with hseen hprune
  · refine ⟨hinv, fun _ hmem => hmem, fun _ hmem => hmem, forall_mem_singleton.mpr ?_,
      fun _ hmem => .inl hmem, rfl⟩
    refine fun hunpruned => hseen.resolve_right fun hmem => ?_
    rw [hinv.pruned node hmem] at hunpruned
    cases hunpruned
  · refine ⟨{ hinv with pruned := forall_mem_cons.mpr ⟨hprune, hinv.pruned⟩ }, fun _ hmem => hmem,
      fun _ hmem => hmem, forall_mem_singleton.mpr ?_, fun _ hmem => .inl hmem, rfl⟩
    exact fun hunpruned => absurd hprune (by simp [hunpruned])
  · obtain ⟨first, hfirst, hconnected⟩ := hinv.sound child hchild
    have hnext : Invariant parents prune start
        { state with found := node :: state.found, queue := state.queue ++ [node] } := {
      nodup := nodup_cons.mpr ⟨fun hmem => hseen (.inl hmem), hinv.nodup⟩
      known := forall_mem_cons.mpr ⟨hclosed node child hparent, hinv.known⟩
      queued := by
        intro other hother
        rcases mem_append.mp hother with hother | hother
        · exact .tail _ (hinv.queued other hother)
        · rw [mem_singleton.mp hother]
          exact .head _
      started := fun other hother => .tail _ (hinv.started other hother)
      sound := forall_mem_cons.mpr
        ⟨⟨first, hfirst, hconnected.head ⟨hparent, by simpa using hprune⟩⟩, hinv.sound⟩
      pruned := hinv.pruned }
    refine ⟨hnext, fun _ hmem => .tail _ hmem, fun _ hmem => mem_append_left _ hmem,
      fun _ hmem _ => mem_singleton.mp hmem ▸ .head _, ?_, ?_⟩
    · exact forall_mem_cons.mpr ⟨.inr (mem_append_right _ (.head _)), fun _ hmem => .inl hmem⟩
    · -- new nodes enter the queue and what was found at the same time
      have hlength := (hnext.nodup.subperm fun other hmem =>
        hkeys other (hnext.known other hmem)).length_le
      simp only [remaining, length_append, length_cons, length_nil] at hlength ⊢
      omega

theorem Invariant.visitAll (hinv : Invariant parents prune start state) {child : α}
    (hchild : child ∈ state.found) {list : List α}
    (hlist : ∀ node ∈ list, ParentOf parents node child) :
    Visited parents prune start keys list state (list.foldl (Search.visit prune) state) := by
  induction list generalizing state with
  | nil =>
    exact ⟨hinv, fun _ hmem => hmem, fun _ hmem => hmem,
      fun node hnode => absurd hnode not_mem_nil, fun node hnode => .inl hnode, rfl⟩
  | cons node list ih =>
    obtain ⟨hnode, hlist⟩ := forall_mem_cons.mp hlist
    have hstep := hinv.visit hclosed hkeys hchild hnode
    have hrest := ih hstep.invariant (hstep.found_subset hchild) hlist
    refine ⟨hrest.invariant, fun _ hmem => hrest.found_subset (hstep.found_subset hmem),
      fun _ hmem => hrest.queue_subset (hstep.queue_subset hmem), forall_mem_cons.mpr
        ⟨fun hunpruned => hrest.found_subset (hstep.list_found node (.head _) hunpruned),
          hrest.list_found⟩, ?_, hrest.remaining_eq.trans hstep.remaining_eq⟩
    intro other hother
    rcases hrest.found_queued other hother with hfound | hqueued
    · exact (hstep.found_queued other hfound).imp_right fun hqueued => hrest.queue_subset hqueued
    · exact .inr hqueued

/-- The search returns, and every node it found has been expanded. -/
theorem search_eq_ok {fuel : Nat} (hinv : Invariant parents prune start state)
    (hexpanded : ∀ node ∈ state.found, node ∈ state.queue ∨ Expanded parents prune state node)
    (hfuel : remaining keys.length state ≤ fuel) :
    ∃ final, (search parents prune fuel state : Outcome ε (List α)) = .ok final.found ∧
      Invariant parents prune start final ∧
      ∀ node ∈ final.found, Expanded parents prune final node := by
  induction fuel generalizing state with
  | zero =>
    obtain ⟨queue, found, pruned⟩ := state
    cases queue with
    | nil =>
      exact ⟨⟨[], found, pruned⟩, by rw [search], hinv,
        fun node hnode => (hexpanded node hnode).resolve_left (by simp)⟩
    | cons current queue =>
      simp only [remaining, length_cons] at hfuel
      omega
  | succ fuel ih =>
    obtain ⟨queue, found, pruned⟩ := state
    cases queue with
    | nil =>
      exact ⟨⟨[], found, pruned⟩, by rw [search], hinv,
        fun node hnode => (hexpanded node hnode).resolve_left (by simp)⟩
    | cons current queue =>
      have hcurrent : current ∈ found := hinv.queued current (.head _)
      obtain ⟨list, hlist⟩ := Option.isSome_iff_exists.mp (hinv.known current hcurrent)
      have hpopped : Invariant parents prune start ⟨queue, found, pruned⟩ :=
        { hinv with queued := fun node hnode => hinv.queued node (.tail _ hnode) }
      have hvisited := hpopped.visitAll hclosed hkeys hcurrent
        fun node (hnode : node ∈ list) => ⟨list, hlist, hnode⟩
      have hnext : ∀ node ∈ (list.foldl (visit prune) ⟨queue, found, pruned⟩).found,
          node ∈ (list.foldl (visit prune) ⟨queue, found, pruned⟩).queue ∨
            Expanded parents prune (list.foldl (visit prune) ⟨queue, found, pruned⟩) node := by
        intro node hnode
        rcases hvisited.found_queued node hnode with hfound | hqueued
        · by_cases heq : node = current
          · subst heq
            refine .inr fun parent hparent hunpruned => ?_
            obtain ⟨list', hlist', hmem⟩ := hparent
            obtain rfl : list = list' := Option.mem_unique hlist hlist'
            exact hvisited.list_found parent hmem hunpruned
          · rcases hexpanded node hfound with hqueued | hexpanded
            · exact .inl (hvisited.queue_subset ((mem_cons.mp hqueued).resolve_left heq))
            · exact .inr fun parent hparent hunpruned =>
                hvisited.found_subset (hexpanded parent hparent hunpruned)
        · exact .inl hqueued
      have hless : remaining keys.length (list.foldl (visit prune) ⟨queue, found, pruned⟩) ≤
          fuel := by
        rw [hvisited.remaining_eq]
        simp only [remaining, length_cons] at hfuel ⊢
        omega
      obtain ⟨final, hfinal, hrest⟩ := ih hvisited.invariant hnext hless
      refine ⟨final, ?_, hrest⟩
      rw [search, hlist]
      exact hfinal

end Round

/-- A search from known nodes finds exactly what is connected to them, once each. -/
theorem search_spec (hclosed : Closed parents) {keys : List α}
    (hkeys : ∀ node, (parents node).isSome → node ∈ keys)
    (hstart : ∀ node ∈ start, (parents node).isSome) {fuel : Nat}
    (hfuel : start.length + keys.length ≤ fuel) :
    ∃ found, (search parents prune fuel ⟨start, start.dedup, []⟩ : Outcome ε (List α)) =
        .ok found ∧ found.Nodup ∧
      ∀ node, node ∈ found ↔ ∃ first ∈ start, Connected parents prune node first := by
  have hinv : Invariant parents prune start ⟨start, start.dedup, []⟩ := {
    nodup := start.nodup_dedup
    known := fun node hnode => hstart node (mem_dedup.mp hnode)
    queued := fun node hnode => mem_dedup.mpr hnode
    started := fun node hnode => mem_dedup.mpr hnode
    sound := fun node hnode => ⟨node, mem_dedup.mp hnode, .refl⟩
    pruned := fun node hnode => absurd hnode not_mem_nil }
  obtain ⟨final, hfinal, hfinalInv, hexpanded⟩ := search_eq_ok (ε := ε) hclosed hkeys hinv
    (fun node hnode => .inl (mem_dedup.mp hnode))
    (Nat.le_trans (Nat.add_le_add_left (Nat.sub_le _ _) _) hfuel)
  refine ⟨final.found, hfinal, hfinalInv.nodup, fun node => ⟨hfinalInv.sound node, ?_⟩⟩
  rintro ⟨first, hfirst, hconnected⟩
  -- once everything found is expanded, whatever is connected to the start is found
  induction hconnected using Relation.ReflTransGen.head_induction_on with
  | refl => exact hfinalInv.started first hfirst
  | head hedge _ ih => exact hexpanded _ ih _ hedge.1 hedge.2

/-! ## Deciding reachability -/

/-- Whether a search from `y` that prunes nothing finds `x`. -/
def reaches (parents : α → Option (List α)) (fuel : Nat) (x y : α) : Bool :=
  match (search parents (fun _ => false) fuel ⟨[y], [y], []⟩ : Outcome Empty (List α)) with
  | .ok found => decide (x ∈ found)
  | .error _ => false

theorem reaches_iff (hclosed : Closed parents) {keys : List α}
    (hkeys : ∀ node, (parents node).isSome → node ∈ keys) {x y : α} (hy : (parents y).isSome)
    {fuel : Nat} (hfuel : 1 + keys.length ≤ fuel) :
    reaches parents fuel x y = true ↔ InPast parents x y := by
  obtain ⟨found, hfound, _, hmem⟩ : ∃ found,
      (search parents (fun _ => false) fuel ⟨[y], [y].dedup, []⟩ : Outcome Empty (List α)) =
        .ok found ∧ found.Nodup ∧
      ∀ node, node ∈ found ↔ ∃ first ∈ [y], Connected parents (fun _ => false) node first :=
    search_spec hclosed hkeys (fun node hnode => mem_singleton.mp hnode ▸ hy) hfuel
  have hconnected : Connected parents (fun _ => false) x y ↔ InPast parents x y := by
    simp only [Connected, InPast, and_true]
  rw [dedup_cons_of_notMem not_mem_nil, dedup_nil] at hfound
  simp only [reaches, hfound, decide_eq_true_eq, hmem, mem_singleton, exists_eq_left,
    hconnected]

end Qaspa.Search
