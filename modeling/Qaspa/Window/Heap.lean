import Qaspa.Ghostdag.Data
import Qaspa.Lib.Greatest

/-! # Block window heaps

A window is a priority queue whose top is its least block. It is kept here as the
ascending list of its blocks: what a priority queue returns depends on its content
only. A bounded heap holds the greatest blocks that were pushed into it.
-/

namespace Qaspa.Window

open Ghostdag Greatest Outcome List

variable {Hash : Type} [LinearOrder Hash]

structure BlockWindowHeap (Hash : Type) [LinearOrder Hash] where
  blocks : List (SortableBlock Hash)
  sorted : blocks.Pairwise (· ≤ ·)

namespace BlockWindowHeap

variable (heap : BlockWindowHeap Hash)

@[ext] theorem ext {heap other : BlockWindowHeap Hash} (hblocks : heap.blocks = other.blocks) :
    heap = other := by
  cases heap
  cases other
  cases hblocks
  rfl

def new : BlockWindowHeap Hash := ⟨[], .nil⟩

def len : Nat := heap.blocks.length

def peek : Option (SortableBlock Hash) := heap.blocks.head?

def pop : BlockWindowHeap Hash := ⟨heap.blocks.tail, heap.sorted.tail⟩

def push (block : SortableBlock Hash) : BlockWindowHeap Hash :=
  ⟨heap.blocks.orderedInsert (· ≤ ·) block, heap.sorted.orderedInsert block heap.blocks⟩

def append (other : BlockWindowHeap Hash) : BlockWindowHeap Hash :=
  ⟨(heap.blocks ++ other.blocks).insertionSort (· ≤ ·), List.pairwise_insertionSort _ _⟩

/-- The heap of the greatest blocks of a list. -/
def ofGreatest (size : Nat) (blocks : List (SortableBlock Hash)) : BlockWindowHeap Hash :=
  ⟨greatest size blocks, sorted_greatest size blocks⟩

end BlockWindowHeap

structure BoundedSizeBlockHeap (Hash : Type) [LinearOrder Hash] where
  binaryHeap : BlockWindowHeap Hash
  sizeBound : Nat

namespace BoundedSizeBlockHeap

def fromBinaryHeap (sizeBound : Nat) (binaryHeap : BlockWindowHeap Hash) :
    BoundedSizeBlockHeap Hash := ⟨binaryHeap, sizeBound⟩

def new (sizeBound : Nat) : BoundedSizeBlockHeap Hash := fromBinaryHeap sizeBound .new

variable (heap : BoundedSizeBlockHeap Hash)

def reachedSizeBound : Bool := heap.binaryHeap.len = heap.sizeBound

/-- A full heap accepts what is not below its least block. -/
def canPush (block : SortableBlock Hash) : Checked Bool :=
  if heap.reachedSizeBound then do
    let least ← unwrap heap.binaryHeap.peek
    .ok (decide (least ≤ block))
  else .ok true

/-- Push a block, making room for it in a full heap; the flag says whether the block
was accepted. -/
def tryPush (block : SortableBlock Hash) : BoundedSizeBlockHeap Hash × Bool :=
  if heap.reachedSizeBound then
    if heap.binaryHeap.peek.any fun least => decide (block < least) then (heap, false)
    else ({ heap with binaryHeap := heap.binaryHeap.pop.push block }, true)
  else ({ heap with binaryHeap := heap.binaryHeap.push block }, true)

/-- Append a heap and pop what exceeds the bound. -/
def mergeAncestorHeap (ancestor : BlockWindowHeap Hash) : BoundedSizeBlockHeap Hash :=
  let appended := heap.binaryHeap.append ancestor
  { heap with binaryHeap := BlockWindowHeap.pop^[appended.len - heap.sizeBound] appended }

end BoundedSizeBlockHeap

/-! ## Content of the heaps -/

section Content

variable {size : Nat} {pushed : List (SortableBlock Hash)} {block : SortableBlock Hash}

/-- A heap with the greatest of the blocks that were pushed. -/
def holding (size : Nat) (pushed : List (SortableBlock Hash)) : BoundedSizeBlockHeap Hash :=
  ⟨.ofGreatest size pushed, size⟩

theorem new_eq_holding :
    BoundedSizeBlockHeap.new size = holding size ([] : List (SortableBlock Hash)) :=
  congrArg (BoundedSizeBlockHeap.mk · size) (BlockWindowHeap.ext drop_nil.symm)

theorem len_holding : (holding size pushed).binaryHeap.len = min size pushed.length :=
  length_greatest size pushed

theorem reachedSizeBound_holding :
    (holding size pushed).reachedSizeBound = true ↔ size ≤ pushed.length := by
  rw [BoundedSizeBlockHeap.reachedSizeBound, decide_eq_true_iff, len_holding]
  exact min_eq_left_iff

theorem holding_append_comm (left right : List (SortableBlock Hash)) :
    holding size (left ++ right) = holding size (right ++ left) :=
  congrArg (BoundedSizeBlockHeap.mk · size)
    (BlockWindowHeap.ext (greatest_perm perm_append_comm))

theorem pop_iterate (heap : BlockWindowHeap Hash) (count : Nat) :
    (BlockWindowHeap.pop^[count] heap).blocks = heap.blocks.drop count := by
  induction count generalizing heap with
  | zero => rfl
  | succ count ih => rw [Function.iterate_succ_apply, ih, BlockWindowHeap.pop, drop_tail]

/-- Merging with a heap of ancestors keeps the greatest blocks of both. -/
theorem mergeAncestorHeap_holding (ancestors : List (SortableBlock Hash)) :
    (holding size pushed).mergeAncestorHeap (.ofGreatest size ancestors) =
      holding size (pushed ++ ancestors) := by
  have hblocks : ((greatest size pushed ++ greatest size ancestors).insertionSort (· ≤ ·)).drop
      ((greatest size pushed ++ greatest size ancestors).length - size) =
        greatest size (pushed ++ ancestors) := greatest_append_greatest
  refine congrArg (BoundedSizeBlockHeap.mk · size) (BlockWindowHeap.ext ?_)
  rw [pop_iterate]
  refine Eq.trans ?_ hblocks
  rw [BlockWindowHeap.len, BlockWindowHeap.append, length_insertionSort]
  rfl

/-- A full heap rejects exactly the blocks below all of its own. -/
def Rejects (size : Nat) (pushed : List (SortableBlock Hash)) (block : SortableBlock Hash) : Prop :=
  size ≤ pushed.length ∧ ∀ kept ∈ greatest size pushed, block < kept

/-- The top of a full heap is the least of its blocks. -/
theorem peek_holding (hsize : 0 < size) (hfull : size ≤ pushed.length) :
    ∃ least kept, greatest size pushed = least :: kept ∧
      (holding size pushed).binaryHeap.peek = some least := by
  have hlength := length_greatest size pushed
  have hpeek : (holding size pushed).binaryHeap.peek = (greatest size pushed).head? := rfl
  cases hgreatest : greatest size pushed with
  | nil =>
    rw [hgreatest, length_nil] at hlength
    omega
  | cons least kept =>
    rw [hgreatest] at hpeek
    exact ⟨least, kept, rfl, hpeek⟩

theorem rejects_iff (hfull : size ≤ pushed.length) {least : SortableBlock Hash}
    {kept : List (SortableBlock Hash)} (hgreatest : greatest size pushed = least :: kept) :
    Rejects size pushed block ↔ block < least := by
  have hsorted := sorted_greatest size pushed
  rw [hgreatest] at hsorted
  obtain ⟨hleast, _⟩ := pairwise_cons.mp hsorted
  rw [Rejects, hgreatest, forall_mem_cons]
  exact ⟨fun hrejects => hrejects.2.1,
    fun hlt => ⟨hfull, hlt, fun other hother => hlt.trans_le (hleast other hother)⟩⟩

/-- A rejected block and everything below it are not among the greatest. -/
theorem holding_append_of_rejects {others : List (SortableBlock Hash)}
    (hrejects : Rejects size pushed block) (hbelow : ∀ other ∈ others, other ≤ block) :
    holding size (pushed ++ others) = holding size pushed := by
  refine congrArg (BoundedSizeBlockHeap.mk · size) (BlockWindowHeap.ext ?_)
  exact greatest_append_of_lt hrejects.1 fun other hother kept hkept =>
    (hbelow other hother).trans (hrejects.2 kept hkept).le

/-- Replacing the least of the greatest blocks. -/
theorem orderedInsert_tail_greatest (hfull : size ≤ pushed.length)
    {least : SortableBlock Hash} {kept : List (SortableBlock Hash)}
    (hgreatest : greatest size pushed = least :: kept) (hle : least ≤ block) :
    kept.orderedInsert (· ≤ ·) block = greatest size (pushed ++ [block]) := by
  have hsorted := sorted_greatest size pushed
  rw [hgreatest] at hsorted
  obtain ⟨hleast, hkept⟩ := pairwise_cons.mp hsorted
  have hlength := length_greatest size pushed
  rw [hgreatest, length_cons] at hlength
  refine eq_greatest (hkept.orderedInsert block kept) fun p hp => ?_
  have hcount : (least :: kept).countP p = min size (pushed.countP p) :=
    hgreatest ▸ countP_greatest hp
  have hbound : kept.countP p ≤ kept.length := countP_le_length
  rw [(perm_orderedInsert (· ≤ ·) block kept).countP_eq, countP_append,
    countP_singleton, countP_cons]
  rw [countP_cons] at hcount
  by_cases hp' : p least = true
  · -- the test holds of the whole heap and of the new block
    have hall : kept.countP p = kept.length :=
      countP_eq_length.mpr fun other hother => hp (hleast other hother) hp'
    simp only [hp', hp hle hp'] at hcount ⊢
    omega
  · simp only [hp', Bool.false_eq_true, if_false] at hcount
    split <;> omega

theorem orderedInsert_greatest (hroom : pushed.length < size) :
    (greatest size pushed).orderedInsert (· ≤ ·) block = greatest size (pushed ++ [block]) := by
  refine eq_greatest ((sorted_greatest size pushed).orderedInsert block _) fun p hp => ?_
  have hbound : pushed.countP p ≤ pushed.length := countP_le_length
  rw [(perm_orderedInsert (· ≤ ·) block _).countP_eq, countP_append,
    countP_singleton, countP_cons, countP_greatest hp]
  split <;> omega

/-- A push keeps the greatest of all that was pushed, and reports a rejection. -/
theorem tryPush_holding (hsize : 0 < size) (pushed : List (SortableBlock Hash))
    (block : SortableBlock Hash) :
    ((holding size pushed).tryPush block).1 = holding size (pushed ++ [block]) ∧
      (((holding size pushed).tryPush block).2 = false ↔ Rejects size pushed block) := by
  unfold BoundedSizeBlockHeap.tryPush
  split
  next hreached =>
    have hfull := reachedSizeBound_holding.mp hreached
    obtain ⟨least, kept, hgreatest, hpeek⟩ := peek_holding hsize hfull
    rw [hpeek, Option.any_some, rejects_iff hfull hgreatest]
    by_cases hlt : block < least
    · rw [decide_eq_true hlt]
      have hrejects := (rejects_iff hfull hgreatest).mpr hlt
      exact ⟨(holding_append_of_rejects hrejects fun other hother =>
        (mem_singleton.mp hother).le).symm, iff_of_true rfl hlt⟩
    · rw [decide_eq_false hlt]
      refine ⟨congrArg (BoundedSizeBlockHeap.mk · size) (BlockWindowHeap.ext ?_),
        iff_of_false Bool.true_eq_false.mp hlt⟩
      have hpop : (holding size pushed).binaryHeap.pop.blocks = kept := congrArg tail hgreatest
      calc (holding size pushed).binaryHeap.pop.blocks.orderedInsert (· ≤ ·) block
          = kept.orderedInsert (· ≤ ·) block := by rw [hpop]
        _ = greatest size (pushed ++ [block]) :=
          orderedInsert_tail_greatest hfull hgreatest (not_lt.mp hlt)
  next hreached =>
    have hroom : pushed.length < size :=
      not_le.mp fun hfull => hreached (reachedSizeBound_holding.mpr hfull)
    refine ⟨congrArg (BoundedSizeBlockHeap.mk · size) (BlockWindowHeap.ext ?_),
      iff_of_false Bool.true_eq_false.mp fun hrejects => ?_⟩
    · exact orderedInsert_greatest hroom
    · exact absurd hrejects.1 (not_le_of_gt hroom)

/-- A block can be pushed unless it would be rejected. -/
theorem canPush_holding (hsize : 0 < size) (pushed : List (SortableBlock Hash))
    (block : SortableBlock Hash) :
    ∃ accepted, (holding size pushed).canPush block = .ok accepted ∧
      (accepted = false → Rejects size pushed block) := by
  unfold BoundedSizeBlockHeap.canPush
  split
  next hreached =>
    have hfull := reachedSizeBound_holding.mp hreached
    obtain ⟨least, kept, hgreatest, hpeek⟩ := peek_holding hsize hfull
    rw [hpeek]
    refine ⟨decide (least ≤ block), rfl, fun hnot => (rejects_iff hfull hgreatest).mpr ?_⟩
    exact not_le.mp (of_decide_eq_false hnot)
  · exact ⟨true, rfl, fun hfalse => absurd hfalse Bool.true_eq_false.mp⟩

end Content

end Qaspa.Window
