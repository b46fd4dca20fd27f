import Mathlib.Data.List.Sort
import Mathlib.Data.Prod.Lex
import Mathlib.Order.MinMax
import Qaspa.Lib.Dag
import Qaspa.Lib.HashMap
import Qaspa.Lib.Outcome

/-! # GHOSTDAG data and its order

The data that GHOSTDAG computes for a block, the stores it is computed from, and
the order in which blocks are sorted: by blue work, and by hash among blocks of
equal work. A mergeset is kept as two sorted lists, the blues behind the selected
parent and the reds, and its iterators merge the two back into one order.

Work and score are exact numbers here. The code adds work in 192-bit words whose
overflow it asserts against in debug builds only.
-/

namespace Qaspa.Ghostdag

open Outcome

/-- Code that returns or panics. -/
abbrev Checked := Outcome Empty

variable {Hash : Type} [LinearOrder Hash]

/-! ## The order of blocks -/

structure SortableBlock (Hash : Type) where
  hash : Hash
  blueWork : Nat
  deriving DecidableEq

namespace SortableBlock

/-- Blocks compare by blue work, then by hash. -/
def key (block : SortableBlock Hash) : Nat ×ₗ Hash := toLex (block.blueWork, block.hash)

omit [LinearOrder Hash] in
theorem key_injective : Function.Injective (key : SortableBlock Hash → Nat ×ₗ Hash) := by
  rintro ⟨hash, work⟩ ⟨hash', work'⟩ hkey
  obtain ⟨rfl, rfl⟩ := Prod.mk.inj (toLex.injective hkey)
  rfl

instance : LinearOrder (SortableBlock Hash) := LinearOrder.lift' key key_injective

variable {right left : SortableBlock Hash}

theorem lt_iff :
    left < right ↔ left.blueWork < right.blueWork ∨
      left.blueWork = right.blueWork ∧ left.hash < right.hash := Prod.Lex.toLex_lt_toLex

theorem blueWork_le_of_le (hle : left ≤ right) : left.blueWork ≤ right.blueWork := by
  rcases Prod.Lex.toLex_le_toLex.mp hle with hlt | ⟨heq, _⟩
  · exact hlt.le
  · exact heq.le

end SortableBlock

/-! ## Block data -/

structure GhostdagData (Hash : Type) where
  blueScore : Nat
  blueWork : Nat
  selectedParent : Hash
  mergesetBlues : List Hash
  mergesetReds : List Hash
  bluesAnticoneSizes : HashMap Hash Nat

namespace GhostdagData

def newWithSelectedParent (selectedParent : Hash) : GhostdagData Hash where
  blueScore := 0
  blueWork := 0
  selectedParent := selectedParent
  mergesetBlues := [selectedParent]
  mergesetReds := []
  bluesAnticoneSizes := (∅ : HashMap Hash Nat).insert selectedParent 0

def addBlue (data : GhostdagData Hash) (block : Hash) (blueAnticoneSize : Nat)
    (blockBluesAnticoneSizes : HashMap Hash Nat) : GhostdagData Hash :=
  { data with
    mergesetBlues := data.mergesetBlues ++ [block]
    bluesAnticoneSizes := blockBluesAnticoneSizes.entries.foldl
      (fun sizes entry => sizes.insert entry.1 (entry.2 + 1))
      (data.bluesAnticoneSizes.insert block blueAnticoneSize) }

def addRed (data : GhostdagData Hash) (block : Hash) : GhostdagData Hash :=
  { data with mergesetReds := data.mergesetReds ++ [block] }

def finalizeScoreAndWork (data : GhostdagData Hash) (blueScore blueWork : Nat) :
    GhostdagData Hash :=
  { data with blueScore := blueScore, blueWork := blueWork }

end GhostdagData

/-! ## Stores -/

/-- The stores and services that GHOSTDAG reads: the data and the parents of the
known blocks, the targets in their headers, and the reachability service. -/
structure Stores (Hash : Type) where
  ghostdag : HashMap Hash (GhostdagData Hash)
  relations : HashMap Hash (List Hash)
  target : Hash → Nat
  isDagAncestorOf : Hash → Hash → Bool

namespace Stores

variable (stores : Stores Hash)

def getData (hash : Hash) : Checked (GhostdagData Hash) := unwrap (stores.ghostdag.lookup hash)

def getBlueWork (hash : Hash) : Checked Nat := do .ok (← stores.getData hash).blueWork

def getBlueScore (hash : Hash) : Checked Nat := do .ok (← stores.getData hash).blueScore

/-- A block with its work, as it is sorted. -/
def sortable (hash : Hash) : Checked (SortableBlock Hash) := do
  .ok ⟨hash, ← stores.getBlueWork hash⟩

def sortBlocks (blocks : List Hash) : Checked (List Hash) := do
  let keyed ← blocks.mapM stores.sortable
  .ok ((keyed.insertionSort (· ≤ ·)).map SortableBlock.hash)

end Stores

/-! ## Mergeset iterators -/

/-- Merge two lists in the order of a comparison, as the itertools crate does it. Elements
that compare equal are not expected. -/
def mergeJoinBy {α : Type} (compare : α → α → Ordering) : List α → List α → Checked (List α)
  | [], right => .ok right
  | left, [] => .ok left
  | a :: left, b :: right =>
    match compare a b with
    | .lt => do .ok (a :: (← mergeJoinBy compare left (b :: right)))
    | .gt => do .ok (b :: (← mergeJoinBy compare (a :: left) right))
    | .eq => .error .panic

namespace GhostdagData

variable (data : GhostdagData Hash) (stores : Stores Hash)

/-- The mergeset in ascending order; the first blue is the selected parent. -/
def ascendingMergesetWithoutSelectedParent : Checked (List (SortableBlock Hash)) := do
  let blues ← (data.mergesetBlues.drop 1).mapM stores.sortable
  let reds ← data.mergesetReds.mapM stores.sortable
  mergeJoinBy compare blues reds

def descendingMergesetWithoutSelectedParent : Checked (List (SortableBlock Hash)) := do
  let blues ← (data.mergesetBlues.drop 1).reverse.mapM stores.sortable
  let reds ← data.mergesetReds.reverse.mapM stores.sortable
  mergeJoinBy (fun a b => compare b a) blues reds

def consensusOrderedMergeset : Checked (List Hash) := do
  let ascending ← data.ascendingMergesetWithoutSelectedParent stores
  .ok (data.selectedParent :: ascending.map SortableBlock.hash)

def consensusOrderedMergesetWithoutSelectedParent : Checked (List Hash) := do
  let ascending ← data.ascendingMergesetWithoutSelectedParent stores
  .ok (ascending.map SortableBlock.hash)

end GhostdagData

end Qaspa.Ghostdag
