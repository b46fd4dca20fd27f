import Qaspa.Ghostdag.Protocol
import Qaspa.Window.Heap

/-! # Sampled block windows

The window of a block holds the greatest sampled blocks of the mergesets along its
selected chain. It is built from the cached window of the selected parent if there is
one; otherwise the mergesets are pushed one after the other on the way down the
chain, until the heap accepts nothing more, a cached window of a chain block can be
merged in, or the chain ends.

Scores are exact numbers here. An iterator over a mergeset is run to its end before
its blocks are pushed, which makes no difference as long as it does not panic.
-/

namespace Qaspa.Window

open Ghostdag Outcome

variable {Hash : Type} [LinearOrder Hash]

inductive WindowType where
  | difficultyWindow
  | medianTimeWindow
  | varyingWindow (size : Nat)
  deriving DecidableEq

inductive RuleError where
  | insufficientDaaWindowSize (size : Nat)
  deriving DecidableEq, Repr

inductive SampledBlock (Hash : Type) where
  | sampled (block : SortableBlock Hash)
  | nonDaa (hash : Hash)

/-- A window that is copied when it is written to for the first time. -/
structure LazyHeap (Hash : Type) [LinearOrder Hash] where
  source : BoundedSizeBlockHeap Hash
  value : Option (BoundedSizeBlockHeap Hash)

namespace LazyHeap

def unevaluated (source : BoundedSizeBlockHeap Hash) : LazyHeap Hash := ⟨source, none⟩

def evaluated (heap : BoundedSizeBlockHeap Hash) : LazyHeap Hash := ⟨heap, some heap⟩

def tryPush (heap : LazyHeap Hash) (block : SortableBlock Hash) : LazyHeap Hash :=
  { heap with value := some ((heap.value.getD heap.source).tryPush block).1 }

/-- The copy if there is one, the source otherwise. -/
def intoValue (heap : LazyHeap Hash) : BoundedSizeBlockHeap Hash :=
  match heap.value with
  | some value => value
  | none => heap.source

end LazyHeap

/-- The constants of a window manager. -/
structure SampledWindowManager (Hash : Type) where
  genesisHash : Hash
  origin : Hash
  difficultyWindowSize : Nat
  difficultySampleRate : Nat
  pastMedianTimeWindowSize : Nat
  pastMedianTimeSampleRate : Nat
  genesis_ne_origin : genesisHash ≠ origin

/-- The cached windows of blocks. -/
structure Caches (Hash : Type) [LinearOrder Hash] where
  forDifficulty : Hash → Option (BlockWindowHeap Hash)
  forPastMedianTime : Hash → Option (BlockWindowHeap Hash)

namespace Caches

def empty : Caches Hash := ⟨fun _ => none, fun _ => none⟩

/-- The cache of a window type; windows of varying sizes are not cached. -/
def get (caches : Caches Hash) : WindowType → Hash → Option (BlockWindowHeap Hash)
  | .difficultyWindow => caches.forDifficulty
  | .medianTimeWindow => caches.forPastMedianTime
  | .varyingWindow _ => fun _ => none

end Caches

/-! ## Pushing samples -/

/-- Push all samples and collect the hashes of the other blocks. -/
def pushAll : List (SampledBlock Hash) → LazyHeap Hash → List Hash → LazyHeap Hash × List Hash
  | [], heap, inserted => (heap, inserted)
  | .sampled block :: rest, heap, inserted => pushAll rest (heap.tryPush block) inserted
  | .nonDaa hash :: rest, heap, inserted => pushAll rest heap (inserted ++ [hash])

/-- Push samples until one is rejected. -/
def pushUntilRejected : List (SampledBlock Hash) → BoundedSizeBlockHeap Hash →
    BoundedSizeBlockHeap Hash
  | [], heap => heap
  | .sampled block :: rest, heap =>
    if (heap.tryPush block).2 then pushUntilRejected rest (heap.tryPush block).1
    else (heap.tryPush block).1
  | .nonDaa _ :: rest, heap => pushUntilRejected rest heap

namespace SampledWindowManager

variable (manager : SampledWindowManager Hash) (stores : Stores Hash) (daaScore : Hash → Nat)

def windowSize : WindowType → Nat
  | .difficultyWindow => manager.difficultyWindowSize
  | .medianTimeWindow => manager.pastMedianTimeWindowSize
  | .varyingWindow size => size

def sampleRate : WindowType → Nat
  | .difficultyWindow => manager.difficultySampleRate
  | .medianTimeWindow => manager.pastMedianTimeSampleRate
  | .varyingWindow _ => 1

def difficultyFullWindowSize : Nat := manager.difficultyWindowSize * manager.difficultySampleRate

def lowestDaaBlueScore (data : GhostdagData Hash) : Nat :=
  max data.blueScore manager.difficultyFullWindowSize - manager.difficultyFullWindowSize

/-- Go through the blocks of a mergeset. Only blocks at or above the threshold are
counted, and those whose count reaches a multiple of the rate are sampled. -/
def sampleBlocks (sampleRate selectedParentDaaScore threshold : Nat) :
    Nat → List (SortableBlock Hash) → Checked (List (SampledBlock Hash))
  | _, [] => .ok []
  | index, block :: rest => do
    let blueScore ← stores.getBlueScore block.hash
    if blueScore < threshold then do
      let samples ← sampleBlocks sampleRate selectedParentDaaScore threshold index rest
      .ok (.nonDaa block.hash :: samples)
    else do
      let samples ← sampleBlocks sampleRate selectedParentDaaScore threshold (index + 1) rest
      if (selectedParentDaaScore + (index + 1)) % sampleRate = 0 then
        .ok (.sampled block :: samples)
      else .ok samples

def sampledMergesetIterator (sampleRate : Nat) (data : GhostdagData Hash)
    (selectedParentBlueWork : Nat) : Checked (List (SampledBlock Hash)) := do
  let descending ← data.descendingMergesetWithoutSelectedParent stores
  sampleBlocks stores sampleRate (daaScore data.selectedParent) (manager.lowestDaaBlueScore data) 0
    (⟨data.selectedParent, selectedParentBlueWork⟩ :: descending)

/-! ## Building a window -/

/-- The result of building a window, with the hashes given to the inserter. -/
abbrev WindowResult (Hash : Type) [LinearOrder Hash] :=
  Except RuleError (BlockWindowHeap Hash) × List Hash

/-- Walk down the chain until the boundary of the window is crossed. -/
def walk (sampleRate : Nat) (cache : Hash → Option (BlockWindowHeap Hash)) :
    Nat → BoundedSizeBlockHeap Hash → GhostdagData Hash →
      Checked (Except RuleError (BlockWindowHeap Hash))
  | 0, _, _ => .error .outOfFuel
  | fuel + 1, heap, current =>
    if current.selectedParent = manager.origin then
      if heap.reachedSizeBound then .ok (.ok heap.binaryHeap)
      else .ok (.error (.insufficientDaaWindowSize heap.binaryHeap.len))
    else if current.selectedParent = manager.genesisHash then .ok (.ok heap.binaryHeap)
    else do
      let parent ← stores.getData current.selectedParent
      -- the past of the selected parent has only lower blue work
      let canPush ← heap.canPush ⟨current.selectedParent, parent.blueWork⟩
      if canPush then do
        let samples ← manager.sampledMergesetIterator stores daaScore sampleRate current
          parent.blueWork
        let heap := pushUntilRejected samples heap
        match cache current.selectedParent with
        | some window => .ok (.ok (heap.mergeAncestorHeap window).binaryHeap)
        | none => walk sampleRate cache fuel heap parent
      else .ok (.ok heap.binaryHeap)

def buildBlockWindow (caches : Caches Hash) (data : GhostdagData Hash) (windowType : WindowType) :
    Checked (WindowResult Hash) :=
  let windowSize := manager.windowSize windowType
  let sampleRate := manager.sampleRate windowType
  if windowSize = 0 then .ok (.ok .new, [])
  else if data.selectedParent = manager.genesisHash then .ok (.ok .new, [manager.genesisHash])
  else if data.selectedParent = manager.origin then
    .ok (.error (.insufficientDaaWindowSize 0), [])
  else do
    let cache := caches.get windowType
    let selectedParentBlueWork ← stores.getBlueWork data.selectedParent
    let samples ← manager.sampledMergesetIterator stores daaScore sampleRate data
      selectedParentBlueWork
    match cache data.selectedParent with
    | some window =>
      let (heap, inserted) := pushAll samples
        (.unevaluated (.fromBinaryHeap windowSize window)) []
      .ok (.ok heap.intoValue.binaryHeap, inserted)
    | none => do
      let (heap, inserted) := pushAll samples (.evaluated (.new windowSize)) []
      let current ← stores.getData data.selectedParent
      let window ← manager.walk stores daaScore sampleRate cache
        (GhostdagManager.chainFuel stores data.selectedParent) heap.intoValue current
      .ok (window, inserted)

end SampledWindowManager

end Qaspa.Window
