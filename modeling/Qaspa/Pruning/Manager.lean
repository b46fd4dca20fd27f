import Qaspa.Ghostdag.Data
import Qaspa.Reachability.Service

/-! # The pruning point manager

The first block of each finality epoch on a selected chain is a pruning sample, and each block
stores the latest sample below it. The pruning point of a block is the latest sample that is
deep enough below it; it is found by following the stored samples.
-/

namespace Qaspa.Pruning

open Ghostdag (Checked)
open Outcome Reachability

variable {Hash : Type}

structure CompactGhostdagData (Hash : Type) where
  blueScore : Nat
  selectedParent : Hash
  deriving DecidableEq, Repr

structure Header (Hash : Type) where
  blueScore : Nat
  pruningPoint : Hash
  deriving DecidableEq, Repr

structure PruningPointReply (Hash : Type) where
  /-- The most recent pruning sample from the point of view of the queried block. -/
  pruningSample : Hash
  /-- The most recent pruning sample with the pruning depth. -/
  pruningPoint : Hash
  deriving DecidableEq, Repr

variable [DecidableEq Hash]

structure PruningPointManager (Hash : Type) [DecidableEq Hash] where
  pruningDepth : Nat
  finalityDepth : Nat
  genesisHash : Hash
  reachabilityService : ReachabilityService Hash
  ghostdagStore : HashMap Hash (CompactGhostdagData Hash)
  headersStore : HashMap Hash (Header Hash)
  pruningSamplesStore : HashMap Hash Hash

namespace PruningPointManager

variable (self : PruningPointManager Hash)

/-- The number of hops through the samples from a sample to its pruning point. -/
def pruningSamplesSteps : Nat :=
  if 0 < self.pruningDepth % self.finalityDepth then self.pruningDepth / self.finalityDepth + 1
  else self.pruningDepth / self.finalityDepth

def getHeader (hash : Hash) : Checked (Header Hash) := unwrap (self.headersStore.lookup hash)

def getBlueScore (hash : Hash) : Checked Nat := do
  return (← self.getHeader hash).blueScore

def pruningSampleFromPov (hash : Hash) : Checked Hash :=
  unwrap (self.pruningSamplesStore.lookup hash)

/-- The epoch of a blue score. -/
def finalityScore (blueScore : Nat) : Nat := blueScore / self.finalityDepth

def isPruningSample (selfBlueScore epochChainAncestorBlueScore : Nat) : Bool :=
  decide (self.finalityScore epochChainAncestorBlueScore < self.finalityScore selfBlueScore)

/-- Follow the samples down to the pruning point of a block with the given blue score. -/
def findPruningPoint (blueScore : Nat) (isSelfPruningSample : Bool)
    (selectedParentPruningPoint : Hash) : Nat → Nat → Hash → Checked Hash
  | 0, _, _ => .error .outOfFuel
  | fuel + 1, steps, current =>
    if current = self.genesisHash then .ok current
    else do
      let currentBlueScore ← self.getBlueScore current
      if currentBlueScore + self.pruningDepth ≤ blueScore then .ok current
      -- Right after a change of the depths a sample may be this far back and not deep enough.
      else if isSelfPruningSample && steps == self.pruningSamplesSteps then .ok current
      else if current = selectedParentPruningPoint then .ok current
      else
        let next ← self.pruningSampleFromPov current
        findPruningPoint blueScore isSelfPruningSample selectedParentPruningPoint fuel
          (steps + 1) next

/-- The sample of a block: its selected parent, or the sample of that. -/
def pruningSampleOver (selectedParent : Hash) (selectedParentBlueScore : Nat) : Checked Hash :=
  if selectedParent = self.genesisHash then .ok self.genesisHash
  else do
    let sample ← self.pruningSampleFromPov selectedParent
    let sampleBlueScore ← self.getBlueScore sample
    if self.isPruningSample selectedParentBlueScore sampleBlueScore then .ok selectedParent
    else .ok sample

def expectedHeaderPruningPoint (data : CompactGhostdagData Hash) :
    Checked (PruningPointReply Hash) := do
  let selectedParentBlueScore ← self.getBlueScore data.selectedParent
  let pruningSample ← self.pruningSampleOver data.selectedParent selectedParentBlueScore
  let isSelfPruningSample := self.isPruningSample data.blueScore selectedParentBlueScore
  let selectedParentHeader ← self.getHeader data.selectedParent
  let pruningPoint ← self.findPruningPoint data.blueScore isSelfPruningSample
    selectedParentHeader.pruningPoint (data.blueScore + 1) 1 pruningSample
  return ⟨pruningSample, pruningPoint⟩

/-- The samples from the current one down to a given one, which is left out, in front of the
ones already collected in reverse order. -/
def collectSamples (last : Hash) : Nat → Hash → List Hash → Checked (List Hash)
  | 0, _, _ => .error .outOfFuel
  | fuel + 1, current, deque =>
    if current = last then .ok deque
    else do
      let next ← self.pruningSampleFromPov current
      collectSamples last fuel next (current :: deque)

def nextPruningPoints (sinkGhostdag : CompactGhostdagData Hash) (currentPruningPoint : Hash) :
    Checked (List Hash) :=
  if sinkGhostdag.selectedParent = self.reachabilityService.origin then .ok []
  else do
    let currentBlueScore ← self.getBlueScore currentPruningPoint
    if currentBlueScore + self.pruningDepth > sinkGhostdag.blueScore then return []
    else
      let reply ← self.expectedHeaderPruningPoint sinkGhostdag
      let sinkPruningPointBlueScore ← self.getBlueScore reply.pruningPoint
      if sinkPruningPointBlueScore ≤ currentBlueScore then return []
      else
        self.collectSamples currentPruningPoint (sinkPruningPointBlueScore + 1)
          reply.pruningPoint []

end PruningPointManager

end Qaspa.Pruning
