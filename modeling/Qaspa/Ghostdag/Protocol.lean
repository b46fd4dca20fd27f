import Qaspa.Ghostdag.Data
import Qaspa.Lib.Search

/-! # The GHOSTDAG protocol

The data of a new block is computed from its parents: the heaviest parent is
selected, the blocks outside of its past are collected, and each of them is
coloured blue unless that would give some blue block more than `k` blue blocks in
its anticone. The sizes of blue anticones are never recomputed: a block records
the sizes that its own mergeset changed, and the current size of a blue block is
the first one found on the way down the selected chain.

Loops that walk the selected chain run on a budget taken from the blue score, which
grows along the chain.
-/

namespace Qaspa.Ghostdag

open Outcome

variable {Hash : Type} [LinearOrder Hash]

/-- The constants of a GHOSTDAG instance. The code computes `k + 1` in the 16-bit
word that holds `k`. -/
structure GhostdagManager (Hash : Type) where
  genesisHash : Hash
  origin : Hash
  zeroHash : Hash
  k : Nat
  levelWork : Nat
  genesis_ne_origin : genesisHash ≠ origin
  k_lt : k + 1 < wordBound 16

/-- The work of a block of some target. -/
def calcWork (target : Nat) : Nat := (wordBound 256 - 1 - target) / (target + 1) + 1

inductive ColoringState where
  | blue
  | red
  | pending
  deriving DecidableEq

/-- The colour of a candidate; a blue one comes with the size of its blue anticone
and the sizes, before it, of the blue blocks in it. -/
inductive ColoringOutput (Hash : Type) where
  | blue (blueAnticoneSize : Nat) (bluesAnticoneSizes : HashMap Hash Nat)
  | red

/-- What is known about a candidate while the blue blocks are scanned. -/
structure Candidate (Hash : Type) where
  bluesAnticoneSizes : HashMap Hash Nat
  blueAnticoneSize : Nat

/-- The blocks in the past of the parents that are not in the past of the selected
parent, in no particular order. -/
def unorderedMergesetWithoutSelectedParent (relations : HashMap Hash (List Hash))
    (isDagAncestorOf : Hash → Hash → Bool) (selectedParent : Hash) (parents : List Hash) :
    Checked (List Hash) :=
  let queue := parents.filter (· ≠ selectedParent)
  Search.search relations.lookup (isDagAncestorOf · selectedParent)
    (parents.length + relations.keys.length) ⟨queue, queue.dedup, []⟩

namespace GhostdagManager

variable (manager : GhostdagManager Hash) (stores : Stores Hash)

def genesisGhostdagData : GhostdagData Hash := ⟨0, 0, manager.origin, [], [], ∅⟩

def originGhostdagData : GhostdagData Hash := ⟨0, 0, manager.zeroHash, [], [], ∅⟩

def findSelectedParent (parents : List Hash) : Checked Hash := do
  let keyed ← parents.mapM stores.sortable
  .ok (← unwrap keyed.max?).hash

def orderedMergesetWithoutSelectedParent (selectedParent : Hash) (parents : List Hash) :
    Checked (List Hash) := do
  stores.sortBlocks (← unorderedMergesetWithoutSelectedParent stores.relations
    stores.isDagAncestorOf selectedParent parents)

/-- Walk down the selected chain until a recorded size is found. -/
def blueAnticoneSizeFrom (block : Hash) : Nat → HashMap Hash Nat → Hash → Checked Nat
  | 0, _, _ => .error .outOfFuel
  | fuel + 1, sizes, selectedParent =>
    match sizes.lookup block with
    | some size => .ok size
    | none =>
      if selectedParent = manager.genesisHash ∨ selectedParent = manager.origin then
        .error .panic
      else do
        let data ← stores.getData selectedParent
        blueAnticoneSizeFrom block fuel data.bluesAnticoneSizes data.selectedParent

/-- The budget of a walk down the chain of a block with the given selected parent. -/
def chainFuel (selectedParent : Hash) : Nat :=
  (stores.ghostdag.lookup selectedParent).elim 0 GhostdagData.blueScore + 2

/-- The blue anticone size of a block from the worldview of `context`. -/
def blueAnticoneSize (block : Hash) (context : GhostdagData Hash) : Checked Nat :=
  manager.blueAnticoneSizeFrom stores block (chainFuel stores context.selectedParent)
    context.bluesAnticoneSizes context.selectedParent

/-- Scan the blues of one chain block for violations of the limit `k`. -/
def checkPeers (newBlockData : GhostdagData Hash) (blueCandidate : Hash) :
    List Hash → Candidate Hash → Checked (ColoringState × Candidate Hash)
  | [], candidate => .ok (.pending, candidate)
  | peer :: peers, candidate =>
    if stores.isDagAncestorOf peer blueCandidate then
      checkPeers newBlockData blueCandidate peers candidate
    else do
      let peerSize ← manager.blueAnticoneSize stores peer newBlockData
      let candidate : Candidate Hash :=
        ⟨candidate.bluesAnticoneSizes.insert peer peerSize, candidate.blueAnticoneSize + 1⟩
      if manager.k < candidate.blueAnticoneSize then .ok (.red, candidate)
      else if peerSize = manager.k then .ok (.red, candidate)
      else do
        assert (decide (peerSize ≤ manager.k))
        checkPeers newBlockData blueCandidate peers candidate

/-- The new block has no hash; every other chain block decides the colour if the
candidate is in its future. -/
def checkBlueCandidateWithChainBlock (newBlockData : GhostdagData Hash) (chainHash : Option Hash)
    (chainData : GhostdagData Hash) (blueCandidate : Hash) (candidate : Candidate Hash) :
    Checked (ColoringState × Candidate Hash) :=
  if chainHash.any (stores.isDagAncestorOf · blueCandidate) then .ok (.blue, candidate)
  else manager.checkPeers stores newBlockData blueCandidate chainData.mergesetBlues candidate

/-- Walk down the selected chain until the candidate is coloured. -/
def checkChain (newBlockData : GhostdagData Hash) (blueCandidate : Hash) :
    Nat → Option Hash → GhostdagData Hash → Candidate Hash → Checked (ColoringOutput Hash)
  | 0, _, _, _ => .error .outOfFuel
  | fuel + 1, chainHash, chainData, candidate => do
    let (state, candidate) ← manager.checkBlueCandidateWithChainBlock stores newBlockData
      chainHash chainData blueCandidate candidate
    match state with
    | .blue => .ok (.blue candidate.blueAnticoneSize candidate.bluesAnticoneSizes)
    | .red => .ok .red
    | .pending => do
      let next ← stores.getData chainData.selectedParent
      checkChain newBlockData blueCandidate fuel (some chainData.selectedParent) next candidate

def checkBlueCandidate (newBlockData : GhostdagData Hash) (blueCandidate : Hash) :
    Checked (ColoringOutput Hash) :=
  -- the length is compared in the 16-bit word that holds `k`
  if newBlockData.mergesetBlues.length % wordBound 16 = manager.k + 1 then .ok .red
  else
    manager.checkChain stores newBlockData blueCandidate
      (chainFuel stores newBlockData.selectedParent) none newBlockData ⟨∅, 0⟩

/-- Colour one block of the mergeset. -/
def colorCandidate (data : GhostdagData Hash) (blueCandidate : Hash) :
    Checked (GhostdagData Hash) := do
  match ← manager.checkBlueCandidate stores data blueCandidate with
  | .blue blueAnticoneSize bluesAnticoneSizes =>
    .ok (data.addBlue blueCandidate blueAnticoneSize bluesAnticoneSizes)
  | .red => .ok (data.addRed blueCandidate)

/-- The work that a blue block adds. -/
def blockWork (hash : Hash) : Nat := max (calcWork (stores.target hash)) manager.levelWork

def ghostdag (parents : List Hash) : Checked (GhostdagData Hash) := do
  assert (!parents.isEmpty)
  let selectedParent ← findSelectedParent stores parents
  if selectedParent = manager.origin then .ok (.newWithSelectedParent selectedParent)
  else do
    let orderedMergeset ← orderedMergesetWithoutSelectedParent stores selectedParent parents
    let data ← orderedMergeset.foldlM (manager.colorCandidate stores)
      (.newWithSelectedParent selectedParent)
    let blueScore := (← stores.getBlueScore selectedParent) + data.mergesetBlues.length
    let addedBlueWork := (data.mergesetBlues.map (manager.blockWork stores)).sum
    let blueWork := (← stores.getBlueWork selectedParent) + addedBlueWork
    .ok (data.finalizeScoreAndWork blueScore blueWork)

end GhostdagManager

end Qaspa.Ghostdag
