import Qaspa.Reachability.Service
import Qaspa.Virtual.Verification

/-! # Moving along the selected-parent tree

The UTXO set is stored for the virtual block only; the sets of other blocks are diffs
from it. To reach another chain, the diff of the current block is carried down to the
split point through the reversed diffs of its chain, and up again through the diffs of
the other chain. Blocks that have no diff yet are verified on the way, and the chain is
disqualified from the first block on that fails.
-/

namespace Qaspa.Virtual

open Utxo Ghostdag Coinbase Outcome Reachability

inductive BlockStatus where
  | invalid
  | utxoValid
  | utxoPendingVerification
  | disqualifiedFromChain
  | headerOnly
  deriving DecidableEq, Repr

/-! ## The stores -/

/-- The stores that are written on the way. -/
structure ChainStores (Hash : Type) where
  statuses : HashMap Hash BlockStatus
  utxoDiffs : HashMap Hash UtxoDiff
  utxoMultisets : HashMap Hash MuHash
  acceptanceData : HashMap Hash (List (MergesetBlockAcceptanceData Hash))

/-- The processor with the stores that it only reads. -/
structure ChainProcessor (Hash Digest : Type) where
  verifier : BlockVerifier Hash Digest
  reachabilityService : ReachabilityService Hash
  stores : Stores Hash
  headers : HashMap Hash (Header Hash)
  blockTransactions : Hash → Option (List Transaction)
  mergesetNonDaa : Hash → Option (Hash → Bool)
  utxoSet : UtxoView

/-- A diff of the virtual UTXO set together with the block it leads to. -/
structure DiffPoint (Hash : Type) where
  stores : ChainStores Hash
  diff : UtxoDiff
  diffPoint : Hash

variable {Hash Digest : Type} [LinearOrder Hash] [DecidableEq Digest]

/-- A store refuses a key that it has. -/
def insertNew {V : Type} (store : HashMap Hash V) (key : Hash) (value : V) :
    Checked (HashMap Hash V) :=
  if (store.lookup key).isSome then .error .panic else .ok (store.insert key value)

namespace ChainStores

variable (self : ChainStores Hash)

def disqualify (block : Hash) : ChainStores Hash :=
  { self with statuses := self.statuses.insert block .disqualifiedFromChain }

/-- The multiset is stored as a single number, so it must be finalized. -/
def commitUtxoState (current : Hash) (ctx : UtxoProcessingContext Hash) :
    Checked (ChainStores Hash) := do
  let utxoDiffs ← insertNew self.utxoDiffs current ctx.mergesetDiff
  assert (ctx.multisetHash.denominator = .one)
  let utxoMultisets ← insertNew self.utxoMultisets current ctx.multisetHash
  let acceptanceData ← insertNew self.acceptanceData current ctx.mergesetAcceptanceData
  return ⟨self.statuses.insert current .utxoValid, utxoDiffs, utxoMultisets, acceptanceData⟩

end ChainStores

/-! ## The walk -/

namespace ChainProcessor

variable (self : ChainProcessor Hash Digest)

/-- A composition that the code unwraps. -/
def withDiffInPlace (diff other : UtxoDiff) : Checked UtxoDiff :=
  (diff.withDiff other).mapError fun _ => .panic

/-- Calculate and verify the UTXO state of a chain block. -/
def processChainBlock (utxoMultisets : HashMap Hash MuHash) (selectedParent current : Hash)
    (selectedParentUtxoView : UtxoView) : Outcome RuleError (UtxoProcessingContext Hash) := do
  let header ← unwrap (self.headers.lookup current)
  let mergesetData ← unwrap (self.stores.ghostdag.lookup current)
  let selectedParentMultisetHash ← unwrap (utxoMultisets.lookup selectedParent)
  let ctx ← BlockVerifier.unwrapped (self.verifier.toProcessor.calculateUtxoState self.stores
    self.blockTransactions (.new mergesetData selectedParentMultisetHash) selectedParentUtxoView
    header.daaScore)
  self.verifier.verifyExpectedUtxoState self.blockTransactions self.mergesetNonDaa ctx
    selectedParentUtxoView header

/-- Walk down to the split point, taking the diffs back. The iterator ends at the origin,
where a split point is expected to have been found. -/
def walkDown (utxoDiffs : HashMap Hash UtxoDiff) (target : Hash) :
    Nat → UtxoDiff → Hash → Checked (UtxoDiff × Hash)
  | 0, _, _ => .error .outOfFuel
  | fuel + 1, diff, current =>
    if current = self.reachabilityService.origin then .error .panic
    else do
      let next ← unwrap (self.reachabilityService.getChainParent current)
      if self.reachabilityService.isChainAncestorOf current target then .ok (diff, current)
      else do
        let mergesetDiff ← unwrap (utxoDiffs.lookup current)
        let diff ← withDiffInPlace diff mergesetDiff.asReversed
        walkDown utxoDiffs target fuel diff next

/-- A block whose chain is disqualified is disqualified too. -/
def propagate (point : DiffPoint Hash) (current : Hash) : Checked (DiffPoint Hash) := do
  let status ← unwrap (point.stores.statuses.lookup current)
  if status ≠ .disqualifiedFromChain then
    .ok { point with stores := point.stores.disqualify current }
  else .ok point

/-- A block without a diff is verified, unless it is known to be disqualified. -/
def validate (point : DiffPoint Hash) (selectedParent current : Hash) :
    Checked (DiffPoint Hash) := do
  let status ← unwrap (point.stores.statuses.lookup current)
  if status = .disqualifiedFromChain then .ok point
  else
    match self.processChainBlock point.stores.utxoMultisets selectedParent current
        (self.utxoSet.compose point.diff) with
    | .error (.err _) => .ok { point with stores := point.stores.disqualify current }
    | .error _ => .error .panic
    | .ok ctx => do
      let diff ← withDiffInPlace point.diff ctx.mergesetDiff
      let stores ← point.stores.commitUtxoState current ctx
      return ⟨stores, diff, current⟩

/-- One step up the chain. -/
def advance (point : DiffPoint Hash) (selectedParent current : Hash) : Checked (DiffPoint Hash) :=
  if selectedParent ≠ point.diffPoint then propagate point current
  else
    match point.stores.utxoDiffs.lookup current with
    | some mergesetDiff => do
      let diff ← withDiffInPlace point.diff mergesetDiff
      return { point with diff, diffPoint := current }
    | none => self.validate point selectedParent current

/-- Walk up to a descendant. -/
def walkUp (target : Hash) : Nat → DiffPoint Hash → Hash → Checked (DiffPoint Hash)
  | 0, _, _ => .error .outOfFuel
  | fuel + 1, point, selectedParent =>
    if selectedParent = target then .ok point
    else do
      let current ← unwrap (self.reachabilityService.getNextChainAncestor target selectedParent)
      walkUp target fuel (← self.advance point selectedParent current) current

/-- The UTXO state of `target`, or of the top-most valid block of its chain, from that of
`start`. -/
def calculateUtxoStateRelatively (fuel : Nat) (stores : ChainStores Hash) (diff : UtxoDiff)
    (start target : Hash) : Checked (DiffPoint Hash) := do
  let status ← unwrap (stores.statuses.lookup target)
  if status = .disqualifiedFromChain then .ok ⟨stores, diff, start⟩
  else do
    let (diff, splitPoint) ← self.walkDown stores.utxoDiffs target fuel diff start
    self.walkUp target fuel ⟨stores, diff, splitPoint⟩ splitPoint

end ChainProcessor

/-! ## A tree of valid and invalid blocks -/

/-- The blocks of a selected-parent tree: which of them are UTXO-valid, the diffs of the
valid ones and their multisets. -/
structure UtxoTree (Hash : Type) where
  service : ReachabilityService Hash
  genesis : Hash
  genesisView : UtxoView
  valid : Hash → Prop
  diffs : Hash → UtxoDiff
  multisets : Hash → MuHash

namespace UtxoTree

variable (tree : UtxoTree Hash)

abbrev Block (block : Hash) : Prop := tree.service.ChainAncestor tree.genesis block

/-- The UTXO set of a block whose chain is valid, by replaying all diffs from genesis. -/
inductive Replay : Hash → UtxoView → Prop where
  | genesis : Replay tree.genesis tree.genesisView
  | child {parent block : Hash} {view : UtxoView} (hparent : Replay parent view)
      (hstep : tree.service.getChainParent block = some parent) (hvalid : tree.valid block) :
      Replay block (view.compose (tree.diffs block))

def Replayable (block : Hash) : Prop := ∃ view, tree.Replay block view

/-- The processor works on the tree: the service is right, the diffs of valid blocks fit
the sets of their selected parents, and verification accepts exactly the valid blocks.
Entries are determined by their outpoint and DAA score. -/
structure Lawful (processor : ChainProcessor Hash Digest) (rank : Hash → Nat)
    (known : TransactionOutpoint → UtxoEntry → Prop) : Prop where
  service : processor.reachabilityService = tree.service
  correct : tree.service.ChainCorrect tree.genesis rank
  determined : Determined known
  within : ∀ block outpoint, tree.valid block →
    Slot.Within (known outpoint) ((tree.diffs block).slot outpoint)
  applicable : ∀ parent block view, tree.Replay parent view →
    tree.service.getChainParent block = some parent → tree.valid block →
      (tree.diffs block).Applicable view
  accepted : ∀ parent block view utxoMultisets, tree.Replay parent view →
    tree.service.getChainParent block = some parent →
    utxoMultisets.lookup parent = some (tree.multisets parent) → tree.valid block →
      ∃ ctx, processor.processChainBlock utxoMultisets parent block view = .ok ctx ∧
        ctx.mergesetDiff = tree.diffs block ∧ ctx.multisetHash = tree.multisets block
  rejected : ∀ parent block view utxoMultisets, tree.Replay parent view →
    tree.service.getChainParent block = some parent →
    utxoMultisets.lookup parent = some (tree.multisets parent) → ¬ tree.valid block →
      ∃ error, processor.processChainBlock utxoMultisets parent block view = .error (.err error)

/-- The stores agree with the tree. Diffs are stored for blocks with a valid chain, from
genesis upwards; a disqualified block has an invalid one on its chain, and so far up
that chain all blocks are disqualified. -/
structure Consistent (stores : ChainStores Hash) : Prop where
  statuses : ∀ x, tree.Block x → (stores.statuses.lookup x).isSome
  stored : ∀ x diff, stores.utxoDiffs.lookup x = some diff → x ≠ tree.genesis →
    diff = tree.diffs x ∧ tree.Replayable x
  closed : ∀ x parent, (stores.utxoDiffs.lookup x).isSome → x ≠ tree.genesis →
    tree.service.getChainParent x = some parent → (stores.utxoDiffs.lookup parent).isSome
  multisets : ∀ x, (stores.utxoDiffs.lookup x).isSome →
    stores.utxoMultisets.lookup x = some (tree.multisets x)
  fresh : ∀ x, stores.utxoDiffs.lookup x = none →
    stores.utxoMultisets.lookup x = none ∧ stores.acceptanceData.lookup x = none
  disqualified : ∀ x, stores.statuses.lookup x = some .disqualifiedFromChain → ¬ tree.Replayable x
  propagated : ∀ x parent, tree.Block x → tree.service.getChainParent x = some parent →
    stores.statuses.lookup x = some .disqualifiedFromChain → ¬ tree.Replayable parent →
      stores.statuses.lookup parent = some .disqualifiedFromChain

section Replay

omit [LinearOrder Hash]

variable {tree} {rank : Hash → Nat} (hcorrect : tree.service.ChainCorrect tree.genesis rank)
  {x y parent : Hash} {view view' : UtxoView}

theorem Replay.block (hreplay : tree.Replay x view) : tree.Block x := by
  induction hreplay with
  | genesis => exact .refl _
  | child _ hstep _ ih => exact ih.trans (.of_parent hstep)

/-- A replay ends with the diff of the block, on top of the replay of its parent. -/
theorem Replay.of_parent (hreplay : tree.Replay x view)
    (hparent : tree.service.getChainParent x = some parent) (hne : x ≠ tree.genesis) :
    tree.valid x ∧ ∃ below, tree.Replay parent below ∧ view = below.compose (tree.diffs x) := by
  cases hreplay with
  | genesis => exact absurd rfl hne
  | child hbelow hstep hvalid =>
    cases hparent.symm.trans hstep
    exact ⟨hvalid, _, hbelow, rfl⟩

include hcorrect

theorem genesis_ne_of_parent (hparent : tree.Block parent)
    (hstep : tree.service.getChainParent x = some parent) : x ≠ tree.genesis := by
  rintro rfl
  cases hcorrect.root_parent.symm.trans hstep
  exact hcorrect.ne_origin hparent rfl

theorem Replay.unique (hreplay : tree.Replay x view) (hreplay' : tree.Replay x view') :
    view = view' := by
  induction hreplay generalizing view' with
  | genesis =>
    cases hreplay' with
    | genesis => rfl
    | child hbelow hstep _ => exact absurd rfl (genesis_ne_of_parent hcorrect hbelow.block hstep)
  | child hbelow hstep _ ih =>
    obtain ⟨_, below, hbelow', rfl⟩ := hreplay'.of_parent hstep
      (genesis_ne_of_parent hcorrect hbelow.block hstep)
    rw [ih hbelow']

/-- The blocks below a block with a valid chain have valid chains. -/
theorem Replayable.mono (hx : tree.Replayable x) (hy : tree.Block y)
    (hancestor : tree.service.ChainAncestor y x) : tree.Replayable y := by
  obtain ⟨view, hreplay⟩ := hx
  induction hreplay generalizing y with
  | genesis =>
    obtain rfl := hancestor.antisymm hcorrect.rank_lt hy
    exact ⟨_, .genesis⟩
  | child hbelow hstep hvalid ih =>
    rcases (Chain.ancestor_iff_of_parent hstep).mp hancestor with rfl | hbelowAncestor
    · exact ⟨_, .child hbelow hstep hvalid⟩
    · exact ih hy hbelowAncestor

theorem replayable_iff (hparent : tree.Replayable parent)
    (hstep : tree.service.getChainParent x = some parent) :
    tree.Replayable x ↔ tree.valid x := by
  obtain ⟨below, hbelow⟩ := hparent
  constructor
  · rintro ⟨view, hreplay⟩
    exact (hreplay.of_parent hstep
      (genesis_ne_of_parent hcorrect hbelow.block hstep)).1
  · intro hvalid
    exact ⟨_, hbelow.child hstep hvalid⟩

end Replay

end UtxoTree

end Qaspa.Virtual
