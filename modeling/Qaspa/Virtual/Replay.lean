import Qaspa.Virtual.Reorg
import Qaspa.Virtual.Supply

/-! # The walk replays the chain

The diff that is carried along the walk is at every moment the exact diff from the
virtual UTXO set to the current block. Down to the split point this is because the
reverse of a diff leads back; up from it because the stored diffs, and those of newly
verified blocks, are the diffs of the tree. Once a block fails, the diff stays where it
is and the rest of the chain is disqualified.
-/

namespace Qaspa.Virtual

open Utxo Ghostdag Coinbase Outcome Reachability HashMap Option ChainProcessor ChainStores
  BlockVerifier

variable {Hash Digest : Type} [LinearOrder Hash] [DecidableEq Digest]

namespace UtxoTree

variable {tree : UtxoTree Hash} {processor : ChainProcessor Hash Digest} {rank : Hash → Nat}
  {known : TransactionOutpoint → UtxoEntry → Prop}

/-- A diff leads exactly from the virtual UTXO set to a block. -/
structure Exact (tree : UtxoTree Hash) (known : TransactionOutpoint → UtxoEntry → Prop)
    (utxoSet : UtxoView) (diff : UtxoDiff) (block : Hash) : Prop where
  replay : tree.Replay block (utxoSet.compose diff)
  applicable : diff.Applicable utxoSet
  within : ∀ outpoint, Slot.Within (known outpoint) (diff.slot outpoint)

variable (hlawful : tree.Lawful processor rank known)

include hlawful

variable {utxoSet : UtxoView} {diff : UtxoDiff} {block : Hash}

/-- A further diff that fits the set of the block leads on. -/
theorem Exact.withDiff {other : UtxoDiff} {next : Hash}
    (hexact : tree.Exact known utxoSet diff block)
    (hother : other.Applicable (utxoSet.compose diff))
    (hwithin : ∀ outpoint, Slot.Within (known outpoint) (other.slot outpoint))
    (hreplay : tree.Replay next ((utxoSet.compose diff).compose other)) :
    ∃ result, withDiffInPlace diff other = .ok result ∧
      tree.Exact known utxoSet result next := by
  obtain ⟨result, hresult, happlicable, hview, hknown⟩ :=
    UtxoDiff.exists_withDiff (fun outpoint => ⟨hlawful.determined outpoint, hexact.within outpoint,
      hwithin outpoint⟩) hexact.applicable hother
  refine ⟨result, by rw [withDiffInPlace, hresult]; rfl, ?_, happlicable, hknown⟩
  rwa [hview]

/-! ## Down to the split point -/

variable {parent : Hash}

/-- One step down. -/
theorem Exact.stepDown (hexact : tree.Exact known utxoSet diff block) (hne : block ≠ tree.genesis)
    (hparent : tree.service.getChainParent block = some parent) :
    ∃ result, withDiffInPlace diff (tree.diffs block).asReversed = .ok result ∧
      tree.Exact known utxoSet result parent := by
  obtain ⟨hvalid, below, hbelow, hview⟩ := hexact.replay.of_parent hparent hne
  have happlicable := hlawful.applicable parent block below hbelow hparent hvalid
  apply hexact.withDiff hlawful
  · rw [hview]
    exact happlicable.asReversed
  · intro outpoint
    exact And.symm (hlawful.within block outpoint hvalid)
  · rw [hview, happlicable.compose_asReversed]
    exact hbelow

variable {stores : ChainStores Hash} {target current : Hash} {fuel : Nat}

/-- The walk ends at the last common block of both chains. -/
theorem walkDown_eq_ok (hconsistent : tree.Consistent stores) (htarget : tree.Block target)
    (hfuel : rank current < fuel) (hexact : tree.Exact known processor.utxoSet diff current)
    (hstored : (stores.utxoDiffs.lookup current).isSome) :
    ∃ diff' splitPoint,
      processor.walkDown stores.utxoDiffs target fuel diff current = .ok (diff', splitPoint) ∧
        tree.Exact known processor.utxoSet diff' splitPoint ∧
        (stores.utxoDiffs.lookup splitPoint).isSome ∧
        tree.service.ChainAncestor splitPoint target := by
  induction fuel generalizing diff current with
  | zero => cases hfuel
  | succ fuel ih =>
    have hblock := hexact.replay.block
    obtain ⟨parent, hparent, _⟩ := hlawful.correct.exists_parent hblock
    rw [walkDown, hlawful.service, if_neg (hlawful.correct.ne_origin hblock),
      hparent, unwrap, ok_bind]
    split
    next hancestor =>
      exact ⟨diff, current, rfl, hexact, hstored,
        (hlawful.correct.isChainAncestorOf_iff _ _ hblock htarget).mp hancestor⟩
    next hancestor =>
      -- genesis is on both chains
      have hne : current ≠ tree.genesis := by
        rintro rfl
        exact hancestor ((hlawful.correct.isChainAncestorOf_iff _ _ hblock htarget).mpr htarget)
      obtain ⟨mergesetDiff, hdiff⟩ := isSome_iff_exists.mp hstored
      obtain ⟨rfl, _⟩ := hconsistent.stored current mergesetDiff hdiff hne
      obtain ⟨result, hresult, hbelow⟩ := hexact.stepDown hlawful hne hparent
      rw [hdiff, unwrap, ok_bind, hresult]
      apply ih
      · have hlt := hlawful.correct.rank_lt parent current hparent
        omega
      · exact hbelow
      · exact hconsistent.closed current parent hstored hne hparent

omit hlawful

/-! ## Writing the stores -/

section Stores

variable {stores : ChainStores Hash} {x y parent : Hash}

/-- Disqualifying a block without a valid chain, all bad blocks below it being
disqualified already. -/
theorem Consistent.disqualify (hconsistent : tree.Consistent stores)
    (hnot : ¬ tree.Replayable x)
    (hbelow : ∀ parent, tree.service.getChainParent x = some parent → ¬ tree.Replayable parent →
      stores.statuses.lookup parent = some .disqualifiedFromChain) :
    tree.Consistent (stores.disqualify x) := by
  have hlookup : ∀ y, (stores.disqualify x).statuses.lookup y =
      if y = x then some .disqualifiedFromChain else stores.statuses.lookup y :=
    fun y => lookup_insert_eq_ite _ _ _ _
  exact { hconsistent with
    statuses := by
      intro y hy
      rw [hlookup]
      split
      · rfl
      · exact hconsistent.statuses y hy
    disqualified := by
      intro y hy
      rw [hlookup] at hy
      split at hy
      next heq => rwa [heq]
      · exact hconsistent.disqualified y hy
    propagated := by
      intro y parent hblock hparent hy hparentNot
      rw [hlookup]
      split
      · rfl
      · rw [hlookup] at hy
        split at hy
        next heq => exact hbelow parent (heq ▸ hparent) hparentNot
        · exact hconsistent.propagated y parent hblock hparent hy hparentNot }

/-- Committing the state of a block on top of a stored one. -/
theorem Consistent.commitUtxoState (hconsistent : tree.Consistent stores)
    {ctx : UtxoProcessingContext Hash} (hreplayable : tree.Replayable x)
    (hparent : tree.service.getChainParent x = some parent)
    (hstored : (stores.utxoDiffs.lookup parent).isSome)
    (hnew : stores.utxoDiffs.lookup x = none) (hdiff : ctx.mergesetDiff = tree.diffs x)
    (hmultiset : ctx.multisetHash = tree.multisets x)
    (hfinal : ctx.multisetHash.denominator = .one) :
    ∃ next, stores.commitUtxoState x ctx = .ok next ∧ tree.Consistent next ∧
      (next.utxoDiffs.lookup x).isSome := by
  obtain ⟨hmultisetNew, hacceptanceNew⟩ := hconsistent.fresh x hnew
  refine ⟨⟨stores.statuses.insert x .utxoValid, stores.utxoDiffs.insert x ctx.mergesetDiff,
    stores.utxoMultisets.insert x ctx.multisetHash,
    stores.acceptanceData.insert x ctx.mergesetAcceptanceData⟩, ?_, ?_, by simp⟩
  · simp [ChainStores.commitUtxoState, insertNew, hnew, hmultisetNew, hacceptanceNew, hfinal,
      assert]
  · constructor
    · intro y hy
      simp only [lookup_insert_eq_ite]
      split
      · rfl
      · exact hconsistent.statuses y hy
    · intro y diff hy hne
      simp only [lookup_insert_eq_ite] at hy
      split at hy
      next heq =>
        subst heq
        exact ⟨(some.inj hy).symm.trans hdiff, hreplayable⟩
      · exact hconsistent.stored y diff hy hne
    · intro y below hy hne hbelow
      simp only [lookup_insert_eq_ite] at hy ⊢
      split
      · rfl
      · split at hy
        next heq =>
          subst heq
          cases hparent.symm.trans hbelow
          exact hstored
        · exact hconsistent.closed y below hy hne hbelow
    · intro y hy
      simp only [lookup_insert_eq_ite] at hy ⊢
      split
      next heq => rw [hmultiset, heq]
      next hne =>
        rw [if_neg hne] at hy
        exact hconsistent.multisets y hy
    · intro y hy
      simp only [lookup_insert_eq_ite] at hy ⊢
      split at hy
      · cases hy
      next hne =>
        rw [if_neg hne, if_neg hne]
        exact hconsistent.fresh y hy
    · intro y hy
      simp only [lookup_insert_eq_ite] at hy
      split at hy
      · cases hy
      · exact hconsistent.disqualified y hy
    · intro y below hblock hbelow hy hnot
      simp only [lookup_insert_eq_ite] at hy ⊢
      split
      next heq => exact absurd (heq ▸ hreplayable) hnot
      · split at hy
        · cases hy
        · exact hconsistent.propagated y below hblock hbelow hy hnot

end Stores

/-! ## Up to the target -/

/-- Where a walk up to a block has got to: to the block, or to the parent of the first
invalid block of its chain, with the chain from there on disqualified. -/
structure Reached (tree : UtxoTree Hash) (known : TransactionOutpoint → UtxoEntry → Prop)
    (utxoSet : UtxoView) (point : DiffPoint Hash) (block : Hash) : Prop where
  consistent : tree.Consistent point.stores
  diff : tree.Exact known utxoSet point.diff point.diffPoint
  stored : (point.stores.utxoDiffs.lookup point.diffPoint).isSome
  position : point.diffPoint = block ∨ ∃ first,
    tree.service.getChainParent first = some point.diffPoint ∧ ¬ tree.valid first ∧
      tree.service.ChainAncestor first block ∧
      ∀ x, tree.service.ChainAncestor first x → tree.service.ChainAncestor x block →
        point.stores.statuses.lookup x = some .disqualifiedFromChain

variable {selectedParent : Hash}

variable {point : DiffPoint Hash}

/-- The only step above a block that leads to an invalid one stops there. -/
theorem Reached.stop {next : DiffPoint Hash}
    (hreached : tree.Reached known utxoSet point point.diffPoint) (hdiff : next.diff = point.diff)
    (hdiffPoint : next.diffPoint = point.diffPoint)
    (hutxoDiffs : next.stores.utxoDiffs = point.stores.utxoDiffs)
    (hconsistent : tree.Consistent next.stores) (hinvalid : ¬ tree.valid current)
    (hrank : ∀ x y, tree.service.getChainParent y = some x → rank x < rank y)
    (hparent : tree.service.getChainParent current = some point.diffPoint)
    (hstatus : next.stores.statuses.lookup current = some .disqualifiedFromChain) :
    tree.Reached known utxoSet next current where
  consistent := hconsistent
  diff := by rw [hdiff, hdiffPoint]; exact hreached.diff
  stored := by rw [hutxoDiffs, hdiffPoint]; exact hreached.stored
  position := by
    refine .inr ⟨current, by rw [hdiffPoint]; exact hparent, hinvalid, .refl _, ?_⟩
    intro x habove hbelow
    rw [hbelow.antisymm hrank habove]
    exact hstatus

include hlawful

/-- The diff of a valid block leads on to it. -/
theorem Exact.stepUp (hexact : tree.Exact known utxoSet diff parent)
    (hparent : tree.service.getChainParent block = some parent) (hvalid : tree.valid block) :
    ∃ result, withDiffInPlace diff (tree.diffs block) = .ok result ∧
      tree.Exact known utxoSet result block := by
  apply hexact.withDiff hlawful
  · exact hlawful.applicable parent block _ hexact.replay hparent hvalid
  · intro outpoint
    exact hlawful.within block outpoint hvalid
  · exact hexact.replay.child hparent hvalid

/-- Past an invalid block the status is passed on. -/
theorem Reached.propagate (hreached : tree.Reached known processor.utxoSet point selectedParent)
    (hblock : tree.Block selectedParent) (hne : selectedParent ≠ point.diffPoint)
    (hparent : tree.service.getChainParent current = some selectedParent) :
    ∃ next, propagate point current = .ok next ∧
      tree.Reached known processor.utxoSet next current := by
  obtain ⟨first, hfirst, hinvalid, habove, hstatuses⟩ :=
    hreached.position.resolve_left fun heq => hne heq.symm
  have hpointBlock := hreached.diff.replay.block
  have hnotFirst : ¬ tree.Replayable first :=
    mt (replayable_iff hlawful.correct ⟨_, hreached.diff.replay⟩ hfirst).mp hinvalid
  have hfirstBlock : tree.Block first := hpointBlock.trans (.of_parent hfirst)
  have hfirstCurrent := habove.trans (.of_parent hparent)
  have hnot : ¬ tree.Replayable current := fun hreplayable =>
    hnotFirst (hreplayable.mono hlawful.correct hfirstBlock hfirstCurrent)
  have hparentStatus := hstatuses selectedParent habove (.refl _)
  have hposition : ∀ stores : ChainStores Hash,
      (∀ x, point.stores.statuses.lookup x = some .disqualifiedFromChain →
        stores.statuses.lookup x = some .disqualifiedFromChain) →
      stores.statuses.lookup current = some .disqualifiedFromChain →
      ∀ x, tree.service.ChainAncestor first x → tree.service.ChainAncestor x current →
        stores.statuses.lookup x = some .disqualifiedFromChain := by
    intro stores hkept hcurrent x hx hbelow
    rcases (Chain.ancestor_iff_of_parent hparent).mp hbelow with rfl | hbelow
    · exact hcurrent
    · exact hkept x (hstatuses x hx hbelow)
  obtain ⟨status, hstatus⟩ := isSome_iff_exists.mp
    (hreached.consistent.statuses current (hblock.trans (.of_parent hparent)))
  rw [ChainProcessor.propagate, hstatus, unwrap, ok_bind]
  split
  · refine ⟨_, rfl, ?_, hreached.diff, hreached.stored, .inr ⟨first, hfirst, hinvalid,
      hfirstCurrent, hposition _ ?_ ?_⟩⟩
    · apply hreached.consistent.disqualify hnot
      intro parent hstep _
      cases hparent.symm.trans hstep
      exact hparentStatus
    · intro x hx
      rw [disqualify, lookup_insert_eq_ite]
      split
      · rfl
      · exact hx
    · rw [disqualify, lookup_insert_eq_ite, if_pos rfl]
  next hdisqualified =>
    have hcurrent := hstatus.trans (congrArg some (not_not.mp hdisqualified))
    exact ⟨point, rfl, hreached.consistent, hreached.diff, hreached.stored, .inr ⟨first, hfirst,
      hinvalid, hfirstCurrent, hposition _ (fun _ hx => hx) hcurrent⟩⟩

/-- A block without a diff is verified. -/
theorem Reached.validate (hreached : tree.Reached known processor.utxoSet point point.diffPoint)
    (hparent : tree.service.getChainParent current = some point.diffPoint)
    (hnew : point.stores.utxoDiffs.lookup current = none) :
    ∃ next, processor.validate point point.diffPoint current = .ok next ∧
      tree.Reached known processor.utxoSet next current := by
  have hreplay := hreached.diff.replay
  have hreplayable := replayable_iff hlawful.correct ⟨_, hreplay⟩ hparent
  have hmultiset := hreached.consistent.multisets _ hreached.stored
  obtain ⟨status, hstatus⟩ := isSome_iff_exists.mp
    (hreached.consistent.statuses current (hreplay.block.trans (.of_parent hparent)))
  rw [ChainProcessor.validate, hstatus, unwrap, ok_bind]
  split
  next hdisqualified =>
    -- it is known to fail
    rw [hdisqualified] at hstatus
    have hinvalid : ¬ tree.valid current := fun hvalid =>
      hreached.consistent.disqualified current hstatus (hreplayable.mpr hvalid)
    exact ⟨point, rfl, hreached.stop rfl rfl rfl hreached.consistent hinvalid
      hlawful.correct.rank_lt hparent hstatus⟩
  · by_cases hvalid : tree.valid current
    · obtain ⟨ctx, hctx, hdiff, hctxMultiset⟩ :=
        hlawful.accepted _ _ _ _ hreplay hparent hmultiset hvalid
      obtain ⟨result, hresult, hexact⟩ := hreached.diff.stepUp hlawful hparent hvalid
      -- the accumulator of a verified block is finalized
      have hdenominator : ctx.multisetHash.denominator = .one := by
        simp only [processChainBlock, bind_eq_ok] at hctx
        obtain ⟨_, _, _, _, _, _, _, _, hverify⟩ := hctx
        exact (of_verifyExpectedUtxoState hverify).2
      obtain ⟨stores, hcommit, hconsistent, hstored⟩ := hreached.consistent.commitUtxoState
        (hreplayable.mpr hvalid) hparent hreached.stored hnew hdiff hctxMultiset hdenominator
      rw [hctx]
      simp only [hdiff, hresult, hcommit]
      exact ⟨_, rfl, hconsistent, hexact, hstored, .inl rfl⟩
    · obtain ⟨error, herror⟩ := hlawful.rejected _ _ _ _ hreplay hparent hmultiset hvalid
      rw [herror]
      refine ⟨_, rfl, hreached.stop rfl rfl rfl ?_ hvalid hlawful.correct.rank_lt hparent ?_⟩
      · apply hreached.consistent.disqualify (fun hbad => hvalid (hreplayable.mp hbad))
        intro parent hstep hnot
        cases hparent.symm.trans hstep
        exact absurd ⟨_, hreplay⟩ hnot
      · rw [disqualify, lookup_insert_eq_ite, if_pos rfl]

section

variable (hreached : tree.Reached known processor.utxoSet point selectedParent)
  (hblock : tree.Block selectedParent)

include hreached hblock

/-- One step up. -/
theorem Reached.advance (hparent : tree.service.getChainParent current = some selectedParent) :
    ∃ next, processor.advance point selectedParent current = .ok next ∧
      tree.Reached known processor.utxoSet next current := by
  rw [ChainProcessor.advance]
  split
  next hne => exact hreached.propagate hlawful hblock hne hparent
  next heq =>
    obtain rfl := not_not.mp heq
    split
    next mergesetDiff hdiff =>
      have hne : current ≠ tree.genesis := genesis_ne_of_parent hlawful.correct hblock hparent
      obtain ⟨rfl, hreplayable⟩ := hreached.consistent.stored current mergesetDiff hdiff hne
      have hvalid :=
        (replayable_iff hlawful.correct ⟨_, hreached.diff.replay⟩ hparent).mp hreplayable
      obtain ⟨result, hresult, hexact⟩ := hreached.diff.stepUp hlawful hparent hvalid
      rw [hresult]
      exact ⟨_, rfl, hreached.consistent, hexact, by simp [hdiff], .inl rfl⟩
    next hnew => exact hreached.validate hlawful hparent hnew

/-- The whole walk up. -/
theorem Reached.walkUp (htarget : tree.service.ChainAncestor selectedParent target)
    (hfuel : rank target < fuel + rank selectedParent) :
    ∃ next, processor.walkUp target fuel point selectedParent = .ok next ∧
      tree.Reached known processor.utxoSet next target := by
  induction fuel generalizing point selectedParent with
  | zero =>
    have hle := htarget.rank_le hlawful.correct.rank_lt
    omega
  | succ fuel ih =>
    rw [walkUp]
    split
    next heq =>
      subst heq
      exact ⟨point, rfl, hreached⟩
    next hne =>
      obtain ⟨current, hcurrent, hparent, hbelow⟩ :=
        hlawful.correct.getNextChainAncestor_eq _ _ hblock htarget hne
      obtain ⟨next, hnext, hreached'⟩ := hreached.advance hlawful hblock hparent
      rw [hlawful.service, hcurrent, unwrap, ok_bind, hnext]
      have hlt := hlawful.correct.rank_lt selectedParent current hparent
      exact ih hreached' (hblock.trans (.of_parent hparent)) hbelow (by omega)

end

/-! ## The whole walk -/

variable {x : Hash}

/-- Below a disqualified block, every block without a valid chain is disqualified. -/
theorem Consistent.disqualified_below (hconsistent : tree.Consistent stores) {y : Hash}
    (hx : tree.Block x) (hnot : ¬ tree.Replayable x) (hancestor : tree.service.ChainAncestor x y)
    (hy : stores.statuses.lookup y = some .disqualifiedFromChain) :
    stores.statuses.lookup x = some .disqualifiedFromChain := by
  induction hancestor with
  | refl => exact hy
  | @tail middle last hbelow hstep ih =>
    have hmiddle : ¬ tree.Replayable middle := fun hreplayable =>
      hnot (hreplayable.mono hlawful.correct hx hbelow)
    exact ih (hconsistent.propagated last middle (hx.trans (hbelow.tail hstep)) hstep hy hmiddle)

section

variable (hreached : tree.Reached known processor.utxoSet point target)

include hreached

/-- After the walk, all blocks of the target's chain without a valid chain are
disqualified. -/
theorem Reached.disqualified (hx : tree.Block x) (hancestor : tree.service.ChainAncestor x target)
    (hnot : ¬ tree.Replayable x) :
    point.stores.statuses.lookup x = some .disqualifiedFromChain := by
  rcases hreached.position with rfl | ⟨first, _, _, hfirst, hstatuses⟩
  · exact absurd (Replayable.mono hlawful.correct ⟨_, hreached.diff.replay⟩ hx hancestor) hnot
  · exact hreached.consistent.disqualified_below hlawful hx hnot hancestor
      (hstatuses target hfirst (.refl _))

/-- The walk ends at the target if its chain is valid. -/
theorem Reached.diffPoint_eq_target (htarget : tree.Replayable target) :
    point.diffPoint = target := by
  rcases hreached.position with heq | ⟨first, hparent, hnot, hfirst, _⟩
  · exact heq
  · have hfirstBlock := hreached.diff.replay.block.trans (.of_parent hparent)
    have hfirstReplayable := htarget.mono hlawful.correct hfirstBlock hfirst
    exact absurd ((replayable_iff hlawful.correct ⟨_, hreached.diff.replay⟩ hparent).mp
      hfirstReplayable) hnot

/-- Otherwise it ends below the first invalid block. -/
theorem Reached.diffPoint_eq {first : Hash} (hfirst : tree.service.ChainAncestor first target)
    (hnot : ¬ tree.Replayable first) (hparent : tree.service.getChainParent first = some parent)
    (hbelow : tree.Replayable parent) : point.diffPoint = parent := by
  obtain ⟨_, hreplay⟩ := hbelow
  have hblock : tree.Block first := hreplay.block.trans (.of_parent hparent)
  rcases hreached.position with rfl | ⟨other, hother, hinvalid, hancestor, _⟩
  · exact absurd (Replayable.mono hlawful.correct ⟨_, hreached.diff.replay⟩ hblock hfirst) hnot
  · -- both are the first invalid block of one chain
    have hotherNot : ¬ tree.Replayable other :=
      mt (replayable_iff hlawful.correct ⟨_, hreached.diff.replay⟩ hother).mp hinvalid
    have hotherBlock : tree.Block other := hreached.diff.replay.block.trans (.of_parent hother)
    rcases hfirst.total hancestor with hle | hle
    · rcases (Chain.ancestor_iff_of_parent hother).mp hle with rfl | hlower
      · exact mem_unique hother hparent
      · exact absurd (Replayable.mono hlawful.correct ⟨_, hreached.diff.replay⟩ hblock hlower) hnot
    · rcases (Chain.ancestor_iff_of_parent hparent).mp hle with rfl | hlower
      · exact mem_unique hother hparent
      · exact absurd (Replayable.mono hlawful.correct ⟨_, hreplay⟩ hotherBlock hlower) hotherNot

end

theorem valid_of_replayable (hx : tree.Block x) (hreplayable : tree.Replayable x)
    (hne : x ≠ tree.genesis) : tree.valid x := by
  obtain ⟨parent, hparent, hbelow⟩ := hlawful.correct.exists_parent hx
  have hparentReplayable := hreplayable.mono hlawful.correct (hbelow hne) (.of_parent hparent)
  exact (replayable_iff hlawful.correct hparentReplayable hparent).mp hreplayable

variable {start : Hash}

/-- A chain is valid if all of its blocks off another valid chain are. -/
theorem replayable_of_valid (hstart : tree.Replayable start) (hx : tree.Block x)
    (hvalid : ∀ y, tree.Block y → tree.service.ChainAncestor y x →
      ¬ tree.service.ChainAncestor y start → tree.valid y) :
    tree.Replayable x := by
  induction hx with
  | refl => exact ⟨_, .genesis⟩
  | @tail middle last hbelow hstep ih =>
    by_cases hancestor : tree.service.ChainAncestor last start
    · exact hstart.mono hlawful.correct (hbelow.tail hstep) hancestor
    · refine (replayable_iff hlawful.correct (ih fun y hy hyMiddle => ?_) hstep).mpr ?_
      · exact hvalid y hy (hyMiddle.trans (.of_parent hstep))
      · exact hvalid last (hbelow.tail hstep) (.refl _) hancestor

theorem not_replayable_of_invalid {first : Hash} (hstart : tree.Block start)
    (hfirst : tree.Block first) (hnotStart : ¬ tree.service.ChainAncestor first start)
    (hnot : ¬ tree.valid first) : first ≠ tree.genesis ∧ ¬ tree.Replayable first := by
  have hne : first ≠ tree.genesis := by
    rintro rfl
    exact hnotStart hstart
  exact ⟨hne, fun hreplayable => hnot (valid_of_replayable hlawful hfirst hreplayable hne)⟩

/-- A call on consistent stores returns the reached point. -/
theorem calculateUtxoStateRelatively_reached (hconsistent : tree.Consistent stores)
    (hexact : tree.Exact known processor.utxoSet diff start)
    (hstored : (stores.utxoDiffs.lookup start).isSome) (htarget : tree.Block target)
    (hstart : rank start < fuel) (hend : rank target < fuel) :
    ∃ point, processor.calculateUtxoStateRelatively fuel stores diff start target = .ok point ∧
      (stores.statuses.lookup target = some .disqualifiedFromChain ∧ point = ⟨stores, diff, start⟩ ∨
        stores.statuses.lookup target ≠ some .disqualifiedFromChain ∧
          tree.Reached known processor.utxoSet point target) := by
  obtain ⟨status, hstatus⟩ := isSome_iff_exists.mp (hconsistent.statuses target htarget)
  rw [calculateUtxoStateRelatively, hstatus, unwrap, ok_bind]
  split
  next hdisqualified => exact ⟨_, rfl, .inl ⟨congrArg some hdisqualified, rfl⟩⟩
  next hdisqualified =>
    obtain ⟨diff', splitPoint, hdown, hsplit, hsplitStored, hancestor⟩ :=
      walkDown_eq_ok hlawful hconsistent htarget hstart hexact hstored
    have hreached : tree.Reached known processor.utxoSet ⟨stores, diff', splitPoint⟩ splitPoint :=
      ⟨hconsistent, hsplit, hsplitStored, .inl rfl⟩
    have hfuel : rank target < fuel + rank splitPoint := by omega
    obtain ⟨point, hup, hreached'⟩ := hreached.walkUp hlawful hsplit.replay.block hancestor hfuel
    refine ⟨point, by rw [hdown]; exact hup, .inr ⟨fun heq => ?_, hreached'⟩⟩
    exact hdisqualified (some.inj heq)

/-- From any exact diff, the state of any other block is reached without a failing call.
The result is the exact diff of the block that is returned: the target if all blocks of
its chain above the common ancestor are valid, the parent of the first invalid one of
them otherwise, and the start if the target is known to be disqualified. The chain from
the first invalid block up to the target ends up disqualified. -/
theorem calculateUtxoStateRelatively_replays {stores : ChainStores Hash}
    (hconsistent : tree.Consistent stores) {diff : UtxoDiff} {start target : Hash}
    (hexact : tree.Exact known processor.utxoSet diff start)
    (hstored : (stores.utxoDiffs.lookup start).isSome) (htarget : tree.Block target) {fuel : Nat}
    (hstart : rank start < fuel) (hend : rank target < fuel) :
    ∃ point, processor.calculateUtxoStateRelatively fuel stores diff start target = .ok point ∧
      tree.Exact known processor.utxoSet point.diff point.diffPoint ∧
      tree.Consistent point.stores ∧ (point.stores.utxoDiffs.lookup point.diffPoint).isSome ∧
      (stores.statuses.lookup target = some .disqualifiedFromChain →
        point = ⟨stores, diff, start⟩) ∧
      (stores.statuses.lookup target ≠ some .disqualifiedFromChain →
        ((∀ x, tree.Block x → tree.service.ChainAncestor x target →
            ¬ tree.service.ChainAncestor x start → tree.valid x) → point.diffPoint = target) ∧
        ∀ first, tree.Block first → tree.service.ChainAncestor first target →
          ¬ tree.service.ChainAncestor first start → ¬ tree.valid first →
          (∀ x, tree.Block x → tree.service.ChainAncestor x first → x ≠ first →
            ¬ tree.service.ChainAncestor x start → tree.valid x) →
          tree.service.getChainParent first = some point.diffPoint) ∧
      ∀ first x, tree.Block first → ¬ tree.service.ChainAncestor first start →
        ¬ tree.valid first → tree.service.ChainAncestor first x →
        tree.service.ChainAncestor x target →
        point.stores.statuses.lookup x = some .disqualifiedFromChain := by
  obtain ⟨point, hpoint, hcases⟩ :=
    calculateUtxoStateRelatively_reached hlawful hconsistent hexact hstored htarget hstart hend
  have hstartReplayable : tree.Replayable start := ⟨_, hexact.replay⟩
  -- an invalid block leaves no valid chain above it
  have hinvalid : ∀ first x, tree.Block first → ¬ tree.service.ChainAncestor first start →
      ¬ tree.valid first → tree.service.ChainAncestor first x → ¬ tree.Replayable x :=
    fun first x hfirst hnotStart hnot hx hreplayable =>
      (not_replayable_of_invalid hlawful hexact.replay.block hfirst hnotStart hnot).2
        (hreplayable.mono hlawful.correct hfirst hx)
  refine ⟨point, hpoint, ?_⟩
  rcases hcases with ⟨hstatus, rfl⟩ | ⟨hstatus, hreached⟩
  · refine ⟨hexact, hconsistent, hstored, fun _ => rfl, fun hne => absurd hstatus hne, ?_⟩
    intro first x hfirst hnotStart hnot hx hxTarget
    exact hconsistent.disqualified_below hlawful (hfirst.trans hx)
      (hinvalid first x hfirst hnotStart hnot hx) hxTarget hstatus
  · refine ⟨hreached.diff, hreached.consistent, hreached.stored, fun heq => absurd heq hstatus,
      fun _ => ⟨fun hvalid => ?_, ?_⟩, ?_⟩
    · exact hreached.diffPoint_eq_target hlawful
        (replayable_of_valid hlawful hstartReplayable htarget hvalid)
    · intro first hfirst hfirstTarget hnotStart hnot hbelowValid
      obtain ⟨hne, hnotReplayable⟩ :=
        not_replayable_of_invalid hlawful hexact.replay.block hfirst hnotStart hnot
      obtain ⟨parent, hparent, hbelow⟩ := hlawful.correct.exists_parent hfirst
      have hparentReplayable : tree.Replayable parent := by
        apply replayable_of_valid hlawful hstartReplayable (hbelow hne)
        intro y hy hyParent hyStart
        refine hbelowValid y hy (hyParent.trans (.of_parent hparent)) ?_ hyStart
        rintro rfl
        exact Chain.not_ancestor_parent hlawful.correct.rank_lt hparent hyParent
      rw [hreached.diffPoint_eq hlawful hfirstTarget hnotReplayable hparent hparentReplayable]
      exact hparent
    · intro first x hfirst hnotStart hnot hx hxTarget
      exact hreached.disqualified hlawful (hfirst.trans hx) hxTarget
        (hinvalid first x hfirst hnotStart hnot hx)

end UtxoTree

/-! ## A reorganization

Blocks 2 and 3 are on top of genesis, and block 4 is on top of block 3. -/

open ReachabilityService (fork fork_parent fork_rank_lt fork_correct)

/-- The header of block 3 commits to another UTXO set. -/
def forkHeaders : HashMap Nat (Header Nat) :=
  ((∅ : HashMap Nat (Header Nat)).insert 2 (supplyHeader 2)).insert 3
    { supplyHeader 2 with hash := 3, utxoCommitment := 1 }

/-- The parents of block 4 are left open. -/
def forkProcessor (parents : List Nat) : ChainProcessor Nat (List TransactionOutput) where
  verifier := supplyVerifier
  reachabilityService := fork
  stores := sampleSecond.commitSample 4 parents sampleMerge
  headers := forkHeaders
  blockTransactions := supplyTransactions
  mergesetNonDaa := fun _ => some fun _ => false
  utxoSet := fun _ => none

/-- Only block 2 is valid. -/
def forkTree (numerator : MuHash.U3072) : UtxoTree Nat where
  service := fork
  genesis := 1
  genesisView := fun _ => none
  valid block := block = 2
  diffs _ := .default
  multisets block := if block = 2 then ⟨numerator, .one⟩ else .new

/-- Blocks 3 and 4 have the given status. -/
def forkStores (status : BlockStatus) (numerator : MuHash.U3072) : ChainStores Nat where
  statuses := ofList [(1, .utxoValid), (2, .utxoValid), (3, status), (4, status)]
  utxoDiffs := ofList [(1, .default), (2, .default)]
  utxoMultisets := ofList [(1, .new), (2, ⟨numerator, .one⟩)]
  acceptanceData := ofList [(1, []), (2, [])]

variable {x : Nat}

theorem fork_block_iff : fork.ChainAncestor 1 x ↔ 1 ≤ x ∧ x ≤ 4 := by
  constructor
  · intro hx
    rcases Relation.ReflTransGen.cases_tail hx with rfl | ⟨parent, _, hstep⟩
    · decide
    · have hcases := fork_parent hstep
      omega
  · rintro ⟨hone, hfour⟩
    have hlast : fork.getChainParent 4 = some 3 := rfl
    have hthree : fork.getChainParent 3 = some 1 := rfl
    interval_cases x
    · exact .refl 1
    · exact .of_parent rfl
    · exact .of_parent hthree
    · exact (Chain.Ancestor.of_parent hthree).trans (.of_parent hlast)

variable {numerator : MuHash.U3072}

/-- Only genesis and block 2 have valid chains. -/
theorem fork_replayable (hx : (forkTree numerator).Replayable x) : x = 1 ∨ x = 2 := by
  obtain ⟨_, hreplay⟩ := hx
  cases hreplay with
  | genesis => exact .inl rfl
  | child _ _ hvalid => exact .inr hvalid

section ForkBlocks

variable (parents : List Nat) {utxoMultisets : HashMap Nat MuHash} {multiset : MuHash}
  (hmultiset : utxoMultisets.lookup 1 = some .new)
  (hcombine : MuHash.new.combine .new = .ok multiset)
  (hserialize : multiset.serialize = .ok (numerator.toLeBytes, ⟨numerator, .one⟩))

include hmultiset hcombine

/-- On top of genesis, both blocks calculate the same state. -/
theorem processChainBlock_fork {block : Nat} {header : Header Nat}
    (hheader : forkHeaders.lookup block = some header) (hscore : header.daaScore = 0)
    (hdata : (forkProcessor parents).stores.ghostdag.lookup block = some sampleChild) :
    (forkProcessor parents).processChainBlock utxoMultisets 1 block (fun _ => none) =
      supplyVerifier.verifyExpectedUtxoState supplyTransactions (fun _ => some fun _ => false)
        (supplyContext multiset) (fun _ => none) header := by
  have hstate : (forkProcessor parents).verifier.toProcessor.calculateUtxoState
      (forkProcessor parents).stores (forkProcessor parents).blockTransactions
        (.new sampleChild .new) (fun _ => none) 0 = .ok (supplyContext multiset) :=
    calculateUtxoState_supply _ hcombine
  have hheader' : (forkProcessor parents).headers.lookup block = some header := hheader
  rw [processChainBlock]
  simp only [hheader', hdata, hmultiset, unwrap, ok_bind, hscore, hstate]
  rfl

include hserialize

theorem accepted_fork :
    (forkProcessor parents).processChainBlock utxoMultisets 1 2 (fun _ => none) =
      .ok (supplyContext ⟨numerator, .one⟩) := by
  have hheader : forkHeaders.lookup 2 = some (supplyHeader 2) := rfl
  rw [processChainBlock_fork parents hmultiset hcombine hheader rfl rfl]
  exact verifyExpectedUtxoState_supply hserialize

theorem rejected_fork :
    (forkProcessor parents).processChainBlock utxoMultisets 1 3 (fun _ => none) =
      .error (.err (.badUTXOCommitment 1 0)) := by
  have hheader : forkHeaders.lookup 3 =
      some { supplyHeader 2 with hash := 3, utxoCommitment := 1 } := rfl
  have hfinalize : multiset.finalize supplyVerifier.finalizeHash = .ok (0, ⟨numerator, .one⟩) := by
    rw [MuHash.finalize, hserialize]
    rfl
  rw [processChainBlock_fork parents hmultiset hcombine hheader rfl rfl,
    verifyExpectedUtxoState, verifyUtxoCommitment, supplyContext,
    hfinalize]
  rfl

end ForkBlocks

theorem fork_lawful {multiset : MuHash} (hcombine : MuHash.new.combine .new = .ok multiset)
    (hserialize : multiset.serialize = .ok (numerator.toLeBytes, ⟨numerator, .one⟩))
    (parents : List Nat) :
    (forkTree numerator).Lawful (forkProcessor parents) id (fun _ _ => False) := by
  have hparents : ∀ parent block view, (forkTree numerator).Replay parent view →
      fork.getChainParent block = some parent → parent = 1 ∧ (block = 2 ∨ block = 3) := by
    intro parent block view hreplay hparent
    have hvalid := fork_replayable ⟨view, hreplay⟩
    have hcases := fork_parent hparent
    omega
  exact {
    service := rfl
    correct := fork_correct
    determined := by
      intro _ _ _ hleft
      exact hleft.elim
    within := by
      intro block outpoint _
      constructor <;> simp [forkTree, UtxoDiff.default, UtxoDiff.slot]
    applicable := by
      intro parent block view _ _ _
      constructor <;> simp [forkTree, UtxoDiff.default, UtxoDiff.ScoresDiffer]
    accepted := by
      intro parent block view utxoMultisets hreplay hparent hmultiset hvalid
      obtain ⟨rfl, _⟩ := hparents parent block view hreplay hparent
      obtain rfl := hreplay.unique fork_correct .genesis
      obtain rfl : block = 2 := hvalid
      exact ⟨_, accepted_fork parents hmultiset hcombine hserialize, rfl, rfl⟩
    rejected := by
      intro parent block view utxoMultisets hreplay hparent hmultiset hinvalid
      obtain ⟨rfl, hfork⟩ := hparents parent block view hreplay hparent
      obtain rfl := hreplay.unique fork_correct .genesis
      obtain rfl : block = 3 := hfork.resolve_left hinvalid
      exact ⟨_, rejected_fork parents hmultiset hcombine hserialize⟩ }

theorem lookup_fork {V : Type} {first second : V} (hone : x ≠ 1) (htwo : x ≠ 2) :
    (ofList [(1, first), (2, second)]).lookup x = none := by
  refine (lookup_insert_insert 2 1 x second first).trans ?_
  rw [if_neg hone, if_neg htwo]

theorem fork_consistent (status : BlockStatus) (numerator : MuHash.U3072) :
    (forkTree numerator).Consistent (forkStores status numerator) := by
  have hdiffs : ∀ x, (forkStores status numerator).utxoDiffs.lookup x =
      if x = 1 then some .default else if x = 2 then some .default else none :=
    fun x => lookup_insert_insert 2 1 x _ _
  have hreplayable : (forkTree numerator).Replayable 2 := ⟨_, .child .genesis rfl rfl⟩
  have hstatus : ∀ x, (forkStores status numerator).statuses.lookup x =
      some .disqualifiedFromChain → x = 3 ∨ x = 4 := by
    intro x hx
    have hmem : (x, BlockStatus.disqualifiedFromChain) ∈
        [(1, .utxoValid), (2, .utxoValid), (3, status), (4, status)] := mem_of_lookup_ofList hx
    simp only [List.mem_cons, Prod.mk.injEq, reduceCtorEq, and_false, false_or] at hmem
    exact hmem.imp And.left fun hlast => (hlast.resolve_right List.not_mem_nil).1
  exact {
    statuses := by
      intro x hx
      obtain ⟨hone, hfour⟩ := fork_block_iff.mp hx
      interval_cases x <;> rfl
    stored := by
      intro x diff hx hne
      rw [hdiffs, if_neg (show x ≠ 1 from hne)] at hx
      split at hx
      next htwo =>
        subst htwo
        exact ⟨(some.inj hx).symm, hreplayable⟩
      · cases hx
    closed := by
      intro x parent hx hne hparent
      rcases fork_parent hparent with ⟨rfl, _⟩ | ⟨_, rfl⟩ | ⟨rfl, _⟩
      · exact absurd rfl hne
      · rfl
      · cases hx
    multisets := by
      intro x hx
      rw [hdiffs] at hx
      split_ifs at hx with hone htwo
      · subst hone
        rfl
      · subst htwo
        rfl
      · cases hx
    fresh := by
      intro x hx
      rw [hdiffs] at hx
      split_ifs at hx with hone htwo
      exact ⟨lookup_fork hone htwo, lookup_fork hone htwo⟩
    disqualified := by
      intro x hx hvalid
      have hx := hstatus x hx
      have hvalid := fork_replayable hvalid
      omega
    propagated := by
      intro x parent _ hparent hx hnot
      have hcases := hstatus x hx
      rcases fork_parent hparent with ⟨rfl, _⟩ | ⟨_, rfl⟩ | ⟨rfl, rfl⟩
      · omega
      · exact absurd ⟨_, .genesis⟩ hnot
      · exact hx }

theorem fork_exact {multiset : MuHash} (hcombine : MuHash.new.combine .new = .ok multiset)
    (hserialize : multiset.serialize = .ok (numerator.toLeBytes, ⟨numerator, .one⟩)) :
    (forkTree numerator).Exact (fun _ _ => False) (fun _ => none) .default 2 := by
  have hlawful := fork_lawful hcombine hserialize []
  refine ⟨.child .genesis rfl rfl, hlawful.applicable 1 2 _ .genesis rfl rfl, ?_⟩
  exact fun outpoint => hlawful.within 2 outpoint rfl

/-- From block 2 to block 4 over block 3, which fails: the walk ends at genesis and disqualifies
both. -/
theorem UtxoTree.calculateUtxoStateRelatively_fork : ∃ numerator,
    (forkTree numerator).Lawful (forkProcessor [3]) id (fun _ _ => False) ∧
    (forkTree numerator).Consistent (forkStores .utxoPendingVerification numerator) ∧
    ∃ point, (forkProcessor [3]).calculateUtxoStateRelatively 5
        (forkStores .utxoPendingVerification numerator) .default 2 4 = .ok point ∧
      point.diffPoint = 1 ∧
      point.stores.statuses.lookup 3 = some .disqualifiedFromChain ∧
      point.stores.statuses.lookup 4 = some .disqualifiedFromChain := by
  obtain ⟨multiset, numerator, hcombine, hserialize⟩ := exists_supplyMultiset
  have hlawful := fork_lawful hcombine hserialize [3]
  have hconsistent := fork_consistent .utxoPendingVerification numerator
  have hblock : ∀ x, 1 ≤ x → x ≤ 4 → (forkTree numerator).Block x :=
    fun x hone hfour => fork_block_iff.mpr ⟨hone, hfour⟩
  have habove : fork.ChainAncestor 3 4 := .of_parent rfl
  have hnotStart : ¬ fork.ChainAncestor 3 2 := fun hancestor =>
    absurd (hancestor.rank_le fork_rank_lt) (by decide)
  have hinvalid : ¬ (forkTree numerator).valid 3 := by simp [forkTree]
  obtain ⟨point, hpoint, _, _, _, _, hposition, hdisqualified⟩ :=
    UtxoTree.calculateUtxoStateRelatively_replays hlawful hconsistent
      (fork_exact hcombine hserialize) rfl (hblock 4 (by decide) (by decide))
      (show id 2 < 5 by decide) (show id 4 < 5 by decide)
  have hthree := hblock 3 (by decide) (by decide)
  have hparent := (hposition (by simp [forkStores]; decide)).2 3 hthree habove hnotStart hinvalid ?_
  · exact ⟨numerator, hlawful, hconsistent, point, hpoint, (Option.some.inj hparent).symm,
      hdisqualified 3 3 hthree hnotStart hinvalid (.refl 3) habove,
      hdisqualified 3 4 hthree hnotStart hinvalid habove (.refl 4)⟩
  · intro x hx hancestor hne hnot
    -- below block 3 there is only genesis, which is below block 2 too
    obtain ⟨parent, hstep, hbelow⟩ := hancestor.exists_parent hne
    cases hstep
    obtain rfl : x = 1 := Nat.le_antisymm (hbelow.rank_le fork_rank_lt)
      (fork_block_iff.mp hx).1
    exact absurd (.of_parent rfl) hnot

end Qaspa.Virtual
