import Qaspa.Ghostdag.Data
import Qaspa.Reachability.Service

/-! # Chain paths

The way from one block to another along selected chains: down to the highest block
that is on both chains, and up again. The iterators walk one block at a time and ask
the reachability service for the next one.
-/

namespace Qaspa.SelectedChain

open Chain Ghostdag Outcome Reachability

variable {Hash : Type} [DecidableEq Hash]

/-- The blocks that leave the selected chain, from the old tip down, and the ones that
join it, up to the new tip. -/
structure ChainPath (Hash : Type) where
  added : List Hash
  removed : List Hash
  deriving DecidableEq, Repr

/-- The blocks from the current one down to an ancestor, which is left out. -/
def backwardChain (service : ReachabilityService Hash) (ancestor : Hash) :
    Nat → Hash → Checked (List Hash)
  | 0, _ => .error .outOfFuel
  | fuel + 1, current =>
    if current = ancestor then .ok []
    else do
      let next ← unwrap (service.getChainParent current)
      return current :: (← backwardChain service ancestor fuel next)

/-- The first `count` blocks from the current one up to a descendant. -/
def forwardChain (service : ReachabilityService Hash) (descendant : Hash) :
    Nat → Hash → Checked (List Hash)
  | 0, _ => .ok []
  | count + 1, current =>
    if current = descendant then .ok [current]
    else do
      let next ← unwrap (service.getNextChainAncestor descendant current)
      return current :: (← forwardChain service descendant count next)

/-- Walk down from the current block to the first one that the target has on its chain. -/
def removedFrom (service : ReachabilityService Hash) (target : Hash) :
    Nat → Hash → Checked (List Hash × Option Hash)
  | 0, _ => .error .outOfFuel
  | fuel + 1, current =>
    if current = service.origin then .ok ([], none)
    else do
      let next ← unwrap (service.getChainParent current)
      if service.isChainAncestorOf current target then return ([], some current)
      else
        let (removed, common) ← removedFrom service target fuel next
        return (current :: removed, common)

def calculateChainPath (service : ReachabilityService Hash) (fuel : Nat) (start target : Hash)
    (chainPathAddedLimit : Option Nat) : Checked (ChainPath Hash) := do
  let (removed, common) ← removedFrom service target fuel start
  let commonAncestor := common.getD start
  match chainPathAddedLimit with
  | none =>
    let added ← backwardChain service commonAncestor fuel target
    return ⟨added.reverse, removed⟩
  | some limit =>
    let added ← forwardChain service target (limit + 1) commonAncestor
    return ⟨added.drop 1, removed⟩

/-! ## Correctness -/

section

variable {service : ReachabilityService Hash} {root : Hash} {rank : Hash → Nat}
  (hcorrect : service.ChainCorrect root rank)

include hcorrect

theorem backwardChain_eq_ok {ancestor current : Hash} {fuel : Nat}
    (hancestor : service.ChainAncestor ancestor current) (hfuel : rank current < fuel) :
    ∃ blocks, backwardChain service ancestor fuel current = .ok blocks ∧
      Descends service.getChainParent current blocks ancestor := by
  induction fuel generalizing current with
  | zero => omega
  | succ fuel ih =>
    rw [backwardChain]
    split
    next heq => exact ⟨[], rfl, heq⟩
    next hne =>
      obtain ⟨parent, hparent, hbelow⟩ := hancestor.exists_parent (Ne.symm hne)
      have hlt := hcorrect.rank_lt parent current hparent
      obtain ⟨blocks, hblocks, hdescends⟩ := ih hbelow (by omega)
      refine ⟨current :: blocks, ?_, rfl, parent, hparent, hdescends⟩
      simp [hparent, hblocks, unwrap]

/-- The walk stops at the highest block that both chains have. -/
theorem removedFrom_eq_ok {current target : Hash} {fuel : Nat}
    (hcurrent : service.ChainAncestor root current) (htarget : service.ChainAncestor root target)
    (hfuel : rank current < fuel) :
    ∃ removed fork, removedFrom service target fuel current = .ok (removed, some fork) ∧
      Descends service.getChainParent current removed fork ∧
      service.ChainAncestor fork target ∧
      ∀ common, service.ChainAncestor common current → service.ChainAncestor common target →
        service.ChainAncestor common fork := by
  induction fuel generalizing current with
  | zero => omega
  | succ fuel ih =>
    obtain ⟨parent, hparent, hroot⟩ := hcorrect.exists_parent hcurrent
    rw [removedFrom, if_neg (hcorrect.ne_origin hcurrent), hparent]
    have honChain := hcorrect.isChainAncestorOf_iff current target hcurrent htarget
    by_cases hfork : service.ChainAncestor current target
    · refine ⟨[], current, ?_, rfl, hfork, fun _ hcommon _ => hcommon⟩
      simp [unwrap, honChain.mpr hfork]
    · have hne : current ≠ root := by
        rintro rfl
        exact hfork htarget
      have hlt := hcorrect.rank_lt parent current hparent
      obtain ⟨removed, fork, hremoved, hdescends, htarget', hhighest⟩ := ih (hroot hne) (by omega)
      refine ⟨current :: removed, fork, ?_, ⟨rfl, parent, hparent, hdescends⟩, htarget', ?_⟩
      · simp [unwrap, Bool.eq_false_iff.mpr (mt honChain.mp hfork), hremoved]
      · intro common hcommon hcommon'
        rcases (ancestor_iff_of_parent hparent).mp hcommon with rfl | hbelow
        · exact absurd hcommon' hfork
        · exact hhighest common hbelow hcommon'

theorem calculateChainPath_eq_ok {start target : Hash} {fuel : Nat}
    (hstart : service.ChainAncestor root start) (htarget : service.ChainAncestor root target)
    (hfuel : rank start < fuel) (hfuel' : rank target < fuel) :
    ∃ path fork, calculateChainPath service fuel start target none = .ok path ∧
      Descends service.getChainParent start path.removed fork ∧
      Descends service.getChainParent target path.added.reverse fork ∧
      ∀ common, service.ChainAncestor common start → service.ChainAncestor common target →
        service.ChainAncestor common fork := by
  obtain ⟨removed, fork, hremoved, hdown, hfork, hhighest⟩ :=
    removedFrom_eq_ok hcorrect hstart htarget hfuel
  obtain ⟨added, hadded, hup⟩ := backwardChain_eq_ok hcorrect hfork hfuel'
  refine ⟨⟨added.reverse, removed⟩, fork, ?_, hdown, by simpa using hup, hhighest⟩
  simp [calculateChainPath, hremoved, hadded]

end

end Qaspa.SelectedChain
