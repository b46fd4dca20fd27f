import Qaspa.Ghostdag.Coloring
import Qaspa.Ghostdag.Iteration

/-! # The blue set is a cluster

Colouring starts from the blues of the selected parent and goes through the mergeset
in topological order, so that no candidate is in the past of a block coloured before
it. Every step returns and keeps the records exact; by induction over the growth of
the DAG this holds of all stored blocks.
-/

namespace Qaspa.Ghostdag

open Dag Outcome List GhostdagManager

variable {Hash : Type} [LinearOrder Hash] {manager : GhostdagManager Hash}
  {stores later : Stores Hash} {data next : GhostdagData Hash} {parents : List Hash}

/-! ## Colouring a mergeset -/

/-- What holds while the remaining candidates are to be coloured. -/
structure Progress (manager : GhostdagManager Hash) (stores : Stores Hash)
    (data : GhostdagData Hash) (candidates : List Hash) : Prop where
  link : ∃ next, Link manager stores data next
  counted : Counted manager stores data
  known : ∀ block ∈ blueSet manager stores data, stores.Known block
  candidate_known : ∀ candidate ∈ candidates, stores.Known candidate
  candidate_ne_origin : ∀ candidate ∈ candidates, candidate ≠ manager.origin
  candidate_outside : ∀ candidate ∈ candidates, ¬ stores.InStrictPast candidate data.selectedParent
  topological : candidates.Pairwise fun earlier later => ¬ stores.InPast later earlier
  future : ∀ candidate ∈ candidates, ∀ block ∈ blueSet manager stores data,
    ¬ stores.InPast candidate block

/-- The records depend on the blues, the sizes and the selected parent only. -/
theorem blueSet_congr {data' : GhostdagData Hash}
    (hblues : data'.mergesetBlues = data.mergesetBlues)
    (hparent : data'.selectedParent = data.selectedParent) :
    blueSet manager stores data' = blueSet manager stores data := by
  ext b
  rw [mem_blueSet, mem_blueSet, hblues, hparent]

theorem Counted.congr {data' : GhostdagData Hash} (hcounted : Counted manager stores data)
    (hblues : data'.mergesetBlues = data.mergesetBlues)
    (hparent : data'.selectedParent = data.selectedParent)
    (hsizes : data'.bluesAnticoneSizes = data.bluesAnticoneSizes) :
    Counted manager stores data' := by
  intro b hb
  rw [blueSet_congr hblues hparent] at hb
  obtain ⟨size, hle, hsize, hcard⟩ := hcounted b hb
  refine ⟨size, hle, ?_, ?_⟩
  · cases hsize with
    | found hfound => exact .found (hsizes ▸ hfound)
    | chain hnone hgenesis horigin hnext hrest =>
      exact .chain (hsizes ▸ hnone) (hparent ▸ hgenesis) (hparent ▸ horigin) (hparent ▸ hnext)
        hrest
  · rw [blueAnticone, blueSet_congr hblues hparent]
    exact hcard

/-- Colouring a candidate returns. -/
theorem Progress.step (hordered : Ordered manager stores) {candidate : Hash}
    {candidates : List Hash} (hprogress : Progress manager stores data (candidate :: candidates)) :
    ∃ colored, manager.colorCandidate stores data candidate = .ok colored ∧
      Progress manager stores colored candidates := by
  obtain ⟨⟨next, hlink⟩, hcounted, hknown, hcandidateKnown, hne, houtside, htopological,
    hfuture⟩ := hprogress
  obtain ⟨hcandidate, hknownTail⟩ := forall_mem_cons.mp hcandidateKnown
  obtain ⟨hneOrigin, hneTail⟩ := forall_mem_cons.mp hne
  obtain ⟨hout, houtTail⟩ := forall_mem_cons.mp houtside
  obtain ⟨hafter, htail⟩ := pairwise_cons.mp htopological
  obtain ⟨hfresh, hfutureTail⟩ := forall_mem_cons.mp hfuture
  rcases checkBlueCandidate_checks hordered hcounted hknown hcandidate hlink hneOrigin with
    hred | ⟨size, sizes, hblue, hscan⟩
  · have hsame : blueSet manager stores (data.addRed candidate) = blueSet manager stores data :=
      blueSet_congr rfl rfl
    refine ⟨data.addRed candidate, ?_, ⟨next, hlink.1, hlink.2, hlink.3, hlink.4⟩,
      hcounted.congr rfl rfl rfl, ?_, hknownTail, hneTail, houtTail, htail, ?_⟩
    · rw [colorCandidate, hred]
      rfl
    · rw [hsame]
      exact hknown
    · rw [hsame]
      exact hfutureTail
  · refine ⟨data.addBlue candidate size sizes, ?_, ⟨next, hlink.1, hlink.2, ?_, ?_⟩,
      hcounted.addBlue hscan hfresh, ?_, hknownTail, hneTail, houtTail, htail, ?_⟩
    · rw [colorCandidate, hblue]
      rfl
    · refine nodup_append.mpr ⟨hlink.nodup, nodup_singleton _, fun x hx y hy => ?_⟩
      rintro rfl
      obtain rfl := mem_singleton.mp hy
      exact hfresh _ (.own hx) (.refl _)
    · intro x hx
      rcases mem_append.mp hx with hx | hx
      · exact hlink.outside x hx
      · rw [mem_singleton.mp hx]
        exact hout
    · rw [blueSet_addBlue]
      rintro b (rfl | hb)
      · exact hcandidate
      · exact hknown b hb
    · rw [blueSet_addBlue]
      rintro c hc b (rfl | hb)
      · exact hafter c hc
      · exact hfutureTail c hc b hb

/-- Colouring the first candidates returns. -/
theorem Progress.run (hordered : Ordered manager stores) {before after : List Hash}
    (hprogress : Progress manager stores data (before ++ after)) :
    ∃ colored, before.foldlM (manager.colorCandidate stores) data = .ok colored ∧
      Progress manager stores colored after := by
  induction before generalizing data with
  | nil => exact ⟨data, rfl, hprogress⟩
  | cons candidate before ih =>
    obtain ⟨first, hfirst, hnext⟩ := hprogress.step hordered
    obtain ⟨colored, hcolored, hfinal⟩ := ih hnext
    refine ⟨colored, ?_, hfinal⟩
    rw [foldlM_cons, hfirst]
    exact hcolored

/-! ## Starting from the selected parent -/

/-- Every stored block has exact records. -/
def AllCounted (manager : GhostdagManager Hash) (stores : Stores Hash) : Prop :=
  ∀ block data, block ≠ manager.origin → stores.ghostdag.lookup block = some data →
    Counted manager stores data

section Start

variable {selected : Hash}

theorem blueSet_newWithSelectedParent (hne : selected ≠ manager.origin)
    (hnext : stores.ghostdag.lookup selected = some next) :
    blueSet manager stores (.newWithSelectedParent selected) =
      insert selected (blueSet manager stores next) := by
  ext b
  rw [mem_blueSet]
  simp [GhostdagData.newWithSelectedParent, hne, hnext]

variable (hordered : Ordered manager stores) (hne : selected ≠ manager.origin)
  (hnext : stores.ghostdag.lookup selected = some next)

include hordered hne hnext

theorem inPast_of_mem_blueSet {block : Hash}
    (hblock : block ∈ blueSet manager stores (.newWithSelectedParent selected)) :
    stores.InPast block selected := by
  rw [blueSet_newWithSelectedParent hne hnext] at hblock
  rcases hblock with rfl | hblue
  · exact .refl _
  · exact (BlueIn.inStrictPast hordered hblue hne hnext).inPast

/-- The selected parent has nothing blue in its anticone and is in no other one. -/
theorem counted_newWithSelectedParent (hcounted : Counted manager stores next) :
    Counted manager stores (.newWithSelectedParent selected) := by
  intro b hb
  rw [blueAnticone, blueSet_newWithSelectedParent hne hnext]
  rw [blueSet_newWithSelectedParent hne hnext] at hb
  rcases hb with rfl | hb
  · refine ⟨0, Nat.zero_le _, .found (AList.lookup_insert _), ?_⟩
    rw [anticoneIn_insert_of_not not_anticone_self, anticoneIn_eq_empty, Set.encard_empty]
    · rfl
    · exact fun y hy => (BlueIn.inStrictPast hordered hy hne hnext).inPast
  · have hstrict := BlueIn.inStrictPast hordered hb hne hnext
    obtain ⟨size, hle, hsize, hcard⟩ := hcounted b hb
    have hgenesis : selected ≠ manager.genesisHash := by
      rintro rfl
      cases hordered.genesis_data.symm.trans hnext
      exact not_blueIn_genesis hb
    have hother : b ≠ selected := by
      rintro rfl
      exact hordered.not_inStrictPast_self hstrict
    refine ⟨size, hle, .chain ?_ hgenesis hne hnext hsize, ?_⟩
    · exact (AList.lookup_insert_ne hother).trans (AList.lookup_empty _)
    · rw [anticoneIn_insert_of_not fun hanticone => hanticone.2 hstrict.inPast]
      exact hcard

/-- The colouring of a mergeset can start. -/
theorem progress_newWithSelectedParent (hcounted : Counted manager stores next)
    {mergeset : List Hash} (hparents : ParentsOk manager stores parents)
    (hselection : Selection stores parents selected mergeset) :
    Progress manager stores (.newWithSelectedParent selected) mergeset := by
  have hselected := hparents.known selected hselection.mem
  have hout : ∀ x ∈ mergeset, ¬ stores.InPast x selected := fun x hx =>
    ((hselection.mem_mergeset x).mp hx).2
  have hneOrigin : ∀ x ∈ mergeset, x ≠ manager.origin := by
    rintro x hx rfl
    have horigin : stores.ParentOf manager.origin manager.genesisHash :=
      ⟨_, hordered.genesis_parents, mem_singleton_self _⟩
    exact hout _ hx ((InStrictPast.of_parentOf horigin).inPast.trans
      (hordered.genesis_inPast hne hselected))
  refine ⟨⟨next, hne, hnext, nodup_singleton _, ?_⟩,
    counted_newWithSelectedParent hordered hne hnext hcounted, ?_,
    hselection.known hordered hparents, hneOrigin, ?_,
    hordered.topological_of_sorted hneOrigin hselection.sorted, ?_⟩
  · intro x hx hstrict
    rw [mem_singleton.mp hx] at hstrict
    exact hordered.not_inStrictPast_self hstrict
  · intro b hb
    exact hordered.closed.known_of_inPast (inPast_of_mem_blueSet hordered hne hnext hb) hselected
  · exact fun x hx hstrict => hout x hx hstrict.inPast
  · intro x hx b hb hpast
    exact hout x hx (hpast.trans (inPast_of_mem_blueSet hordered hne hnext hb))

end Start

theorem Selection.progress {selected : Hash} {mergeset : List Hash}
    (hselection : Selection stores parents selected mergeset) (hordered : Ordered manager stores)
    (hall : AllCounted manager stores) (hparents : ParentsOk manager stores parents) :
    Progress manager stores (.newWithSelectedParent selected) mergeset := by
  have hne := hparents.ne_origin selected hselection.mem
  obtain ⟨next, hnext⟩ := hordered.exists_data (hparents.known selected hselection.mem)
  exact progress_newWithSelectedParent hordered hne hnext (hall selected next hne hnext) hparents
    hselection

/-- GHOSTDAG returns on checked parents, with exact records. -/
theorem ghostdag_counted (hordered : Ordered manager stores) (hall : AllCounted manager stores)
    (hparents : ParentsOk manager stores parents) :
    ∃ data, manager.ghostdag stores parents = .ok data ∧ Progress manager stores data [] := by
  obtain ⟨selected, mergeset, hselection, hrun⟩ := ghostdag_eq hordered hparents
  have hstart := hselection.progress hordered hall hparents
  rw [← append_nil mergeset] at hstart
  obtain ⟨colored, hcolored, hprogress⟩ := hstart.run hordered
  have hsame : blueSet manager stores (finish manager stores selected colored) =
      blueSet manager stores colored := blueSet_congr rfl rfl
  refine ⟨finish manager stores selected colored, ?_, ?_⟩
  · rw [hrun, hcolored]
    rfl
  · obtain ⟨⟨next, hlink⟩, hcounted, hknown, _, _, _, _, _⟩ := hprogress
    exact ⟨⟨next, hlink.1, hlink.2, hlink.3, hlink.4⟩, hcounted.congr rfl rfl rfl,
      hsame ▸ hknown, by simp, by simp, by simp, .nil, by simp⟩

/-! ## Growth of the DAG -/

theorem Ordered.known_chain (hordered : Ordered manager stores) {block : Hash}
    (hne : block ≠ manager.origin) (hdata : stores.ghostdag.lookup block = some data)
    (hparent : data.selectedParent ≠ manager.origin) : stores.Known data.selectedParent := by
  have hgenesis : block ≠ manager.genesisHash := by
    rintro rfl
    cases hordered.genesis_data.symm.trans hdata
    exact hparent rfl
  exact hordered.known_selectedParent (hordered.block block data hne hgenesis hdata)

section Extend

variable (hordered : Ordered manager stores) (hextension : stores.Extension later)

include hordered hextension

theorem SizeAt.extend {block : Hash} {size : Nat} (hsize : SizeAt manager stores block data size) :
    SizeAt manager later block data size := by
  induction hsize with
  | found hfound => exact .found hfound
  | chain hnone hgenesis horigin hnext _ ih =>
    have hsame := hextension.data _ (hordered.known_of_lookup hnext)
    exact .chain hnone hgenesis horigin (hsame.trans hnext) ih

theorem blueSet_extend
    (hparent : data.selectedParent ≠ manager.origin → stores.Known data.selectedParent) :
    blueSet manager later data = blueSet manager stores data := by
  ext b
  constructor
  · intro hblue
    induction hblue with
    | own hmem => exact .own hmem
    | chain hne hnext _ ih =>
      rw [hextension.data _ (hparent hne)] at hnext
      exact .chain hne hnext (ih (hordered.known_chain hne hnext))
  · intro hblue
    induction hblue with
    | own hmem => exact .own hmem
    | chain hne hnext _ ih =>
      refine .chain hne ?_ (ih (hordered.known_chain hne hnext))
      rw [hextension.data _ (hparent hne)]
      exact hnext

theorem Counted.extend (hcounted : Counted manager stores data)
    (hparent : data.selectedParent ≠ manager.origin → stores.Known data.selectedParent)
    (hknown : ∀ block ∈ blueSet manager stores data, stores.Known block) :
    Counted manager later data := by
  have hblues := blueSet_extend hordered hextension hparent
  intro b hb
  rw [hblues] at hb
  obtain ⟨size, hle, hsize, hcard⟩ := hcounted b hb
  refine ⟨size, hle, hsize.extend hordered hextension, ?_⟩
  rw [← hcard, blueAnticone, hblues]
  congr 1
  ext x
  refine and_congr_right fun hx => and_congr ?_ ?_
  · exact not_congr (hextension.inPast_iff hordered.closed (hknown b hb))
  · exact not_congr (hextension.inPast_iff hordered.closed (hknown x hx))

end Extend

/-- All reachable stores have exact records. -/
theorem Built.allCounted {maxBlockParents : Nat} (hbuilt : Built manager maxBlockParents stores) :
    AllCounted manager stores := by
  induction hbuilt with
  | init target isDagAncestorOf horacle =>
    intro block data hne hdata b hb
    rw [lookup_ghostdag_initialStores] at hdata
    split at hdata
    · cases hdata
      exact absurd hb not_blueIn_genesis
    · cases hdata
  | @add stores hbuilt hash parents target data isDagAncestorOf hfresh hchecked hghostdag horacle
      ih =>
      have hordered := hbuilt.ordered
      have hextension : stores.Extension (stores.commit hash parents target data isDagAncestorOf) :=
        commit_extension hfresh
      intro block found hne hfound
      by_cases hblock : block = hash
      · subst hblock
        obtain rfl := Option.mem_unique (AList.lookup_insert _) hfound
        obtain ⟨data', hdata', hprogress⟩ :=
          ghostdag_counted hordered ih (checkParents_eq_ok hordered.oracle hchecked)
        cases hghostdag.symm.trans hdata'
        obtain ⟨next, hlink⟩ := hprogress.link
        exact hprogress.counted.extend hordered hextension
          (fun _ => hordered.known_of_lookup hlink.lookup) hprogress.known
      · have hold := (AList.lookup_insert_ne hblock).symm.trans hfound
        refine (ih block found hne hold).extend hordered hextension
          (hordered.known_chain hne hold) fun b hb => ?_
        exact hordered.closed.known_of_inPast (BlueIn.inStrictPast hordered hb hne hold).inPast
          (hordered.known_of_lookup hold)

/-- The blue set of every block is a `k`-cluster, and the sizes of blue anticones that
GHOSTDAG reads are exact. GHOSTDAG itself returns for all parents that pass the
checks; none of its panics is reachable. -/
theorem blueSet_isCluster {maxBlockParents : Nat}
    (hbuilt : Built manager maxBlockParents stores) :
    (∀ block data, block ≠ manager.origin → stores.ghostdag.lookup block = some data →
      IsCluster stores.relations.lookup manager.k (blueSet manager stores data) ∧
      ∀ blue ∈ blueSet manager stores data, ∃ size,
        manager.blueAnticoneSize stores blue data = .ok size ∧
        (anticoneIn stores.relations.lookup (blueSet manager stores data) blue).encard = size) ∧
    ∀ parents, manager.checkParents maxBlockParents stores parents = .ok () →
      ∃ data, manager.ghostdag stores parents = .ok data := by
  have hordered := hbuilt.ordered
  constructor
  · intro block data hne hdata
    have hcounted := hbuilt.allCounted block data hne hdata
    refine ⟨fun blue hblue => ?_, fun blue hblue => ?_⟩
    · obtain ⟨size, hle, _, hcard⟩ := hcounted blue hblue
      exact hcard.trans_le (Nat.cast_le.mpr hle)
    · obtain ⟨size, _, hsize, hcard⟩ := hcounted blue hblue
      exact ⟨size, blueAnticoneSize_eq_ok hordered hsize, hcard⟩
  · intro parents hchecked
    obtain ⟨data, hghostdag, _⟩ := ghostdag_counted hordered hbuilt.allCounted
      (checkParents_eq_ok hordered.oracle hchecked)
    exact ⟨data, hghostdag⟩

theorem blueSet_isCluster_diamond :
    Built sampleManager 10 sampleStores ∧
      IsCluster sampleStores.relations.lookup 1
        (blueSet sampleManager sampleStores sampleMerge) :=
  ⟨built_sampleStores, ((blueSet_isCluster built_sampleStores).1 4 sampleMerge (by decide) rfl).1⟩

/-! ## The early exit -/

/-- The check of a candidate by the walk down the chain alone. -/
def GhostdagManager.checkBlueCandidateFully (manager : GhostdagManager Hash) (stores : Stores Hash)
    (newBlockData : GhostdagData Hash) (blueCandidate : Hash) : Checked (ColoringOutput Hash) :=
  manager.checkChain stores newBlockData blueCandidate
    (chainFuel stores newBlockData.selectedParent) none newBlockData ⟨∅, 0⟩

/-- Colour one block of the mergeset without the early exit. -/
def GhostdagManager.colorCandidateFully (manager : GhostdagManager Hash) (stores : Stores Hash)
    (data : GhostdagData Hash) (blueCandidate : Hash) : Checked (GhostdagData Hash) := do
  match ← manager.checkBlueCandidateFully stores data blueCandidate with
  | .blue blueAnticoneSize bluesAnticoneSizes =>
    .ok (data.addBlue blueCandidate blueAnticoneSize bluesAnticoneSizes)
  | .red => .ok (data.addRed blueCandidate)

section Exit

variable {selected candidate : Hash} {mergeset before after : List Hash}

/-- The other blues fill the blue anticone of the selected parent when the exit is taken, and the
walk compares the candidate with the selected parent first. -/
theorem checkBlueCandidateFully_red (hordered : Ordered manager stores)
    (hprogress : Progress manager stores data (candidate :: after)) {blues : List Hash}
    (hblues : data.mergesetBlues = data.selectedParent :: blues)
    (hbeside : ∀ x ∈ candidate :: blues, ¬ stores.InPast data.selectedParent x)
    (hexit : data.mergesetBlues.length % wordBound 16 = manager.k + 1) :
    manager.checkBlueCandidateFully stores data candidate = .ok .red := by
  obtain ⟨next, hlink⟩ := hprogress.link
  have hselected : data.selectedParent ∈ blueSet manager stores data := .own (hblues ▸ .head _)
  obtain ⟨size, hle, hsize, hcard⟩ := hprogress.counted _ hselected
  have hnodup := hlink.nodup
  rw [hblues] at hnodup hexit
  obtain ⟨hfresh, hnodup⟩ := nodup_cons.mp hnodup
  have hsubset : (blues.toFinset : Set Hash) ⊆
      blueAnticone manager stores data data.selectedParent := by
    intro x hx
    have hmem : x ∈ blues := by simpa using hx
    have hown : x ∈ data.mergesetBlues := hblues ▸ .tail _ hmem
    refine ⟨.own hown, fun hpast => ?_, hbeside x (.tail _ hmem)⟩
    rcases inPast_iff.mp hpast with rfl | hstrict
    · exact hfresh hmem
    · exact hlink.outside x hown hstrict
  have hlength : blues.length ≤ size := by
    have hcard' := Set.encard_le_encard hsubset
    rw [hcard, Set.encard_coe_eq_coe_finsetCard, toFinset_card_of_nodup hnodup] at hcard'
    exact_mod_cast hcard'
  have hfull : size = manager.k := by
    have hk := manager.k_lt
    rw [length_cons, Nat.mod_eq_of_lt (by omega)] at hexit
    omega
  have hancestor : ¬ stores.isDagAncestorOf data.selectedParent candidate = true := by
    rw [hordered.oracle _ _ (hprogress.known _ hselected) (hprogress.candidate_known _ (.head _))]
    exact hbeside candidate (.head _)
  have hpeers : ∃ scan, manager.checkPeers stores data candidate data.mergesetBlues ⟨∅, 0⟩ =
      .ok (.red, scan) := by
    rw [hblues, checkPeers, if_neg hancestor, blueAnticoneSize_eq_ok hordered hsize,
      ok_bind]
    dsimp only
    rw [if_pos hfull, ite_self]
    exact ⟨_, rfl⟩
  obtain ⟨scan, hscan⟩ := hpeers
  have hblock : manager.checkBlueCandidateWithChainBlock stores data none data candidate ⟨∅, 0⟩ =
      .ok (.red, scan) := hscan
  rw [checkBlueCandidateFully, chainFuel,
    checkChain, hblock]
  rfl

variable {maxBlockParents : Nat} (hbuilt : Built manager maxBlockParents stores)
  (hchecked : manager.checkParents maxBlockParents stores parents = .ok ())
  (hselected : GhostdagManager.findSelectedParent stores parents = .ok selected)
  (hmergeset : GhostdagManager.orderedMergesetWithoutSelectedParent stores selected parents =
    .ok mergeset)

include hbuilt hchecked hselected hmergeset

/-- A state in which a candidate of the mergeset is coloured. -/
theorem exit_state (hsplit : mergeset = before ++ candidate :: after)
    (hfold : before.foldlM (manager.colorCandidate stores) (.newWithSelectedParent selected) =
      .ok data) :
    (∃ colored, manager.colorCandidate stores data candidate = .ok colored) ∧
      (data.mergesetBlues.length % wordBound 16 = manager.k + 1 →
        manager.checkBlueCandidateFully stores data candidate = .ok .red) := by
  have hordered := hbuilt.ordered
  have hparents := checkParents_eq_ok hordered.oracle hchecked
  obtain ⟨_, hmem, hfound, hmax⟩ := Stores.findSelectedParent_eq_ok hparents.nonempty
    fun parent hparent => (hordered.data_known parent).mpr (hparents.known parent hparent)
  cases hselected.symm.trans hfound
  obtain ⟨_, hordering, hsorted, hspec⟩ := orderedMergeset_eq_ok hordered hparents hmem
  cases hmergeset.symm.trans hordering
  have hselection : Selection stores parents selected mergeset := ⟨hmem, hmax, hsorted, hspec⟩
  have hstart := hselection.progress hordered hbuilt.allCounted hparents
  rw [hsplit] at hstart
  obtain ⟨_, hrun, hprogress⟩ := hstart.run hordered
  cases hfold.symm.trans hrun
  obtain ⟨colored, hcolored, _⟩ := hprogress.step hordered
  obtain ⟨hsame, blues, reds, hblues, -, hsublist, -, -⟩ := colored_of_foldlM hfold
  obtain rfl : data.selectedParent = selected := hsame
  refine ⟨⟨colored, hcolored⟩, fun hexit => ?_⟩
  refine checkBlueCandidateFully_red hordered hprogress hblues (fun x hx => ?_) hexit
  have hxMem : x ∈ mergeset := by
    rw [hsplit]
    rcases mem_cons.mp hx with rfl | hx
    · exact mem_append_right _ (.head _)
    · exact mem_append_left _ (hsublist.subset hx)
  obtain ⟨⟨parent, hparent, hpast⟩, hnot⟩ := (hspec x).mp hxMem
  intro habove
  refine hparents.antichain _ hmem parent hparent ?_ (habove.trans hpast)
  rintro rfl
  exact hnot hpast

/-- The early exit never changes a colour: where it is taken, the walk finds the candidate red. -/
theorem earlyExit_redundant :
    (∀ before candidate after data, mergeset = before ++ candidate :: after →
      before.foldlM (manager.colorCandidate stores) (.newWithSelectedParent selected) = .ok data →
      data.mergesetBlues.length = manager.k + 1 →
      manager.checkBlueCandidateFully stores data candidate = .ok .red) ∧
    mergeset.foldlM (manager.colorCandidateFully stores) (.newWithSelectedParent selected) =
      mergeset.foldlM (manager.colorCandidate stores) (.newWithSelectedParent selected) := by
  have hrun : ∀ after before data, mergeset = before ++ after →
      before.foldlM (manager.colorCandidate stores) (.newWithSelectedParent selected) = .ok data →
      after.foldlM (manager.colorCandidateFully stores) data =
        after.foldlM (manager.colorCandidate stores) data := by
    intro after
    induction after with
    | nil => exact fun _ _ _ _ => rfl
    | cons candidate after ih =>
      intro before data hsplit hfold
      obtain ⟨⟨colored, hcolored⟩, hred⟩ :=
        exit_state hbuilt hchecked hselected hmergeset hsplit hfold
      have hsame : manager.colorCandidateFully stores data candidate = .ok colored := by
        rw [← hcolored, GhostdagManager.colorCandidateFully, GhostdagManager.colorCandidate,
          GhostdagManager.checkBlueCandidate]
        split
        next hexit => exact congrArg (· >>= _) (hred hexit)
        · rfl
      rw [List.foldlM_cons, List.foldlM_cons, hsame, hcolored]
      apply ih (before ++ [candidate]) colored
      · rw [hsplit, List.append_assoc]
        rfl
      · rw [List.foldlM_append, hfold, ok_bind, List.foldlM_cons, hcolored]
        rfl
  refine ⟨fun before candidate after data hsplit hfold hlength => ?_, hrun mergeset [] _ rfl rfl⟩
  apply (exit_state hbuilt hchecked hselected hmergeset hsplit hfold).2
  rw [hlength, Nat.mod_eq_of_lt manager.k_lt]

end Exit

/-- Three blocks above the genesis block. -/
def sampleThird : Stores Nat := sampleSecond.commitSample 5 [1] sampleChild

theorem earlyExit_redundant_third :
    ∃ data, [2].foldlM (sampleManager.colorCandidate sampleThird) (.newWithSelectedParent 5) =
        .ok data ∧
      data.mergesetBlues.length = 2 ∧
      sampleManager.checkBlueCandidateFully sampleThird data 3 = .ok .red := by
  have hbuilt : Built sampleManager 10 sampleThird :=
    ((built_sampleGenesis.commitSample rfl rfl rfl).commitSample rfl rfl rfl).commitSample
      rfl rfl rfl
  have hpair : sampleManager.checkParents 10 sampleThird [2, 3, 5] = .ok () := rfl
  exact ⟨_, rfl, rfl, (earlyExit_redundant hbuilt hpair rfl rfl).1 [2] 3 [] _ rfl rfl rfl⟩

end Qaspa.Ghostdag
