import Qaspa.Ghostdag.Order

/-! # Mergesets

The search for the mergeset finds exactly the blocks in the past of the new block
that are not in the past of its selected parent. Colouring splits them into two
sorted lists, and merging the lists again gives a topological order.
-/

namespace Qaspa.Ghostdag

open Dag Outcome List AList Relation.ReflTransGen Stores GhostdagManager HashMap

variable {Hash : Type} [LinearOrder Hash] {manager : GhostdagManager Hash}
  {stores : Stores Hash} {parents : List Hash} {selected : Hash}
  (hordered : Ordered manager stores) (hparents : ParentsOk manager stores parents)

/-! ## Finding the mergeset -/

section

include hordered

/-- Below a start outside of the past of the selected parent, nothing that is itself
outside of it has been pruned. -/
theorem connected_iff (hselected : stores.Known selected) {x first : Hash}
    (houtside : ¬ stores.InPast first selected) :
    Search.Connected stores.relations.lookup (stores.isDagAncestorOf · selected) x first ↔
      stores.InPast x first ∧ ¬ stores.InPast x selected := by
  have hanswer : ∀ y, stores.Known y →
      (stores.isDagAncestorOf y selected = false ↔ ¬ stores.InPast y selected) := by
    intro y hknown
    have hiff : _ ↔ stores.InPast y selected := hordered.oracle y selected hknown hselected
    rw [← hiff, Bool.not_eq_true]
  constructor
  · intro hconnected
    induction hconnected using head_induction_on with
    | refl => exact ⟨.refl _, houtside⟩
    | head hedge _ ih =>
      exact ⟨(single hedge.1).trans ih.1,
        (hanswer _ (hordered.closed _ _ hedge.1)).mp hedge.2⟩
  · rintro ⟨hpast, hnot⟩
    induction hpast using head_induction_on with
    | refl => exact .refl
    | head hedge hrest ih =>
      refine (ih fun hmiddle => hnot ?_).head
        ⟨hedge, (hanswer _ (hordered.closed _ _ hedge)).mpr hnot⟩
      exact (single hedge).trans hmiddle

variable (hselected : selected ∈ parents)

include hparents hselected

/-- The blocks of the mergeset, without the selected parent. -/
theorem unorderedMergeset_eq_ok :
    ∃ mergeset, unorderedMergesetWithoutSelectedParent stores.relations stores.isDagAncestorOf
        selected parents = .ok mergeset ∧ mergeset.Nodup ∧
      ∀ x, x ∈ mergeset ↔ (∃ parent ∈ parents, stores.InPast x parent) ∧
        ¬ stores.InPast x selected := by
  have hknown := hparents.known selected hselected
  have hstart : ∀ first ∈ parents.filter (· ≠ selected),
      stores.Known first ∧ ¬ stores.InPast first selected := by
    intro first hfirst
    obtain ⟨hmem, hne⟩ := mem_filter.mp hfirst
    exact ⟨hparents.known first hmem,
      hparents.antichain first hmem selected hselected (by simpa using hne)⟩
  obtain ⟨mergeset, hmergeset, hnodup, hmem⟩ : ∃ mergeset,
      unorderedMergesetWithoutSelectedParent stores.relations stores.isDagAncestorOf selected
        parents = .ok mergeset ∧ mergeset.Nodup ∧
      ∀ x, x ∈ mergeset ↔ ∃ first ∈ parents.filter (· ≠ selected),
        Search.Connected stores.relations.lookup (stores.isDagAncestorOf · selected) x first :=
    Search.search_spec hordered.closed
      (fun node hnode => mem_keys.mp (isSome_lookup.mp hnode))
      (fun first hfirst => (hstart first hfirst).1)
      (Nat.add_le_add_right (length_filter_le _ _) _)
  refine ⟨mergeset, hmergeset, hnodup, fun x => ?_⟩
  rw [hmem]
  constructor
  · rintro ⟨first, hfirst, hconnected⟩
    obtain ⟨hpast, hnot⟩ := (connected_iff hordered hknown (hstart first hfirst).2).mp hconnected
    exact ⟨⟨first, mem_of_mem_filter hfirst, hpast⟩, hnot⟩
  · rintro ⟨⟨parent, hparent, hpast⟩, hnot⟩
    have hfirst : parent ∈ parents.filter (· ≠ selected) := by
      refine mem_filter.mpr ⟨hparent, ?_⟩
      simp only [ne_eq, decide_not, Bool.not_eq_eq_eq_not, Bool.not_true, decide_eq_false_iff_not]
      rintro rfl
      exact hnot hpast
    exact ⟨parent, hfirst,
      (connected_iff hordered hknown (hstart parent hfirst).2).mpr ⟨hpast, hnot⟩⟩

/-- The ordered mergeset holds the same blocks, sorted. -/
theorem orderedMergeset_eq_ok :
    ∃ mergeset, orderedMergesetWithoutSelectedParent stores selected parents =
        .ok mergeset ∧
      (mergeset.Pairwise fun left right => stores.blockKey left < stores.blockKey right) ∧
      ∀ x, x ∈ mergeset ↔ (∃ parent ∈ parents, stores.InPast x parent) ∧
        ¬ stores.InPast x selected := by
  obtain ⟨unordered, hunordered, hnodup, hmem⟩ :=
    unorderedMergeset_eq_ok hordered hparents hselected
  have hdata : ∀ x ∈ unordered, (stores.ghostdag.lookup x).isSome := by
    intro x hx
    obtain ⟨⟨parent, hparent, hpast⟩, _⟩ := (hmem x).mp hx
    exact (hordered.data_known x).mpr
      (hordered.closed.known_of_inPast hpast (hparents.known parent hparent))
  obtain ⟨sorted, hsort, hperm, hsorted⟩ := sortBlocks_eq_ok hnodup hdata
  refine ⟨sorted, ?_, hsorted, fun x => ?_⟩
  · rw [orderedMergesetWithoutSelectedParent, hunordered]
    exact hsort
  · rw [hperm.mem_iff, hmem]

end

/-! ## Colouring -/

/-- Colouring splits the candidates into new blues and new reds and keeps their order. -/
structure Colored (data : GhostdagData Hash) (candidates : List Hash)
    (colored : GhostdagData Hash) : Prop where
  selectedParent_eq : colored.selectedParent = data.selectedParent
  split : ∃ blues reds, colored.mergesetBlues = data.mergesetBlues ++ blues ∧
    colored.mergesetReds = data.mergesetReds ++ reds ∧
    blues.Sublist candidates ∧ reds.Sublist candidates ∧ (blues ++ reds).Perm candidates

theorem colored_of_foldlM {candidates : List Hash} {data colored : GhostdagData Hash}
    (hfold : candidates.foldlM (manager.colorCandidate stores) data = .ok colored) :
    Colored data candidates colored := by
  induction candidates generalizing data with
  | nil =>
    cases hfold
    exact ⟨rfl, [], [], by simp⟩
  | cons candidate candidates ih =>
    obtain ⟨next, hnext, hrest⟩ := bind_eq_ok.mp hfold
    obtain ⟨hsame, blues, reds, hblues, hreds, hsubBlues, hsubReds, hperm⟩ := ih hrest
    obtain ⟨output, -, hcolor⟩ := bind_eq_ok.mp hnext
    cases output with
    | blue size sizes =>
      cases hcolor
      refine ⟨hsame, candidate :: blues, reds, ?_, hreds, hsubBlues.cons_cons _,
        hsubReds.cons _, hperm.cons _⟩
      rw [hblues, GhostdagData.addBlue, append_assoc]
      rfl
    | red =>
      cases hcolor
      refine ⟨hsame, blues, candidate :: reds, hblues, ?_, hsubBlues.cons _,
        hsubReds.cons_cons _, perm_middle.trans (hperm.cons _)⟩
      rw [hreds, GhostdagData.addRed, append_assoc]
      rfl

/-! ## A run of GHOSTDAG -/

/-- What GHOSTDAG fixes before it starts to colour. -/
structure Selection (stores : Stores Hash) (parents : List Hash) (selected : Hash)
    (mergeset : List Hash) : Prop where
  mem : selected ∈ parents
  max : ∀ parent ∈ parents, stores.blockKey parent ≤ stores.blockKey selected
  sorted : mergeset.Pairwise fun left right => stores.blockKey left < stores.blockKey right
  mem_mergeset : ∀ x, x ∈ mergeset ↔ (∃ parent ∈ parents, stores.InPast x parent) ∧
    ¬ stores.InPast x selected

/-- The score and the work are those of the selected parent and of the blues. -/
def finish (manager : GhostdagManager Hash) (stores : Stores Hash) (selected : Hash)
    (data : GhostdagData Hash) : GhostdagData Hash :=
  data.finalizeScoreAndWork (stores.scoreOf selected + data.mergesetBlues.length)
    (stores.workOf selected + (data.mergesetBlues.map (manager.blockWork stores)).sum)

include hordered hparents in
/-- On checked parents everything but the colouring returns. -/
theorem ghostdag_eq :
    ∃ selected mergeset, Selection stores parents selected mergeset ∧
      manager.ghostdag stores parents =
        (mergeset.foldlM (manager.colorCandidate stores) (.newWithSelectedParent selected) >>=
          fun data => .ok (finish manager stores selected data)) := by
  have hdata : ∀ parent ∈ parents, (stores.ghostdag.lookup parent).isSome := fun parent hparent =>
    (hordered.data_known parent).mpr (hparents.known parent hparent)
  obtain ⟨selected, hmem, hselected, hmax⟩ :=
    findSelectedParent_eq_ok hparents.nonempty hdata
  obtain ⟨mergeset, hmergeset, hsorted, hspec⟩ := orderedMergeset_eq_ok hordered hparents hmem
  refine ⟨selected, mergeset, ⟨hmem, hmax, hsorted, hspec⟩, ?_⟩
  have hassert : (assert (!parents.isEmpty) : Checked Unit) = .ok () :=
    assert_eq_ok.mpr (by simp [hparents.nonempty])
  rw [GhostdagManager.ghostdag, hassert, ok_bind, hselected, ok_bind,
    if_neg (hparents.ne_origin selected hmem), hmergeset,
    getBlueScore_eq_ok (hdata selected hmem), getBlueWork_eq_ok (hdata selected hmem)]
  rfl

namespace Selection

variable {mergeset : List Hash} (hselection : Selection stores parents selected mergeset)

include hselection

theorem notMem_mergeset : selected ∉ mergeset := fun hmem =>
  ((hselection.mem_mergeset selected).mp hmem).2 (.refl _)

theorem nodup_mergeset : mergeset.Nodup :=
  hselection.sorted.imp fun hlt heq => absurd (heq ▸ hlt) (lt_irrefl _)

theorem known (hordered : Ordered manager stores) (hparents : ParentsOk manager stores parents) :
    ∀ x ∈ mergeset, stores.Known x := by
  intro x hx
  obtain ⟨⟨parent, hparent, hpast⟩, _⟩ := (hselection.mem_mergeset x).mp hx
  exact hordered.closed.known_of_inPast hpast (hparents.known parent hparent)

/-- The selected parent and its mergeset are what is outside of its strict past. -/
theorem mem_cons (hordered : Ordered manager stores) (x : Hash) :
    x ∈ selected :: mergeset ↔
      (∃ parent ∈ parents, stores.InPast x parent) ∧ ¬ stores.InStrictPast x selected := by
  have hinside : stores.InPast x selected ↔ x = selected ∨ stores.InStrictPast x selected :=
    inPast_iff
  rw [List.mem_cons, hselection.mem_mergeset, hinside, not_or]
  by_cases hx : x = selected
  · subst hx
    exact iff_of_true (.inl rfl)
      ⟨⟨x, hselection.mem, .refl x⟩, hordered.not_inStrictPast_self⟩
  · simp [hx]

end Selection

include hordered hparents in
/-- The data that GHOSTDAG returns on checked parents. -/
theorem ghostdag_eq_ok {data : GhostdagData Hash}
    (hghostdag : manager.ghostdag stores parents = .ok data) :
    ∃ mergeset blues, Selection stores parents data.selectedParent mergeset ∧
      data.mergesetBlues = data.selectedParent :: blues ∧
      blues.Sublist mergeset ∧ data.mergesetReds.Sublist mergeset ∧
      (blues ++ data.mergesetReds).Perm mergeset ∧
      data.blueScore = stores.scoreOf data.selectedParent + data.mergesetBlues.length ∧
      data.blueWork = stores.workOf data.selectedParent +
        (data.mergesetBlues.map (manager.blockWork stores)).sum := by
  obtain ⟨selected, mergeset, hselection, hrun⟩ := ghostdag_eq hordered hparents
  rw [hrun] at hghostdag
  obtain ⟨colored, hfold, hdata⟩ := bind_eq_ok.mp hghostdag
  obtain ⟨hsame, blues, reds, hblues, hreds, hsubBlues, hsubReds, hperm⟩ := colored_of_foldlM hfold
  obtain rfl : reds = colored.mergesetReds := hreds.symm
  obtain rfl : colored.selectedParent = selected := hsame
  cases hdata
  exact ⟨mergeset, blues, hselection, hblues, hsubBlues, hsubReds, hperm, rfl, rfl⟩

/-! ## Stored blocks are ordered -/

section Commit

variable {hash : Hash} {target : Nat} {data : GhostdagData Hash}
  {isDagAncestorOf : Hash → Hash → Bool}

theorem parentOf_commit {x : Hash} :
    (stores.commit hash parents target data isDagAncestorOf).ParentOf x hash ↔ x ∈ parents := by
  constructor
  · rintro ⟨list, hlist, hmem⟩
    obtain rfl := Option.mem_unique (lookup_insert _) hlist
    exact hmem
  · exact fun hmem => ⟨parents, lookup_insert _, hmem⟩

theorem known_commit {x : Hash} :
    (stores.commit hash parents target data isDagAncestorOf).Known x ↔
      x = hash ∨ stores.Known x := by
  by_cases hx : x = hash
  · subst hx
    simp [Stores.Known, commit]
  · simp [Stores.Known, commit, hx]

include hparents in
theorem closed_commit (hclosed : Dag.Closed stores.relations.lookup) :
    Dag.Closed (stores.commit hash parents target data isDagAncestorOf).relations.lookup := by
  intro x y hparent
  refine known_commit.mpr (.inr ?_)
  by_cases hy : y = hash
  · subst hy
    exact hparents.known x (parentOf_commit.mp hparent)
  · obtain ⟨list, hlist, hmem⟩ := hparent
    exact hclosed x y ⟨list, (lookup_insert_ne hy).symm.trans hlist, hmem⟩

variable (hfresh : ¬ stores.Known hash) (hghostdag : manager.ghostdag stores parents = .ok data)

include hordered hparents hfresh hghostdag

/-- The data that GHOSTDAG returns is ordered once it is stored. -/
theorem orderedBlock_commit :
    OrderedBlock manager (stores.commit hash parents target data isDagAncestorOf) hash data := by
  obtain ⟨mergeset, blues, hselection, hblues, hsubBlues, hsubReds, hperm, hscore, hwork⟩ :=
    ghostdag_eq_ok hordered hparents hghostdag
  have hextension : stores.Extension (stores.commit hash parents target data isDagAncestorOf) :=
    commit_extension hfresh
  have hselected := hparents.known _ hselection.mem
  have hknown := hselection.known hordered hparents
  have hall : (data.mergesetBlues ++ data.mergesetReds).Perm (data.selectedParent :: mergeset) := by
    rw [hblues]
    exact hperm.cons _
  exact {
    parent_ne_origin := fun parent hparent =>
      hparents.ne_origin parent (parentOf_commit.mp hparent)
    selectedParent_parent := parentOf_commit.mpr hselection.mem
    selectedParent_max := by
      intro parent hparent
      have hmem := parentOf_commit.mp hparent
      rw [hextension.blockKey (hparents.known parent hmem), hextension.blockKey hselected]
      exact hselection.max parent hmem
    blues_head := by rw [hblues]; rfl
    nodup := hall.nodup_iff.mpr
      (nodup_cons.mpr ⟨hselection.notMem_mergeset, hselection.nodup_mergeset⟩)
    mem_mergeset := by
      intro x
      rw [hall.mem_iff, hselection.mem_cons hordered,
        hextension.inStrictPast_iff hordered.closed hselected]
      refine and_congr_left' (.trans (exists_congr fun parent => ?_) Dag.inStrictPast_iff.symm)
      rw [show Dag.ParentOf _ parent hash ↔ _ from parentOf_commit]
      exact and_congr_right fun hmem =>
        (hextension.inPast_iff hordered.closed (hparents.known parent hmem)).symm
    blues_sorted := by
      rw [hblues]
      exact hextension.sorted (fun x hx => hknown x (hsubBlues.subset hx))
        (hselection.sorted.sublist hsubBlues)
    reds_sorted := hextension.sorted (fun x hx => hknown x (hsubReds.subset hx))
      (hselection.sorted.sublist hsubReds)
    work_lt := by
      rw [hextension.workOf hselected, hwork, hblues, map_cons, sum_cons]
      have hpos : 0 < manager.blockWork stores data.selectedParent :=
        lt_of_lt_of_le (Nat.succ_pos _) (le_max_left _ _)
      omega
    score_eq := by rw [hextension.scoreOf hselected, hscore] }

/-- Storing the data of a block keeps the order. -/
theorem Ordered.commit
    (horacle : (stores.commit hash parents target data isDagAncestorOf).OracleCorrect) :
    Ordered manager (stores.commit hash parents target data isDagAncestorOf) := by
  have hextension : stores.Extension (stores.commit hash parents target data isDagAncestorOf) :=
    commit_extension hfresh
  have horigin : stores.Known manager.origin := by simp [Stores.Known, hordered.origin_parents]
  have hgenesis : stores.Known manager.genesisHash := by
    simp [Stores.Known, hordered.genesis_parents]
  refine ⟨closed_commit hparents hordered.closed, ?_, horacle,
    (hextension.relations _ horigin).trans hordered.origin_parents,
    (hextension.relations _ hgenesis).trans hordered.genesis_parents,
    (hextension.data _ horigin).trans hordered.origin_data,
    (hextension.data _ hgenesis).trans hordered.genesis_data, ?_⟩
  · intro x
    rw [known_commit, ← hordered.data_known]
    by_cases hx : x = hash
    · subst hx
      simp [commit]
    · simp [Stores.commit, hx]
  · intro x found hnotOrigin hnotGenesis hfound
    by_cases hx : x = hash
    · subst hx
      obtain rfl := Option.mem_unique (lookup_insert _) hfound
      exact orderedBlock_commit hordered hparents hfresh hghostdag
    · have hfound := (lookup_insert_ne hx).symm.trans hfound
      have hknown := hordered.known_of_lookup hfound
      exact (hordered.block x found hnotOrigin hnotGenesis hfound).extend hordered.closed hknown
        hextension

end Commit

section Initial

variable {target : Hash → Nat} {isDagAncestorOf : Hash → Hash → Bool} {x : Hash}

theorem lookup_relations_initialStores :
    (manager.initialStores target isDagAncestorOf).relations.lookup x =
      if x = manager.genesisHash then some [manager.origin]
      else if x = manager.origin then some [] else none :=
  lookup_insert_insert _ _ _ _ _

theorem lookup_ghostdag_initialStores :
    (manager.initialStores target isDagAncestorOf).ghostdag.lookup x =
      if x = manager.genesisHash then some manager.genesisGhostdagData
      else if x = manager.origin then some manager.originGhostdagData else none :=
  lookup_insert_insert _ _ _ _ _

theorem closed_initialStores :
    Dag.Closed (manager.initialStores target isDagAncestorOf).relations.lookup := by
  rintro x y ⟨list, hlist, hmem⟩
  simp only [lookup_relations_initialStores] at hlist ⊢
  split at hlist
  · cases hlist
    simp [mem_singleton.mp hmem, manager.genesis_ne_origin.symm]
  · split at hlist
    · cases hlist
      cases hmem
    · cases hlist

theorem ordered_initialStores
    (horacle : (manager.initialStores target isDagAncestorOf).OracleCorrect) :
    Ordered manager (manager.initialStores target isDagAncestorOf) := by
  have hne := manager.genesis_ne_origin
  refine ⟨closed_initialStores, ?_, horacle, ?_, ?_, ?_, ?_, ?_⟩
  · intro x
    rw [Stores.Known, lookup_relations_initialStores, lookup_ghostdag_initialStores]
    split
    · simp
    · split <;> simp
  · rw [lookup_relations_initialStores, if_neg hne.symm, if_pos rfl]
  · rw [lookup_relations_initialStores, if_pos rfl]
  · rw [lookup_ghostdag_initialStores, if_neg hne.symm, if_pos rfl]
  · rw [lookup_ghostdag_initialStores, if_pos rfl]
  · intro x data horigin hgenesis hdata
    rw [lookup_ghostdag_initialStores, if_neg hgenesis, if_neg horigin] at hdata
    cases hdata

end Initial

/-- All reachable stores are ordered. -/
theorem Built.ordered {maxBlockParents : Nat} (hbuilt : Built manager maxBlockParents stores) :
    Ordered manager stores := by
  induction hbuilt with
  | init target isDagAncestorOf horacle => exact ordered_initialStores horacle
  | add _ hash parents target data isDagAncestorOf hfresh hchecked hghostdag horacle ih =>
    exact ih.commit (checkParents_eq_ok ih.oracle hchecked) hfresh hghostdag horacle

/-! ## A service that searches -/

/-- The reachability service that searches the stored parents. -/
def searchService (relations : HashMap Hash (List Hash)) : Hash → Hash → Bool :=
  Search.reaches relations.lookup (1 + relations.keys.length)

theorem oracleCorrect_searchService (hclosed : Dag.Closed stores.relations.lookup)
    (hservice : stores.isDagAncestorOf = searchService stores.relations) :
    stores.OracleCorrect := by
  intro x y _ hy
  rw [hservice]
  exact Search.reaches_iff hclosed
    (fun node hnode => mem_keys.mp (isSome_lookup.mp hnode)) hy le_rfl

/-! ## A diamond

Two blocks above the genesis block, and a block that merges them. -/

def sampleManager : GhostdagManager Nat := ⟨1, 0, 9, 1, 0, by decide, by decide⟩

def sampleChild : GhostdagData Nat := ⟨1, 2, 1, [1], [], (∅ : HashMap Nat Nat).insert 1 0⟩

def sampleMerge : GhostdagData Nat :=
  ⟨3, 6, 3, [3, 2], [], ((((∅ : HashMap Nat Nat).insert 3 0).insert 2 1).insert 3 1)⟩

def sampleTarget : Nat := wordBound 255 - 1

/-- Stores with the searching service. -/
def Stores.withSearch (stores : Stores Nat) : Stores Nat :=
  { stores with isDagAncestorOf := searchService stores.relations }

/-- Store a block and let the service search. -/
def Stores.commitSample (stores : Stores Nat) (hash : Nat) (parents : List Nat)
    (data : GhostdagData Nat) : Stores Nat :=
  stores.commit hash parents sampleTarget data
    (searchService (stores.relations.insert hash parents))

def sampleGenesis : Stores Nat :=
  (sampleManager.initialStores (fun _ => sampleTarget) fun _ _ => false).withSearch

def sampleFirst : Stores Nat := sampleGenesis.commitSample 2 [1] sampleChild

def sampleSecond : Stores Nat := sampleFirst.commitSample 3 [1] sampleChild

def sampleStores : Stores Nat := sampleSecond.commitSample 4 [2, 3] sampleMerge

theorem built_sampleGenesis : Built sampleManager 10 sampleGenesis :=
  .init _ _ (oracleCorrect_searchService closed_initialStores rfl)

/-- A step of a sample. -/
theorem Built.commitSample {manager : GhostdagManager Nat} {maxBlockParents : Nat}
    {stores : Stores Nat} (hbuilt : Built manager maxBlockParents stores)
    {hash : Nat} {parents : List Nat} {data : GhostdagData Nat}
    (hfresh : stores.relations.lookup hash = none)
    (hchecked : manager.checkParents maxBlockParents stores parents = .ok ())
    (hghostdag : manager.ghostdag stores parents = .ok data) :
    Built manager maxBlockParents (stores.commitSample hash parents data) := by
  refine hbuilt.add hash parents sampleTarget data _ (by simp [Stores.Known, hfresh]) hchecked
    hghostdag (oracleCorrect_searchService ?_ rfl)
  exact closed_commit (checkParents_eq_ok hbuilt.ordered.oracle hchecked) hbuilt.ordered.closed

theorem built_sampleStores : Built sampleManager 10 sampleStores :=
  ((built_sampleGenesis.commitSample rfl rfl rfl).commitSample rfl rfl rfl).commitSample
    rfl rfl rfl

end Qaspa.Ghostdag
