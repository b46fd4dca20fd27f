import Qaspa.Lib.Sampling
import Qaspa.Pruning.Manager

/-! # Pruning points along a chain

On a chain whose blocks store the replies of the manager, the stored samples link the samples of
the chain, so that following them from a block finds the latest sample that is deep enough. As
long as the pruning depth keeps away from the multiples of the finality depth by more than the
blue score of one block may jump, neither clamp of the search ends it early.
-/

namespace Qaspa.Pruning

open Ghostdag (Checked)
open Outcome Sampling List Nat

variable {Hash : Type} [DecidableEq Hash]

namespace PruningPointManager

variable (self : PruningPointManager Hash)

/-- The blue score in the header of a block. -/
def scoreOf (hash : Hash) : Nat := ((self.headersStore.lookup hash).map Header.blueScore).getD 0

/-- The samples of a chain and genesis, which is its last block. -/
def samplesOn : List Hash → List Hash
  | [] => []
  | [genesis] => [genesis]
  | block :: parent :: rest =>
    if self.isPruningSample (self.scoreOf block) (self.scoreOf parent) then
      block :: samplesOn (parent :: rest)
    else samplesOn (parent :: rest)

/-- A selected chain down to genesis, the latest block first, whose blocks store what the manager
replies for them. The blue score grows by at most one more than `k` from block to block. -/
inductive Honest (k : Nat) : List Hash → Prop
  | genesis (header : Header Hash)
      (hheader : self.headersStore.lookup self.genesisHash = some header)
      (hscore : header.blueScore = 0)
      (horigin : self.genesisHash ≠ self.reachabilityService.origin) : Honest k [self.genesisHash]
  | block {parent : Hash} {rest : List Hash} (hchain : Honest k (parent :: rest)) (hash : Hash)
      (blueScore : Nat) (reply : PruningPointReply Hash)
      (hreply : self.expectedHeaderPruningPoint ⟨blueScore, parent⟩ = .ok reply)
      (hheader : self.headersStore.lookup hash = some ⟨blueScore, reply.pruningPoint⟩)
      (hsample : self.pruningSamplesStore.lookup hash = some reply.pruningSample)
      (hlow : self.scoreOf parent < blueScore)
      (hhigh : blueScore ≤ self.scoreOf parent + k + 1)
      (horigin : hash ≠ self.reachabilityService.origin) : Honest k (hash :: parent :: rest)

/-- Store the reply for a new block. -/
def commit (hash : Hash) (data : CompactGhostdagData Hash) (reply : PruningPointReply Hash) :
    PruningPointManager Hash :=
  { self with
    ghostdagStore := self.ghostdagStore.insert hash data
    headersStore := self.headersStore.insert hash ⟨data.blueScore, reply.pruningPoint⟩
    pruningSamplesStore := self.pruningSamplesStore.insert hash reply.pruningSample }

variable {self} {k fuel : Nat} {block parent : Hash} {rest chain : List Hash}

theorem isPruningSample_iff {blueScore ancestorBlueScore : Nat} :
    self.isPruningSample blueScore ancestorBlueScore = true ↔
      ancestorBlueScore / self.finalityDepth < blueScore / self.finalityDepth :=
  decide_eq_true_iff

theorem samplesOn_eq : self.samplesOn chain = samples self.scoreOf self.finalityDepth chain := by
  induction chain with
  | nil => rfl
  | cons block rest ih =>
    cases rest with
    | nil => rfl
    | cons parent rest =>
      rw [samplesOn, ih]
      exact if_congr isPruningSample_iff rfl rfl

variable {header : Header Hash}

theorem scoreOf_eq {hash : Hash} (hheader : self.headersStore.lookup hash = some header) :
    self.scoreOf hash = header.blueScore := by
  rw [scoreOf, hheader]
  rfl

theorem getHeader_eq {hash : Hash} (hheader : self.headersStore.lookup hash = some header) :
    self.getHeader hash = .ok header := by
  rw [getHeader, hheader]
  rfl

theorem getBlueScore_eq {hash : Hash} (hheader : self.headersStore.lookup hash = some header) :
    self.getBlueScore hash = .ok header.blueScore := by
  rw [getBlueScore, getHeader_eq hheader]
  rfl

/-! ## Following the samples -/

/-- The samples from some block down to genesis, each of which stores the next. -/
structure Walkable (manager : PruningPointManager Hash) (score : Hash → Nat) (list : List Hash) :
    Prop where
  linked : list.IsChain fun upper lower => manager.pruningSamplesStore.lookup upper = some lower
  sorted : list.Pairwise fun upper lower => score lower < score upper
  last : list.getLast? = some manager.genesisHash
  header : ∀ x ∈ list, ∃ header, manager.headersStore.lookup x = some header ∧
    header.blueScore = score x

variable {score : Hash → Nat} {sample next : Hash}

theorem Walkable.tail (hwalkable : self.Walkable score (sample :: next :: rest)) :
    self.Walkable score (next :: rest) where
  linked := (isChain_cons_cons.mp hwalkable.linked).2
  sorted := (pairwise_cons.mp hwalkable.sorted).2
  last := by simpa only [getLast?_cons_cons] using hwalkable.last
  header x hx := hwalkable.header x (.tail _ hx)

theorem Walkable.of_append {above : List Hash}
    (hwalkable : self.Walkable score (above ++ sample :: rest)) :
    self.Walkable score (sample :: rest) := by
  induction above with
  | nil => exact hwalkable
  | cons first above ih =>
    cases above with
    | nil => exact hwalkable.tail
    | cons second above => exact ih hwalkable.tail

theorem Walkable.ne_of_mem (hwalkable : self.Walkable score (sample :: rest)) {x : Hash}
    (hx : x ∈ rest) : sample ≠ x := by
  rintro rfl
  exact lt_irrefl _ ((pairwise_cons.mp hwalkable.sorted).1 _ hx)

theorem Walkable.ne_genesis (hwalkable : self.Walkable score (sample :: next :: rest)) :
    sample ≠ self.genesisHash :=
  hwalkable.ne_of_mem (mem_of_getLast? hwalkable.tail.last)

theorem Walkable.next_eq (hwalkable : self.Walkable score (sample :: next :: rest)) :
    self.pruningSampleFromPov sample = .ok next := by
  rw [pruningSampleFromPov, (isChain_cons_cons.mp hwalkable.linked).1]
  rfl

theorem Walkable.getBlueScore_eq (hwalkable : self.Walkable score rest) (hmem : sample ∈ rest) :
    self.getBlueScore sample = .ok (score sample) := by
  obtain ⟨header, hheader, hscore⟩ := hwalkable.header sample hmem
  rw [PruningPointManager.getBlueScore_eq hheader, hscore]

/-- If the clamps hold only of samples that end the search anyway, it ends at the latest sample
that is deep enough. -/
theorem Walkable.findPruningPoint_eq {blueScore steps : Nat} {isSelfPruningSample : Bool}
    {selectedParentPruningPoint : Hash} (hwalkable : self.Walkable score (sample :: rest))
    (hclamps : ∀ i x, (sample :: rest)[i]? = some x →
      (isSelfPruningSample = true ∧ steps + i = self.pruningSamplesSteps) ∨
        x = selectedParentPruningPoint →
      x = self.genesisHash ∨ score x + self.pruningDepth ≤ blueScore)
    (hfuel : (sample :: rest).length ≤ fuel) :
    ∃ point, findDeep score self.pruningDepth blueScore (sample :: rest) = some point ∧
      self.findPruningPoint blueScore isSelfPruningSample selectedParentPruningPoint fuel steps
        sample = .ok point := by
  induction rest generalizing sample fuel steps with
  | nil =>
    cases fuel with
    | zero => simp at hfuel
    | succ fuel =>
      obtain rfl : sample = self.genesisHash := by simpa using hwalkable.last
      exact ⟨self.genesisHash, rfl, if_pos rfl⟩
  | cons next rest ih =>
    cases fuel with
    | zero => simp at hfuel
    | succ fuel =>
      rw [findPruningPoint, if_neg hwalkable.ne_genesis,
        hwalkable.getBlueScore_eq (.head _), ok_bind]
      simp only [findDeep]
      by_cases hdeep : score sample + self.pruningDepth ≤ blueScore
      · exact ⟨sample, by rw [if_pos hdeep], by rw [if_pos hdeep]⟩
      · have hopen := fun hclamp => (hclamps 0 sample rfl hclamp).elim hwalkable.ne_genesis hdeep
        rw [if_neg hdeep, if_neg hdeep, if_neg, if_neg, hwalkable.next_eq]
        · refine ih hwalkable.tail (fun i x hx hclamp => hclamps (i + 1) x hx ?_) ?_
          · exact hclamp.imp_left (And.imp_right fun hsteps => by omega)
          · simpa using hfuel
        · exact fun heq => hopen (.inr heq)
        · intro hclamp
          simp only [Bool.and_eq_true, beq_iff_eq] at hclamp
          exact hopen (.inl hclamp)

/-- The samples are collected in the order of their scores. -/
theorem Walkable.collectSamples_eq {last : Hash} {between below deque : List Hash}
    (hwalkable : self.Walkable score (sample :: (between ++ last :: below)))
    (hfuel : between.length + 1 < fuel) :
    self.collectSamples last fuel sample deque = .ok ((sample :: between).reverse ++ deque) := by
  have hne : sample ≠ last := hwalkable.ne_of_mem (by simp)
  induction between generalizing sample fuel deque with
  | nil =>
    obtain ⟨fuel, rfl⟩ : ∃ count, fuel = count + 2 := ⟨fuel - 2, by
      omega⟩
    rw [collectSamples, if_neg hne, hwalkable.next_eq, ok_bind, collectSamples, if_pos rfl]
    rfl
  | cons next between ih =>
    cases fuel with
    | zero => omega
    | succ fuel =>
      rw [collectSamples, if_neg hne, hwalkable.next_eq, ok_bind,
        ih hwalkable.tail (by simpa using hfuel) (hwalkable.tail.ne_of_mem (by simp))]
      simp

/-! ## The reply for a block -/

/-- What a block stores over the chain below it: the latest sample, and the latest sample that is
deep enough. -/
structure Stored (manager : PruningPointManager Hash) (score : Hash → Nat) (block : Hash)
    (below : List Hash) : Prop where
  sample : manager.pruningSamplesStore.lookup block =
    (samples score manager.finalityDepth below).head?
  point : ∃ header, manager.headersStore.lookup block = some header ∧
    header.blueScore = score block ∧
    findDeep score manager.pruningDepth (score block) (samples score manager.finalityDepth below) =
      some header.pruningPoint

section Reply

variable (hafter : k < self.pruningDepth % self.finalityDepth)
  (hbefore : self.pruningDepth % self.finalityDepth < self.finalityDepth - k)

include hafter hbefore

theorem interval_long : k + 1 < self.finalityDepth := by omega

omit hbefore in
theorem pruningSamplesSteps_eq :
    self.pruningSamplesSteps = self.pruningDepth / self.finalityDepth + 1 := by
  rw [pruningSamplesSteps, if_pos (by omega)]

section

variable (hgrows : Grows score k (parent :: rest))

include hgrows

variable {blueScore : Nat}

/-- A sample is as many samples above its pruning point as the depth has epochs begun. -/
theorem findDeep_of_sample (hhigh : blueScore ≤ score parent + k + 1)
    (hself : self.isPruningSample blueScore (score parent) = true) :
    findDeep score self.pruningDepth blueScore
        (samples score self.finalityDepth (parent :: rest)) =
      (samples score self.finalityDepth (parent :: rest))[min (self.pruningDepth /
        self.finalityDepth) (score parent / self.finalityDepth)]? := by
  have hlong : k + 1 < self.finalityDepth := interval_long hafter hbefore
  have hepochs := hgrows.epochs hlong
  have hnew := isPruningSample_iff.mp hself
  have hreached : (score parent / self.finalityDepth + 1) * self.finalityDepth ≤ blueScore :=
    (mul_le_mul_right _ hnew).trans (div_mul_le_self _ _)
  have hparent : score parent < (score parent / self.finalityDepth + 1) * self.finalityDepth := by
    rw [Nat.add_mul, Nat.one_mul]
    exact Nat.lt_div_mul_add (by omega)
  have hclose : blueScore ≤ (score parent / self.finalityDepth + 1) * self.finalityDepth + k := by
    omega
  exact hepochs.findDeep_eq hafter (by omega) hreached hclose

omit hafter hbefore in
theorem pruningSampleOver_eq {tail : List Hash}
    (hsamples : samples score self.finalityDepth (parent :: rest) = sample :: tail)
    (hwalkable : self.Walkable score (sample :: tail))
    (hstored : rest ≠ [] → self.Stored score parent rest) :
    self.pruningSampleOver parent (score parent) = .ok sample := by
  have hlast := hwalkable.last
  rw [← hsamples, getLast?_samples] at hlast
  cases rest with
  | nil =>
    obtain rfl : parent = self.genesisHash := by simpa using hlast
    cases hsamples
    rw [pruningSampleOver, if_pos rfl]
  | cons next rest =>
    have hgenesis : self.genesisHash ∈ next :: rest := by
      exact mem_of_getLast? hlast
    have hne : parent ≠ self.genesisHash := by
      rintro rfl
      exact lt_irrefl _ (hgrows.score_lt _ hgenesis)
    have hlookup := (hstored (cons_ne_nil _ _)).sample
    rw [samples] at hsamples
    cases hbelow : samples score self.finalityDepth (next :: rest) with
    | nil => exact absurd hbelow (samples_ne_nil _ _ (cons_ne_nil _ _))
    | cons lower lowerTail =>
      rw [hbelow] at hsamples hlookup
      have hmem : lower ∈ sample :: tail := by
        rw [← hsamples]
        split <;> simp
      have hepoch := hgrows.2.2.epoch_head hbelow
      have hfrom : self.pruningSampleFromPov parent = .ok lower := by
        rw [pruningSampleFromPov, hlookup]
        rfl
      rw [pruningSampleOver, if_neg hne, hfrom, ok_bind, hwalkable.getBlueScore_eq hmem, ok_bind]
      -- The sample of the parent is of the same epoch as the block below the parent.
      have hself : self.isPruningSample (score parent) (score lower) = true ↔
          score next / self.finalityDepth < score parent / self.finalityDepth := by
        rw [isPruningSample_iff, hepoch]
      split at hsamples
      next hnew =>
        cases hsamples
        rw [if_pos (hself.mpr hnew)]
      next hold =>
        cases hsamples
        rw [if_neg (mt hself.mp hold)]

section

variable (hwalkable : self.Walkable score (samples score self.finalityDepth (parent :: rest)))

include hwalkable

/-- Neither clamp ends the search before a sample that is deep enough. -/
theorem clamps_deep {blueScore : Nat} {header : Header Hash}
    (hheader : self.headersStore.lookup parent = some header)
    (hstored : rest ≠ [] → self.Stored score parent rest) (hlow : score parent < blueScore)
    (hhigh : blueScore ≤ score parent + k + 1) (i : Nat) (x : Hash)
    (hx : (samples score self.finalityDepth (parent :: rest))[i]? = some x)
    (hclamp : (self.isPruningSample blueScore (score parent) = true ∧
      1 + i = self.pruningSamplesSteps) ∨ x = header.pruningPoint) :
    x = self.genesisHash ∨ score x + self.pruningDepth ≤ blueScore := by
  rcases hclamp with ⟨hself, hsteps⟩ | rfl
  · have hindex : i = self.pruningDepth / self.finalityDepth := by
      rw [pruningSamplesSteps_eq hafter] at hsteps
      omega
    have hlength := (hgrows.epochs (interval_long hafter hbefore)).length_eq
    have hbound := (List.getElem?_eq_some_iff.mp hx).1
    have hfound := findDeep_of_sample hafter hbefore hgrows hhigh hself
    rw [← hindex, min_eq_left (by omega), hx] at hfound
    have hdeep := (findDeep_deepest hwalkable.sorted hfound).deep
    rw [hwalkable.last, Option.some_inj] at hdeep
    exact hdeep.imp_left Eq.symm
  · have hlast := hwalkable.last
    rw [getLast?_samples] at hlast
    cases rest with
    | nil =>
      left
      rw [mem_singleton.mp (mem_of_getElem? hx)]
      simpa using hlast
    | cons next rest =>
      obtain ⟨_, hheader', _, hpoint⟩ := (hstored (cons_ne_nil _ _)).point
      cases hheader.symm.trans hheader'
      have hdeep := (findDeep_deepest hgrows.2.2.samples_pairwise hpoint).deep
      rw [getLast?_samples, ← getLast?_cons_cons, hlast, Option.some_inj] at hdeep
      exact hdeep.imp Eq.symm fun hdeep => hdeep.trans hlow.le

theorem expectedHeaderPruningPoint_eq {header : Header Hash}
    (hheader : self.headersStore.lookup parent = some header)
    (hscore : header.blueScore = score parent) (hstored : rest ≠ [] → self.Stored score parent rest)
    (hlow : score parent < blueScore) (hhigh : blueScore ≤ score parent + k + 1) :
    ∃ sample point, (samples score self.finalityDepth (parent :: rest)).head? = some sample ∧
      findDeep score self.pruningDepth blueScore
        (samples score self.finalityDepth (parent :: rest)) = some point ∧
      self.expectedHeaderPruningPoint ⟨blueScore, parent⟩ = .ok ⟨sample, point⟩ := by
  have hclamps := clamps_deep hafter hbefore hgrows hwalkable hheader hstored hlow hhigh
  have hbound : ∀ x ∈ samples score self.finalityDepth (parent :: rest), score x < blueScore := by
    intro x hx
    rcases mem_cons.mp (samples_sublist.subset hx) with rfl | hx
    · exact hlow
    · exact (hgrows.score_lt x hx).trans hlow
  have hlength := length_le_of_score_lt hwalkable.sorted hbound
  cases hsamples : samples score self.finalityDepth (parent :: rest) with
  | nil => exact absurd hsamples (samples_ne_nil _ _ (cons_ne_nil _ _))
  | cons sample tail =>
    rw [hsamples] at hwalkable hclamps hlength
    obtain ⟨point, hdeep, hpoint⟩ := hwalkable.findPruningPoint_eq hclamps
      (hlength.trans (le_succ _))
    refine ⟨sample, point, rfl, hdeep, ?_⟩
    rw [expectedHeaderPruningPoint, getBlueScore_eq hheader, hscore, ok_bind,
      pruningSampleOver_eq hgrows hsamples hwalkable hstored]
    simp only [getHeader_eq hheader, ok_bind, hpoint, pure_eq_ok]

end

end

end Reply

/-! ## The whole chain -/

/-- What holds of an honest chain. -/
structure Kept (manager : PruningPointManager Hash) (k : Nat) (chain : List Hash) : Prop where
  grows : Grows manager.scoreOf k chain
  last : chain.getLast? = some manager.genesisHash
  header : ∀ x ∈ chain, ∃ header, manager.headersStore.lookup x = some header
  stored : ∀ above block parent below, chain = above ++ block :: parent :: below →
    manager.Stored manager.scoreOf block (parent :: below)
  origin : ∀ x ∈ chain, x ≠ manager.reachabilityService.origin

theorem Kept.of_append (above : List Hash) (hkept : self.Kept k (above ++ block :: rest)) :
    self.Kept k (block :: rest) where
  grows := hkept.grows.of_append
  last := by simpa [getLast?_append] using hkept.last
  header x hx := hkept.header x (by simp [mem_cons.mp hx])
  stored upper inner parent below heq :=
    hkept.stored (above ++ upper) inner parent below (by rw [heq, append_assoc])
  origin x hx := hkept.origin x (by simp [mem_cons.mp hx])

/-- The samples are linked: below a sample is the one that it stores. -/
theorem Kept.linked {list : List Hash} (hkept : self.Kept k chain)
    (hsamples : samples self.scoreOf self.finalityDepth chain = list) :
    list.IsChain fun upper lower => self.pruningSamplesStore.lookup upper = some lower := by
  induction list generalizing chain with
  | nil => exact .nil
  | cons sample tail ih =>
    obtain ⟨above, below, rfl, rfl⟩ := samples_eq_cons hsamples
    cases below with
    | nil => exact .singleton _
    | cons parent below =>
      have hsplit : above ++ sample :: parent :: below =
          (above ++ [sample]) ++ parent :: below := by
        simp
      have hbelow : self.Kept k (parent :: below) := (hsplit ▸ hkept).of_append _
      apply List.IsChain.cons (ih hbelow rfl)
      intro lower hlower
      rw [(hkept.stored above sample parent below rfl).sample]
      exact hlower

theorem Kept.walkable (hkept : self.Kept k chain) :
    self.Walkable self.scoreOf (samples self.scoreOf self.finalityDepth chain) where
  linked := hkept.linked rfl
  sorted := hkept.grows.samples_pairwise
  last := getLast?_samples.trans hkept.last
  header x hx := by
    obtain ⟨header, hheader⟩ := hkept.header x (samples_sublist.subset hx)
    exact ⟨header, hheader, (scoreOf_eq hheader).symm⟩

section Chain

variable (hafter : k < self.pruningDepth % self.finalityDepth)
  (hbefore : self.pruningDepth % self.finalityDepth < self.finalityDepth - k)

include hafter hbefore

theorem Kept.reply (hkept : self.Kept k (parent :: rest)) (hlow : self.scoreOf parent < blueScore)
    (hhigh : blueScore ≤ self.scoreOf parent + k + 1) :
    ∃ sample point, (samples self.scoreOf self.finalityDepth (parent :: rest)).head? = some sample ∧
      findDeep self.scoreOf self.pruningDepth blueScore
        (samples self.scoreOf self.finalityDepth (parent :: rest)) = some point ∧
      self.expectedHeaderPruningPoint ⟨blueScore, parent⟩ = .ok ⟨sample, point⟩ := by
  obtain ⟨header, hheader⟩ := hkept.header parent (by simp)
  refine expectedHeaderPruningPoint_eq hafter hbefore hkept.grows hkept.walkable hheader
    (scoreOf_eq hheader).symm (fun hrest => ?_) hlow hhigh
  obtain ⟨next, rest, rfl⟩ := exists_cons_of_ne_nil hrest
  exact hkept.stored [] parent next rest rfl

theorem Honest.kept (hhonest : self.Honest k chain) : self.Kept k chain := by
  induction hhonest with
  | genesis header hheader hscore horigin =>
    refine ⟨(scoreOf_eq hheader).trans hscore, rfl, ?_, ?_, ?_⟩
    · intro x hx
      exact ⟨header, mem_singleton.mp hx ▸ hheader⟩
    · intro above block parent below heq
      have := congrArg length heq
      simp only [length_append, length_cons, length_nil] at this
      omega
    · intro x hx
      rwa [mem_singleton.mp hx]
  | @block parent rest _ hash blueScore reply hreply hheader hsample hlow hhigh horigin ih =>
    have hscore : self.scoreOf hash = blueScore := scoreOf_eq hheader
    refine ⟨⟨by omega, by omega, ih.grows⟩, by simpa using ih.last, ?_, ?_, ?_⟩
    · intro x hx
      rcases mem_cons.mp hx with rfl | hx
      · exact ⟨_, hheader⟩
      · exact ih.header x hx
    · intro above inner lower below heq
      cases above with
      | cons first above => exact ih.stored above inner lower below (cons.inj heq).2
      | nil =>
        obtain ⟨rfl, hbelow⟩ := cons.inj heq
        rw [← hbelow]
        obtain ⟨sample, point, hhead, hdeep, hreply'⟩ := ih.reply hafter hbefore hlow hhigh
        cases hreply.symm.trans hreply'
        refine ⟨hsample.trans hhead.symm, _, hheader, hscore.symm, ?_⟩
        rw [hscore]
        exact hdeep
    · intro x hx
      rcases mem_cons.mp hx with rfl | hx
      · exact horigin
      · exact ih.origin x hx

variable {data : CompactGhostdagData Hash} {reply : PruningPointReply Hash} {header : Header Hash}
  {hash : Hash}

omit hafter hbefore in
theorem lookup_headers_commit {x : Hash} (hne : x ≠ hash) :
    (self.commit hash data reply).headersStore.lookup x = self.headersStore.lookup x :=
  AList.lookup_insert_ne hne

omit hafter hbefore in
theorem scoreOf_commit {x : Hash} (hne : x ≠ hash) :
    (self.commit hash data reply).scoreOf x = self.scoreOf x := by
  rw [scoreOf, scoreOf, lookup_headers_commit hne]

/-- The reply is determined by the scores of the chain. -/
theorem Kept.reply_commit (hfresh : hash ∉ parent :: rest) (hkept : self.Kept k (parent :: rest))
    (hkept' : (self.commit hash data reply).Kept k (parent :: rest))
    (hlow : self.scoreOf parent < blueScore) (hhigh : blueScore ≤ self.scoreOf parent + k + 1) :
    (self.commit hash data reply).expectedHeaderPruningPoint ⟨blueScore, parent⟩ =
      self.expectedHeaderPruningPoint ⟨blueScore, parent⟩ := by
  have hcongr : ∀ x ∈ parent :: rest, (self.commit hash data reply).scoreOf x = self.scoreOf x :=
    fun x hx => scoreOf_commit fun heq => hfresh (heq ▸ hx)
  have hscore := hcongr parent (by simp)
  have hsamples : samples (self.commit hash data reply).scoreOf self.finalityDepth
      (parent :: rest) = samples self.scoreOf self.finalityDepth (parent :: rest) :=
    samples_congr hcongr
  have hfound : findDeep (self.commit hash data reply).scoreOf self.pruningDepth blueScore
      (samples self.scoreOf self.finalityDepth (parent :: rest)) =
      findDeep self.scoreOf self.pruningDepth blueScore
        (samples self.scoreOf self.finalityDepth (parent :: rest)) :=
    findDeep_congr fun x hx => hcongr x (samples_sublist.subset hx)
  obtain ⟨sample, point, hhead, hdeep, hreply⟩ := hkept.reply hafter hbefore hlow hhigh
  obtain ⟨sample', point', hhead', hdeep', hreply'⟩ :=
    Kept.reply (by exact hafter) (by exact hbefore) hkept' (hscore.trans_lt hlow) (hscore ▸ hhigh)
  have hsample : sample' = sample :=
    Option.some.inj (hhead'.symm.trans ((congrArg head? hsamples).trans hhead))
  have hpoint : point' = point := by
    apply Option.some.inj
    rw [← hdeep', ← hdeep, ← hfound, ← hsamples]
    rfl
  rw [hreply, hreply', hsample, hpoint]

/-- A new block changes nothing for the blocks below it. -/
theorem Honest.commit_of_fresh (hfresh : hash ∉ chain) (hhonest : self.Honest k chain) :
    (self.commit hash data reply).Honest k chain := by
  induction hhonest with
  | genesis header hheader hscore horigin =>
    have hne : self.genesisHash ≠ hash := fun heq => hfresh (by simp [heq])
    exact .genesis header ((lookup_headers_commit hne).trans hheader) hscore horigin
  | @block parent rest hchain inner blueScore stored hreply hheader hsample hlow hhigh horigin ih =>
    have hne : inner ≠ hash := fun heq => hfresh (by simp [heq])
    have hfresh' : hash ∉ parent :: rest := fun hmem => hfresh (.tail _ hmem)
    have hscore : (self.commit hash data reply).scoreOf parent = self.scoreOf parent :=
      scoreOf_commit fun heq => hfresh' (by simp [heq])
    have hhonest := ih hfresh'
    have hreply' := Kept.reply_commit hafter hbefore hfresh' (hchain.kept hafter hbefore)
      (Honest.kept (by exact hafter) (by exact hbefore) hhonest) hlow hhigh
    exact .block hhonest inner blueScore stored (hreply'.trans hreply)
      ((lookup_headers_commit hne).trans hheader) ((AList.lookup_insert_ne hne).trans hsample)
      (hscore.trans_lt hlow) (hscore ▸ hhigh) horigin

/-- The manager has a reply for every next block, and the chain with it is honest again. -/
theorem Honest.exists_commit {blueScore : Nat} (hhonest : self.Honest k (parent :: rest))
    (hfresh : hash ∉ parent :: rest) (horigin : hash ≠ self.reachabilityService.origin)
    (hlow : self.scoreOf parent < blueScore) (hhigh : blueScore ≤ self.scoreOf parent + k + 1) :
    ∃ reply, self.expectedHeaderPruningPoint ⟨blueScore, parent⟩ = .ok reply ∧
      (self.commit hash ⟨blueScore, parent⟩ reply).Honest k (hash :: parent :: rest) := by
  have hkept := hhonest.kept hafter hbefore
  obtain ⟨sample, point, _, _, hreply⟩ := hkept.reply hafter hbefore hlow hhigh
  refine ⟨_, hreply, ?_⟩
  have hhonest' : (self.commit hash ⟨blueScore, parent⟩ ⟨sample, point⟩).Honest k
      (parent :: rest) :=
    hhonest.commit_of_fresh hafter hbefore hfresh
  have hreply' := hkept.reply_commit hafter hbefore hfresh
    (Honest.kept (by exact hafter) (by exact hbefore) hhonest') hlow hhigh
  have hscore : (self.commit hash ⟨blueScore, parent⟩ ⟨sample, point⟩).scoreOf parent =
      self.scoreOf parent := scoreOf_commit fun heq => hfresh (by simp [heq])
  exact .block hhonest' hash blueScore _ (hreply'.trans hreply) (AList.lookup_insert _)
    (AList.lookup_insert _) (hscore.trans_lt hlow) (hscore ▸ hhigh) horigin

omit hafter hbefore in
theorem Kept.deepest (hkept : self.Kept k (block :: parent :: rest))
    (hheader : self.headersStore.lookup block = some header) :
    Deepest self.scoreOf self.pruningDepth (self.scoreOf block)
      (samples self.scoreOf self.finalityDepth (parent :: rest)) header.pruningPoint := by
  obtain ⟨_, hheader', _, hpoint⟩ := (hkept.stored [] block parent rest rfl).point
  cases hheader.symm.trans hheader'
  exact findDeep_deepest hkept.grows.2.2.samples_pairwise hpoint

/-- The pruning points that follow the current one, up to that of the sink. -/
theorem Kept.nextPruningPoints_eq {current : Hash} (hkept : self.Kept k (block :: parent :: rest))
    (hheader : self.headersStore.lookup block = some header)
    (hcurrent : current ∈ samples self.scoreOf self.finalityDepth (block :: parent :: rest)) :
    self.nextPruningPoints ⟨self.scoreOf block, parent⟩ current =
      .ok ((samples self.scoreOf self.finalityDepth (block :: parent :: rest)).filter fun x =>
        self.scoreOf current < self.scoreOf x ∧
          self.scoreOf x ≤ self.scoreOf header.pruningPoint).reverse := by
  have hparent : self.Kept k (parent :: rest) := hkept.of_append [block]
  obtain ⟨hlow, hhigh, _⟩ := hkept.grows
  obtain ⟨_, hheader', _, hpoint⟩ := (hkept.stored [] block parent rest rfl).point
  cases hheader.symm.trans hheader'
  obtain ⟨sample, point, _, hdeep, hreply⟩ := hparent.reply hafter hbefore hlow hhigh
  cases hpoint.symm.trans hdeep
  have hdeepest := hkept.deepest hheader
  have hmem : header.pruningPoint ∈
      samples self.scoreOf self.finalityDepth (block :: parent :: rest) :=
    (samples_suffix [block]).subset hdeepest.mem
  have hwalkable := hkept.walkable
  rw [nextPruningPoints, if_neg (hkept.origin parent (by simp)),
    hwalkable.getBlueScore_eq hcurrent, ok_bind]
  -- Nothing is listed unless the current point is below that of the sink.
  by_cases habove : self.scoreOf header.pruningPoint ≤ self.scoreOf current
  · have hnone : (samples self.scoreOf self.finalityDepth (block :: parent :: rest)).filter
        (fun x => self.scoreOf current < self.scoreOf x ∧
          self.scoreOf x ≤ self.scoreOf header.pruningPoint) = [] := by
      apply filter_eq_nil_iff.mpr
      simp only [decide_eq_true_eq]
      omega
    rw [hnone]
    simp only [hreply, ok_bind, hwalkable.getBlueScore_eq hmem]
    split <;> rfl
  · have hshallow : ¬ self.scoreOf current + self.pruningDepth > self.scoreOf block := by
      rcases hdeepest.deep with hlast | hdeep
      · rw [getLast?_samples] at hlast
        have := hparent.grows.score_last hlast
        omega
      · omega
    obtain ⟨upper, tail, hsplit⟩ := append_of_mem hmem
    have hsorted := hwalkable.sorted
    rw [hsplit] at hcurrent hsorted hwalkable
    obtain ⟨_, hpointSorted, hupper⟩ := pairwise_append.mp hsorted
    have hcurrent' : current ∈ tail := by
      rcases mem_append.mp hcurrent with hcurrent | hcurrent
      · have := hupper current hcurrent header.pruningPoint (by simp)
        omega
      · rcases mem_cons.mp hcurrent with rfl | hcurrent
        · exact absurd (le_refl _) habove
        · exact hcurrent
    obtain ⟨between, lower, rfl⟩ := append_of_mem hcurrent'
    have hlength := length_le_of_score_lt (pairwise_cons.mp hpointSorted).2
      (pairwise_cons.mp hpointSorted).1
    rw [length_append, length_cons] at hlength
    have hcollected : self.collectSamples current (self.scoreOf header.pruningPoint + 1)
        header.pruningPoint [] = .ok ((header.pruningPoint :: between).reverse ++ []) :=
      hwalkable.of_append.collectSamples_eq (by omega)
    rw [if_neg hshallow, hreply, ok_bind, hwalkable.getBlueScore_eq (by simp), ok_bind,
      if_neg habove, hcollected, hsplit, filter_between hsorted rfl, append_nil]

omit hafter hbefore in
theorem Kept.point_monotone {parentHeader : Header Hash}
    (hkept : self.Kept k (block :: parent :: rest))
    (hheader : self.headersStore.lookup block = some header) (hne : parent ≠ self.genesisHash)
    (hparentHeader : self.headersStore.lookup parent = some parentHeader) :
    self.scoreOf parentHeader.pruningPoint ≤ self.scoreOf header.pruningPoint := by
  cases rest with
  | nil => exact absurd (by simpa using hkept.last) hne
  | cons next rest =>
    have hparent : self.Kept k (parent :: next :: rest) := hkept.of_append [block]
    have hbelow : self.Kept k (next :: rest) := hparent.of_append [parent]
    have hlower := hparent.deepest hparentHeader
    rcases hlower.deep with hlast | hdeep
    · rw [getLast?_samples] at hlast
      rw [hbelow.grows.score_last hlast]
      exact zero_le _
    · apply (hkept.deepest hheader).highest
      · exact (samples_suffix [parent]).subset hlower.mem
      · exact hdeep.trans hkept.grows.1.le

/-- The pruning point of a sample is a fixed number of samples back. -/
theorem Kept.point_of_sample (hkept : self.Kept k (block :: parent :: rest))
    (hheader : self.headersStore.lookup block = some header)
    (hself : self.isPruningSample (self.scoreOf block) (self.scoreOf parent) = true) :
    (samples self.scoreOf self.finalityDepth (block :: parent :: rest))[min
      self.pruningSamplesSteps ((samples self.scoreOf self.finalityDepth
        (block :: parent :: rest)).length - 1)]? = some header.pruningPoint := by
  obtain ⟨_, hhigh, hgrows⟩ := hkept.grows
  obtain ⟨_, hheader', _, hpoint⟩ := (hkept.stored [] block parent rest rfl).point
  cases hheader.symm.trans hheader'
  rw [findDeep_of_sample hafter hbefore hgrows hhigh hself] at hpoint
  have hlength := (hgrows.epochs (interval_long hafter hbefore)).length_eq
  rw [samples, if_pos (isPruningSample_iff.mp hself), length_cons, hlength,
    pruningSamplesSteps_eq hafter, Nat.add_sub_cancel, Nat.add_min_add_right]
  exact hpoint

/-- The stored points of a block over the chain below it. -/
structure Progress (manager : PruningPointManager Hash) (block parent : Hash)
    (below chain : List Hash) (sample point : Hash) : Prop where
  /-- The latest sample below the block, or genesis. -/
  sample_eq : (manager.samplesOn (parent :: below)).head? = some sample
  point_deep : point = manager.genesisHash ∨ point ∈ manager.samplesOn (parent :: below) ∧
    manager.scoreOf point + manager.pruningDepth ≤ manager.scoreOf block
  point_highest : ∀ x ∈ manager.samplesOn chain,
    manager.scoreOf x + manager.pruningDepth ≤ manager.scoreOf block →
      manager.scoreOf x ≤ manager.scoreOf point
  /-- Genesis stores no reply, so that the pruning point in its header is any hash. -/
  point_monotone : parent ≠ manager.genesisHash → ∀ header,
    manager.headersStore.lookup parent = some header →
      manager.scoreOf header.pruningPoint ≤ manager.scoreOf point
  /-- The number of samples back, or down to genesis. -/
  point_of_sample : manager.isPruningSample (manager.scoreOf block) (manager.scoreOf parent) =
    true →
    (manager.samplesOn (block :: parent :: below))[min manager.pruningSamplesSteps
      ((manager.samplesOn (block :: parent :: below)).length - 1)]? = some point
  next_eq : ∀ current ∈ manager.samplesOn (block :: parent :: below),
    manager.nextPruningPoints ⟨manager.scoreOf block, parent⟩ current =
      .ok ((manager.samplesOn (block :: parent :: below)).filter fun x =>
        manager.scoreOf current < manager.scoreOf x ∧
          manager.scoreOf x ≤ manager.scoreOf point).reverse

/-- Every block of an honest chain stores the latest sample below it and the latest one that is
deep enough, and the samples up to that are the next pruning points. -/
theorem Honest.pruning_progress (hhonest : self.Honest k chain) :
    (∀ above block parent below, chain = above ++ block :: parent :: below →
      ∃ sample header, self.pruningSamplesStore.lookup block = some sample ∧
        self.headersStore.lookup block = some header ∧
        self.Progress block parent below chain sample header.pruningPoint) ∧
    self.nextPruningPoints ⟨0, self.reachabilityService.origin⟩ self.genesisHash = .ok [] := by
  refine ⟨?_, if_pos rfl⟩
  rintro above block parent below rfl
  have hkept := hhonest.kept hafter hbefore
  have hblock := hkept.of_append above
  have hparent : self.Kept k (parent :: below) := hblock.of_append [block]
  have hstored := hblock.stored [] block parent below rfl
  obtain ⟨header, hheader, _⟩ := hstored.point
  have hdeepest := hblock.deepest hheader
  obtain ⟨sample, hsample⟩ : ∃ sample,
      (samples self.scoreOf self.finalityDepth (parent :: below)).head? = some sample :=
    ⟨_, List.head?_eq_some_head (samples_ne_nil _ _ (List.cons_ne_nil _ _))⟩
  refine ⟨sample, header, hstored.sample.trans hsample, hheader, ?_⟩
  constructor
  · rw [samplesOn_eq]
    exact hsample
  · have hdeep := hdeepest.deep
    rw [getLast?_samples, hparent.last, Option.some_inj] at hdeep
    rw [samplesOn_eq]
    exact hdeep.imp Eq.symm fun hdeep => ⟨hdeepest.mem, hdeep⟩
  · rw [samplesOn_eq]
    intro x hx hdeep
    have hpos : 0 < self.pruningDepth := (Nat.zero_le k).trans_lt (hafter.trans_le (Nat.mod_le _ _))
    exact hdeepest.highest x (hkept.grows.mem_samples_of_lt hx (by omega)) hdeep
  · exact fun hne _ => hblock.point_monotone hheader hne
  · simp only [samplesOn_eq]
    exact hblock.point_of_sample hafter hbefore hheader
  · simp only [samplesOn_eq]
    exact fun current => hblock.nextPruningPoints_eq hafter hbefore hheader

end Chain

/-! ## A chain of seven blocks -/

/-- The chain from block 7 down to genesis, which is block 1. The samples are 1, 3 and 6. -/
def chainSeven : PruningPointManager Nat where
  pruningDepth := 6
  finalityDepth := 4
  genesisHash := 1
  reachabilityService := .walking 0 (fun x => if x = 0 then none else some (x - 1)) id
  ghostdagStore := .ofList [(2, ⟨2, 1⟩), (3, ⟨4, 2⟩), (4, ⟨5, 3⟩), (5, ⟨7, 4⟩), (6, ⟨8, 5⟩),
    (7, ⟨10, 6⟩)]
  headersStore := .ofList [(1, ⟨0, 0⟩), (2, ⟨2, 1⟩), (3, ⟨4, 1⟩), (4, ⟨5, 1⟩), (5, ⟨7, 1⟩),
    (6, ⟨8, 1⟩), (7, ⟨10, 3⟩)]
  pruningSamplesStore := .ofList [(2, 1), (3, 1), (4, 3), (5, 3), (6, 3), (7, 6)]

theorem chainSeven_honest : chainSeven.Honest 1 [7, 6, 5, 4, 3, 2, 1] := by
  have hone : chainSeven.Honest 1 [1] := .genesis ⟨0, 0⟩ rfl rfl (by decide)
  have htwo := hone.block 2 2 ⟨1, 1⟩ rfl rfl rfl (by decide) (by decide) (by decide)
  have hthree := htwo.block 3 4 ⟨1, 1⟩ rfl rfl rfl (by decide) (by decide) (by decide)
  have hfour := hthree.block 4 5 ⟨3, 1⟩ rfl rfl rfl (by decide) (by decide) (by decide)
  have hfive := hfour.block 5 7 ⟨3, 1⟩ rfl rfl rfl (by decide) (by decide) (by decide)
  have hsix := hfive.block 6 8 ⟨3, 1⟩ rfl rfl rfl (by decide) (by decide) (by decide)
  exact hsix.block 7 10 ⟨6, 3⟩ rfl rfl rfl (by decide) (by decide) (by decide)

theorem Honest.exists_commit_chainSeven :
    ∃ reply, chainSeven.expectedHeaderPruningPoint ⟨11, 7⟩ = .ok reply ∧
      (chainSeven.commit 8 ⟨11, 7⟩ reply).Honest 1 [8, 7, 6, 5, 4, 3, 2, 1] :=
  chainSeven_honest.exists_commit (by decide) (by decide) (by decide) (by decide) (by decide)
    (by decide)

theorem Honest.pruning_progress_chainSeven :
    ∃ sample header, chainSeven.pruningSamplesStore.lookup 7 = some sample ∧
      chainSeven.headersStore.lookup 7 = some header ∧
      chainSeven.Progress 7 6 [5, 4, 3, 2, 1] [7, 6, 5, 4, 3, 2, 1] sample header.pruningPoint :=
  (Honest.pruning_progress (by decide) (by decide) chainSeven_honest).1 [] 7 6 [5, 4, 3, 2, 1] rfl

end PruningPointManager

end Qaspa.Pruning
