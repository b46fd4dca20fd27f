import Mathlib.Data.List.Chain

/-! # Samples of a growing sequence

The elements of a sequence have scores that grow from the root on, by a bounded amount at each
step. The scores are divided into epochs of equal length, and the first element of each epoch is
a sample. If an epoch is longer than a step, no epoch is left out, so that the samples can be
counted by their scores: those of a fixed depth are a fixed number of samples back.

All lists have the latest element first and the root last.
-/

namespace Qaspa.Sampling

open List Nat

variable {α : Type} (score : α → Nat)

/-- The first elements of the epochs, and the root. -/
def samples (interval : Nat) : List α → List α
  | [] => []
  | [root] => [root]
  | block :: parent :: rest =>
    if score parent / interval < score block / interval then
      block :: samples interval (parent :: rest)
    else samples interval (parent :: rest)

/-- The latest sample that is deep enough below a score, or the root. -/
def findDeep (depth bound : Nat) : List α → Option α
  | [] => none
  | [root] => some root
  | sample :: next :: rest =>
    if score sample + depth ≤ bound then some sample
    else findDeep depth bound (next :: rest)

/-- Each score is above the one before, by at most one more than the jitter, and the root has
score zero. -/
def Grows (jitter : Nat) : List α → Prop
  | [] => False
  | [root] => score root = 0
  | block :: parent :: rest =>
    score parent < score block ∧ score block ≤ score parent + jitter + 1 ∧
      Grows jitter (parent :: rest)

/-- One sample for each epoch down to the root, each close to the start of its epoch. -/
def Epochs (interval jitter : Nat) : Nat → List α → Prop
  | 0, list => ∃ root, list = [root] ∧ score root = 0
  | epoch + 1, list => ∃ sample rest, list = sample :: rest ∧
      (epoch + 1) * interval ≤ score sample ∧ score sample ≤ (epoch + 1) * interval + jitter ∧
      Epochs interval jitter epoch rest

variable {score} {score' : α → Nat} {interval jitter depth bound epoch : Nat}
  {block parent : α} {rest list : List α}

section

variable (heq : ∀ x ∈ list, score x = score' x)

include heq

theorem samples_congr : samples score interval list = samples score' interval list := by
  induction list with
  | nil => rfl
  | cons block rest ih =>
    cases rest with
    | nil => rfl
    | cons parent rest =>
      have hrest := ih fun x hx => heq x (.tail _ hx)
      simp only [samples, heq block (by simp), heq parent (by simp), hrest]

theorem findDeep_congr : findDeep score depth bound list = findDeep score' depth bound list := by
  induction list with
  | nil => rfl
  | cons sample rest ih =>
    cases rest with
    | nil => rfl
    | cons next rest =>
      have hrest := ih fun x hx => heq x (.tail _ hx)
      simp only [findDeep, heq sample (by simp), hrest]

end

theorem samples_sublist : (samples score interval list).Sublist list := by
  induction list with
  | nil => exact .slnil
  | cons block rest ih =>
    cases rest with
    | nil => exact .refl _
    | cons parent rest =>
      simp only [samples]
      split
      · exact ih.cons_cons block
      · exact ih.cons block

/-! ## Growth -/

theorem Grows.score_lt (hgrows : Grows score jitter (block :: rest)) :
    ∀ x ∈ rest, score x < score block := by
  induction rest generalizing block with
  | nil => simp
  | cons parent rest ih =>
    obtain ⟨hlt, _, hgrows⟩ := hgrows
    intro x hx
    rcases mem_cons.mp hx with rfl | hx
    · exact hlt
    · exact (ih hgrows x hx).trans hlt

theorem Grows.of_append {above : List α} (hgrows : Grows score jitter (above ++ block :: rest)) :
    Grows score jitter (block :: rest) := by
  induction above with
  | nil => exact hgrows
  | cons first above ih =>
    cases above with
    | nil => exact hgrows.2.2
    | cons second above => exact ih hgrows.2.2

theorem Grows.score_last (hgrows : Grows score jitter list) {root : α}
    (hroot : list.getLast? = some root) : score root = 0 := by
  induction list with
  | nil => exact hgrows.elim
  | cons block rest ih =>
    cases rest with
    | nil =>
      obtain rfl : block = root := by simpa using hroot
      exact hgrows
    | cons parent rest => exact ih hgrows.2.2 (by simpa only [getLast?_cons_cons] using hroot)

/-! ## Epochs -/

/-- Every epoch up to that of the latest element has its sample. -/
theorem Grows.epochs (hlong : jitter + 1 < interval) (hgrows : Grows score jitter (block :: rest)) :
    Epochs score interval jitter (score block / interval)
      (samples score interval (block :: rest)) := by
  induction rest generalizing block with
  | nil =>
    have hzero : score block = 0 := hgrows
    rw [hzero, Nat.zero_div]
    exact ⟨block, rfl, hzero⟩
  | cons parent rest ih =>
    obtain ⟨hlt, hle, hgrows⟩ := hgrows
    have hparent := ih hgrows
    have hpos : 0 < interval := by omega
    have hhigh : score parent < (score parent / interval + 1) * interval := by
      rw [Nat.add_mul, Nat.one_mul]
      exact Nat.lt_div_mul_add hpos
    simp only [samples]
    split
    next hnew =>
      -- The step is shorter than an epoch, so that the next epoch is reached.
      have hreached : (score parent / interval + 1) * interval ≤ score block :=
        (mul_le_mul_right _ hnew).trans (div_mul_le_self _ _)
      have hepoch : score block / interval = score parent / interval + 1 := by
        apply Nat.div_eq_of_lt_le hreached
        rw [Nat.add_mul (score parent / interval + 1)]
        omega
      rw [hepoch]
      exact ⟨block, _, rfl, hreached, by omega, hparent⟩
    next hold =>
      have hepoch : score block / interval = score parent / interval :=
        Nat.le_antisymm (Nat.le_of_not_lt hold) (Nat.div_le_div_right hlt.le)
      rw [hepoch]
      exact hparent

variable {sample : α}

theorem Epochs.length_eq (hepochs : Epochs score interval jitter epoch list) :
    list.length = epoch + 1 := by
  induction epoch generalizing list with
  | zero =>
    obtain ⟨root, rfl, _⟩ := hepochs
    rfl
  | succ epoch ih =>
    obtain ⟨sample, rest, rfl, _, _, hrest⟩ := hepochs
    rw [length_cons, ih hrest]

theorem samples_suffix (above : List α) :
    samples score interval (block :: rest) <:+ samples score interval (above ++ block :: rest) := by
  induction above with
  | nil => exact suffix_refl _
  | cons first above ih =>
    cases habove : above ++ block :: rest with
    | nil => simp at habove
    | cons second list =>
      rw [cons_append, habove, samples]
      rw [habove] at ih
      split
      · exact ih.trans (suffix_cons _ _)
      · exact ih

theorem samples_ne_nil (score : α → Nat) (interval : Nat) (hlist : list ≠ []) :
    samples score interval list ≠ [] := by
  induction list with
  | nil => exact absurd rfl hlist
  | cons block rest ih =>
    cases rest with
    | nil => exact cons_ne_nil _ _
    | cons parent rest =>
      simp only [samples]
      split
      · exact cons_ne_nil _ _
      · exact ih (cons_ne_nil _ _)

/-- Below a sample are the samples of the elements below it. -/
theorem samples_eq_cons {tail : List α} (hsamples : samples score interval list = sample :: tail) :
    ∃ above below, list = above ++ sample :: below ∧ tail = samples score interval below := by
  induction list with
  | nil => cases hsamples
  | cons block rest ih =>
    cases rest with
    | nil =>
      cases hsamples
      exact ⟨[], [], rfl, rfl⟩
    | cons parent rest =>
      simp only [samples] at hsamples
      split at hsamples
      · cases hsamples
        exact ⟨[], parent :: rest, rfl, rfl⟩
      · obtain ⟨above, below, heq, htail⟩ := ih hsamples
        exact ⟨block :: above, below, by rw [heq, cons_append], htail⟩

theorem getLast?_samples : (samples score interval list).getLast? = list.getLast? := by
  induction list with
  | nil => rfl
  | cons block rest ih =>
    cases rest with
    | nil => rfl
    | cons parent rest =>
      rw [getLast?_cons_cons, ← ih]
      simp only [samples]
      split
      · cases hrest : samples score interval (parent :: rest) with
        | nil => exact absurd hrest (samples_ne_nil _ _ (cons_ne_nil _ _))
        | cons first tail => rw [getLast?_cons_cons]
      · rfl

/-- The latest sample is of the epoch of the latest element. -/
theorem Grows.epoch_head {tail : List α} (hgrows : Grows score jitter (block :: rest))
    (hsamples : samples score interval (block :: rest) = sample :: tail) :
    score sample / interval = score block / interval := by
  induction rest generalizing block with
  | nil =>
    cases hsamples
    rfl
  | cons parent rest ih =>
    obtain ⟨hlt, _, hgrows⟩ := hgrows
    simp only [samples] at hsamples
    split at hsamples
    next hnew =>
      cases hsamples
      rfl
    next hold =>
      rw [ih hgrows hsamples]
      exact Nat.le_antisymm (Nat.div_le_div_right hlt.le) (Nat.le_of_not_lt hold)

/-- The samples with scores up to that of an element are those from it down. -/
theorem Grows.mem_samples_of_le {above : List α} {x : α}
    (hgrows : Grows score jitter (above ++ block :: rest))
    (hx : x ∈ samples score interval (above ++ block :: rest)) (hle : score x ≤ score block) :
    x ∈ samples score interval (block :: rest) := by
  induction above with
  | nil => exact hx
  | cons first above ih =>
    have hfirst := hgrows.score_lt block (by simp)
    cases habove : above ++ block :: rest with
    | nil => simp at habove
    | cons second list =>
      rw [cons_append, habove] at hx hgrows
      rw [habove] at ih
      apply ih hgrows.2.2
      rw [samples] at hx
      split at hx
      · rcases mem_cons.mp hx with rfl | hx
        · exact absurd hle (Nat.not_le_of_lt hfirst)
        · exact hx
      · exact hx

theorem Grows.mem_samples_of_lt {above : List α} {x : α}
    (hgrows : Grows score jitter (above ++ block :: parent :: rest))
    (hx : x ∈ samples score interval (above ++ block :: parent :: rest))
    (hlt : score x < score block) : x ∈ samples score interval (parent :: rest) := by
  have hmem := hgrows.mem_samples_of_le hx hlt.le
  rw [samples] at hmem
  split at hmem
  · rcases mem_cons.mp hmem with rfl | hmem
    · exact absurd hlt (lt_irrefl _)
    · exact hmem
  · exact hmem

/-! ## Sorted lists -/

section Sorted

variable (hsorted : list.Pairwise fun upper lower => score lower < score upper)

include hsorted

theorem length_le_of_score_lt (hbound : ∀ x ∈ list, score x < bound) : list.length ≤ bound := by
  induction list generalizing bound with
  | nil => exact zero_le _
  | cons first rest ih =>
    obtain ⟨hlt, hsorted⟩ := pairwise_cons.mp hsorted
    have hrest := ih hsorted hlt
    have hfirst := hbound first (by simp)
    rw [length_cons]
    omega

/-- The elements above one score and up to another. -/
theorem filter_between {above between below : List α} {upper lower : α}
    (hlist : list = above ++ upper :: (between ++ lower :: below)) :
    list.filter (fun x => score lower < score x ∧ score x ≤ score upper) = upper :: between := by
  subst hlist
  obtain ⟨_, hupper, habove⟩ := pairwise_append.mp hsorted
  obtain ⟨hupper, hbetween⟩ := pairwise_cons.mp hupper
  obtain ⟨_, hlower, hbetween⟩ := pairwise_append.mp hbetween
  have hbelow := (pairwise_cons.mp hlower).1
  have hskipped : above.filter (fun x => score lower < score x ∧ score x ≤ score upper) = [] := by
    apply filter_eq_nil_iff.mpr
    intro x hx
    have := habove x hx upper (by simp)
    simp only [decide_eq_true_eq]
    omega
  have hkept : between.filter (fun x => score lower < score x ∧ score x ≤ score upper) =
      between := by
    apply filter_eq_self.mpr
    intro x hx
    have hx' := hupper x (by simp [hx])
    have hx'' := hbetween x hx lower (by simp)
    simp only [decide_eq_true_eq]
    omega
  have hdropped : below.filter (fun x => score lower < score x ∧ score x ≤ score upper) = [] := by
    apply filter_eq_nil_iff.mpr
    intro x hx
    have := hbelow x hx
    simp only [decide_eq_true_eq]
    omega
  have hlt := hupper lower (by simp)
  rw [filter_append, hskipped, nil_append, filter_cons_of_pos (by simpa using hlt),
    filter_append, hkept, filter_cons_of_neg (by simp), hdropped, append_nil]

end Sorted

/-! ## Deep samples -/

theorem Grows.pairwise (hgrows : Grows score jitter list) :
    list.Pairwise fun upper lower => score lower < score upper := by
  induction list with
  | nil => exact .nil
  | cons block rest ih =>
    refine pairwise_cons.mpr ⟨hgrows.score_lt, ?_⟩
    cases rest with
    | nil => exact .nil
    | cons parent rest => exact ih hgrows.2.2

theorem Grows.samples_pairwise (hgrows : Grows score jitter list) :
    (samples score interval list).Pairwise fun upper lower => score lower < score upper :=
  hgrows.pairwise.sublist samples_sublist

/-- The latest sample that is deep enough. -/
structure Deepest (score : α → Nat) (depth bound : Nat) (list : List α) (sample : α) : Prop where
  mem : sample ∈ list
  deep : list.getLast? = some sample ∨ score sample + depth ≤ bound
  highest : ∀ x ∈ list, score x + depth ≤ bound → score x ≤ score sample

theorem findDeep_deepest (hsorted : list.Pairwise fun upper lower => score lower < score upper)
    (hfound : findDeep score depth bound list = some sample) :
    Deepest score depth bound list sample := by
  induction list with
  | nil => cases hfound
  | cons first rest ih =>
    obtain ⟨hlt, hsorted⟩ := pairwise_cons.mp hsorted
    cases rest with
    | nil =>
      cases hfound
      refine ⟨by simp, .inl rfl, fun x hx _ => ?_⟩
      rw [mem_singleton.mp hx]
    | cons next rest =>
      simp only [findDeep] at hfound
      split at hfound
      next hdeep =>
        cases hfound
        refine ⟨by simp, .inr hdeep, fun x hx _ => ?_⟩
        rcases mem_cons.mp hx with rfl | hx
        · exact le_refl _
        · exact (hlt x hx).le
      next hshallow =>
        have hrest := ih hsorted hfound
        refine ⟨.tail _ hrest.mem, ?_, fun x hx hxDeep => ?_⟩
        · exact hrest.deep
        · rcases mem_cons.mp hx with rfl | hx
          · exact absurd hxDeep hshallow
          · exact hrest.highest x hx hxDeep

/-! ## Moving up -/

/-- The samples from the latest one on that is deep enough. -/
def deepTail (score : α → Nat) (depth bound : Nat) : List α → List α
  | [] => []
  | [root] => [root]
  | sample :: next :: rest =>
    if score sample + depth ≤ bound then sample :: next :: rest
    else deepTail score depth bound (next :: rest)

theorem head?_deepTail :
    (deepTail score depth bound list).head? = findDeep score depth bound list := by
  induction list with
  | nil => rfl
  | cons first rest ih =>
    cases rest with
    | nil => rfl
    | cons next rest =>
      simp only [deepTail, findDeep]
      split
      · rfl
      · exact ih

/-- Seen from within an epoch, a depth is one of two numbers of samples. Seen from its start, it is
the larger one if it keeps away from the multiples of the interval by the jitter. -/
theorem Epochs.deepTail_eq (hbefore : depth % interval + jitter < interval) (passed : Nat)
    (hpassed : passed ≤ depth / interval + 1)
    (hlow : (epoch + passed) * interval ≤ bound) (hhigh : bound < (epoch + passed + 1) * interval)
    (hepochs : Epochs score interval jitter epoch list) :
    deepTail score depth bound list = list.drop (min (depth / interval + 1 - passed) epoch) ∨
      (jitter < depth % interval → (epoch + passed) * interval + jitter < bound) ∧
        deepTail score depth bound list = list.drop (min (depth / interval - passed) epoch) := by
  induction epoch generalizing list passed with
  | zero =>
    obtain ⟨root, rfl, _⟩ := hepochs
    exact .inl (by simp [deepTail])
  | succ epoch ih =>
    obtain ⟨sample, rest, rfl, hsampleLow, hsampleHigh, hrest⟩ := hepochs
    have hlength := hrest.length_eq
    have hdepth := div_add_mod' depth interval
    cases rest with
    | nil => cases hlength
    | cons next rest =>
      have hsplit : (epoch + 1 + passed) * interval =
          epoch * interval + passed * interval + interval := by
        simp only [Nat.add_mul]
        omega
      have hsplit' : (epoch + 1 + passed + 1) * interval =
          epoch * interval + passed * interval + interval + interval := by
        rw [Nat.add_mul (epoch + 1 + passed), Nat.one_mul, hsplit]
      rw [Nat.add_mul] at hsampleLow hsampleHigh
      simp only [deepTail]
      rcases eq_or_lt_of_le hpassed with rfl | hlt
      · -- One epoch more than the depth asks for.
        have hdeep : score sample + depth ≤ bound := by
          rw [Nat.add_mul (depth / interval)] at hsplit
          omega
        rw [if_pos hdeep]
        simp
      · have hindex : min (depth / interval + 1 - passed) (epoch + 1) =
            min (depth / interval + 1 - (passed + 1)) epoch + 1 := by omega
        have hmove : epoch + 1 + passed = epoch + (passed + 1) := by omega
        have hrest := ih (passed + 1) hlt (hmove ▸ hlow) (hmove ▸ hhigh) hrest
        rcases eq_or_lt_of_le (le_of_lt_succ hlt) with rfl | hlt
        · by_cases hdeep : score sample + depth ≤ bound
          · rw [if_pos hdeep]
            exact .inr ⟨fun _ => by omega, by simp⟩
          · rw [if_neg hdeep, hindex]
            rcases hrest with hrest | ⟨_, hrest⟩ <;> exact .inl (by simpa using hrest)
        · have hshallow : ¬ score sample + depth ≤ bound := by
            have hmul : (passed + 1) * interval ≤ depth / interval * interval :=
              Nat.mul_le_mul_right _ hlt
            rw [Nat.add_mul, Nat.one_mul] at hmul
            omega
          have hindex' : min (depth / interval - passed) (epoch + 1) =
              min (depth / interval - (passed + 1)) epoch + 1 := by omega
          rw [if_neg hshallow, hindex, hindex', hmove]
          exact hrest

theorem Epochs.findDeep_eq (hafter : jitter < depth % interval)
    (hbefore : depth % interval + jitter < interval) (hlow : (epoch + 1) * interval ≤ bound)
    (hhigh : bound ≤ (epoch + 1) * interval + jitter)
    (hepochs : Epochs score interval jitter epoch list) :
    findDeep score depth bound list = list[min (depth / interval) epoch]? := by
  have hnext : bound < (epoch + 1 + 1) * interval := by
    rw [Nat.add_mul _ 1]
    omega
  rcases hepochs.deepTail_eq hbefore 1 (le_add_left 1 _) hlow hnext with htail | ⟨hfar, _⟩
  · rw [← head?_deepTail, htail, head?_drop, Nat.add_sub_cancel]
  · exact absurd (hfar hafter) hhigh.not_gt

end Qaspa.Sampling
