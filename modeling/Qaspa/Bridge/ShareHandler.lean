import Qaspa.Lib.HashMap
import Qaspa.Lib.Outcome

/-! # Jobs of a mining client

The bridge keeps the last jobs it sent to a client in a ring of slots. A share may be submitted
under the id of a later job than the one it solves, so a share that misses the target is tested
against the jobs before it as well, until the ring is exhausted.
-/

namespace Qaspa.Bridge

open List

def maxJobs : Nat := 300

/-- The ids of jobs count up from one. Slots are remainders of ids. -/
structure MiningState (Job : Type) where
  jobs : HashMap Nat Job
  jobIds : HashMap Nat Nat
  jobCounter : Nat

namespace MiningState

variable {Job : Type}

def new : MiningState Job := ⟨∅, ∅, 0⟩

def addJob (self : MiningState Job) (job : Job) : MiningState Job :=
  let idx := self.jobCounter + 1
  let slot := idx % maxJobs
  ⟨self.jobs.insert slot job, self.jobIds.insert slot idx, idx⟩

/-- The job in the slot of an id, whatever id it was added with. -/
def getJob (self : MiningState Job) (id : Nat) : Option Job := self.jobs.lookup (id % maxJobs)

variable (self : MiningState Job) (meetsTarget : Nat → Job → Bool) (jobId : Nat)

/-- The search for the job of a share, from the current job down: whether the share stays invalid,
and the ids that were tested. A share that finds a block meets the target, and its flag is false
here even if the node refuses the block. -/
def previousJobSearch (invalidShare : Bool) (currentJobId : Nat) (currentJob : Job) :
    Outcome Empty (Bool × List Nat) :=
  if meetsTarget currentJobId currentJob then .ok (false, [currentJobId])
  else
    let invalidShare := invalidShare || currentJobId == jobId
    if currentJobId = 1 ∨ currentJobId % maxJobs = (jobId % maxJobs + 1) % maxJobs then
      .ok (invalidShare, [currentJobId])
    else
      match currentJobId with
      -- the subtraction underflows
      | 0 => .error .panic
      | prevJobId + 1 =>
        match self.getJob prevJobId with
        | none => .ok (invalidShare, [currentJobId])
        | some prevJob => do
          let (invalidShare, tested) ← previousJobSearch invalidShare prevJobId prevJob
          return (invalidShare, currentJobId :: tested)

variable {jobId}

/-- The ids that are tested follow each other, and at most one round of the ring is left after
those that were tested before. -/
theorem previousJobSearch_eq (invalidShare : Bool) {currentJobId passed : Nat} (currentJob : Job)
    (hpassed : passed < maxJobs) (hid : currentJobId + passed = jobId) (hpos : currentJobId ≠ 0) :
    ∃ result count, self.previousJobSearch meetsTarget jobId invalidShare currentJobId currentJob =
        .ok (result, (range count).map (currentJobId - ·)) ∧
      count + passed ≤ maxJobs ∧ count ≤ currentJobId := by
  induction currentJobId generalizing invalidShare passed currentJob with
  | zero => exact absurd rfl hpos
  | succ prevJobId ih =>
    have hone : 1 + passed ≤ maxJobs ∧ 1 ≤ prevJobId + 1 := by omega
    rw [previousJobSearch]
    split
    · exact ⟨false, 1, rfl, hone⟩
    · dsimp only
      split
      · exact ⟨_, 1, rfl, hone⟩
      next hnext =>
        cases self.getJob prevJobId with
        | none => exact ⟨_, 1, rfl, hone⟩
        | some prevJob =>
          -- the slot after that of the submitted id comes last
          have hleft : passed + 1 < maxJobs ∧ prevJobId ≠ 0 := by
            simp only [maxJobs] at hnext hpassed ⊢
            omega
          obtain ⟨result, count, hsearch, hround, hcount⟩ :=
            ih (invalidShare || prevJobId + 1 == jobId) prevJob hleft.1 (by omega) hleft.2
          refine ⟨result, count + 1, ?_, by omega, by omega⟩
          dsimp only
          rw [hsearch, range_succ_eq_map, map_cons, map_map]
          simp [Function.comp_def, bind, Except.bind, pure, Except.pure]

/-- The search ends without a panic, in at most one round of the ring and without testing a slot
twice, unless the submitted id is zero and the share misses the target of the job it finds. -/
theorem previousJobSearch_ends (job : Job) :
    (∃ invalidShare tested,
      self.previousJobSearch meetsTarget jobId false jobId job = .ok (invalidShare, tested) ∧
      tested.length ≤ maxJobs ∧ (tested.map (· % maxJobs)).Nodup) ↔
    jobId ≠ 0 ∨ meetsTarget 0 job = true := by
  by_cases hne : jobId = 0
  · subst hne
    cases hmeets : meetsTarget 0 job with
    | false => simp [previousJobSearch, hmeets, maxJobs]
    | true => simp [previousJobSearch, hmeets, maxJobs]
  refine iff_of_true ?_ (.inl hne)
  obtain ⟨result, count, hsearch, hround, hcount⟩ :=
    self.previousJobSearch_eq meetsTarget false job (Nat.zero_lt_succ 299) (Nat.add_zero jobId) hne
  refine ⟨result, _, hsearch, by simpa using hround, ?_⟩
  rw [List.map_map]
  refine List.Nodup.map_on ?_ List.nodup_range
  intro i hi j hj heq
  simp only [List.mem_range, Function.comp_apply, maxJobs] at hi hj heq hround
  omega

theorem jobCounter_foldl_addJob (added : List Job) :
    (added.foldl addJob new).jobCounter = added.length := by
  induction added using reverseRecOn with
  | nil => rfl
  | append_singleton added last ih =>
    rw [foldl_append, length_append, ← ih]
    rfl

/-- The state after as many jobs as there are slots. -/
def fullRing : MiningState Unit := (List.replicate maxJobs ()).foldl addJob new

theorem getJob_fullRing_zero : fullRing.getJob 0 = some () := by
  have hsplit : replicate maxJobs () = replicate 299 () ++ [()] :=
    replicate_succ'
  have hcounter := jobCounter_foldl_addJob (replicate 299 ())
  rw [length_replicate] at hcounter
  rw [fullRing, hsplit, foldl_append, foldl_cons, foldl_nil, addJob, getJob,
    hcounter]
  exact AList.lookup_insert _

/-- Once the ring is full, the id zero finds a job, and a share for it that misses the target makes
the search subtract one from zero. -/
theorem previousJobSearch_underflows :
    fullRing.getJob 0 = some () ∧
      fullRing.previousJobSearch (fun _ _ => false) 0 false 0 () = .error .panic :=
  ⟨getJob_fullRing_zero, rfl⟩

theorem previousJobSearch_ends_fullRing :
    fullRing.getJob 300 = some () ∧ ∃ invalidShare tested,
      fullRing.previousJobSearch (fun _ _ => false) 300 false 300 () = .ok (invalidShare, tested) ∧
      tested.length ≤ maxJobs ∧ (tested.map (· % maxJobs)).Nodup :=
  ⟨getJob_fullRing_zero, (previousJobSearch_ends fullRing _ ()).mpr (.inl (by decide))⟩

end MiningState

end Qaspa.Bridge
