import Qaspa.Virtual.UtxoState

/-! # Block rewards

The coinbase of a block pays the blocks it merges: every blue block of the DAA window
gets its subsidy and fees in an output of its own, and what the red blocks have earned
goes to the merging block in one output. Blocks outside of the DAA window earn no
subsidy; the fees of red ones among them are still paid. Hence a coinbase never pays
more than the rewards of its mergeset.
-/

namespace Qaspa.Virtual

open Ghostdag Coinbase Outcome List Option U64

/-- A parameter that changes at a fork. -/
structure ForkedParam where
  pre : Nat
  post : Nat
  activation : Nat

namespace ForkedParam

def always : Nat := 0

def never : Nat := u64Max

def before (param : ForkedParam) : Nat :=
  if param.activation = always then param.post else param.pre

def after (param : ForkedParam) : Nat :=
  if param.activation = never then param.pre else param.post

def isActive (param : ForkedParam) (daaScore : Nat) : Bool := daaScore ≥ param.activation

end ForkedParam

def secondsPerMonth : Nat := 2629800

/-- The subsidy of one block per second, month by month. -/
def subsidyByMonthTable : List Nat :=
  [44000000000, 41530469757, 39199543598, 36999442271, 34922823143, 32962755691, 31112698372,
    29366476791, 27718263097, 26162556530, 24694165062, 23308188075, 22000000000, 20765234878,
    19599771799, 18499721135, 17461411571, 16481377845, 15556349186, 14683238395, 13859131548,
    13081278265, 12347082531, 11654094037, 11000000000, 10382617439, 9799885899, 9249860567,
    8730705785, 8240688922, 7778174593, 7341619197, 6929565774, 6540639132, 6173541265,
    5827047018, 5500000000, 5191308719, 4899942949, 4624930283, 4365352892, 4120344461,
    3889087296, 3670809598, 3464782887, 3270319566, 3086770632, 2913523509, 2750000000,
    2595654359, 2449971474, 2312465141, 2182676446, 2060172230, 1944543648, 1835404799,
    1732391443, 1635159783, 1543385316, 1456761754, 1375000000, 1297827179, 1224985737,
    1156232570, 1091338223, 1030086115, 972271824, 917702399, 866195721, 817579891, 771692658,
    728380877, 687500000, 648913589, 612492868, 578116285, 545669111, 515043057, 486135912,
    458851199, 433097860, 408789945, 385846329, 364190438, 343750000, 324456794, 306246434,
    289058142, 272834555, 257521528, 243067956, 229425599, 216548930, 204394972, 192923164,
    182095219, 171875000, 162228397, 153123217, 144529071, 136417277, 128760764, 121533978,
    114712799, 108274465, 102197486, 96461582, 91047609, 85937500, 81114198, 76561608, 72264535,
    68208638, 64380382, 60766989, 57356399, 54137232, 51098743, 48230791, 45523804, 42968750,
    40557099, 38280804, 36132267, 34104319, 32190191, 30383494, 28678199, 27068616, 25549371,
    24115395, 22761902, 21484375, 20278549, 19140402, 18066133, 17052159, 16095095, 15191747,
    14339099, 13534308, 12774685, 12057697, 11380951, 10742187, 10139274, 9570201, 9033066,
    8526079, 8047547, 7595873, 7169549, 6767154, 6387342, 6028848, 5690475, 5371093, 5069637,
    4785100, 4516533, 4263039, 4023773, 3797936, 3584774, 3383577, 3193671, 3014424, 2845237,
    2685546, 2534818, 2392550, 2258266, 2131519, 2011886, 1898968, 1792387, 1691788, 1596835,
    1507212, 1422618, 1342773, 1267409, 1196275, 1129133, 1065759, 1005943, 949484, 896193,
    845894, 798417, 753606, 711309, 671386, 633704, 598137, 564566, 532879, 502971, 474742,
    448096, 422947, 399208, 376803, 355654, 335693, 316852, 299068, 282283, 266439, 251485,
    237371, 224048, 211473, 199604, 188401, 177827, 167846, 158426, 149534, 141141, 133219,
    125742, 118685, 112024, 105736, 99802, 94200, 88913, 83923, 79213, 74767, 70570, 66609, 62871,
    59342, 56012, 52868, 49901, 47100, 44456, 41961, 39606, 37383, 35285, 33304, 31435, 29671,
    28006, 26434, 24950, 23550, 22228, 20980, 19803, 18691, 17642, 16652, 15717, 14835, 14003,
    13217, 12475, 11775, 11114, 10490, 9901, 9345, 8821, 8326, 7858, 7417, 7001, 6608, 6237, 5887,
    5557, 5245, 4950, 4672, 4410, 4163, 3929, 3708, 3500, 3304, 3118, 2943, 2778, 2622, 2475,
    2336, 2205, 2081, 1964, 1854, 1750, 1652, 1559, 1471, 1389, 1311, 1237, 1168, 1102, 1040, 982,
    927, 875, 826, 779, 735, 694, 655, 618, 584, 551, 520, 491, 463, 437, 413, 389, 367, 347, 327,
    309, 292, 275, 260, 245, 231, 218, 206, 194, 183, 173, 163, 154, 146, 137, 130, 122, 115, 109,
    103, 97, 91, 86, 81, 77, 73, 68, 65, 61, 57, 54, 51, 48, 45, 43, 40, 38, 36, 34, 32, 30, 28,
    27, 25, 24, 22, 21, 20, 19, 18, 17, 16, 15, 14, 13, 12, 12, 11, 10, 10, 9, 9, 8, 8, 7, 7, 6,
    6, 6, 5, 5, 5, 4, 4, 4, 4, 3, 3, 3, 3, 3, 2, 2, 2, 2, 2, 2, 2, 1, 1, 1, 1, 1, 1, 1, 1, 1, 1,
    1, 1, 0]

/-- The coinbase manager with the fields that determine subsidies. -/
structure RewardManager extends CoinbaseManager where
  deflationaryPhaseDaaScore : Nat
  preDeflationaryPhaseBaseSubsidy : UInt64
  bpsHistory : ForkedParam

structure CoinbaseTransactionTemplate where
  tx : Transaction
  hasRedReward : Bool

namespace RewardManager

variable (manager : RewardManager)

def divCeil (value divisor : Nat) : Nat := (value + divisor - 1) / divisor

def subsidyByMonthTableBefore : List Nat :=
  subsidyByMonthTable.map (divCeil · manager.bpsHistory.before)

def subsidyByMonthTableAfter : List Nat :=
  subsidyByMonthTable.map (divCeil · manager.bpsHistory.after)

/-- The month of a score in the deflationary phase; before and after the fork seconds
are counted at different rates. -/
def subsidyMonth (daaScore : Nat) : Nat :=
  let crescendoActivationDaaScore := manager.bpsHistory.activation
  let seconds :=
    if crescendoActivationDaaScore < manager.deflationaryPhaseDaaScore then
      (daaScore - manager.deflationaryPhaseDaaScore) / manager.bpsHistory.after
    else if daaScore < crescendoActivationDaaScore then
      (daaScore - manager.deflationaryPhaseDaaScore) / manager.bpsHistory.before
    else
      (crescendoActivationDaaScore - manager.deflationaryPhaseDaaScore) /
          manager.bpsHistory.before +
        (daaScore - crescendoActivationDaaScore) / manager.bpsHistory.after
  seconds / secondsPerMonth

def calcBlockSubsidy (daaScore : UInt64) : UInt64 :=
  if daaScore.toNat < manager.deflationaryPhaseDaaScore then
    manager.preDeflationaryPhaseBaseSubsidy
  else
    let table := if manager.bpsHistory.isActive daaScore.toNat then
      manager.subsidyByMonthTableAfter else manager.subsidyByMonthTableBefore
    UInt64.ofNat (table.getD (min (manager.subsidyMonth daaScore.toNat) (table.length - 1)) 0)

end RewardManager

/-! ## The expected coinbase -/

section Outputs

variable {Hash : Type} [DecidableEq Hash] (mergesetRewards : HashMap Hash BlockRewardData)
  (mergesetNonDaa : Hash → Bool)

/-- One output for every blue block of the DAA window that has earned something. -/
def blueOutputs : List Hash → Outcome CoinbaseError (List TransactionOutput)
  | [] => .ok []
  | blue :: blues =>
    if mergesetNonDaa blue then blueOutputs blues
    else do
      let rewardData ← unwrap (mergesetRewards.lookup blue)
      let amount ← U64.add rewardData.subsidy.toNat rewardData.totalFees
      let outputs ← blueOutputs blues
      return if amount > 0 then
        ⟨UInt64.ofNat amount, rewardData.scriptPublicKey⟩ :: outputs else outputs

/-- What a red block adds: its fees, and its subsidy if it is in the DAA window. -/
def redAmount (isNonDaa : Bool) (rewardData : BlockRewardData) : Outcome CoinbaseError Nat :=
  if isNonDaa then .ok rewardData.totalFees
  else U64.add rewardData.subsidy.toNat rewardData.totalFees

/-- The loop over the red blocks, with their reward so far. -/
def redRewardFrom (redReward : Nat) : List Hash → Outcome CoinbaseError Nat
  | [] => .ok redReward
  | red :: reds => do
    let rewardData ← unwrap (mergesetRewards.lookup red)
    let amount ← redAmount (mergesetNonDaa red) rewardData
    redRewardFrom (← U64.add redReward amount) reds

end Outputs

/-- The expected coinbase of a block. The identifier is computed from the contents. -/
def RewardManager.expectedCoinbaseTransaction {Hash : Type} [DecidableEq Hash]
    (manager : RewardManager) (calcId : Transaction → BitVec 256) (daaScore : UInt64)
    (minerData : MinerData) (ghostdagData : GhostdagData Hash)
    (mergesetRewards : HashMap Hash BlockRewardData) (mergesetNonDaa : Hash → Bool) :
    Outcome CoinbaseError CoinbaseTransactionTemplate := do
  let blues ← blueOutputs mergesetRewards mergesetNonDaa ghostdagData.mergesetBlues
  let redReward ← redRewardFrom mergesetRewards mergesetNonDaa 0 ghostdagData.mergesetReds
  let reds := if redReward > 0 then
    [⟨UInt64.ofNat redReward, minerData.scriptPublicKey⟩] else []
  let subsidy := manager.calcBlockSubsidy daaScore
  let payload ← manager.serializeCoinbasePayload
    ⟨UInt64.ofNat ghostdagData.blueScore, subsidy, minerData⟩
  let tx : Transaction := {
    version := txVersion
    inputs := []
    outputs := blues ++ reds
    lockTime := 0
    subnetworkId := subnetworkIdCoinbase
    gas := 0
    payload
    mass := 0
    id := 0 }
  return ⟨{ tx with id := calcId tx }, redReward > 0⟩

/-! ## What a coinbase pays -/

section Bounds

variable {Hash : Type} [DecidableEq Hash] {mergesetRewards : HashMap Hash BlockRewardData}
  {mergesetNonDaa : Hash → Bool}

/-- The reward of a merged block: its subsidy and its fees. -/
def rewardOf (mergesetRewards : HashMap Hash BlockRewardData) (block : Hash) : Nat :=
  (mergesetRewards.lookup block).elim 0 fun reward => reward.subsidy.toNat + reward.totalFees

theorem toNat_ofNat_of_fits {value : Nat} (hfits : value < wordBound 64) :
    (UInt64.ofNat value).toNat = value := UInt64.toNat_ofNat_of_lt' hfits

/-- The blue outputs pay at most the rewards of the blue blocks. -/
theorem sum_blueOutputs {blues : List Hash} {outputs : List TransactionOutput}
    (houtputs : blueOutputs mergesetRewards mergesetNonDaa blues = .ok outputs) :
    (outputs.map fun output => output.value.toNat).sum ≤
      (blues.map (rewardOf mergesetRewards)).sum := by
  induction blues generalizing outputs with
  | nil =>
    cases houtputs
    simp
  | cons blue blues ih =>
    rw [blueOutputs] at houtputs
    rw [map_cons, sum_cons]
    split at houtputs
    · exact (ih houtputs).trans (Nat.le_add_left ..)
    · simp only [bind_eq_ok, unwrap_eq_ok, add_eq_ok] at houtputs
      obtain ⟨reward, hreward, amount, ⟨hfits, rfl⟩, rest, hrest, hreturn⟩ := houtputs
      cases hreturn
      have hrewardOf : rewardOf mergesetRewards blue =
          reward.subsidy.toNat + reward.totalFees := by rw [rewardOf, hreward, elim_some]
      have hsum := ih hrest
      split
      · rw [map_cons, sum_cons, toNat_ofNat_of_fits hfits]
        omega
      · omega

/-- The red reward is at most the rewards of the red blocks. -/
theorem redRewardFrom_le {reds : List Hash} {start redReward : Nat}
    (hreward : redRewardFrom mergesetRewards mergesetNonDaa start reds = .ok redReward)
    (hstart : start < wordBound 64) :
    redReward < wordBound 64 ∧ redReward ≤ start + (reds.map (rewardOf mergesetRewards)).sum := by
  induction reds generalizing start with
  | nil =>
    cases hreward
    exact ⟨hstart, by simp⟩
  | cons red reds ih =>
    simp only [redRewardFrom, bind_eq_ok, unwrap_eq_ok, add_eq_ok] at hreward
    obtain ⟨reward, hlookup, amount, hamount, total, ⟨hfits, rfl⟩, hrest⟩ := hreward
    have hrewardOf : rewardOf mergesetRewards red =
        reward.subsidy.toNat + reward.totalFees := by rw [rewardOf, hlookup, elim_some]
    have hle : amount ≤ rewardOf mergesetRewards red := by
      rw [hrewardOf]
      unfold redAmount at hamount
      split at hamount
      · rw [← Except.ok.inj hamount]
        exact Nat.le_add_left ..
      · exact (add_eq_ok.mp hamount).2.le
    obtain ⟨hlt, hsum⟩ := ih hrest hfits
    rw [map_cons, sum_cons]
    omega

/-- The expected coinbase pays at most the rewards of the mergeset. -/
theorem totalOut_expectedCoinbase {manager : RewardManager} {calcId : Transaction → BitVec 256}
    {daaScore : UInt64} {minerData : MinerData} {data : GhostdagData Hash}
    {template : CoinbaseTransactionTemplate}
    (htemplate : manager.expectedCoinbaseTransaction calcId daaScore minerData data
      mergesetRewards mergesetNonDaa = .ok template) :
    template.tx.totalOut ≤
      ((data.mergesetBlues ++ data.mergesetReds).map (rewardOf mergesetRewards)).sum := by
  simp only [RewardManager.expectedCoinbaseTransaction, bind_eq_ok] at htemplate
  obtain ⟨blues, hblues, redReward, hred, payload, _, hreturn⟩ := htemplate
  cases hreturn
  have hbluesSum := sum_blueOutputs hblues
  obtain ⟨hfits, hredLe⟩ := redRewardFrom_le hred (by decide)
  have hredsSum : ((if redReward > 0 then
      [(⟨UInt64.ofNat redReward, minerData.scriptPublicKey⟩ : TransactionOutput)] else []).map
        fun output => output.value.toNat).sum ≤ redReward := by
    split
    · simp [toNat_ofNat_of_fits hfits]
    · simp
  rw [Transaction.totalOut, map_append, map_append, sum_append, sum_append]
  omega

/-- When the rewards are there and fit a word together, no addition overflows. -/
theorem blueOutputs_eq_ok {blues : List Hash}
    (hrewards : ∀ blue ∈ blues, (mergesetRewards.lookup blue).isSome)
    (hfits : (blues.map (rewardOf mergesetRewards)).sum < wordBound 64) :
    ∃ outputs, blueOutputs mergesetRewards mergesetNonDaa blues = .ok outputs := by
  induction blues with
  | nil => exact ⟨[], rfl⟩
  | cons blue blues ih =>
    obtain ⟨hblue, hblues⟩ := forall_mem_cons.mp hrewards
    rw [map_cons, sum_cons] at hfits
    obtain ⟨outputs, houtputs⟩ := ih hblues (by omega)
    rw [blueOutputs]
    split
    · exact ⟨outputs, houtputs⟩
    · obtain ⟨reward, hreward⟩ := isSome_iff_exists.mp hblue
      have hamount : (add reward.subsidy.toNat reward.totalFees :
          Outcome CoinbaseError Nat) = .ok (reward.subsidy.toNat + reward.totalFees) := by
        rw [rewardOf, hreward, elim_some] at hfits
        exact add_eq_ok.mpr ⟨by omega, rfl⟩
      rw [hreward, houtputs]
      simp only [unwrap, ok_bind, hamount]
      exact ⟨_, rfl⟩

theorem redRewardFrom_eq_ok {reds : List Hash} {start : Nat}
    (hrewards : ∀ red ∈ reds, (mergesetRewards.lookup red).isSome)
    (hfits : start + (reds.map (rewardOf mergesetRewards)).sum < wordBound 64) :
    ∃ redReward, redRewardFrom mergesetRewards mergesetNonDaa start reds = .ok redReward := by
  induction reds generalizing start with
  | nil => exact ⟨start, rfl⟩
  | cons red reds ih =>
    obtain ⟨hred, hreds⟩ := forall_mem_cons.mp hrewards
    rw [map_cons, sum_cons] at hfits
    obtain ⟨reward, hreward⟩ := isSome_iff_exists.mp hred
    rw [rewardOf, hreward, elim_some] at hfits
    obtain ⟨amount, hamount, hle⟩ : ∃ amount, redAmount (mergesetNonDaa red) reward =
        .ok amount ∧ amount ≤ reward.subsidy.toNat + reward.totalFees := by
      unfold redAmount
      split
      · exact ⟨_, rfl, Nat.le_add_left ..⟩
      · exact ⟨_, add_eq_ok.mpr ⟨by omega, rfl⟩, le_rfl⟩
    have hadd : (add start amount : Outcome CoinbaseError Nat) = .ok (start + amount) :=
      add_eq_ok.mpr ⟨by omega, rfl⟩
    have hrestFits : start + amount + (reds.map (rewardOf mergesetRewards)).sum <
        wordBound 64 := by omega
    obtain ⟨redReward, hrest⟩ := ih hreds hrestFits
    refine ⟨redReward, ?_⟩
    rw [redRewardFrom, hreward, unwrap, ok_bind, hamount, ok_bind, hadd, ok_bind, hrest]

end Bounds

end Qaspa.Virtual
