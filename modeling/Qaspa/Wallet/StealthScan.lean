import Qaspa.Wallet.StealthTracking

/-! # Finding stealth outputs by replaying blocks

Without an index of the node an account finds its outputs by reading all blocks, page by page. The
outputs of a block are netted against the inputs of the same block only: an output that a later
block spends is claimed when its own block is read, and nothing takes it back.
-/

namespace Qaspa.Wallet

open HashMap Script List

abbrev BlockHash := BitVec 256

/-- A transaction of a block; the identifier is missing if it could not be derived. -/
structure RpcTransaction where
  transactionId : Option TransactionId
  subnetworkId : SubnetworkId
  inputs : List TransactionOutpoint
  outputs : List TransactionOutput
  deriving DecidableEq, Repr

/-- A block without transactions has only its header. -/
structure RpcBlock where
  hash : BlockHash
  daaScore : UInt64
  transactions : List RpcTransaction
  deriving DecidableEq, Repr

/-- An answer of the node. -/
structure GetBlocksResponse where
  blockHashes : List BlockHash
  blocks : List RpcBlock

section Model

variable {Output : Type} (setting : StealthSetting Output)

/-! ## The outputs of a block -/

def stealthEntryFromTransactionOutput (txId : TransactionId) (outputIndex : UInt32)
    (output : TransactionOutput) (blockDaaScore : UInt64) (isCoinbase : Bool) :
    Option (TransactionOutpoint × UtxoEntry) :=
  if output.scriptPublicKey.version ≠ stealthScriptVersion then none
  else
    (extractStealthOutput setting output.scriptPublicKey).map fun _ =>
      (⟨txId, outputIndex⟩, ⟨output.value, output.scriptPublicKey, blockDaaScore, isCoinbase⟩)

/-- The stealth outputs of a transaction, in order. -/
def stealthOutputs (blockDaaScore : UInt64) (tx : RpcTransaction) :
    List (TransactionOutpoint × UtxoEntry) :=
  match tx.transactionId with
  | none => []
  | some txId =>
    tx.outputs.zipIdx.filterMap fun indexed =>
      stealthEntryFromTransactionOutput setting txId (UInt32.ofNat indexed.2) indexed.1
        blockDaaScore (tx.subnetworkId == subnetworkIdCoinbase)

/-- The inputs are removed after the outputs were inserted. A transaction without an identifier is
left out. -/
def collectTransaction (blockDaaScore : UInt64) (live : HashMap TransactionOutpoint UtxoEntry)
    (tx : RpcTransaction) : HashMap TransactionOutpoint UtxoEntry :=
  if tx.transactionId.isSome then
    tx.inputs.foldl (fun live spent => live.erase spent)
      ((stealthOutputs setting blockDaaScore tx).foldl
        (fun live created => live.insert created.1 created.2) live)
  else live

def collectLiveStealthUtxos (block : RpcBlock) : List (TransactionOutpoint × UtxoEntry) :=
  (block.transactions.foldl (collectTransaction setting block.daaScore) ∅).entries.map
    fun entry => (entry.1, entry.2)

/-! ## The account -/

/-- The account with the index of the processor. -/
structure ScanAccount (Output : Type) where
  handler : StealthHandler Output
  outpointIndex : HashMap TransactionOutpoint AccountId

/-- Claim an output that is not tracked yet; the number counts the claims. -/
def processPotentialEntry (accountId : AccountId) (currentDaaScore : UInt64)
    (scanning : ScanAccount Output × Nat) (live : TransactionOutpoint × UtxoEntry) :
    ScanAccount Output × Nat :=
  let entry : RpcUtxosByAddressesEntry := ⟨false, live.1, live.2⟩
  if live.1 ∈ scanning.1.handler.utxos.context.map then scanning
  else
    match scanning.1.handler.tryClaimUtxo setting accountId entry with
    | some claimed =>
      (⟨claimed.addUtxo setting entry currentDaaScore,
        scanning.1.outpointIndex.insert live.1 accountId⟩, scanning.2 + 1)
    | none => scanning

/-! ## The loop -/

structure ScanState (Output : Type) where
  cursor : Option BlockHash
  seenHashes : List BlockHash
  account : ScanAccount Output
  totalClaimed : Nat
  encounteredFullBlocks : Bool
  headerOnlyEncountered : Bool
  headerOnlyBeforeFirstFull : Bool
  earliestHeaderDaa : Option UInt64

/-- What a scan is started with. -/
structure ScanRequest where
  accountId : AccountId
  creationDaaScore : UInt64
  lookbackDaa : UInt64
  currentDaaScore : UInt64

def ScanRequest.minDaaScore (request : ScanRequest) : Option UInt64 :=
  let referenceDaa :=
    if request.creationDaaScore = 0 then request.currentDaaScore else request.creationDaaScore
  if request.lookbackDaa < referenceDaa then some (referenceDaa - request.lookbackDaa) else none

def ScanRequest.tooOld (request : ScanRequest) (block : RpcBlock) : Bool :=
  match request.minDaaScore with
  | some minDaa => block.daaScore < minDaa
  | none => false

variable (request : ScanRequest)

namespace ScanState

def start (account : ScanAccount Output) : ScanState Output :=
  ⟨none, [], account, 0, false, false, false, none⟩

def scanBlock (state : ScanState Output) (block : RpcBlock) : ScanState Output :=
  if block.transactions.isEmpty then
    { state with
      headerOnlyEncountered := true
      headerOnlyBeforeFirstFull := state.headerOnlyBeforeFirstFull || !state.encounteredFullBlocks
      earliestHeaderDaa :=
        if state.encounteredFullBlocks then state.earliestHeaderDaa else some block.daaScore }
  else if request.tooOld block then state
  else
    let scanned := (collectLiveStealthUtxos setting block).foldl
      (processPotentialEntry setting request.accountId request.currentDaaScore)
      (state.account, state.totalClaimed)
    { state with
      encounteredFullBlocks := true
      account := scanned.1
      totalClaimed := scanned.2 }

/-- One hash of a page. The first one is the cursor, and a hash is processed once. -/
def scanHash (response : GetBlocksResponse) (scanning : ScanState Output × Bool)
    (indexed : BlockHash × Nat) : ScanState Output × Bool :=
  if scanning.1.cursor.isSome && indexed.2 == 0 then scanning
  else if indexed.1 ∈ scanning.1.seenHashes then scanning
  else
    let state := { scanning.1 with seenHashes := scanning.1.seenHashes ++ [indexed.1] }
    match response.blocks[indexed.2]? with
    | some block => (state.scanBlock setting request block, true)
    | none => (state, true)

def scanPage (state : ScanState Output) (response : GetBlocksResponse) : ScanState Output × Bool :=
  response.blockHashes.zipIdx.foldl (scanHash setting request response) (state, false)

/-- The answers of the node to the successive requests. The scan ends with an empty answer or with
one that has nothing new. -/
def scanPages : List GetBlocksResponse → ScanState Output → ScanState Output
  | [], state => state
  | response :: rest, state =>
    if response.blockHashes.isEmpty then state
    else
      let page := state.scanPage setting request response
      if page.2 then
        scanPages rest { page.1 with cursor := response.blockHashes.getLast? }
      else page.1

end ScanState

def prunedError : String :=
  "Stealth block replay fallback requires a node with historical block bodies " ++
    "(current node appears pruned)"

def missingBeforeCreationError : String :=
  "Stealth fallback detected missing historical block bodies before account creation; " ++
    "please use archival node"

def missingBeforeDataError : String :=
  "Stealth fallback detected missing historical block bodies before available data " ++
    "(node pruned too aggressively)"

/-- The verdict on the blocks that had no body. -/
def ScanState.verdict (state : ScanState Output) : Except String Unit :=
  if !state.encounteredFullBlocks && state.headerOnlyEncountered then .error prunedError
  else if state.headerOnlyBeforeFirstFull && state.totalClaimed == 0 then
    match state.earliestHeaderDaa with
    | some headerDaa =>
      if 0 < request.creationDaaScore && request.creationDaaScore < headerDaa then
        .error missingBeforeCreationError
      else .error missingBeforeDataError
    | none => .error missingBeforeDataError
  else .ok ()

def scanViaViewTags (responses : List GetBlocksResponse) (account : ScanAccount Output) :
    ScanState Output × Except String Unit :=
  let final := ScanState.scanPages setting request responses (.start account)
  (final, final.verdict request)

end Model

/-! ## The outputs of a block -/

section Live

variable {Output : Type} {setting : StealthSetting Output}
  {live : HashMap TransactionOutpoint UtxoEntry} {outpoint : TransactionOutpoint}
  {entry : UtxoEntry}

def Creates (setting : StealthSetting Output) (block : RpcBlock) (outpoint : TransactionOutpoint)
    (entry : UtxoEntry) : Prop :=
  ∃ tx ∈ block.transactions, (outpoint, entry) ∈ stealthOutputs setting block.daaScore tx

def Spends (block : RpcBlock) (outpoint : TransactionOutpoint) : Prop :=
  ∃ tx ∈ block.transactions, outpoint ∈ tx.inputs

variable {pairs : List (TransactionOutpoint × UtxoEntry)}

theorem lookup_foldl_insert_pairs
    (hlookup : (pairs.foldl (fun live created => live.insert created.1 created.2) live).lookup
      outpoint = some entry) : live.lookup outpoint = some entry ∨ (outpoint, entry) ∈ pairs := by
  revert hlookup
  refine foldlRecOn (motive := fun map : HashMap TransactionOutpoint UtxoEntry =>
    map.lookup outpoint = some entry → _) pairs _ .inl fun map hmap pair hpair hlookup => ?_
  rcases lookup_insert_eq_some.mp hlookup with ⟨rfl, rfl⟩ | ⟨-, hlookup⟩
  · exact .inr hpair
  · exact hmap hlookup

theorem mem_foldl_insert_pairs (hmem : outpoint ∈ live ∨ ∃ entry, (outpoint, entry) ∈ pairs) :
    outpoint ∈ pairs.foldl (fun live created => live.insert created.1 created.2) live := by
  induction pairs generalizing live with
  | nil => simpa using hmem
  | cons pair pairs ih =>
    apply ih
    rw [AList.mem_insert]
    rcases hmem with hlive | ⟨entry, hmem⟩
    · exact .inl (.inr hlive)
    · rcases mem_cons.mp hmem with rfl | hmem
      · exact .inl (.inl rfl)
      · exact .inr ⟨entry, hmem⟩

theorem mem_collectTransaction {blockDaaScore : UInt64} {tx : RpcTransaction}
    (hunspent : outpoint ∉ tx.inputs)
    (hmem : outpoint ∈ live ∨ ∃ entry,
      (outpoint, entry) ∈ stealthOutputs setting blockDaaScore tx) :
    outpoint ∈ collectTransaction setting blockDaaScore live tx := by
  unfold collectTransaction
  split
  · rw [← isSome_lookup, lookup_foldl_erase, if_neg hunspent, isSome_lookup]
    exact mem_foldl_insert_pairs hmem
  next hid =>
    have hnone : stealthOutputs setting blockDaaScore tx = [] := by
      rw [stealthOutputs, Option.not_isSome_iff_eq_none.mp hid]
    rw [hnone] at hmem
    exact hmem.resolve_right fun ⟨_, h⟩ => (nomatch h)

/-- The outputs that are collected from a block were created in it. -/
theorem creates_of_mem_live {block : RpcBlock}
    (hlive : (outpoint, entry) ∈ collectLiveStealthUtxos setting block) :
    Creates setting block outpoint entry := by
  obtain ⟨_, hentry, ⟨⟩⟩ := mem_map.mp hlive
  refine foldlRecOn (motive := fun live : HashMap TransactionOutpoint UtxoEntry =>
    live.lookup _ = some _ → _) block.transactions _ ?_ ?_ (lookup_eq_some.mpr hentry)
  · exact nofun
  · intro live hbefore tx htx hlookup
    unfold collectTransaction at hlookup
    split at hlookup
    · rw [lookup_foldl_erase] at hlookup
      split at hlookup
      · cases hlookup
      · exact (lookup_foldl_insert_pairs hlookup).elim hbefore fun hmem => ⟨tx, htx, hmem⟩
    · exact hbefore hlookup

/-- An output of a block that the block does not spend is collected. -/
theorem mem_live_of_creates {block : RpcBlock} (hcreates : Creates setting block outpoint entry)
    (hunspent : ¬Spends block outpoint) :
    ∃ entry', (outpoint, entry') ∈ collectLiveStealthUtxos setting block := by
  obtain ⟨tx, htx, hmem⟩ := hcreates
  have hinput : ∀ tx ∈ block.transactions, outpoint ∉ tx.inputs :=
    fun tx htx hinput => hunspent ⟨tx, htx, hinput⟩
  have hlive : outpoint ∈ block.transactions.foldl
      (collectTransaction setting block.daaScore) ∅ := by
    obtain ⟨before, after, hsplit⟩ := append_of_mem htx
    rw [hsplit, foldl_append, foldl_cons]
    -- it is there after the transaction that creates it, and stays
    refine foldlRecOn (motive := fun live => outpoint ∈ live) after _
      (mem_collectTransaction (hinput tx htx) (.inr ⟨entry, hmem⟩)) ?_
    intro live hlive other hother
    exact mem_collectTransaction (hinput other (by simp [hsplit, hother])) (.inl hlive)
  obtain ⟨entry', hlookup⟩ := Option.isSome_iff_exists.mp (isSome_lookup.mpr hlive)
  exact ⟨entry', mem_map.mpr ⟨_, lookup_eq_some.mp hlookup, rfl⟩⟩

end Live

/-! ## Claims -/

theorem UtxoWorld.map_handleUtxoAdded {world : UtxoWorld} {params : NetworkParams}
    {currentDaaScore : Nat} {utxo : UtxoEntryReference}
    (hfresh : utxo.outpoint ∉ world.context.map)
    (hbatch : ¬BatchOutput world.processor.outgoing utxo.outpoint) :
    (world.handleUtxoAdded params [utxo] currentDaaScore).context.map =
      world.context.map.insert utxo.outpoint utxo := by
  have hinsert : ∀ forceMaturity, (world.insert params utxo currentDaaScore
      forceMaturity).context.map = world.context.map.insert utxo.outpoint utxo := by
    intro forceMaturity
    rw [UtxoWorld.insert, if_neg hfresh]
    exact (outgoing_place utxo _).2.1
  change (world.addUtxo params currentDaaScore utxo).context.map = _
  unfold addUtxo UtxoEntryReference.transactionId
  cases houtgoing : world.processor.outgoing.lookup utxo.outpoint.transactionId with
  | none => exact hinsert false
  | some tx =>
    have hplain : ¬tx.isBatch = true := fun hisBatch => hbatch ⟨tx, houtgoing, hisBatch⟩
    dsimp only
    rw [if_neg hplain]
    exact hinsert true

section Claims

variable {Output : Type} {setting : StealthSetting Output} {accountId : AccountId}
  {currentDaaScore : UInt64}

open StealthWorld

/-- The claims so far are the tracked outputs. -/
def Counted (scanning : ScanAccount Output × Nat) : Prop :=
  scanning.1.handler.utxos.context.map.keys.length = scanning.2

/-- An account after a part of a scan, with the outputs that were found. -/
structure Finds (scanning : ScanAccount Output × Nat) (found : TransactionOutpoint → Prop)
    (scanning' : ScanAccount Output × Nat) : Prop where
  same : SameAccount scanning.1.handler scanning'.1.handler
  tracks : ∀ outpoint, Tracks scanning'.1.handler outpoint ↔
    Tracks scanning.1.handler outpoint ∨ found outpoint
  counted : Counted scanning → Counted scanning'

variable {scanning scanning' scanning'' : ScanAccount Output × Nat}
  {found found' : TransactionOutpoint → Prop}

theorem Finds.refl (scanning : ScanAccount Output × Nat)
    (hnone : ∀ outpoint, found outpoint → Tracks scanning.1.handler outpoint) :
    Finds scanning found scanning :=
  ⟨.refl _, fun outpoint => (or_iff_left_of_imp (hnone outpoint)).symm, fun h => h⟩

theorem Finds.trans (hfirst : Finds scanning found scanning')
    (hsecond : Finds scanning' found' scanning'') :
    Finds scanning (fun outpoint => found outpoint ∨ found' outpoint) scanning'' where
  same := hfirst.same.trans hsecond.same
  tracks := fun outpoint => by rw [hsecond.tracks, hfirst.tracks, or_assoc]
  counted := fun hcounted => hsecond.counted (hfirst.counted hcounted)

theorem Finds.congr (hfinds : Finds scanning found scanning')
    (hiff : ∀ outpoint, found outpoint ↔ found' outpoint) : Finds scanning found' scanning' where
  same := hfinds.same
  tracks := fun outpoint => by rw [hfinds.tracks, hiff]
  counted := hfinds.counted

theorem processPotentialEntry_finds (scanning : ScanAccount Output × Nat)
    (hunlocked : scanning.1.handler.unlocked = true) {live : TransactionOutpoint × UtxoEntry}
    (hbatch : Owns setting scanning.1.handler live.2.scriptPublicKey →
      ¬UtxoWorld.BatchOutput scanning.1.handler.utxos.processor.outgoing live.1) :
    Finds scanning (fun outpoint => outpoint = live.1 ∧
        Owns setting scanning.1.handler live.2.scriptPublicKey)
      (processPotentialEntry setting accountId currentDaaScore scanning live) := by
  unfold processPotentialEntry
  by_cases hmem : live.1 ∈ scanning.1.handler.utxos.context.map
  · simp only [hmem]
    exact .refl scanning fun outpoint ⟨heq, _⟩ => heq ▸ hmem
  · simp only [hmem, if_false, StealthHandler.tryClaimUtxo, hunlocked, if_true]
    cases hclaim : scanning.1.handler.tryClaimUtxoInternal setting live.2.scriptPublicKey with
    | none =>
      refine .refl scanning fun outpoint ⟨_, howns⟩ => ?_
      rw [Owns, hclaim] at howns
      cases howns
    | some data =>
      have howns : Owns setting scanning.1.handler live.2.scriptPublicKey :=
        Option.isSome_of_eq_some hclaim
      have hbatch := hbatch howns
      have hgains : Gains scanning.1.handler ((scanning.1.handler.storeKey setting accountId
          ⟨false, live.1, live.2⟩ data).addUtxo setting ⟨false, live.1, live.2⟩ currentDaaScore)
          live.1 := gains_storeKey data
      have hmap : (scanning.1.handler.utxos.handleUtxoAdded setting.params [⟨live.1, live.2⟩]
          currentDaaScore.toNat).context.map = _ := UtxoWorld.map_handleUtxoAdded hmem hbatch
      rw [Option.map_some]
      refine ⟨hgains.toSameAccount, fun outpoint => ?_, fun hcounted => ?_⟩
      · rw [hgains.tracks outpoint]
        simp [hbatch, howns]
      · refine (congrArg (fun map : UtxoMap => map.keys.length) hmap).trans ?_
        rw [AList.keys_insert, erase_of_not_mem hmem, length_cons, hcounted]

/-- The outputs of a list that an account owns. -/
def Owned (setting : StealthSetting Output) (handler : StealthHandler Output)
    (lives : List (TransactionOutpoint × UtxoEntry)) (outpoint : TransactionOutpoint) : Prop :=
  ∃ entry, (outpoint, entry) ∈ lives ∧ Owns setting handler entry.scriptPublicKey

theorem processEntries_finds (scanning : ScanAccount Output × Nat)
    (hunlocked : scanning.1.handler.unlocked = true)
    {lives : List (TransactionOutpoint × UtxoEntry)}
    (hbatch : ∀ live ∈ lives, Owns setting scanning.1.handler live.2.scriptPublicKey →
      ¬UtxoWorld.BatchOutput scanning.1.handler.utxos.processor.outgoing live.1) :
    Finds scanning (Owned setting scanning.1.handler lives)
      (lives.foldl (processPotentialEntry setting accountId currentDaaScore) scanning) := by
  induction lives generalizing scanning with
  | nil => exact .refl scanning fun _ ⟨_, hmem, _⟩ => (nomatch hmem)
  | cons live lives ih =>
    obtain ⟨hbatch₁, hbatch₂⟩ := forall_mem_cons.mp hbatch
    have hfirst : Finds scanning _
        (processPotentialEntry setting accountId currentDaaScore scanning live) :=
      processPotentialEntry_finds scanning hunlocked hbatch₁
    have hrest := ih _ (hfirst.same.unlocked.trans hunlocked)
      fun other hother howns =>
        hfirst.same.outgoing ▸ hbatch₂ other hother ((hfirst.same.owns _).mp howns)
    refine (hfirst.trans hrest).congr fun outpoint => ?_
    simp only [Owned, hfirst.same.owns, mem_cons]
    constructor
    · rintro (⟨rfl, howns⟩ | ⟨entry, hmem, howns⟩)
      · exact ⟨live.2, .inl rfl, howns⟩
      · exact ⟨entry, .inr hmem, howns⟩
    · rintro ⟨entry, rfl | hmem, howns⟩
      · exact .inl ⟨rfl, howns⟩
      · exact .inr ⟨entry, hmem, howns⟩

end Claims

/-! ## Blocks and pages -/

section Pages

variable {Output : Type} {setting : StealthSetting Output} {request : ScanRequest}

open StealthWorld

/-- A block that is scanned: it has a body and is not too old. -/
def ScanRequest.Reads (request : ScanRequest) (block : RpcBlock) : Prop :=
  block.transactions ≠ [] ∧ request.tooOld block = false

/-- An owned stealth output of the scanned blocks that is not spent again in its block. -/
def Collected (setting : StealthSetting Output) (request : ScanRequest)
    (handler : StealthHandler Output) (blocks : List RpcBlock) (outpoint : TransactionOutpoint) :
    Prop :=
  ∃ block ∈ blocks, request.Reads block ∧
    Owned setting handler (collectLiveStealthUtxos setting block) outpoint

/-- A page with the blocks of its hashes. -/
def GetBlocksResponse.ofBlocks (blocks : List RpcBlock) : GetBlocksResponse :=
  ⟨blocks.map (·.hash), blocks⟩

/-- A chain that is returned in chunks, each page starting with the last block of the one before.
The last page has nothing new. -/
def pagesFrom : Option RpcBlock → List (List RpcBlock) → List GetBlocksResponse
  | last, [] => [.ofBlocks last.toList]
  | last, chunk :: chunks =>
    .ofBlocks (last.toList ++ chunk) :: pagesFrom (chunk.getLast?.or last) chunks

namespace ScanState

def progress (state : ScanState Output) : ScanAccount Output × Nat :=
  (state.account, state.totalClaimed)

/-- A state at another place of the chain. -/
def moveTo (state : ScanState Output) (cursor : Option BlockHash) (seenHashes : List BlockHash) :
    ScanState Output :=
  { state with cursor := cursor, seenHashes := seenHashes }

theorem scanBlock_moveTo (state : ScanState Output) (cursor : Option BlockHash)
    (seenHashes : List BlockHash) (block : RpcBlock) :
    (state.moveTo cursor seenHashes).scanBlock setting request block =
      (state.scanBlock setting request block).moveTo cursor seenHashes := by
  unfold scanBlock
  by_cases hempty : block.transactions.isEmpty = true
  · rw [if_pos hempty, if_pos hempty]
    rfl
  · rw [if_neg hempty, if_neg hempty]
    by_cases hold : request.tooOld block = true
    · rw [if_pos hold, if_pos hold]
    · rw [if_neg hold, if_neg hold]
      rfl

theorem scanBlocks_moveTo (blocks : List RpcBlock) (state : ScanState Output)
    (cursor : Option BlockHash) (seenHashes : List BlockHash) :
    blocks.foldl (scanBlock setting request) (state.moveTo cursor seenHashes) =
      (blocks.foldl (scanBlock setting request) state).moveTo cursor seenHashes := by
  induction blocks generalizing state with
  | nil => rfl
  | cons block blocks ih => rw [foldl_cons, scanBlock_moveTo, ih, foldl_cons]

theorem scanBlock_finds (state : ScanState Output)
    (hunlocked : state.account.handler.unlocked = true) {block : RpcBlock}
    (hbatch : ∀ outpoint entry, Creates setting block outpoint entry →
      Owns setting state.account.handler entry.scriptPublicKey →
      ¬UtxoWorld.BatchOutput state.account.handler.utxos.processor.outgoing outpoint) :
    Finds state.progress (fun outpoint => request.Reads block ∧
        Owned setting state.account.handler (collectLiveStealthUtxos setting block) outpoint)
      (state.scanBlock setting request block).progress := by
  unfold scanBlock ScanRequest.Reads
  by_cases hempty : block.transactions = []
  · simp only [hempty]
    exact .refl state.progress fun _ ⟨⟨hne, _⟩, _⟩ => absurd rfl hne
  · rw [if_neg (by simpa using hempty)]
    by_cases hold : request.tooOld block = true
    · rw [if_pos hold]
      exact .refl state.progress fun _ ⟨⟨_, hnew⟩, _⟩ => absurd hold (by simp [hnew])
    · rw [if_neg hold]
      have hfinds : Finds state.progress _ ((collectLiveStealthUtxos setting block).foldl
          (processPotentialEntry setting request.accountId request.currentDaaScore)
          state.progress) :=
        processEntries_finds state.progress hunlocked
          fun live hlive => hbatch live.1 live.2 (creates_of_mem_live hlive)
      exact hfinds.congr fun outpoint => by simp [hempty, hold, progress]

theorem scanBlocks_finds {blocks : List RpcBlock} (state : ScanState Output)
    (hunlocked : state.account.handler.unlocked = true)
    (hbatch : ∀ block ∈ blocks, ∀ outpoint entry, Creates setting block outpoint entry →
      Owns setting state.account.handler entry.scriptPublicKey →
      ¬UtxoWorld.BatchOutput state.account.handler.utxos.processor.outgoing outpoint) :
    Finds state.progress (Collected setting request state.account.handler blocks)
      (blocks.foldl (scanBlock setting request) state).progress := by
  induction blocks generalizing state with
  | nil => exact .refl state.progress fun _ ⟨_, hmem, _⟩ => (nomatch hmem)
  | cons block blocks ih =>
    obtain ⟨hbatch₁, hbatch₂⟩ := forall_mem_cons.mp hbatch
    have hfirst : Finds state.progress _ (state.scanBlock setting request block).progress :=
      scanBlock_finds state hunlocked hbatch₁
    have hrest := ih (state.scanBlock setting request block)
      (hfirst.same.unlocked.trans hunlocked)
      fun other hother outpoint entry hcreates howns => hfirst.same.outgoing ▸
        hbatch₂ other hother outpoint entry hcreates ((hfirst.same.owns _).mp howns)
    refine (hfirst.trans hrest).congr fun outpoint => ?_
    have howns : ∀ lives, Owned setting (state.scanBlock setting request block).account.handler
        lives outpoint ↔ Owned setting state.account.handler lives outpoint := fun lives =>
      exists_congr fun entry => and_congr_right fun _ => hfirst.same.owns _
    simp only [Collected, howns, mem_cons, exists_eq_or_imp]

/-- The hashes of a page behind those that were read. -/
theorem scanHashes_eq (response : GetBlocksResponse) (before blocks : List RpcBlock)
    (hblocks : response.blocks = before ++ blocks) (state : ScanState Output) (new : Bool)
    (hcursor : state.cursor.isSome = true → before ≠ [])
    (hfresh : ∀ block ∈ blocks, block.hash ∉ state.seenHashes)
    (hnodup : (blocks.map (·.hash)).Nodup) :
    ((blocks.map (·.hash)).zipIdx before.length).foldl (scanHash setting request response)
        (state, new) =
      ((blocks.foldl (scanBlock setting request) state).moveTo state.cursor
        (state.seenHashes ++ blocks.map (·.hash)), new || !blocks.isEmpty) := by
  induction blocks generalizing before state new with
  | nil =>
    simp only [map_nil, append_nil, isEmpty_nil, Bool.not_true, Bool.or_false]
    rfl
  | cons block blocks ih =>
    obtain ⟨hfirst, hrest⟩ := forall_mem_cons.mp hfresh
    obtain ⟨hhash, hhashes⟩ := nodup_cons.mp hnodup
    have hskip : (state.cursor.isSome && before.length == 0) = false := by
      cases hsome : state.cursor.isSome with
      | false => rfl
      | true => simpa using hcursor hsome
    have hget : response.blocks[before.length]? = some block := by
      rw [hblocks, getElem?_append_right (Nat.le_refl _), Nat.sub_self]
      rfl
    have hstep : scanHash setting request response (state, new) (block.hash, before.length) =
        ((state.scanBlock setting request block).moveTo state.cursor
          (state.seenHashes ++ [block.hash]), true) := by
      simp only [scanHash, hskip, hfirst, hget]
      exact congrArg (·, true) (scanBlock_moveTo state state.cursor _ block)
    have hlength : before.length + 1 = (before ++ [block]).length := by simp
    rw [map_cons, zipIdx_cons, foldl_cons, hstep, hlength,
      ih (before ++ [block]) (by simp [hblocks]) _ true (fun _ => by simp) ?_ hhashes]
    · rw [scanBlocks_moveTo]
      simp [moveTo]
    · intro other hother hseen
      rcases mem_append.mp hseen with hseen | heq
      · exact hrest other hother hseen
      · exact hhash (mem_map.mpr ⟨other, hother, mem_singleton.mp heq⟩)

theorem scanPage_eq (last : Option RpcBlock) (blocks : List RpcBlock) (state : ScanState Output)
    (hcursor : state.cursor = last.map (·.hash))
    (hfresh : ∀ block ∈ blocks, block.hash ∉ state.seenHashes)
    (hnodup : (blocks.map (·.hash)).Nodup) :
    state.scanPage setting request (.ofBlocks (last.toList ++ blocks)) =
      ((blocks.foldl (scanBlock setting request) state).moveTo state.cursor
        (state.seenHashes ++ blocks.map (·.hash)), !blocks.isEmpty) := by
  cases last with
  | none =>
    have hnone : state.cursor.isSome = true → ([] : List RpcBlock) ≠ [] := by simp [hcursor]
    exact scanHashes_eq (.ofBlocks blocks) [] blocks rfl state false hnone hfresh hnodup
  | some block =>
    have hsome : state.cursor.isSome = true := by simp [hcursor]
    have hskip : scanHash setting request (.ofBlocks (block :: blocks)) (state, false)
        (block.hash, 0) = (state, false) := by simp [scanHash, hsome]
    change (((block :: blocks).map (·.hash)).zipIdx).foldl
      (scanHash setting request (.ofBlocks (block :: blocks))) (state, false) = _
    rw [map_cons, zipIdx_cons, foldl_cons, hskip]
    exact scanHashes_eq (.ofBlocks (block :: blocks)) [block] blocks rfl state false
      (fun _ => cons_ne_nil _ _) hfresh hnodup

/-- The scan of a chain that is returned page by page reads its blocks in order. -/
theorem scanPages_eq (chunks : List (List RpcBlock)) (last : Option RpcBlock)
    (state : ScanState Output) (hcursor : state.cursor = last.map (·.hash))
    (hchunks : ∀ chunk ∈ chunks, chunk ≠ [])
    (hfresh : ∀ block ∈ chunks.flatten, block.hash ∉ state.seenHashes)
    (hnodup : (chunks.flatten.map (·.hash)).Nodup) :
    (scanPages setting request (pagesFrom last chunks) state).progress =
      (chunks.flatten.foldl (scanBlock setting request) state).progress := by
  induction chunks generalizing last state with
  | nil =>
    cases last with
    | none => rfl
    | some block =>
      have hpage : state.scanPage setting request (.ofBlocks [block]) = (_, false) :=
        scanPage_eq (some block) [] state hcursor nofun nodup_nil
      simp only [pagesFrom, Option.toList, scanPages, hpage]
      rfl
  | cons chunk chunks ih =>
    rw [flatten_cons] at hfresh hnodup
    obtain ⟨hchunk, hrest⟩ := forall_mem_cons.mp hchunks
    obtain ⟨hfresh₁, hfresh₂⟩ := forall_mem_append.mp hfresh
    rw [map_append] at hnodup
    obtain ⟨hnodup₁, hnodup₂, hdisjoint⟩ := nodup_append'.mp hnodup
    have hpage : state.scanPage setting request (.ofBlocks (last.toList ++ chunk)) = _ :=
      scanPage_eq last chunk state hcursor hfresh₁ hnodup₁
    have hnew : (!chunk.isEmpty) = true := by simpa using hchunk
    have hnonempty : (GetBlocksResponse.ofBlocks (last.toList ++ chunk)).blockHashes.isEmpty =
        false := by simp [GetBlocksResponse.ofBlocks, hchunk]
    have hlast : (GetBlocksResponse.ofBlocks (last.toList ++ chunk)).blockHashes.getLast? =
        (chunk.getLast?.or last).map (·.hash) := by
      rw [GetBlocksResponse.ofBlocks, getLast?_map, getLast?_append_of_ne_nil _ hchunk,
        getLast?_eq_some_getLast hchunk, Option.some_or]
    simp only [pagesFrom, scanPages, hnonempty, hpage, hnew, if_true, hlast]
    refine (ih (chunk.getLast?.or last) _ rfl hrest ?_ hnodup₂).trans ?_
    · intro block hblock hseen
      rcases mem_append.mp hseen with hseen | hseen
      · exact hfresh₂ block hblock hseen
      · exact hdisjoint hseen (mem_map_of_mem hblock)
    · have hmoved : chunks.flatten.foldl (scanBlock setting request) _ = _ :=
        scanBlocks_moveTo chunks.flatten (chunk.foldl (scanBlock setting request) state)
          ((chunk.getLast?.or last).map (·.hash)) (state.seenHashes ++ chunk.map (·.hash))
      rw [flatten_cons, foldl_append]
      exact (congrArg progress hmoved).trans rfl

end ScanState

variable {script : TransactionOutpoint → ScriptPublicKey} {account : ScanAccount Output}

/-- An owned stealth output of the scanned blocks. -/
def Received (setting : StealthSetting Output) (request : ScanRequest)
    (handler : StealthHandler Output) (blocks : List RpcBlock) (outpoint : TransactionOutpoint) :
    Prop :=
  ∃ block ∈ blocks, request.Reads block ∧
    ∃ entry, Creates setting block outpoint entry ∧ Owns setting handler entry.scriptPublicKey

theorem Collected.received {handler : StealthHandler Output} {blocks : List RpcBlock}
    {outpoint : TransactionOutpoint} (hmem : Collected setting request handler blocks outpoint) :
    Received setting request handler blocks outpoint := by
  obtain ⟨block, hblock, hreads, entry, hlive, howns⟩ := hmem
  exact ⟨block, hblock, hreads, entry, creates_of_mem_live hlive, howns⟩

/-- An input of the scanned blocks. -/
def SpentIn (request : ScanRequest) (blocks : List RpcBlock) (outpoint : TransactionOutpoint) :
    Prop :=
  ∃ block ∈ blocks, request.Reads block ∧ Spends block outpoint

/-- The scan of a chain that is returned page by page, by an account without outputs. The account
holds exactly the owned outputs that are not spent if and only if no owned output is spent by
another scanned block than its own, and it has claimed each output that it holds once. -/
theorem scanViaViewTags_finds_unspent {chunks : List (List RpcBlock)}
    (hchunks : ∀ chunk ∈ chunks, chunk ≠ [])
    (hnodup : (chunks.flatten.map (·.hash)).Nodup)
    (hunlocked : account.handler.unlocked = true)
    (hempty : account.handler.utxos.context.map = ∅)
    (hscript : ∀ block ∈ chunks.flatten, ∀ outpoint entry, Creates setting block outpoint entry →
      entry.scriptPublicKey = script outpoint)
    (hbatch : ∀ block ∈ chunks.flatten, ∀ outpoint entry, Creates setting block outpoint entry →
      Owns setting account.handler entry.scriptPublicKey →
      ¬UtxoWorld.BatchOutput account.handler.utxos.processor.outgoing outpoint) :
    ((∀ outpoint, Tracks
        (scanViaViewTags setting request (pagesFrom none chunks) account).1.account.handler
          outpoint ↔
      Received setting request account.handler chunks.flatten outpoint ∧
        ¬SpentIn request chunks.flatten outpoint) ↔
      ∀ outpoint, Collected setting request account.handler chunks.flatten outpoint →
        ¬SpentIn request chunks.flatten outpoint) ∧
      (scanViaViewTags setting request (pagesFrom none chunks) account).1.totalClaimed =
        (scanViaViewTags setting request (pagesFrom none
          chunks) account).1.account.handler.utxos.context.map.keys.length := by
  have hprogress : (scanViaViewTags setting request (pagesFrom none chunks) account).1.progress =
      (chunks.flatten.foldl (ScanState.scanBlock setting request) (.start account)).progress :=
    ScanState.scanPages_eq chunks none (.start account) rfl hchunks (fun _ _ => List.not_mem_nil)
      hnodup
  have hfinds : Finds (account, 0) _
      (scanViaViewTags setting request (pagesFrom none chunks) account).1.progress :=
    hprogress ▸ ScanState.scanBlocks_finds (.start account) hunlocked hbatch
  have htracks : ∀ outpoint, Tracks
      (scanViaViewTags setting request (pagesFrom none chunks) account).1.account.handler
        outpoint ↔ Collected setting request account.handler chunks.flatten outpoint := by
    intro outpoint
    refine (hfinds.tracks outpoint).trans (or_iff_right ?_)
    rw [Tracks, hempty]
    exact AList.notMem_empty outpoint
  have hcollected : ∀ outpoint, Received setting request account.handler chunks.flatten outpoint ∧
      ¬SpentIn request chunks.flatten outpoint →
        Collected setting request account.handler chunks.flatten outpoint := by
    rintro outpoint ⟨⟨block, hblock, hreads, entry, hcreates, howns⟩, hnot⟩
    obtain ⟨entry', hlive⟩ := mem_live_of_creates hcreates
      fun hspends => hnot ⟨block, hblock, hreads, hspends⟩
    have hsame : entry'.scriptPublicKey = entry.scriptPublicKey :=
      (hscript block hblock outpoint entry' (creates_of_mem_live hlive)).trans
        (hscript block hblock outpoint entry hcreates).symm
    exact ⟨block, hblock, hreads, entry', hlive, hsame ▸ howns⟩
  refine ⟨?_, ?_⟩
  · simp only [htracks]
    exact ⟨fun hexact outpoint hmem => ((hexact outpoint).mp hmem).2, fun hunspent outpoint =>
      ⟨fun hmem => ⟨hmem.received, hunspent outpoint hmem⟩, hcollected outpoint⟩⟩
  · refine (hfinds.counted ?_).symm
    rw [Counted, hempty]
    rfl

/-! ## An output that a later block spends -/

/-- A transaction with one stealth output. -/
def payingTransaction : RpcTransaction := ⟨some 7, 0, [⟨5, 0⟩], [⟨1000, openScript⟩]⟩

/-- A transaction that spends this output. -/
def spendingRpcTransaction : RpcTransaction := ⟨some 8, 0, [⟨7, 0⟩], []⟩

def payingBlock : RpcBlock := ⟨1, 10, [payingTransaction]⟩

def spendingBlock : RpcBlock := ⟨2, 11, [spendingRpcTransaction]⟩

def openAccount : ScanAccount (List UInt8) := ⟨openHandler, ∅⟩

def openRequest : ScanRequest := ⟨1, 0, 1000000, 200⟩

theorem scanViaViewTags_finds_unspent_paid :
    Tracks (scanViaViewTags openSetting openRequest (pagesFrom none
        [[payingBlock]]) openAccount).1.account.handler ⟨7, 0⟩ ↔
      Received openSetting openRequest openHandler [payingBlock] ⟨7, 0⟩ ∧
        ¬SpentIn openRequest [payingBlock] ⟨7, 0⟩ := by
  have hcreates : ∀ block ∈ [[payingBlock]].flatten, ∀ outpoint entry,
      Creates openSetting block outpoint entry → entry.scriptPublicKey = openScript ∧
        outpoint = ⟨7, 0⟩ := by
    rintro block hblock outpoint entry ⟨tx, htx, hmem⟩
    obtain rfl := List.mem_singleton.mp hblock
    obtain rfl := List.mem_singleton.mp htx
    obtain ⟨rfl, rfl⟩ := Prod.mk.inj (List.mem_singleton.mp hmem)
    exact ⟨rfl, rfl⟩
  have hscript : ∀ block ∈ [[payingBlock]].flatten, ∀ outpoint entry,
      Creates openSetting block outpoint entry → entry.scriptPublicKey = openScript :=
    fun block hblock outpoint entry h => (hcreates block hblock outpoint entry h).1
  have hbatch : ∀ block ∈ [[payingBlock]].flatten, ∀ outpoint entry,
      Creates openSetting block outpoint entry →
      Owns openSetting openAccount.handler entry.scriptPublicKey →
      ¬UtxoWorld.BatchOutput openAccount.handler.utxos.processor.outgoing outpoint := by
    rintro block hblock outpoint entry _ _ ⟨_, hlookup, _⟩
    cases hlookup
  have hunspent : ∀ outpoint, Collected openSetting openRequest openAccount.handler
      [[payingBlock]].flatten outpoint → ¬SpentIn openRequest [[payingBlock]].flatten outpoint := by
    rintro outpoint hmem ⟨block', hblock', _, tx, htx, hinput⟩
    obtain ⟨block, hblock, _, entry, hcreated, _⟩ := hmem.received
    obtain rfl := List.mem_singleton.mp hblock'
    obtain rfl := List.mem_singleton.mp htx
    rw [(hcreates block hblock outpoint entry hcreated).2] at hinput
    revert hinput
    decide
  exact (scanViaViewTags_finds_unspent (by decide) (by decide) rfl rfl hscript hbatch).1.mpr
    hunspent ⟨7, 0⟩

/-- The output stays with the account although the second block spends it, whether the blocks are
in one page or in two. -/
theorem scanViaViewTags_keeps_spent :
    let holds := fun chunks => decide ((⟨7, 0⟩ : TransactionOutpoint) ∈
      (scanViaViewTags openSetting openRequest (pagesFrom none
        chunks) openAccount).1.account.handler.utxos.context.map)
    holds [[payingBlock, spendingBlock]] = true ∧
      holds [[payingBlock], [spendingBlock]] = true := by
  decide

end Pages

end Qaspa.Wallet
