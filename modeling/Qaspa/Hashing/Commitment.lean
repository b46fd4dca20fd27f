import Qaspa.Hashing.SigHash

/-! # What a signature commits to

The bytes that are signed are determined by the data that the hash type selects, and they
determine it, as long as no two of the hashed byte streams collide. The reused values change
nothing: they hold what would be calculated again.
-/

namespace Qaspa.Hashing

open LittleEndian List

/-! ## Committed data -/

/-- The data that a signature covers. Parts that a hash type leaves out are absent. -/
structure Commitment where
  version : UInt16
  previousOutpoints : Option (List TransactionOutpoint)
  sequences : Option (List UInt64)
  sigOpCounts : Option (List UInt8)
  outpoint : TransactionOutpoint
  scriptPublicKey : ScriptPublicKey
  amount : UInt64
  sequence : UInt64
  sigOpCount : UInt8
  outputs : Option (List TransactionOutput)
  lockTime : UInt64
  subnetworkId : SubnetworkId
  gas : UInt64
  payload : List UInt8
  deriving DecidableEq, Repr

/-- The outputs that a hash type selects for an input: all of them, the one at the index of the
input, or none. -/
def committedOutputs (tx : Transaction) (inputIndex : Nat) (hashType : SigHashType) :
    Option (List TransactionOutput) :=
  if hashType.isSighashAll then some tx.outputs
  else if hashType.isSighashSingle then (tx.outputs[inputIndex]?).map ([·])
  else none

def commitment (tx : Transaction) (inputIndex : Nat) (input : TransactionInput) (entry : UtxoEntry)
    (hashType : SigHashType) : Commitment where
  version := tx.version
  previousOutpoints := if hashType.isSighashAnyoneCanPay then none else some tx.outpoints
  sequences :=
    if hashType.isSighashAll && !hashType.isSighashAnyoneCanPay then
      some (tx.inputs.map (·.sequence))
    else none
  sigOpCounts :=
    if hashType.isSighashAnyoneCanPay then none else some (tx.inputs.map (·.sigOpCount))
  outpoint := input.previousOutpoint
  scriptPublicKey := entry.scriptPublicKey
  amount := entry.amount
  sequence := input.sequence
  sigOpCount := input.sigOpCount
  outputs := committedOutputs tx inputIndex hashType
  lockTime := tx.lockTime
  subnetworkId := tx.subnetworkId
  gas := tx.gas
  payload := tx.payload

/-! ## The bytes of the committed data -/

/-- The hash of a part, or the zero hash for an absent one. -/
def hashOf (signingHash : List UInt8 → Hash) : Option (List UInt8) → Hash
  | none => zeroHash
  | some stream => signingHash stream

namespace Commitment

variable (signingHash : List UInt8 → Hash) (hashType : SigHashType) (self : Commitment)

def previousOutputsStream : Option (List UInt8) :=
  self.previousOutpoints.map (·.flatMap hashOutpoint)

def sequencesStream : Option (List UInt8) :=
  self.sequences.map (·.flatMap fun sequence => encode 8 sequence.toNat)

def sigOpCountsStream : Option (List UInt8) :=
  self.sigOpCounts.map (·.flatMap fun sigOpCount => encode 1 sigOpCount.toNat)

def outputsStream : Option (List UInt8) := self.outputs.map (·.flatMap hashOutput)

def payloadStream : Option (List UInt8) :=
  if self.subnetworkId = subnetworkIdNative ∧ self.payload.isEmpty then none
  else some (writeVarBytes self.payload)

/-- The bytes that are signed. -/
def stream : List UInt8 :=
  encode 2 self.version.toNat ++ writeHash (hashOf signingHash self.previousOutputsStream) ++
    writeHash (hashOf signingHash self.sequencesStream) ++
    writeHash (hashOf signingHash self.sigOpCountsStream) ++ hashOutpoint self.outpoint ++
    hashScriptPublicKey self.scriptPublicKey ++ encode 8 self.amount.toNat ++
    encode 8 self.sequence.toNat ++ encode 1 self.sigOpCount.toNat ++
    writeHash (hashOf signingHash self.outputsStream) ++ encode 8 self.lockTime.toNat ++
    encode 20 self.subnetworkId.toNat ++ encode 8 self.gas.toNat ++
    writeHash (hashOf signingHash self.payloadStream) ++ encode 1 hashType.toU8.toNat

/-- The parts that are hashed by themselves. -/
def parts : List (Option (List UInt8)) :=
  [self.previousOutputsStream, self.sequencesStream, self.sigOpCountsStream, self.outputsStream,
    self.payloadStream]

/-- All byte streams that are hashed for a signature. -/
def hashedStreams : List (List UInt8) := self.stream signingHash hashType :: self.parts.filterMap id

theorem mem_hashedStreams {part : Option (List UInt8)} {stream : List UInt8}
    (hpart : part ∈ self.parts) (hstream : stream ∈ part) :
    stream ∈ self.hashedStreams signingHash hashType :=
  .tail _ (mem_filterMap.mpr ⟨part, hpart, hstream⟩)

/-- The lengths of byte vectors fit a word. -/
structure Representable (data : Commitment) : Prop where
  script : data.scriptPublicKey.script.length < 256 ^ 8
  outputs : ∀ outputs ∈ data.outputs, ∀ output ∈ outputs,
    output.scriptPublicKey.script.length < 256 ^ 8
  payload : data.payload.length < 256 ^ 8

end Commitment

/-! ## Reused values -/

section Reused

variable {signingHash : List UInt8 → Hash} {tx : Transaction} {α β : Type}

/-- The values that are kept are those of the transaction. -/
structure Consistent (signingHash : List UInt8 → Hash) (tx : Transaction)
    (reused : SigHashReusedValues) : Prop where
  previousOutputs : ∀ hash ∈ reused.previousOutputsHash,
    hash = signingHash (tx.inputs.flatMap fun input => hashOutpoint input.previousOutpoint)
  sequences : ∀ hash ∈ reused.sequencesHash,
    hash = signingHash (tx.inputs.flatMap fun input => encode 8 input.sequence.toNat)
  sigOpCounts : ∀ hash ∈ reused.sigOpCountsHash,
    hash = signingHash (tx.inputs.flatMap fun input => encode 1 input.sigOpCount.toNat)
  outputs : ∀ hash ∈ reused.outputsHash, hash = signingHash (tx.outputs.flatMap hashOutput)
  payload : ∀ hash ∈ reused.payloadHash, hash = signingHash (writeVarBytes tx.payload)

variable (signingHash tx) in
/-- A calculation that gives one value, whatever values of the transaction are kept. -/
def Gives (calculation : Reusing α) (value : α) : Prop :=
  ∀ reused, Consistent signingHash tx reused →
    (calculation reused).1 = value ∧ Consistent signingHash tx (calculation reused).2

theorem gives_pure (value : α) : Gives signingHash tx (pure value) value :=
  fun _ hreused => ⟨rfl, hreused⟩

theorem Gives.bind {first : Reusing α} {next : α → Reusing β} {value : α} {result : β}
    (hfirst : Gives signingHash tx first value) (hnext : Gives signingHash tx (next value) result) :
    Gives signingHash tx (first >>= next) result := by
  intro reused hreused
  obtain ⟨hvalue, hreused'⟩ := hfirst reused hreused
  have hbind : (first >>= next) reused = next (first reused).1 (first reused).2 := rfl
  rw [hbind, hvalue]
  exact hnext _ hreused'

theorem Gives.fresh {calculation : Reusing α} {value : α}
    (hgives : Gives signingHash tx calculation value) : (calculation .new).1 = value :=
  (hgives .new (by constructor <;> intro hash hhash <;> cases hhash)).1

variable (signingHash tx) in
/-- A calculation that gives what it gives at first, whatever values of the transaction are
kept. -/
def Stable (calculation : Reusing α) : Prop :=
  Gives signingHash tx calculation (calculation .new).1

theorem Gives.stable {calculation : Reusing α} {value : α}
    (hgives : Gives signingHash tx calculation value) : Stable signingHash tx calculation := by
  rw [Stable, hgives.fresh]
  exact hgives

theorem stable_reuse {skip : Prop} [Decidable skip] {cell : SigHashReusedValues → Option Hash}
    {keep : Hash → SigHashReusedValues → SigHashReusedValues} {set : Hash}
    (hcell : ∀ reused, Consistent signingHash tx reused → ∀ hash ∈ cell reused, hash = set)
    (hkeep : ∀ reused, Consistent signingHash tx reused →
      Consistent signingHash tx (keep set reused)) :
    Stable signingHash tx (if skip then pure zeroHash else reuse cell keep set) := by
  split
  · exact (gives_pure _).stable
  · refine Gives.stable (?_ : Gives signingHash tx _ set)
    intro reused hreused
    unfold reuse
    split
    next hash hkept => exact ⟨hcell reused hreused hash hkept, hreused⟩
    · exact ⟨rfl, hkeep reused hreused⟩

variable {hashType : SigHashType} {inputIndex : Nat}

theorem previousOutputsHash_stable :
    Stable signingHash tx (previousOutputsHash signingHash tx hashType) :=
  stable_reuse (fun _ hreused => hreused.previousOutputs) fun _ hreused =>
    { hreused with previousOutputs := by rintro _ ⟨⟩; rfl }

theorem sequencesHash_stable : Stable signingHash tx (sequencesHash signingHash tx hashType) :=
  stable_reuse (fun _ hreused => hreused.sequences) fun _ hreused =>
    { hreused with sequences := by rintro _ ⟨⟩; rfl }

theorem sigOpCountsHash_stable : Stable signingHash tx (sigOpCountsHash signingHash tx hashType) :=
  stable_reuse (fun _ hreused => hreused.sigOpCounts) fun _ hreused =>
    { hreused with sigOpCounts := by rintro _ ⟨⟩; rfl }

theorem payloadHash_stable : Stable signingHash tx (payloadHash signingHash tx) :=
  stable_reuse (fun _ hreused => hreused.payload) fun _ hreused =>
    { hreused with payload := by rintro _ ⟨⟩; rfl }

theorem outputsHash_stable :
    Stable signingHash tx (outputsHash signingHash tx hashType inputIndex) := by
  unfold outputsHash
  cases hashType.isSighashSingle with
  | false =>
    rw [if_neg Bool.false_ne_true]
    exact stable_reuse (fun _ hreused => hreused.outputs) fun _ hreused =>
      { hreused with outputs := by rintro _ ⟨⟩; rfl }
  | true =>
    cases hashType.isSighashNone <;> cases tx.outputs[inputIndex]? <;>
      exact (gives_pure _).stable

/-- The hash for an input with the hashes of the parts as they are calculated at first. -/
theorem calcSchnorrSignatureHash_gives {verifiableTx : PopulatedTransaction}
    {input : TransactionInput} {entry : UtxoEntry}
    (hinput : verifiableTx.populatedInputs[inputIndex]? = some (input, entry)) :
    Gives signingHash verifiableTx.tx
      (calcSchnorrSignatureHash signingHash verifiableTx inputIndex hashType)
      (.ok (signingHash (signatureStream verifiableTx.tx hashType input entry
        (previousOutputsHash signingHash verifiableTx.tx hashType .new).1
        (sequencesHash signingHash verifiableTx.tx hashType .new).1
        (sigOpCountsHash signingHash verifiableTx.tx hashType .new).1
        (outputsHash signingHash verifiableTx.tx hashType inputIndex .new).1
        (payloadHash signingHash verifiableTx.tx .new).1))) := by
  unfold calcSchnorrSignatureHash
  rw [hinput]
  exact previousOutputsHash_stable.bind (sequencesHash_stable.bind (sigOpCountsHash_stable.bind
    (outputsHash_stable.bind (payloadHash_stable.bind (gives_pure _)))))

/-- A sequence of calls that share the reused values. -/
def calcSignatureHashes (signingHash : List UInt8 → Hash) (verifiableTx : PopulatedTransaction) :
    List (Nat × SigHashType) → Reusing (List (Outcome Empty Hash))
  | [] => return []
  | (inputIndex, hashType) :: calls => do
    let hash ← calcSchnorrSignatureHash signingHash verifiableTx inputIndex hashType
    let hashes ← calcSignatureHashes signingHash verifiableTx calls
    return hash :: hashes

theorem calcSignatureHashes_gives (verifiableTx : PopulatedTransaction)
    (calls : List (Nat × SigHashType)) :
    Gives signingHash verifiableTx.tx (calcSignatureHashes signingHash verifiableTx calls)
      (calls.map fun call =>
        (calcSchnorrSignatureHash signingHash verifiableTx call.1 call.2 .new).1) := by
  induction calls with
  | nil => exact gives_pure _
  | cons call calls ih =>
    obtain ⟨inputIndex, hashType⟩ := call
    -- a hash is the same with any values of the transaction that were kept
    have hstable : Stable signingHash verifiableTx.tx
        (calcSchnorrSignatureHash signingHash verifiableTx inputIndex hashType) := by
      cases hinput : verifiableTx.populatedInputs[inputIndex]? with
      | none =>
        unfold calcSchnorrSignatureHash
        rw [hinput]
        exact (gives_pure _).stable
      | some populated => exact (calcSchnorrSignatureHash_gives hinput).stable
    exact hstable.bind (ih.bind (gives_pure _))

end Reused

/-! ## The signed bytes are those of the commitment -/

section Streams

variable {signingHash : List UInt8 → Hash} {tx : Transaction} {hashType : SigHashType}
  {inputIndex : Nat} {input : TransactionInput} {entry : UtxoEntry}

section

variable (haccepted : hashType.value ∈ allowedSigHashTypesValues)

include haccepted

/-- Among the accepted types, those that are neither for a single output nor for none are for
all. -/
theorem isSighashAll_of_accepted :
    hashType.isSighashAll = (!hashType.isSighashSingle && !hashType.isSighashNone) ∧
      (hashType.isSighashSingle && hashType.isSighashNone) = false := by
  obtain ⟨value⟩ := hashType
  simp only [allowedSigHashTypesValues, mem_cons, not_mem_nil, or_false] at haccepted
  rcases haccepted with rfl | rfl | rfl | rfl | rfl | rfl <;> exact ⟨rfl, rfl⟩

omit haccepted in
theorem hashOf_previousOutputsStream :
    hashOf signingHash (commitment tx inputIndex input entry hashType).previousOutputsStream =
      (previousOutputsHash signingHash tx hashType .new).1 := by
  simp only [commitment, Commitment.previousOutputsStream, previousOutputsHash,
    Transaction.outpoints]
  split
  · rfl
  · exact congrArg signingHash (flatMap_map ..)

theorem hashOf_sequencesStream :
    hashOf signingHash (commitment tx inputIndex input entry hashType).sequencesStream =
      (sequencesHash signingHash tx hashType .new).1 := by
  simp only [commitment, Commitment.sequencesStream, sequencesHash,
    (isSighashAll_of_accepted haccepted).1]
  cases hashType.isSighashSingle <;> cases hashType.isSighashAnyoneCanPay <;>
    cases hashType.isSighashNone <;> first | rfl | exact congrArg signingHash (flatMap_map ..)

omit haccepted in
theorem hashOf_sigOpCountsStream :
    hashOf signingHash (commitment tx inputIndex input entry hashType).sigOpCountsStream =
      (sigOpCountsHash signingHash tx hashType .new).1 := by
  simp only [commitment, Commitment.sigOpCountsStream, sigOpCountsHash]
  split
  · rfl
  · exact congrArg signingHash (flatMap_map ..)

theorem hashOf_outputsStream :
    hashOf signingHash (commitment tx inputIndex input entry hashType).outputsStream =
      (outputsHash signingHash tx hashType inputIndex .new).1 := by
  obtain ⟨hall, hexclusive⟩ := isSighashAll_of_accepted haccepted
  simp only [commitment, committedOutputs, outputsHash, hall]
  cases hnone : hashType.isSighashNone with
  | true =>
    have hsingle : hashType.isSighashSingle = false := by simpa [hnone] using hexclusive
    rw [hsingle]
    rfl
  | false =>
    cases hashType.isSighashSingle with
    | true =>
      cases tx.outputs[inputIndex]? with
      | none => rfl
      | some output => exact congrArg signingHash (flatMap_singleton hashOutput output)
    | false => rfl

end

theorem hashOf_payloadStream :
    hashOf signingHash (commitment tx inputIndex input entry hashType).payloadStream =
      (payloadHash signingHash tx .new).1 := by
  unfold Commitment.payloadStream payloadHash
  by_cases hempty : tx.subnetworkId = subnetworkIdNative ∧ tx.payload.isEmpty
  · rw [if_pos hempty, if_pos (by exact hempty)]
    rfl
  · rw [if_neg hempty, if_neg (by exact hempty)]
    rfl

/-- The hash for an input is the hash of the bytes of its commitment. -/
theorem calcSchnorrSignatureHash_eq {verifiableTx : PopulatedTransaction}
    (hinput : verifiableTx.populatedInputs[inputIndex]? = some (input, entry))
    (haccepted : hashType.value ∈ allowedSigHashTypesValues) :
    (calcSchnorrSignatureHash signingHash verifiableTx inputIndex hashType .new).1 =
      .ok (signingHash ((commitment verifiableTx.tx inputIndex input entry hashType).stream
        signingHash hashType)) := by
  rw [Commitment.stream, hashOf_previousOutputsStream, hashOf_sequencesStream haccepted,
    hashOf_sigOpCountsStream, hashOf_outputsStream haccepted, hashOf_payloadStream]
  exact (calcSchnorrSignatureHash_gives hinput).fresh

end Streams

/-! ## The signed bytes determine the commitment -/

/-- No two of the streams collide, and none of them hashes to zero. -/
structure CollisionFree (signingHash : List UInt8 → Hash) (streams : List (List UInt8)) : Prop where
  injective : ∀ stream ∈ streams, ∀ stream' ∈ streams,
    signingHash stream = signingHash stream' → stream = stream'
  nonzero : ∀ stream ∈ streams, signingHash stream ≠ zeroHash

section Injective

theorem writeU8_delimited : Delimited (fun _ => True) fun value : UInt8 => encode 1 value.toNat :=
  encode_delimited_of_lt UInt8.toNat_lt fun _ _ => UInt8.toNat_inj.mp

theorem writeU16_delimited : Delimited (fun _ => True) fun value : UInt16 => encode 2 value.toNat :=
  encode_delimited_of_lt UInt16.toNat_lt fun _ _ => UInt16.toNat_inj.mp

theorem writeU32_delimited : Delimited (fun _ => True) fun value : UInt32 => encode 4 value.toNat :=
  encode_delimited_of_lt UInt32.toNat_lt fun _ _ => UInt32.toNat_inj.mp

theorem writeU64_delimited : Delimited (fun _ => True) fun value : UInt64 => encode 8 value.toNat :=
  encode_delimited_of_lt UInt64.toNat_lt fun _ _ => UInt64.toNat_inj.mp

theorem writeHash_delimited : Delimited (fun _ => True) writeHash :=
  encode_delimited_of_lt (fun hash => hash.isLt) fun _ _ => BitVec.eq_of_toNat_eq

theorem writeSubnetworkId_delimited :
    Delimited (fun _ => True) fun id : SubnetworkId => encode 20 id.toNat :=
  encode_delimited_of_lt (fun id => id.isLt) fun _ _ => BitVec.eq_of_toNat_eq

theorem hashOutpoint_delimited : Delimited (fun _ => True) hashOutpoint :=
  writeHash_delimited.record writeU32_delimited TransactionOutpoint.transactionId
    TransactionOutpoint.index (fun _ _ => ⟨trivial, trivial⟩) fun | ⟨_, _⟩, ⟨_, _⟩, rfl, rfl => rfl

theorem hashScriptPublicKey_delimited :
    Delimited (fun key => key.script.length < 256 ^ 8) hashScriptPublicKey :=
  writeU16_delimited.record (encodeBytes_delimited 8) ScriptPublicKey.version ScriptPublicKey.script
    (fun _ hkey => ⟨trivial, hkey⟩) fun | ⟨_, _⟩, ⟨_, _⟩, rfl, rfl => rfl

theorem hashOutput_delimited :
    Delimited (fun output => output.scriptPublicKey.script.length < 256 ^ 8) hashOutput :=
  writeU64_delimited.record hashScriptPublicKey_delimited TransactionOutput.value
    TransactionOutput.scriptPublicKey (fun _ hkey => ⟨trivial, hkey⟩)
    fun | ⟨_, _⟩, ⟨_, _⟩, rfl, rfl => rfl

/-- The fields of the signed bytes can be read off one after the second. -/
structure SameFields (signingHash : List UInt8 → Hash) (hashType hashType' : SigHashType)
    (first second : Commitment) : Prop where
  version : first.version = second.version
  previousOutputs : hashOf signingHash first.previousOutputsStream =
    hashOf signingHash second.previousOutputsStream
  sequences : hashOf signingHash first.sequencesStream = hashOf signingHash second.sequencesStream
  sigOpCounts : hashOf signingHash first.sigOpCountsStream =
    hashOf signingHash second.sigOpCountsStream
  outpoint : first.outpoint = second.outpoint
  scriptPublicKey : first.scriptPublicKey = second.scriptPublicKey
  amount : first.amount = second.amount
  sequence : first.sequence = second.sequence
  sigOpCount : first.sigOpCount = second.sigOpCount
  outputs : hashOf signingHash first.outputsStream = hashOf signingHash second.outputsStream
  lockTime : first.lockTime = second.lockTime
  subnetworkId : first.subnetworkId = second.subnetworkId
  gas : first.gas = second.gas
  payload : hashOf signingHash first.payloadStream = hashOf signingHash second.payloadStream
  hashType : hashType = hashType'

variable {signingHash : List UInt8 → Hash} {hashType hashType' : SigHashType}
  {first second : Commitment}

theorem sameFields_of_stream_eq (hfirst : first.Representable) (hsecond : second.Representable)
    (heq : first.stream signingHash hashType = second.stream signingHash hashType') :
    SameFields signingHash hashType hashType' first second := by
  simp only [Commitment.stream, append_assoc] at heq
  obtain ⟨hversion, heq⟩ := writeU16_delimited _ _ _ _ trivial trivial heq
  obtain ⟨hprevious, heq⟩ := writeHash_delimited _ _ _ _ trivial trivial heq
  obtain ⟨hsequences, heq⟩ := writeHash_delimited _ _ _ _ trivial trivial heq
  obtain ⟨hsigOpCounts, heq⟩ := writeHash_delimited _ _ _ _ trivial trivial heq
  obtain ⟨houtpoint, heq⟩ := hashOutpoint_delimited _ _ _ _ trivial trivial heq
  obtain ⟨hkey, heq⟩ := hashScriptPublicKey_delimited _ _ _ _ hfirst.script hsecond.script heq
  obtain ⟨hamount, heq⟩ := writeU64_delimited _ _ _ _ trivial trivial heq
  obtain ⟨hsequence, heq⟩ := writeU64_delimited _ _ _ _ trivial trivial heq
  obtain ⟨hsigOpCount, heq⟩ := writeU8_delimited _ _ _ _ trivial trivial heq
  obtain ⟨houtputs, heq⟩ := writeHash_delimited _ _ _ _ trivial trivial heq
  obtain ⟨hlockTime, heq⟩ := writeU64_delimited _ _ _ _ trivial trivial heq
  obtain ⟨hsubnetworkId, heq⟩ := writeSubnetworkId_delimited _ _ _ _ trivial trivial heq
  obtain ⟨hgas, heq⟩ := writeU64_delimited _ _ _ _ trivial trivial heq
  obtain ⟨hpayload, heq⟩ := writeHash_delimited _ _ _ _ trivial trivial heq
  have htype : hashType = hashType' := by
    exact congrArg SigHashType.mk (writeU8_delimited.injective trivial trivial heq)
  exact ⟨hversion, hprevious, hsequences, hsigOpCounts, houtpoint, hkey, hamount, hsequence,
    hsigOpCount, houtputs, hlockTime, hsubnetworkId, hgas, hpayload, htype⟩

/-- A part of the data is determined by its hash. -/
theorem hashOf_injective {streams : List (List UInt8)} (hfree : CollisionFree signingHash streams)
    {part part' : Option (List UInt8)} (hpart : ∀ stream ∈ part, stream ∈ streams)
    (hpart' : ∀ stream ∈ part', stream ∈ streams)
    (heq : hashOf signingHash part = hashOf signingHash part') : part = part' := by
  cases part with
  | none =>
    cases part' with
    | none => rfl
    | some stream' => exact absurd heq.symm (hfree.nonzero stream' (hpart' stream' rfl))
  | some stream =>
    cases part' with
    | none => exact absurd heq (hfree.nonzero stream (hpart stream rfl))
    | some stream' =>
      exact congrArg some
        (hfree.injective stream (hpart stream rfl) stream' (hpart' stream' rfl) heq)

/-- An optional list is determined by the encodings of its elements. -/
theorem map_flatMap_injective {α : Type} {valid : α → Prop} {encode : α → List UInt8}
    (hencode : Delimited valid encode) (hne : ∀ value, encode value ≠ [])
    {part part' : Option (List α)}
    (hpart : ∀ values ∈ part, ∀ value ∈ values, valid value)
    (hpart' : ∀ values ∈ part', ∀ value ∈ values, valid value)
    (heq : part.map (·.flatMap encode) = part'.map (·.flatMap encode)) : part = part' := by
  cases part with
  | none =>
    cases part' with
    | none => rfl
    | some values' => cases heq
  | some values =>
    cases part' with
    | none => cases heq
    | some values' =>
      exact congrArg some (hencode.flatMap_injective hne (hpart values rfl) (hpart' values' rfl)
        (Option.some.inj heq))

theorem payload_of_payloadStream_eq (hfirst : first.Representable) (hsecond : second.Representable)
    (heq : first.payloadStream = second.payloadStream) : first.payload = second.payload := by
  unfold Commitment.payloadStream at heq
  by_cases hempty : first.subnetworkId = subnetworkIdNative ∧ first.payload.isEmpty
  · rw [if_pos hempty] at heq
    split at heq
    next hempty' => rw [isEmpty_iff.mp hempty.2, isEmpty_iff.mp hempty'.2]
    · cases heq
  · rw [if_neg hempty] at heq
    split at heq
    · cases heq
    · exact (encodeBytes_delimited 8).injective hfirst.payload hsecond.payload (Option.some.inj heq)

/-- Commitments with the same signed bytes are equal. -/
theorem commitment_of_stream_eq (hfirst : first.Representable) (hsecond : second.Representable)
    (hfree : CollisionFree signingHash
      (first.hashedStreams signingHash hashType ++ second.hashedStreams signingHash hashType'))
    (heq : first.stream signingHash hashType = second.stream signingHash hashType') :
    hashType = hashType' ∧ first = second := by
  have hfields := sameFields_of_stream_eq hfirst hsecond heq
  have hparts : ∀ select : Commitment → Option (List UInt8),
      (∀ data : Commitment, select data ∈ data.parts) →
      hashOf signingHash (select first) = hashOf signingHash (select second) →
        select first = select second := by
    intro select hselect
    refine hashOf_injective hfree (fun stream hstream => ?_) fun stream hstream => ?_
    · exact mem_append_left _ (first.mem_hashedStreams _ _ (hselect first) hstream)
    · exact mem_append_right _ (second.mem_hashedStreams _ _ (hselect second) hstream)
  have hprevious := map_flatMap_injective hashOutpoint_delimited
    (fun outpoint hnil => by simpa [hashOutpoint, writeHash] using congrArg length hnil)
    (fun _ _ _ _ => trivial) (fun _ _ _ _ => trivial)
    (hparts Commitment.previousOutputsStream (by simp [Commitment.parts]) hfields.previousOutputs)
  have hsequences := map_flatMap_injective writeU64_delimited
    (fun sequence hnil => by simpa using congrArg length hnil)
    (fun _ _ _ _ => trivial) (fun _ _ _ _ => trivial)
    (hparts Commitment.sequencesStream (by simp [Commitment.parts]) hfields.sequences)
  have hsigOpCounts := map_flatMap_injective writeU8_delimited
    (fun count hnil => by simpa using congrArg length hnil)
    (fun _ _ _ _ => trivial) (fun _ _ _ _ => trivial)
    (hparts Commitment.sigOpCountsStream (by simp [Commitment.parts]) hfields.sigOpCounts)
  have houtputs := map_flatMap_injective hashOutput_delimited
    (fun output hnil => by simpa [hashOutput] using congrArg length hnil) hfirst.outputs
    hsecond.outputs (hparts Commitment.outputsStream (by simp [Commitment.parts]) hfields.outputs)
  have hpayload := payload_of_payloadStream_eq hfirst hsecond
    (hparts Commitment.payloadStream (by simp [Commitment.parts]) hfields.payload)
  refine ⟨hfields.hashType, ?_⟩
  obtain ⟨hversion, _, _, _, houtpoint, hkey, hamount, hsequence, hsigOpCount, _, hlockTime,
    hsubnetworkId, hgas, _, _⟩ := hfields
  cases first
  cases second
  rw [Commitment.mk.injEq]
  exact ⟨hversion, hprevious, hsequences, hsigOpCounts, houtpoint, hkey, hamount, hsequence,
    hsigOpCount, houtputs, hlockTime, hsubnetworkId, hgas, hpayload⟩

end Injective

/-- Signature hashes commit to the selected data and to nothing else: they agree exactly if the
hash types and the selected data agree, and they do not depend on the values reused between
calls. -/
theorem signatureHash_commits (signingHash : List UInt8 → Hash) :
    (∀ (verifiableTx verifiableTx' : PopulatedTransaction) (inputIndex inputIndex' : Nat)
      (input input' : TransactionInput) (entry entry' : UtxoEntry)
      (hashType hashType' : SigHashType),
      verifiableTx.populatedInputs[inputIndex]? = some (input, entry) →
      verifiableTx'.populatedInputs[inputIndex']? = some (input', entry') →
      hashType.value ∈ allowedSigHashTypesValues → hashType'.value ∈ allowedSigHashTypesValues →
      let data := commitment verifiableTx.tx inputIndex input entry hashType
      let data' := commitment verifiableTx'.tx inputIndex' input' entry' hashType'
      data.Representable → data'.Representable →
      CollisionFree signingHash
        (data.hashedStreams signingHash hashType ++ data'.hashedStreams signingHash hashType') →
      ((calcSchnorrSignatureHash signingHash verifiableTx inputIndex hashType .new).1 =
        (calcSchnorrSignatureHash signingHash verifiableTx' inputIndex' hashType' .new).1 ↔
          hashType = hashType' ∧ data = data')) ∧
    ∀ (verifiableTx : PopulatedTransaction) (calls : List (Nat × SigHashType)),
      (calcSignatureHashes signingHash verifiableTx calls .new).1 =
        calls.map fun call =>
          (calcSchnorrSignatureHash signingHash verifiableTx call.1 call.2 .new).1 := by
  refine ⟨?_, fun verifiableTx calls => (calcSignatureHashes_gives verifiableTx calls).fresh⟩
  intro verifiableTx verifiableTx' inputIndex inputIndex' input input' entry entry' hashType
    hashType' hinput hinput' haccepted haccepted' data data' hdata hdata' hfree
  rw [calcSchnorrSignatureHash_eq hinput haccepted, calcSchnorrSignatureHash_eq hinput' haccepted',
    Except.ok.injEq]
  constructor
  · intro heq
    refine commitment_of_stream_eq hdata hdata' hfree (hfree.injective _ ?_ _ ?_ heq)
    · exact List.mem_append_left _ (.head _ ..)
    · exact List.mem_append_right _ (.head _ ..)
  · rintro ⟨rfl, hdata⟩
    exact congrArg (fun data => signingHash (Commitment.stream signingHash hashType data)) hdata

/-- A hash that adds up the bytes. -/
def sampleHash (stream : List UInt8) : Hash := BitVec.ofNat 256 ((stream.map UInt8.toNat).sum + 1)

/-- A payment of one input with a value to one output. -/
def samplePayment (amount : UInt64) : PopulatedTransaction where
  tx := ⟨0, [⟨⟨7, 0⟩, [], 0, 1⟩], [⟨3, ⟨0, [0xac]⟩⟩], 0, subnetworkIdNative, 0, [], 0, 0⟩
  populatedInputs := [(⟨⟨7, 0⟩, [], 0, 1⟩, ⟨amount, ⟨0, [0xac]⟩, 0, false⟩)]
  map_fst := rfl

/-- The hash type that covers the least. -/
def sampleType : SigHashType := ⟨sigHashNone.value ||| sigHashAnyOneCanPay.value⟩

/-- Even a signature that covers the least does not fit an input of another value. -/
theorem signatureHash_commits_amount :
    (calcSchnorrSignatureHash sampleHash (samplePayment 5) 0 sampleType .new).1 ≠
      (calcSchnorrSignatureHash sampleHash (samplePayment 4) 0 sampleType .new).1 := by
  have hiff := (signatureHash_commits sampleHash).1 (samplePayment 5) (samplePayment 4) 0 0 _ _ _ _
    sampleType sampleType rfl rfl (by decide) (by decide) ⟨by decide, by decide, by decide⟩
    ⟨by decide, by decide, by decide⟩ ⟨by decide +kernel, by decide +kernel⟩
  intro heq
  exact absurd (hiff.mp heq).2 (by decide)

end Qaspa.Hashing
