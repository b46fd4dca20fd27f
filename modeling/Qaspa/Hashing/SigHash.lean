import Qaspa.Core.Tx
import Qaspa.Lib.Delimited
import Qaspa.Lib.Outcome

/-! # Signature hashes

The hash that a signature commits to. It covers a part of the transaction that the hash type
selects. The sub-hashes over all inputs or all outputs are the same for every input of a
transaction, and are kept in reused values once they are calculated.
-/

namespace Qaspa.Hashing

open LittleEndian

/-! ## Hash types -/

structure SigHashType where
  value : UInt8
  deriving DecidableEq, Repr

def sigHashAll : SigHashType := ⟨0b00000001⟩

def sigHashNone : SigHashType := ⟨0b00000010⟩

def sigHashSingle : SigHashType := ⟨0b00000100⟩

def sigHashAnyOneCanPay : SigHashType := ⟨0b10000000⟩

def sigHashMask : UInt8 := 0b00000111

def allowedSigHashTypesValues : List UInt8 := [
  sigHashAll.value, sigHashNone.value, sigHashSingle.value,
  sigHashAll.value ||| sigHashAnyOneCanPay.value,
  sigHashNone.value ||| sigHashAnyOneCanPay.value,
  sigHashSingle.value ||| sigHashAnyOneCanPay.value]

namespace SigHashType

variable (self : SigHashType)

def isSighashAll : Bool := self.value &&& sigHashMask == sigHashAll.value

def isSighashNone : Bool := self.value &&& sigHashMask == sigHashNone.value

def isSighashSingle : Bool := self.value &&& sigHashMask == sigHashSingle.value

def isSighashAnyoneCanPay : Bool :=
  self.value &&& sigHashAnyOneCanPay.value == sigHashAnyOneCanPay.value

def toU8 : UInt8 := self.value

def fromU8 (value : UInt8) : Except String SigHashType :=
  if allowedSigHashTypesValues.contains value then .ok ⟨value⟩ else .error "invalid sighash type"

end SigHashType

/-! ## Byte streams -/

abbrev Hash := BitVec 256

def zeroHash : Hash := 0

def writeHash (hash : Hash) : List UInt8 := encode 32 hash.toNat

def writeVarBytes (bytes : List UInt8) : List UInt8 := encodeBytes 8 bytes

def hashOutpoint (outpoint : TransactionOutpoint) : List UInt8 :=
  writeHash outpoint.transactionId ++ encode 4 outpoint.index.toNat

def hashScriptPublicKey (scriptPublicKey : ScriptPublicKey) : List UInt8 :=
  encode 2 scriptPublicKey.version.toNat ++ writeVarBytes scriptPublicKey.script

def hashOutput (output : TransactionOutput) : List UInt8 :=
  encode 8 output.value.toNat ++ hashScriptPublicKey output.scriptPublicKey

/-! ## Reused values -/

structure SigHashReusedValues where
  previousOutputsHash : Option Hash
  sequencesHash : Option Hash
  sigOpCountsHash : Option Hash
  outputsHash : Option Hash
  payloadHash : Option Hash
  deriving DecidableEq, Repr

def SigHashReusedValues.new : SigHashReusedValues := ⟨none, none, none, none, none⟩

/-- A calculation that may read and fill the reused values. -/
abbrev Reusing (α : Type) := StateM SigHashReusedValues α

/-- Read a value, or calculate and keep it. -/
def reuse (cell : SigHashReusedValues → Option Hash)
    (keep : Hash → SigHashReusedValues → SigHashReusedValues) (set : Hash) : Reusing Hash :=
  fun reused =>
    match cell reused with
    | some hash => (hash, reused)
    | none => (set, keep set reused)

/-! ## Signature hashes -/

section SignatureHash

variable (signingHash : List UInt8 → Hash) (tx : Transaction) (hashType : SigHashType)

def previousOutputsHash : Reusing Hash :=
  if hashType.isSighashAnyoneCanPay then pure zeroHash
  else
    reuse (·.previousOutputsHash)
      (fun hash reused => { reused with previousOutputsHash := some hash })
      (signingHash (tx.inputs.flatMap fun input => hashOutpoint input.previousOutpoint))

def sequencesHash : Reusing Hash :=
  if hashType.isSighashSingle || hashType.isSighashAnyoneCanPay || hashType.isSighashNone then
    pure zeroHash
  else
    reuse (·.sequencesHash) (fun hash reused => { reused with sequencesHash := some hash })
      (signingHash (tx.inputs.flatMap fun input => encode 8 input.sequence.toNat))

def sigOpCountsHash : Reusing Hash :=
  if hashType.isSighashAnyoneCanPay then pure zeroHash
  else
    reuse (·.sigOpCountsHash) (fun hash reused => { reused with sigOpCountsHash := some hash })
      (signingHash (tx.inputs.flatMap fun input => encode 1 input.sigOpCount.toNat))

def payloadHash : Reusing Hash :=
  if tx.subnetworkId = subnetworkIdNative ∧ tx.payload.isEmpty then pure zeroHash
  else
    reuse (·.payloadHash) (fun hash reused => { reused with payloadHash := some hash })
      (signingHash (writeVarBytes tx.payload))

def outputsHash (inputIndex : Nat) : Reusing Hash :=
  if hashType.isSighashNone then pure zeroHash
  else if hashType.isSighashSingle then
    match tx.outputs[inputIndex]? with
    | none => pure zeroHash
    | some output => pure (signingHash (hashOutput output))
  else
    reuse (·.outputsHash) (fun hash reused => { reused with outputsHash := some hash })
      (signingHash (tx.outputs.flatMap hashOutput))

/-- The bytes that are signed for an input, given the hashes of the other parts. -/
def signatureStream (input : TransactionInput) (entry : UtxoEntry)
    (previousOutputs sequences sigOpCounts outputs payload : Hash) : List UInt8 :=
  encode 2 tx.version.toNat ++ writeHash previousOutputs ++ writeHash sequences ++
    writeHash sigOpCounts ++ hashOutpoint input.previousOutpoint ++
    hashScriptPublicKey entry.scriptPublicKey ++ encode 8 entry.amount.toNat ++
    encode 8 input.sequence.toNat ++ encode 1 input.sigOpCount.toNat ++ writeHash outputs ++
    encode 8 tx.lockTime.toNat ++ encode 20 tx.subnetworkId.toNat ++ encode 8 tx.gas.toNat ++
    writeHash payload ++ encode 1 hashType.toU8.toNat

end SignatureHash

/-- The hash for an input, which has to be populated. -/
def calcSchnorrSignatureHash (signingHash : List UInt8 → Hash) (verifiableTx : PopulatedTransaction)
    (inputIndex : Nat) (hashType : SigHashType) : Reusing (Outcome Empty Hash) :=
  match verifiableTx.populatedInputs[inputIndex]? with
  | none => pure (.error .panic)
  | some (input, entry) => do
    let tx := verifiableTx.tx
    let previousOutputs ← previousOutputsHash signingHash tx hashType
    let sequences ← sequencesHash signingHash tx hashType
    let sigOpCounts ← sigOpCountsHash signingHash tx hashType
    let outputs ← outputsHash signingHash tx hashType inputIndex
    let payload ← payloadHash signingHash tx
    return .ok (signingHash (signatureStream tx hashType input entry previousOutputs sequences
      sigOpCounts outputs payload))

end Qaspa.Hashing
