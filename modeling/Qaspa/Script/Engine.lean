import Qaspa.Hashing.SigHash
import Qaspa.Lib.Metered
import Qaspa.Script.DataStack

/-! # The script engine

The engine runs the signature script, the script of the spent output and, if that one pays to a
script hash, the script whose hash was matched. It keeps a data stack, an alternative stack, the
stack of open conditionals and a count of operations; every check of a signature draws on a
counter. The cryptographic operations are functions of the engine's environment. What the engine
keeps after an error is not observable, apart from the counter.
-/

namespace Qaspa.Script

open Outcome Hashing

/-! ## The environment -/

/-- A transaction with what is known about the entries it spends. -/
structure VerifiableTransaction where
  tx : Transaction
  utxo : Nat → Option UtxoEntry

/-- The cryptographic operations, with the types of their arguments. -/
structure Crypto where
  PublicKey : Type
  XOnlyPublicKey : Type
  SchnorrSignature : Type
  EcdsaSignature : Type
  Message : Type
  MlDsaPublicKey : Type
  MlDsaSignature : Type
  publicKeyFromSlice : List UInt8 → Except Secp256k1Error PublicKey
  xOnlyPublicKeyFromSlice : List UInt8 → Except Secp256k1Error XOnlyPublicKey
  schnorrSignatureFromSlice : List UInt8 → Except Secp256k1Error SchnorrSignature
  ecdsaSignatureFromCompact : List UInt8 → Except Secp256k1Error EcdsaSignature
  messageFromDigestSlice : List UInt8 → Except Secp256k1Error Message
  mlDsaPublicKeyFromBytes : List UInt8 → Option MlDsaPublicKey
  mlDsaSignatureFromBytes : List UInt8 → Option MlDsaSignature
  verifySchnorr : SchnorrSignature → Message → XOnlyPublicKey → Bool
  verifyEcdsa : EcdsaSignature → Message → PublicKey → Bool
  verifyMlDsa : List UInt8 → MlDsaSignature → MlDsaPublicKey → Bool
  schnorrSignatureHash : VerifiableTransaction → Nat → SigHashType → List UInt8
  ecdsaSignatureHash : VerifiableTransaction → Nat → SigHashType → List UInt8
  sha256 : List UInt8 → List UInt8
  blake2b : List UInt8 → List UInt8

inductive ScriptSource where
  | txInput (tx : VerifiableTransaction) (input : TransactionInput) (idx : Nat)
      (utxoEntry : UtxoEntry) (isP2sh : Bool)
  | standAloneScripts (scripts : List (List UInt8))

inductive OpCond where
  | false
  | true
  | skip
  deriving DecidableEq, Repr

def OpCond.negate : OpCond → OpCond
  | .true => .false
  | .false => .true
  | .skip => .skip

structure TxScriptEngine where
  dstack : Stack
  astack : Stack
  condStack : List OpCond
  numOps : Int
  deriving DecidableEq, Repr

def TxScriptEngine.new : TxScriptEngine := ⟨[], [], [], 0⟩

/-! ## The counter of signature operations -/

abbrev RuntimeSigOpCounter := Budget

/-- A run of the engine, with the counter of signature operations. -/
abbrev Run (α : Type) := Metered (Fault TxScriptError) α

def exceededSigOpLimit (limit : Nat) : Fault TxScriptError := .err (.exceededSigOpLimit limit)

def consumeSigOp : Run Unit := Metered.draw exceededSigOpLimit

/-- A call that checks no signature. -/
def call {α : Type} (result : Outcome TxScriptError α) : Run α := Metered.lift result

/-! ## Script classes -/

def isPayToScriptHash (script : List UInt8) : Bool :=
  script.length == 35 && script[0]? == some Codes.opBlake2b && script[1]? == some Codes.opData32 &&
    script[34]? == some Codes.opEqual

namespace ScriptSource

variable (crypto : Crypto) (source : ScriptSource)

/-! ## Signatures -/

/-- A call of the curve library. -/
def secp {α : Type} (result : Except Secp256k1Error α) : Outcome TxScriptError α :=
  result.mapError fun error => .err (.invalidSignature error)

def hashTypeOf (typ : UInt8) : Outcome TxScriptError SigHashType :=
  (SigHashType.fromU8 typ).mapError fun _ => .err (.invalidSigHashType typ)

def checkPubKeyEncoding (pubKey : List UInt8) : Outcome TxScriptError Unit :=
  if pubKey.length = 32 then .ok () else fail .pubKeyFormat

def checkPubKeyEncodingEcdsa (pubKey : List UInt8) : Outcome TxScriptError Unit :=
  if pubKey.length = 33 then .ok () else fail .pubKeyFormat

def checkSchnorrSignature (hashType : SigHashType) (key sig : List UInt8) : Run Bool := do
  consumeSigOp
  match source with
  | .txInput tx _ idx _ _ => call do
      if sig.length ≠ 64 then fail (.sigLength sig.length)
      else
        checkPubKeyEncoding key
        let pk ← secp (crypto.xOnlyPublicKeyFromSlice key)
        let sig ← secp (crypto.schnorrSignatureFromSlice sig)
        let msg ← secp (crypto.messageFromDigestSlice (crypto.schnorrSignatureHash tx idx hashType))
        return crypto.verifySchnorr sig msg pk
  | .standAloneScripts _ => call (fail .notATransactionInput)

def checkEcdsaSignature (hashType : SigHashType) (key sig : List UInt8) : Run Bool := do
  consumeSigOp
  match source with
  | .txInput tx _ idx _ _ => call do
      if sig.length ≠ 64 then fail (.sigLength sig.length)
      else
        checkPubKeyEncodingEcdsa key
        let pk ← secp (crypto.publicKeyFromSlice key)
        let sig ← secp (crypto.ecdsaSignatureFromCompact sig)
        let msg ← secp (crypto.messageFromDigestSlice (crypto.ecdsaSignatureHash tx idx hashType))
        return crypto.verifyEcdsa sig msg pk
  | .standAloneScripts _ => call (fail .notATransactionInput)

def checkMldsaSignature (hashType : SigHashType) (key sig : List UInt8) : Run Bool := do
  consumeSigOp
  match source with
  | .txInput tx _ idx _ _ => call do
      if sig.length ≠ 2420 then fail (.sigLength sig.length)
      else if key.length ≠ 1312 then fail (.invalidPublicKeyLen key.length)
      else
        match crypto.mlDsaPublicKeyFromBytes key with
        | none => fail (.invalidSignature .invalidPublicKey)
        | some pk =>
          match crypto.mlDsaSignatureFromBytes sig with
          | none => fail (.invalidSignature .invalidSignature)
          | some signature =>
            return crypto.verifyMlDsa (crypto.schnorrSignatureHash tx idx hashType) signature pk
  | .standAloneScripts _ => call (fail .notATransactionInput)

end ScriptSource

/-! ## Multisig -/

/-- What a multisig opcode takes off the stack. -/
structure MultisigOperands where
  numOps : Int
  numSigs : Nat
  pubKeys : Stack
  signatures : Stack
  dstack : Stack

/-- Split a number of items off the stack. -/
def splitItems (size : Nat) (stack : Stack) : Outcome TxScriptError (Stack × Stack) :=
  if size ≤ stack.length then vecSplitOffBack stack size
  else fail (.invalidStackOperation size stack.length)

def checkNumKeys (numKeys : Int) : Outcome TxScriptError Unit :=
  if numKeys < 0 then
    fail (.invalidPubKeyCount ("number of pubkeys " ++ toString numKeys ++ " is negative"))
  else if maxPubKeysPerMultisig < numKeys then
    fail (.invalidPubKeyCount ("too many pubkeys " ++ toString numKeys ++ " > " ++
      toString maxPubKeysPerMultisig))
  else .ok ()

def checkNumSigs (numSigs numKeys : Int) : Outcome TxScriptError Unit :=
  if numSigs < 0 then
    fail (.invalidSignatureCount ("number of signatures " ++ toString numSigs ++ " is negative"))
  else if numKeys < numSigs then
    fail (.invalidSignatureCount ("more signatures than pubkeys " ++ toString numSigs ++ " > " ++
      toString numKeys))
  else .ok ()

def multisigOperands (vm : TxScriptEngine) : Outcome TxScriptError MultisigOperands := do
  let (numKeys, dstack) ← popItems deserializeInt 1 vm.dstack
  let numKeys := numKeys 0
  checkNumKeys numKeys
  let numOps ← Signed.plain 32 (vm.numOps + numKeys)
  if maxOpsPerScript < numOps then fail (.tooManyOperations maxOpsPerScript)
  else
    let (dstack, pubKeys) ← splitItems numKeys.toNat dstack
    let (numSigs, dstack) ← popItems deserializeInt 1 dstack
    let numSigs := numSigs 0
    checkNumSigs numSigs numKeys
    let (dstack, signatures) ← splitItems numSigs.toNat dstack
    return ⟨numOps, numSigs.toNat, pubKeys, signatures, dstack⟩

section Multisig

variable (check : SigHashType → List UInt8 → List UInt8 → Run Bool)

/-- Look for the key of a signature. Every check uses up a key; the search ends when fewer keys
are left than signatures. Returns the keys behind the one that was found. -/
def findKey (hashType : SigHashType) (signature : List UInt8) (needed : Nat) :
    Stack → Run (Option Stack)
  | [] => if 0 < needed then pure none else call (.error .panic)
  | pubKey :: rest =>
    if rest.length + 1 < needed then pure none
    else do
      if ← check hashType pubKey signature then pure (some rest)
      else findKey hashType signature needed rest

/-- Whether the signatures from the one at `sigIdx` on lack a key. -/
def signaturesFail (numSigs : Nat) : Nat → Stack → Stack → Run Bool
  | _, [], _ => pure false
  | sigIdx, signature :: signatures, pubKeys =>
    match signature.getLast? with
    | none => pure true
    | some typ => do
      let hashType ← call (ScriptSource.hashTypeOf typ)
      let needed ← call (U64.sub numSigs sigIdx)
      match ← findKey check hashType signature.dropLast needed pubKeys with
      | none => pure true
      | some pubKeys => signaturesFail numSigs (sigIdx + 1) signatures pubKeys

/-- A multisig opcode, for either kind of signature. -/
def opCheckMultisigSchnorrOrEcdsa (vm : TxScriptEngine) : Run TxScriptEngine := do
  let operands ← call (multisigOperands vm)
  let failed ← signaturesFail check operands.numSigs 0 operands.signatures operands.pubKeys
  if failed && operands.signatures.any (!·.isEmpty) then call (fail .nullFail)
  else return { vm with numOps := operands.numOps, dstack := pushBool (!failed) operands.dstack }

/-- An opcode that checks one signature. -/
def opCheckSignature (vm : TxScriptEngine) : Run TxScriptEngine := do
  let (items, dstack) ← call (popRaw 2 vm.dstack)
  match (items 0).getLast? with
  | some typ =>
    let hashType ← call (ScriptSource.hashTypeOf typ)
    let valid ← check hashType (items 1) (items 0).dropLast
    return { vm with dstack := pushBool valid dstack }
  | none => return { vm with dstack := pushBool false dstack }

end Multisig

/-! ## Instructions -/

section Instructions

/-- An opcode on one number. -/
def onNumber (f : Int → Outcome TxScriptError Int) (stack : Stack) :
    Outcome TxScriptError Stack := do
  let (items, stack) ← popItems deserializeLong 1 stack
  let result ← f (items 0)
  pushLong result stack

/-- An opcode on two numbers. -/
def onNumbers (f : Int → Int → Outcome TxScriptError Int) (stack : Stack) :
    Outcome TxScriptError Stack := do
  let (items, stack) ← popItems deserializeLong 2 stack
  let result ← f (items 0) (items 1)
  pushLong result stack

/-- A result that must fit a word. -/
def inWord (exact : Int) (text : String) : Outcome TxScriptError Int :=
  match Signed.checked 64 exact with
  | some number => .ok number
  | none => fail (.numberTooBig text)

def boolNumber (condition : Bool) : Outcome TxScriptError Int := .ok (if condition then 1 else 0)

/-- The text of a failed conversion between machine words. -/
def tryFromIntError : String := "out of range integral type conversion attempted"

/-- An unsigned word as a number. -/
def tryFromU64 (value : UInt64) : Outcome TxScriptError Int := inWord value.toNat tryFromIntError

def verifyTop (stack : Stack) : Outcome TxScriptError Stack := do
  let (items, stack) ← popItems deserializeBool 1 stack
  if items 0 then .ok stack else fail .verifyError

def opIfDup (stack : Stack) : Outcome TxScriptError Stack := do
  let items ← peekRaw 1 stack
  if ← deserializeBool (items 0) then .ok (stack ++ [items 0]) else .ok stack

def opNip (stack : Stack) : Outcome TxScriptError Stack :=
  if 2 ≤ stack.length then do
    let index ← U64.sub stack.length 2
    let (_, stack) ← vecRemove stack index
    return stack
  else fail (.invalidStackOperation 2 stack.length)

/-- The place of an item that a number on the stack selects, counted from the bottom. -/
def selectedIndex (text : String) (stack : Stack) : Outcome TxScriptError (Nat × Stack) := do
  let (items, stack) ← popItems deserializeInt 1 stack
  let loc := items 0
  if loc < 0 ∨ stack.length ≤ loc.toNat then fail (.invalidState text)
  else
    let index ← U64.sub stack.length loc.toNat
    let index ← U64.sub index 1
    return (index, stack)

def opPick (stack : Stack) : Outcome TxScriptError Stack := do
  let (index, stack) ← selectedIndex "pick at an invalid location" stack
  let item ← vecGet stack index
  return stack ++ [item]

def opRoll (stack : Stack) : Outcome TxScriptError Stack := do
  let (index, stack) ← selectedIndex "roll at an invalid location" stack
  let (item, stack) ← vecRemove stack index
  return stack ++ [item]

def opTuck (stack : Stack) : Outcome TxScriptError Stack :=
  if 2 ≤ stack.length then do
    let index ← U64.sub stack.length 2
    let last ← unwrap stack.getLast?
    vecInsert stack index last
  else fail (.invalidStackOperation 2 stack.length)

def opSize (stack : Stack) : Outcome TxScriptError Stack :=
  match stack.getLast? with
  | some last => do
    let size ← inWord last.length tryFromIntError
    pushLong size stack
  | none => fail (.invalidStackOperation 1 0)

/-- The two topmost items are taken off and compared. -/
def popEqual (stack : Stack) : Outcome TxScriptError (Bool × Stack) :=
  if 2 ≤ stack.length then do
    let (stack, pair) ← vecSplitOffBack stack 2
    let first ← vecGet pair 0
    let second ← vecGet pair 1
    return (first == second, stack)
  else fail (.invalidStackOperation 2 stack.length)

def opEqual (stack : Stack) : Outcome TxScriptError Stack := do
  let (equal, stack) ← popEqual stack
  return pushBool equal stack

def opEqualVerify (stack : Stack) : Outcome TxScriptError Stack := do
  let (equal, stack) ← popEqual stack
  if equal then .ok stack else fail .verifyError

def opNumEqualVerify (stack : Stack) : Outcome TxScriptError Stack := do
  let (items, stack) ← popItems deserializeLong 2 stack
  if items 0 = items 1 then .ok stack else fail .verifyError

def opWithin (stack : Stack) : Outcome TxScriptError Stack := do
  let (items, stack) ← popItems deserializeLong 3 stack
  let result ← boolNumber (items 1 ≤ items 0 && items 0 < items 2)
  pushLong result stack

/-- Replace the top item by its hash. -/
def hashTop (hash : List UInt8 → List UInt8) (stack : Stack) : Outcome TxScriptError Stack := do
  let (items, stack) ← popRaw 1 stack
  return stack ++ [hash (items 0)]

/-- The condition of a conditional: `whenTrue` is what a true item makes of it. -/
def condition (whenTrue : OpCond) (stack : Stack) : Outcome TxScriptError (OpCond × Stack) :=
  match stack.getLast? with
  | none => fail .emptyStack
  | some [] => .ok (whenTrue.negate, stack.dropLast)
  | some [byte] =>
    if byte = 1 then .ok (whenTrue, stack.dropLast)
    else fail (.invalidState "expected boolean")
  | some _ => fail (.invalidState "expected boolean")

/-! ### Lock times -/

/-- Eight bytes as an unsigned word. Shorter data is padded with zeros. -/
def lockTimeWord (bytes : List UInt8) : Outcome TxScriptError UInt64 :=
  if 8 < bytes.length then
    fail (.numberTooBig ("lockTime value represented as " ++ hexDebug bytes ++
      " is longer then 8 bytes"))
  else .ok (UInt64.ofNat (LittleEndian.decode (bytes ++ List.replicate (8 - bytes.length) 0)))

def opCheckLockTimeVerify (source : ScriptSource) (stack : Stack) : Outcome TxScriptError Stack :=
  match source with
  | .txInput tx input _ _ _ => do
    let (items, stack) ← popRaw 1 stack
    let stackLockTime ← lockTimeWord (items 0)
    let lockTime := tx.tx.lockTime
    if ¬ ((lockTime < lockTimeThreshold ∧ stackLockTime < lockTimeThreshold) ∨
        (lockTimeThreshold ≤ lockTime ∧ lockTimeThreshold ≤ stackLockTime)) then
      fail (.unsatisfiedLockTime ("mismatched locktime types -- tx locktime " ++
        toString lockTime.toNat ++ ", stack locktime " ++ toString stackLockTime.toNat))
    else if lockTime < stackLockTime then
      fail (.unsatisfiedLockTime ("locktime requirement not satisfied -- locktime is greater " ++
        "than the transaction locktime: " ++ toString stackLockTime.toNat ++ " > " ++
        toString lockTime.toNat))
    else if input.sequence = maxTxInSequenceNum then
      fail (.unsatisfiedLockTime "transaction input is finalized")
    else .ok stack
  | .standAloneScripts _ =>
    fail (.invalidSource "LockTimeVerify only applies to transaction inputs")

def opCheckSequenceVerify (source : ScriptSource) (stack : Stack) : Outcome TxScriptError Stack :=
  match source with
  | .txInput _ input _ _ _ => do
    let (items, stack) ← popRaw 1 stack
    let stackSequence ← lockTimeWord (items 0)
    if stackSequence &&& sequenceLockTimeDisabled ≠ 0 then .ok stack
    else if input.sequence &&& sequenceLockTimeDisabled ≠ 0 then
      fail (.unsatisfiedLockTime ("transaction sequence has sequence locktime disabled bit " ++
        "set: 0x" ++ hexDigits input.sequence.toNat))
    else if input.sequence &&& sequenceLockTimeMask < stackSequence &&& sequenceLockTimeMask then
      fail (.unsatisfiedLockTime ("locktime requirement not satisfied -- locktime is greater " ++
        "than the transaction locktime: " ++
        toString (stackSequence &&& sequenceLockTimeMask).toNat ++ " > " ++
        toString (input.sequence &&& sequenceLockTimeMask).toNat))
    else .ok stack
  | .standAloneScripts _ =>
    fail (.invalidSource "LockTimeVerify only applies to transaction inputs")

/-! ### Introspection -/

/-- An opcode on the transaction of the input; without one it fails, naming itself. -/
def onTransaction (source : ScriptSource) (name : String)
    (f : VerifiableTransaction → Nat → Stack → Outcome TxScriptError Stack) (stack : Stack) :
    Outcome TxScriptError Stack :=
  match source with
  | .txInput tx _ idx _ _ => f tx idx stack
  | .standAloneScripts _ =>
    fail (.invalidSource (name ++ " only applies to transaction inputs"))

/-- The bytes of a script public key, the version in front. -/
def spkBytes (spk : ScriptPublicKey) : List UInt8 :=
  UInt8.ofNat (spk.version.toNat / 256) :: UInt8.ofNat spk.version.toNat :: spk.script

/-- The entry that a number on the stack selects. -/
def selectedUtxo (tx : VerifiableTransaction) (stack : Stack) :
    Outcome TxScriptError (UtxoEntry × Stack) := do
  let (items, stack) ← popItems deserializeInt 1 stack
  let idx := items 0
  match if 0 ≤ idx then tx.utxo idx.toNat else none with
  | some entry => .ok (entry, stack)
  | none => fail (.invalidInputIndex idx tx.tx.inputs.length)

/-- The output that a number on the stack selects. The error quotes the number of inputs. -/
def selectedOutput (tx : VerifiableTransaction) (stack : Stack) :
    Outcome TxScriptError (TransactionOutput × Stack) := do
  let (items, stack) ← popItems deserializeInt 1 stack
  let idx := items 0
  match if 0 ≤ idx then tx.tx.outputs[idx.toNat]? else none with
  | some output => .ok (output, stack)
  | none => fail (.invalidOutputIndex idx tx.tx.inputs.length)

def opTxInputAmount (tx : VerifiableTransaction) (stack : Stack) : Outcome TxScriptError Stack := do
  let (entry, stack) ← selectedUtxo tx stack
  let amount ← tryFromU64 entry.amount
  pushLong amount stack

def opTxInputSpk (tx : VerifiableTransaction) (stack : Stack) : Outcome TxScriptError Stack := do
  let (entry, stack) ← selectedUtxo tx stack
  return stack ++ [spkBytes entry.scriptPublicKey]

def opTxOutputAmount (tx : VerifiableTransaction) (stack : Stack) :
    Outcome TxScriptError Stack := do
  let (output, stack) ← selectedOutput tx stack
  let amount ← tryFromU64 output.value
  pushLong amount stack

def opTxOutputSpk (tx : VerifiableTransaction) (stack : Stack) : Outcome TxScriptError Stack := do
  let (output, stack) ← selectedOutput tx stack
  return stack ++ [spkBytes output.scriptPublicKey]

end Instructions

/-! ## Execution -/

namespace TxScriptEngine

def isExecuting (vm : TxScriptEngine) : Bool :=
  match vm.condStack.getLast? with
  | none => true
  | some cond => cond == .true

/-- An opcode that only works on the data stack. -/
def onDstack (vm : TxScriptEngine) (f : Stack → Outcome TxScriptError Stack) : Run TxScriptEngine :=
  call do
    let dstack ← f vm.dstack
    return { vm with dstack := dstack }

/-- A conditional opens a branch. In a branch that is skipped it takes nothing off the stack. -/
def openBranch (vm : TxScriptEngine) (whenTrue : OpCond) : Run TxScriptEngine :=
  if vm.isExecuting then
    call do
      let (cond, dstack) ← condition whenTrue vm.dstack
      return { vm with dstack := dstack, condStack := vm.condStack ++ [cond] }
  else return { vm with condStack := vm.condStack ++ [.skip] }

def opElse (vm : TxScriptEngine) : Run TxScriptEngine :=
  match vm.condStack.getLast? with
  | some cond => return { vm with condStack := vm.condStack.dropLast ++ [cond.negate] }
  | none => call (fail (.invalidState "condition stack empty"))

def opEndIf (vm : TxScriptEngine) : Run TxScriptEngine :=
  match vm.condStack.getLast? with
  | some _ => return { vm with condStack := vm.condStack.dropLast }
  | none => call (fail (.invalidState "condition stack empty"))

def opToAltStack (vm : TxScriptEngine) : Run TxScriptEngine :=
  call do
    let (items, dstack) ← popRaw 1 vm.dstack
    return { vm with dstack := dstack, astack := vm.astack ++ [items 0] }

def opFromAltStack (vm : TxScriptEngine) : Run TxScriptEngine :=
  match vm.astack.getLast? with
  | some last => return { vm with dstack := vm.dstack ++ [last], astack := vm.astack.dropLast }
  | none => call (fail .emptyStack)

variable (crypto : Crypto) (source : ScriptSource)

def execute (opcode : OpCode) (vm : TxScriptEngine) : Run TxScriptEngine :=
  match opcode.instruction with
  | .opFalse => vm.onDstack fun stack => .ok (stack ++ [[]])
  | .pushData => vm.onDstack fun stack => .ok (stack ++ [opcode.data])
  | .pushNumber number => vm.onDstack (pushLong number)
  | .reserved => call (fail (.opcodeReserved opcode.debug))
  | .disabled => call (fail (.opcodeDisabled opcode.debug))
  | .invalid => call (fail (.invalidOpcode opcode.debug))
  | .opNop => return vm
  | .opIf => vm.openBranch .true
  | .opNotIf => vm.openBranch .false
  | .opElse => vm.opElse
  | .opEndIf => vm.opEndIf
  | .opVerify => vm.onDstack verifyTop
  | .opReturn => call (fail .earlyReturn)
  | .opToAltStack => vm.opToAltStack
  | .opFromAltStack => vm.opFromAltStack
  | .op2Drop => vm.onDstack (dropItems 2)
  | .op2Dup => vm.onDstack (dupItems 2)
  | .op3Dup => vm.onDstack (dupItems 3)
  | .op2Over => vm.onDstack (overItems 2)
  | .op2Rot => vm.onDstack (rotItems 2)
  | .op2Swap => vm.onDstack (swapItems 2)
  | .opIfDup => vm.onDstack opIfDup
  | .opDepth => vm.onDstack fun stack => pushLong stack.length stack
  | .opDrop => vm.onDstack (dropItems 1)
  | .opDup => vm.onDstack (dupItems 1)
  | .opNip => vm.onDstack opNip
  | .opOver => vm.onDstack (overItems 1)
  | .opPick => vm.onDstack opPick
  | .opRoll => vm.onDstack opRoll
  | .opRot => vm.onDstack (rotItems 1)
  | .opSwap => vm.onDstack (swapItems 1)
  | .opTuck => vm.onDstack opTuck
  | .opSize => vm.onDstack opSize
  | .opEqual => vm.onDstack opEqual
  | .opEqualVerify => vm.onDstack opEqualVerify
  | .op1Add => vm.onDstack (onNumber fun value =>
    inWord (value + 1) "Result of addition exceeds 64-bit signed integer range")
  | .op1Sub => vm.onDstack (onNumber fun value =>
    inWord (value - 1) "Result of subtraction exceeds 64-bit signed integer range")
  | .opNegate => vm.onDstack (onNumber fun value =>
    inWord (-value) "Negation result exceeds 64-bit signed integer range")
  | .opAbs => vm.onDstack (onNumber fun value =>
    inWord value.natAbs "Absolute value exceeds 64-bit signed integer range")
  | .opNot => vm.onDstack (onNumber fun m => boolNumber (m == 0))
  | .op0NotEqual => vm.onDstack (onNumber fun m => boolNumber (m != 0))
  | .opAdd => vm.onDstack (onNumbers fun a b =>
    inWord (a + b) "Sum exceeds 64-bit signed integer range")
  | .opSub => vm.onDstack (onNumbers fun a b =>
    inWord (a - b) "Difference exceeds 64-bit signed integer range")
  | .opBoolAnd => vm.onDstack (onNumbers fun a b => boolNumber (a != 0 && b != 0))
  | .opBoolOr => vm.onDstack (onNumbers fun a b => boolNumber (a != 0 || b != 0))
  | .opNumEqual => vm.onDstack (onNumbers fun a b => boolNumber (a == b))
  | .opNumEqualVerify => vm.onDstack opNumEqualVerify
  | .opNumNotEqual => vm.onDstack (onNumbers fun a b => boolNumber (a != b))
  | .opLessThan => vm.onDstack (onNumbers fun a b => boolNumber (a < b))
  | .opGreaterThan => vm.onDstack (onNumbers fun a b => boolNumber (b < a))
  | .opLessThanOrEqual => vm.onDstack (onNumbers fun a b => boolNumber (a ≤ b))
  | .opGreaterThanOrEqual => vm.onDstack (onNumbers fun a b => boolNumber (b ≤ a))
  | .opMin => vm.onDstack (onNumbers fun a b => .ok (min a b))
  | .opMax => vm.onDstack (onNumbers fun a b => .ok (max a b))
  | .opWithin => vm.onDstack opWithin
  | .opCheckSigMLDSA => opCheckSignature (source.checkMldsaSignature crypto) vm
  | .opSHA256 => vm.onDstack (hashTop crypto.sha256)
  | .opCheckMultiSigECDSA => opCheckMultisigSchnorrOrEcdsa (source.checkEcdsaSignature crypto) vm
  | .opBlake2b => vm.onDstack (hashTop crypto.blake2b)
  | .opCheckSigECDSA => opCheckSignature (source.checkEcdsaSignature crypto) vm
  | .opCheckSig => opCheckSignature (source.checkSchnorrSignature crypto) vm
  | .opCheckSigVerify => do
    let vm ← opCheckSignature (source.checkSchnorrSignature crypto) vm
    vm.onDstack verifyTop
  | .opCheckMultiSig => opCheckMultisigSchnorrOrEcdsa (source.checkSchnorrSignature crypto) vm
  | .opCheckMultiSigVerify => do
    let vm ← opCheckMultisigSchnorrOrEcdsa (source.checkSchnorrSignature crypto) vm
    vm.onDstack verifyTop
  | .opCheckLockTimeVerify => vm.onDstack (opCheckLockTimeVerify source)
  | .opCheckSequenceVerify => vm.onDstack (opCheckSequenceVerify source)
  | .opTxInputCount => vm.onDstack (onTransaction source "OpInputCount" fun tx _ =>
    pushLong tx.tx.inputs.length)
  | .opTxOutputCount => vm.onDstack (onTransaction source "OpOutputCount" fun tx _ =>
    pushLong tx.tx.outputs.length)
  | .opTxInputIndex => vm.onDstack (onTransaction source "OpInputIndex" fun _ idx => pushLong idx)
  | .opTxInputAmount => vm.onDstack (onTransaction source "OpInputAmount" fun tx _ =>
    opTxInputAmount tx)
  | .opTxInputSpk => vm.onDstack (onTransaction source "OpInputSpk" fun tx _ => opTxInputSpk tx)
  | .opTxOutputAmount => vm.onDstack (onTransaction source "OpOutputAmount" fun tx _ =>
    opTxOutputAmount tx)
  | .opTxOutputSpk => vm.onDstack (onTransaction source "OpOutputSpk" fun tx _ => opTxOutputSpk tx)

/-- The limits that hold for an opcode before it is executed. -/
def countOpcode (opcode : OpCode) (vm : TxScriptEngine) : Outcome TxScriptError TxScriptEngine :=
  if ¬ opcode.isPushOpcode then do
    let numOps ← Signed.plain 32 (vm.numOps + 1)
    if maxOpsPerScript < numOps then fail (.tooManyOperations maxOpsPerScript)
    else return { vm with numOps := numOps }
  else if maxScriptElementSize < opcode.len then
    fail (.elementTooBig opcode.len maxScriptElementSize)
  else .ok vm

def executeOpcode (opcode : OpCode) (vm : TxScriptEngine) : Run TxScriptEngine := do
  let vm ← call (countOpcode opcode vm)
  if vm.isExecuting || opcode.isConditional then
    call (if 0 < opcode.value ∧ opcode.value ≤ 0x4e then opcode.checkMinimalDataPush else .ok ())
    execute crypto source opcode vm
  else return vm

/-- An opcode that may not occur in a script. -/
def checkOpcode (verifyOnlyPush : Bool) (opcode : OpCode) : Outcome TxScriptError Unit :=
  if opcode.isDisabled then fail (.opcodeDisabled opcode.debug)
  else if opcode.alwaysIllegal then fail (.opcodeReserved opcode.debug)
  else if verifyOnlyPush && !opcode.isPushOpcode then fail .signatureScriptNotPushOnly
  else .ok ()

/-- One opcode of a script, with the checks around it. -/
def step (verifyOnlyPush : Bool) (vm : TxScriptEngine) (opcode : Except TxScriptError OpCode) :
    Run TxScriptEngine := do
  let opcode ← call (opcode.mapError .err)
  call (checkOpcode verifyOnlyPush opcode)
  let vm ← executeOpcode crypto source opcode vm
  let combinedSize := vm.astack.length + vm.dstack.length
  if maxStackSize < combinedSize then call (fail (.stackSizeExceeded combinedSize maxStackSize))
  else return vm

/-- Run over the opcodes of a script up to the first error. -/
def runOpcodes (verifyOnlyPush : Bool) :
    TxScriptEngine → List (Except TxScriptError OpCode) → Run TxScriptEngine
  | vm, [] => return vm
  | vm, opcode :: rest => do
    let vm ← step crypto source verifyOnlyPush vm opcode
    runOpcodes verifyOnlyPush vm rest

def executeScript (script : List UInt8) (verifyOnlyPush : Bool) (vm : TxScriptEngine) :
    Run TxScriptEngine := do
  let vm ← runOpcodes crypto source verifyOnlyPush vm (parseScript script)
  if ¬ vm.condStack.isEmpty then call (fail .errUnbalancedConditional)
  else return { vm with astack := [], numOps := 0 }

/-- Whether the scripts run so far succeeded. -/
def checkErrorCondition (finalScript : Bool) (vm : TxScriptEngine) :
    Outcome TxScriptError TxScriptEngine := do
  if finalScript ∧ 1 < vm.dstack.length then
    let extra ← U64.sub vm.dstack.length 1
    fail (.cleanStack extra)
  else if finalScript ∧ vm.dstack.isEmpty then fail .emptyStack
  else
    let (items, dstack) ← popItems deserializeBool 1 vm.dstack
    if items 0 then return { vm with dstack := dstack } else fail .evalFalse

/-- Spend a stealth output: one signature for the destination key, without any script. -/
def executeStealthSpend (tx : VerifiableTransaction) (inputIdx : Nat) (input : TransactionInput)
    (utxoEntry : UtxoEntry) : Run Unit := do
  let script := utxoEntry.scriptPublicKey.script
  if script.length ≠ stealthOutputSize then call (fail .pubKeyFormat)
  else
    let rBytes ← call (vecSlice script 0 33)
    let _ ← call ((crypto.publicKeyFromSlice rBytes).mapError fun _ => .err .pubKeyFormat)
    let pDestBytes ← call (vecSlice script 34 66)
    let pubkey ← call ((crypto.xOnlyPublicKeyFromSlice pDestBytes).mapError fun _ =>
      .err .pubKeyFormat)
    let sigScript := input.signatureScript
    if sigScript.length < 65 then call (fail (.sigLength sigScript.length))
    else if maxScriptElementSize < sigScript.length then
      call (fail (.elementTooBig sigScript.length maxScriptElementSize))
    else
      let sigOffset ← call (U64.sub sigScript.length 65)
      let sigBytes ← call (vecSlice sigScript sigOffset (sigOffset + 64))
      let hashTypeByte ← call (vecGet sigScript (sigOffset + 64))
      let hashType ← call (ScriptSource.hashTypeOf hashTypeByte)
      let sig ← call (ScriptSource.secp (crypto.schnorrSignatureFromSlice sigBytes))
      let msg ← call (ScriptSource.secp
        (crypto.messageFromDigestSlice (crypto.schnorrSignatureHash tx inputIdx hashType)))
      consumeSigOp
      if crypto.verifySchnorr sig msg pubkey then return () else call (fail .evalFalse)

def isTxInput : ScriptSource → Bool
  | .txInput .. => true
  | .standAloneScripts _ => false

/-- Run the scripts one after the other, each with its index. Returns the stack that was saved in
front of the second script of a payment to a script hash as well. -/
def runScripts (isP2sh : Bool) : TxScriptEngine → Option Stack → List (List UInt8 × Nat) →
    Run (TxScriptEngine × Option Stack)
  | vm, savedStack, [] => return (vm, savedStack)
  | vm, savedStack, (script, idx) :: rest =>
    if script.isEmpty then runScripts isP2sh vm savedStack rest
    else do
      let savedStack := if isP2sh ∧ idx = 1 then some vm.dstack else savedStack
      let vm ← executeScript crypto source script (idx == 0 && isTxInput source) vm
      runScripts isP2sh vm savedStack rest

/-- Run all scripts, the script behind a script hash included. -/
def runAll (scripts : List (List UInt8)) (isP2sh : Bool) : Run TxScriptEngine := do
  let (vm, savedStack) ← runScripts crypto source isP2sh .new none scripts.zipIdx
  if isP2sh then
    let vm ← call (checkErrorCondition false vm)
    match savedStack with
    | none => call (fail .emptyStack)
    | some dstack =>
      match dstack.getLast? with
      | none => call (fail .emptyStack)
      | some script =>
        executeScript crypto source script false { vm with dstack := dstack.dropLast }
  else return vm

/-- Run the scripts and check what they leave on the stack. -/
def executeScripts (scripts : List (List UInt8)) (isP2sh : Bool) : Run Unit := do
  if scripts.isEmpty then call (fail .noScripts)
  else if scripts.all (·.isEmpty) then call (fail .evalFalse)
  else
    match scripts.find? fun script => maxScriptsSize < script.length with
    | some script => call (fail (.scriptSize script.length maxScriptsSize))
    | none =>
      let vm ← runAll crypto source scripts isP2sh
      let _ ← call (checkErrorCondition true vm)
      return ()

end TxScriptEngine

/-- Whether an input may spend its output. -/
def ScriptSource.executeSource (crypto : Crypto) (source : ScriptSource) : Run Unit :=
  match source with
  | .txInput tx input idx utxoEntry isP2sh =>
    let version := utxoEntry.scriptPublicKey.version
    if version = stealthScriptVersion then
      TxScriptEngine.executeStealthSpend crypto tx idx input utxoEntry
    else if maxScriptPublicKeyVersion < version then return ()
    else
      TxScriptEngine.executeScripts crypto source
        [input.signatureScript, utxoEntry.scriptPublicKey.script] isP2sh
  | .standAloneScripts scripts => TxScriptEngine.executeScripts crypto source scripts false

/-- The source for an input of a transaction. -/
def ScriptSource.fromTransactionInput (tx : VerifiableTransaction) (input : TransactionInput)
    (inputIdx : Nat) (utxoEntry : UtxoEntry) : Outcome TxScriptError ScriptSource := do
  assert (inputIdx < tx.tx.inputs.length)
  return .txInput tx input inputIdx utxoEntry
    (isPayToScriptHash utxoEntry.scriptPublicKey.script)

end Qaspa.Script
