import Qaspa.Core.Tx
import Qaspa.Lib.LittleEndian
import Qaspa.Lib.Outcome

/-! # Script opcodes

A script is a byte string. Every byte value is the code of an opcode, and the codes up to
`OpPushData4` are followed by data. Parsing turns a script into its opcodes; data that runs past
the end of the script is a parse error, which then is the last item. What an opcode does when it
is executed is given by its instruction.
-/

namespace Qaspa.Script

/-- The errors of the curve library. The engine names two of them. -/
inductive Secp256k1Error where
  | invalidPublicKey
  | invalidSignature
  | other (code : Nat)
  deriving DecidableEq, Repr

inductive SerializationError where
  | numberTooLong (number : Int)
  deriving DecidableEq, Repr

inductive TxScriptError where
  | malformedPushSize (bytes : List UInt8)
  | malformedPush (required remaining : Nat)
  | invalidInputIndex (index : Int) (inputs : Nat)
  | stackSizeExceeded (size max : Nat)
  | invalidOpcode (text : String)
  | opcodeReserved (text : String)
  | opcodeDisabled (text : String)
  | emptyStack
  | cleanStack (items : Nat)
  | evalFalse
  | earlyReturn
  | verifyError
  | invalidState (text : String)
  | invalidSignature (error : Secp256k1Error)
  | tooManyOperations (max : Int)
  | notATransactionInput
  | elementTooBig (size max : Nat)
  | notMinimalData (text : String)
  | invalidSource (text : String)
  | unsatisfiedLockTime (text : String)
  | numberTooBig (text : String)
  | nullFail
  | invalidSignatureCount (text : String)
  | invalidPubKeyCount (text : String)
  | invalidSigHashType (value : UInt8)
  | pubKeyFormat
  | sigLength (length : Nat)
  | invalidPublicKeyLen (length : Nat)
  | noScripts
  | signatureScriptNotPushOnly
  | errUnbalancedConditional
  | invalidStackOperation (required items : Nat)
  | scriptSize (size max : Nat)
  | invalidOutputIndex (index : Int) (outputs : Nat)
  | serialization (error : SerializationError)
  | exceededSigOpLimit (limit : Nat)
  deriving DecidableEq, Repr

/-- A call of the engine that fails with an error. -/
def fail {α : Type} (error : TxScriptError) : Outcome TxScriptError α := .error (.err error)

/-! ## Limits -/

def maxScriptPublicKeyVersion : UInt16 := 16

def stealthScriptVersion : UInt16 := 16

def stealthOutputSize : Nat := 66

def maxStackSize : Nat := 244

def maxScriptsSize : Nat := 10000

def maxScriptElementSize : Nat := 2500

def maxOpsPerScript : Int := 201

def maxTxInSequenceNum : UInt64 := 0xffffffffffffffff

def sequenceLockTimeDisabled : UInt64 := 0x8000000000000000

def sequenceLockTimeMask : UInt64 := 0x00000000ffffffff

def lockTimeThreshold : UInt64 := 500000000000

def maxPubKeysPerMultisig : Int := 20

/-- The last opcode that does not count toward operations. -/
def noCostOpcode : UInt8 := 0x60

namespace Codes

def opFalse : UInt8 := 0x00
def opData1 : UInt8 := 0x01
def opData32 : UInt8 := 0x20
def opData33 : UInt8 := 0x21
def opData75 : UInt8 := 0x4b
def opPushData1 : UInt8 := 0x4c
def opPushData2 : UInt8 := 0x4d
def opPushData4 : UInt8 := 0x4e
def op1Negate : UInt8 := 0x4f
def opReserved : UInt8 := 0x50
def opTrue : UInt8 := 0x51
def op16 : UInt8 := 0x60
def opNop : UInt8 := 0x61
def opVerIf : UInt8 := 0x65
def opVerNotIf : UInt8 := 0x66
def opCat : UInt8 := 0x7e
def opSubStr : UInt8 := 0x7f
def opLeft : UInt8 := 0x80
def opRight : UInt8 := 0x81
def opInvert : UInt8 := 0x83
def opAnd : UInt8 := 0x84
def opOr : UInt8 := 0x85
def opXor : UInt8 := 0x86
def opEqual : UInt8 := 0x87
def op2Mul : UInt8 := 0x8d
def op2Div : UInt8 := 0x8e
def opMul : UInt8 := 0x95
def opDiv : UInt8 := 0x96
def opMod : UInt8 := 0x97
def opLShift : UInt8 := 0x98
def opRShift : UInt8 := 0x99
def opCheckSigMLDSA : UInt8 := 0xa7
def opCheckMultiSigECDSA : UInt8 := 0xa9
def opBlake2b : UInt8 := 0xaa
def opCheckSigECDSA : UInt8 := 0xab
def opCheckSig : UInt8 := 0xac
def opCheckSigVerify : UInt8 := 0xad
def opCheckMultiSig : UInt8 := 0xae
def opCheckMultiSigVerify : UInt8 := 0xaf

end Codes

def opSmallIntMinVal : UInt8 := 1

def opSmallIntMaxVal : UInt8 := 16

def opDataMinVal : UInt8 := Codes.opData1

def opDataMaxVal : UInt8 := Codes.opData75

def op1NegateVal : UInt8 := 0x81

/-! ## Instructions -/

/-- What an opcode does. The data pushes, the pushes of numbers and the opcodes that only fail
form one instruction each. -/
inductive Instruction where
  | opFalse | pushData | pushNumber (number : Int) | reserved | disabled | invalid
  | opNop | opIf | opNotIf | opElse | opEndIf | opVerify | opReturn
  | opToAltStack | opFromAltStack | op2Drop | op2Dup | op3Dup | op2Over | op2Rot | op2Swap
  | opIfDup | opDepth | opDrop | opDup | opNip | opOver | opPick | opRoll | opRot | opSwap | opTuck
  | opSize | opEqual | opEqualVerify
  | op1Add | op1Sub | opNegate | opAbs | opNot | op0NotEqual | opAdd | opSub
  | opBoolAnd | opBoolOr | opNumEqual | opNumEqualVerify | opNumNotEqual | opLessThan
  | opGreaterThan | opLessThanOrEqual | opGreaterThanOrEqual | opMin | opMax | opWithin
  | opCheckSigMLDSA | opSHA256 | opCheckMultiSigECDSA | opBlake2b | opCheckSigECDSA | opCheckSig
  | opCheckSigVerify | opCheckMultiSig | opCheckMultiSigVerify
  | opCheckLockTimeVerify | opCheckSequenceVerify
  | opTxInputCount | opTxOutputCount | opTxInputIndex | opTxInputAmount | opTxInputSpk
  | opTxOutputAmount | opTxOutputSpk
  deriving DecidableEq, Repr

/-- The instructions of the codes from `OpNop` (0x61) up to `OpTxOutputSpk` (0xc3). -/
def instructions : List Instruction := [
  -- 0x61: OpNop, OpVer
  .opNop, .reserved, .opIf, .opNotIf,
  -- 0x65: OpVerIf, OpVerNotIf
  .reserved, .reserved, .opElse, .opEndIf, .opVerify, .opReturn,
  -- 0x6b
  .opToAltStack, .opFromAltStack, .op2Drop, .op2Dup, .op3Dup, .op2Over, .op2Rot, .op2Swap,
  .opIfDup, .opDepth, .opDrop, .opDup, .opNip, .opOver, .opPick, .opRoll, .opRot, .opSwap, .opTuck,
  -- 0x7e: OpCat, OpSubStr, OpLeft, OpRight
  .disabled, .disabled, .disabled, .disabled, .opSize,
  -- 0x83: OpInvert, OpAnd, OpOr, OpXor
  .disabled, .disabled, .disabled, .disabled, .opEqual, .opEqualVerify,
  -- 0x89: OpReserved1, OpReserved2
  .reserved, .reserved, .op1Add, .op1Sub,
  -- 0x8d: Op2Mul, Op2Div
  .disabled, .disabled, .opNegate, .opAbs, .opNot, .op0NotEqual, .opAdd, .opSub,
  -- 0x95: OpMul, OpDiv, OpMod, OpLShift, OpRShift
  .disabled, .disabled, .disabled, .disabled, .disabled,
  -- 0x9a
  .opBoolAnd, .opBoolOr, .opNumEqual, .opNumEqualVerify, .opNumNotEqual, .opLessThan,
  .opGreaterThan, .opLessThanOrEqual, .opGreaterThanOrEqual, .opMin, .opMax, .opWithin,
  -- 0xa6: OpUnknown166
  .invalid, .opCheckSigMLDSA, .opSHA256, .opCheckMultiSigECDSA, .opBlake2b, .opCheckSigECDSA,
  .opCheckSig, .opCheckSigVerify, .opCheckMultiSig, .opCheckMultiSigVerify,
  -- 0xb0
  .opCheckLockTimeVerify, .opCheckSequenceVerify,
  -- 0xb2: OpTxVersion
  .reserved, .opTxInputCount, .opTxOutputCount,
  -- 0xb5: OpTxLockTime, OpTxSubnetId, OpTxGas, OpTxPayload
  .reserved, .reserved, .reserved, .reserved, .opTxInputIndex,
  -- 0xba: OpOutpointTxId, OpOutpointIndex, OpTxInputScriptSig, OpTxInputSeq
  .reserved, .reserved, .reserved, .reserved, .opTxInputAmount, .opTxInputSpk,
  -- 0xc0: OpTxInputBlockDaaScore, OpTxInputIsCoinbase
  .reserved, .reserved, .opTxOutputAmount, .opTxOutputSpk]

/-- The instruction of a code. The codes above `OpTxOutputSpk` are invalid. -/
def instructionOf (code : UInt8) : Instruction :=
  if code = Codes.opFalse then .opFalse
  else if code ≤ Codes.opPushData4 then .pushData
  else if code = Codes.op1Negate then .pushNumber (-1)
  else if code = Codes.opReserved then .reserved
  else if code ≤ Codes.op16 then .pushNumber (code.toNat - Codes.opReserved.toNat)
  else (instructions[code.toNat - Codes.opNop.toNat]?).getD .invalid

/-- A property of all codes, checked one by one. -/
theorem forall_code {property : UInt8 → Prop} (hall : ∀ n < 256, property (UInt8.ofNat n))
    (code : UInt8) : property code := by
  rw [← UInt8.ofNat_toNat (x := code)]
  exact hall code.toNat code.toNat_lt

/-! ## Opcodes -/

structure OpCode where
  code : UInt8
  data : List UInt8
  deriving DecidableEq, Repr

/-- Lower-case hexadecimal digits without leading zeros. -/
def hexDigits (value : Nat) : String := String.ofList (Nat.toDigits 16 value)

/-- A byte string in hexadecimal debug form. -/
def hexDebug (bytes : List UInt8) : String :=
  "[" ++ ", ".intercalate (bytes.map fun byte => hexDigits byte.toNat) ++ "]"

namespace OpCode

variable (self : OpCode)

def value : UInt8 := self.code

def len : Nat := self.data.length

def instruction : Instruction := instructionOf self.code

/-- The debug form, which the errors about an opcode quote. -/
def debug : String :=
  "Opcode<0x" ++ hexDigits self.code.toNat ++ ">\x7b data:" ++
    toString (self.data.map (·.toNat)) ++ " \x7d"

def isDisabled : Bool :=
  [Codes.opCat, Codes.opSubStr, Codes.opLeft, Codes.opRight, Codes.opInvert, Codes.opAnd,
    Codes.opOr, Codes.opXor, Codes.op2Mul, Codes.op2Div, Codes.opMul, Codes.opDiv, Codes.opMod,
    Codes.opLShift, Codes.opRShift].contains self.code

def alwaysIllegal : Bool := [Codes.opVerIf, Codes.opVerNotIf].contains self.code

def isPushOpcode : Bool := self.code ≤ noCostOpcode

/-- Conditionals are executed in a branch that is skipped as well. -/
def isConditional : Bool := 0x63 ≤ self.code && self.code ≤ 0x68

/-- The text of the error for a push of `length` bytes that has a shorter form. -/
def notMinimal (length : Nat) (instead : String) : TxScriptError :=
  .notMinimalData ("data push of " ++ toString length ++ " bytes encoded with opcode " ++
    self.debug ++ " instead of " ++ instead)

/-- The shortest opcode for data that no opcode pushes by itself. Data of 65535 bytes or more may
use any opcode. -/
def checkDataLength : Outcome TxScriptError Unit :=
  if self.len ≤ opDataMaxVal.toNat then
    if self.code.toNat ≠ self.len then
      fail (self.notMinimal self.len ("OP_DATA_" ++ toString self.len))
    else .ok ()
  else if self.len ≤ 0xff then
    if self.code ≠ Codes.opPushData1 then fail (self.notMinimal self.len "OP_PUSHDATA1")
    else .ok ()
  else if self.len < 0xffff ∧ self.code ≠ Codes.opPushData2 then
    fail (self.notMinimal self.len "OP_PUSHDATA2")
  else .ok ()

/-- Data must be pushed by the shortest opcode for it. -/
def checkMinimalDataPush : Outcome TxScriptError Unit :=
  match self.data with
  | [] =>
    if self.code ≠ Codes.opFalse then
      fail (.notMinimalData ("zero length data push is encoded with opcode " ++ self.debug ++
        " instead of OpFalse"))
    else .ok ()
  | [byte] =>
    if opSmallIntMinVal ≤ byte ∧ byte ≤ opSmallIntMaxVal then
      if self.code ≠ Codes.opTrue + byte - 1 then
        fail (.notMinimalData ("zero length data push is encoded with opcode " ++ self.debug ++
          " instead of Op_" ++ toString byte.toNat))
      else .ok ()
    else if byte = op1NegateVal then
      if self.code ≠ Codes.op1Negate then
        fail (.notMinimalData ("data push of the value -1 encoded with opcode " ++ self.debug ++
          " instead of OP_1NEGATE"))
      else .ok ()
    else self.checkDataLength
  | _ => self.checkDataLength

end OpCode

/-! ## Parsing -/

/-- How much data follows a code: a number of bytes that the code fixes (the opcode itself
included), or a length field of a number of bytes. -/
inductive OpCodeLength where
  | fixed (length : Nat)
  | prefixed (width : Nat)
  deriving DecidableEq, Repr

def lengthOf (code : UInt8) : OpCodeLength :=
  if code ≤ Codes.opData75 then .fixed (code.toNat + 1)
  else if code = Codes.opPushData1 then .prefixed 1
  else if code = Codes.opPushData2 then .prefixed 2
  else if code = Codes.opPushData4 then .prefixed 4
  else .fixed 1

/-- Read the data of an opcode and return the rest of the script. -/
def deserialize (code : UInt8) (bytes : List UInt8) : Except TxScriptError OpCode × List UInt8 :=
  match lengthOf code with
  | .fixed length =>
    let data := bytes.take (length - 1)
    (if data.length ≠ length - 1 then .error (.malformedPush (length - 1) data.length)
      else .ok ⟨code, data⟩, bytes.drop (length - 1))
  | .prefixed width =>
    let size := bytes.take width
    if size.length = width then
      let length := LittleEndian.decode size
      let data := (bytes.drop width).take length
      (if data.length ≠ length then .error (.malformedPush length data.length)
        else .ok ⟨code, data⟩, (bytes.drop width).drop length)
    else (.error (.malformedPushSize size), bytes.drop width)

def deserializeNextOpcode : List UInt8 → Option (Except TxScriptError OpCode × List UInt8)
  | [] => none
  | code :: bytes => some (deserialize code bytes)

/-- Parse at most `count` opcodes. -/
def parseOpcodes : Nat → List UInt8 → List (Except TxScriptError OpCode)
  | 0, _ => []
  | count + 1, script =>
    match deserializeNextOpcode script with
    | none => []
    | some (opcode, rest) => opcode :: parseOpcodes count rest

/-- The opcodes of a script. Every opcode takes at least one byte. -/
def parseScript (script : List UInt8) : List (Except TxScriptError OpCode) :=
  parseOpcodes script.length script

theorem length_deserialize_le (code : UInt8) (bytes : List UInt8) :
    (deserialize code bytes).2.length ≤ bytes.length := by
  unfold deserialize
  split
  next length _ => simp
  next width _ =>
    simp only
    split
    · simp only [List.length_drop]
      omega
    · simp

/-- Induction along the opcodes of a script. -/
theorem script_induction {motive : List UInt8 → Prop} (nil : motive [])
    (cons : ∀ code bytes, motive (deserialize code bytes).2 → motive (code :: bytes))
    (script : List UInt8) : motive script := by
  induction hlength : script.length using Nat.strong_induction_on generalizing script with
  | _ length ih =>
    cases script with
    | nil => exact nil
    | cons code bytes =>
      refine cons code bytes (ih _ ?_ _ rfl)
      exact hlength ▸ Nat.lt_succ_of_le (length_deserialize_le code bytes)

/-- A budget of the script's length does not cut the parse short. -/
theorem parseOpcodes_eq {count : Nat} {script : List UInt8} (hcount : script.length ≤ count) :
    parseOpcodes count script = parseScript script := by
  induction count using Nat.strong_induction_on generalizing script with
  | _ count ih =>
    cases script with
    | nil => cases count <;> rfl
    | cons code bytes =>
      obtain ⟨count, rfl⟩ : ∃ n, count = n + 1 := ⟨count - 1, by simp at hcount; omega⟩
      have hrest := length_deserialize_le code bytes
      simp only [List.length_cons] at hcount
      simp only [parseScript, List.length_cons, parseOpcodes, deserializeNextOpcode]
      rw [ih count (by omega) (by omega), ih bytes.length (by omega) hrest]

@[simp] theorem parseScript_nil : parseScript [] = [] := rfl

/-- The next opcode, and the opcodes of what follows it. -/
theorem parseScript_cons (code : UInt8) (bytes : List UInt8) :
    parseScript (code :: bytes) =
      (deserialize code bytes).1 :: parseScript (deserialize code bytes).2 := by
  have hrest := length_deserialize_le code bytes
  rw [← parseOpcodes_eq hrest]
  rfl

end Qaspa.Script
