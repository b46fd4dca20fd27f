import Qaspa.Script.Push

/-! # Counting signature operations without executing

The counter reads a script opcode by opcode. For a multisig it takes the number of keys from the
opcode in front, if that one pushes a small number, and the largest number of keys otherwise. An
execution that succeeds checks at most as many signatures: conditionals only leave opcodes out,
and a number in front of an executed multisig is on top of the stack.
-/

namespace Qaspa.Script

open Outcome Hashing List Codes ScriptSource Nat Metered Budget TxScriptEngine OpCode

/-! ## The counter -/

/-- An opcode that a signature script may not have. -/
def isNoPush : Except TxScriptError OpCode → Bool
  | .error _ => true
  | .ok opcode => !opcode.isPushOpcode

def toSmallInt (opcode : OpCode) : Outcome Empty Nat :=
  if opcode.code = Codes.opFalse then .ok 0
  else do
    assert (Codes.opTrue ≤ opcode.code ∧ opcode.code < Codes.op16)
    return opcode.code.toNat - (Codes.opTrue.toNat - 1)

/-- The opcodes that check one signature. -/
def checksSignature (code : UInt8) : Bool :=
  code == Codes.opCheckSig || code == Codes.opCheckSigVerify || code == Codes.opCheckSigECDSA ||
    code == Codes.opCheckSigMLDSA

/-- The opcodes that check signatures for several keys. -/
def checksMultisig (code : UInt8) : Bool :=
  code == Codes.opCheckMultiSig || code == Codes.opCheckMultiSigVerify ||
    code == Codes.opCheckMultiSigECDSA

/-- The opcodes that push a number of keys. -/
def isSmallInt (code : UInt8) : Bool := Codes.opTrue ≤ code && code ≤ Codes.op16

/-- What an opcode adds to the count, given the one in front of it. Nothing is added any more
behind an opcode that could not be parsed. -/
def sigOpsOf (previous : Option (Except TxScriptError OpCode)) (opcode : OpCode) :
    Outcome Empty (Option Nat) :=
  if checksSignature opcode.code then .ok (some 1)
  else if checksMultisig opcode.code then
    match previous with
    | none => .ok (some maxPubKeysPerMultisig.toNat)
    | some (.error _) => .ok none
    | some (.ok previous) =>
      if isSmallInt previous.code then some <$> toSmallInt previous
      else .ok (some maxPubKeysPerMultisig.toNat)
  else .ok (some 0)

/-- The loop over the opcodes, with the opcode in front of them. -/
def countSigOps : Option (Except TxScriptError OpCode) → List (Except TxScriptError OpCode) → Nat →
    Outcome Empty Nat
  | _, [], numSigs => .ok numSigs
  | _, .error _ :: _, numSigs => .ok numSigs
  | previous, .ok opcode :: rest, numSigs => do
    match ← sigOpsOf previous opcode with
    | none => .ok numSigs
    | some added =>
      let numSigs ← U64.add numSigs added
      countSigOps (some (.ok opcode)) rest numSigs

def getSigOpCountByOpcodes (opcodes : List (Except TxScriptError OpCode)) : Outcome Empty Nat :=
  countSigOps none opcodes 0

def getSigOpCountUpperBound (signatureScript : List UInt8) (prevScriptPublicKey : ScriptPublicKey) :
    Outcome Empty Nat :=
  if prevScriptPublicKey.version = stealthScriptVersion then .ok 1
  else
    let scriptPubKeyOps := parseScript prevScriptPublicKey.script
    if !isPayToScriptHash prevScriptPublicKey.script then getSigOpCountByOpcodes scriptPubKeyOps
    else
      let signatureScriptOps := parseScript signatureScript
      if signatureScriptOps.isEmpty || signatureScriptOps.any isNoPush then .ok 0
      else do
        let last ← unwrap signatureScriptOps.getLast?
        let opcode ← last.mapError fun _ => Fault.panic
        getSigOpCountByOpcodes (parseScript opcode.data)

/-! ## When the counter returns -/

/-- In front of the first opcode that cannot be parsed, `Op16` stands directly before a multisig. -/
def SixteenKeys (opcodes : List (Except TxScriptError OpCode)) : Prop :=
  ∃ (before : List OpCode) (sixteen multisig : OpCode)
    (behind : List (Except TxScriptError OpCode)),
    opcodes = (before ++ [sixteen, multisig]).map .ok ++ behind ∧
      sixteen.code = Codes.op16 ∧ checksMultisig multisig.code = true

/-- The opcodes that are counted for a spent output. -/
def countedOpcodes (signatureScript : List UInt8) (prevScriptPublicKey : ScriptPublicKey) :
    List (Except TxScriptError OpCode) :=
  if prevScriptPublicKey.version = stealthScriptVersion then []
  else if !isPayToScriptHash prevScriptPublicKey.script then parseScript prevScriptPublicKey.script
  else if (parseScript signatureScript).any isNoPush then []
  else
    match (parseScript signatureScript).getLast? with
    | some (.ok opcode) => parseScript opcode.data
    | _ => []

section Returns

variable {previous : Option OpCode} {opcode : OpCode} {opcodes : List (Except TxScriptError OpCode)}
  {numSigs : Nat}

theorem sixteenKeys_error (error : TxScriptError) : ¬ SixteenKeys (.error error :: opcodes) := by
  rintro ⟨before, sixteen, multisig, behind, heq, _⟩
  cases before with
  | nil => cases heq
  | cons first before => cases heq

/-- An adjacent pair is at the front or further on. -/
theorem sixteenKeys_cons (first : OpCode) (second : Except TxScriptError OpCode) :
    SixteenKeys (.ok first :: second :: opcodes) ↔
      (first.code = op16 ∧ ∃ multisig, second = .ok multisig ∧
        checksMultisig multisig.code = true) ∨ SixteenKeys (second :: opcodes) := by
  constructor
  · rintro ⟨before, sixteen, multisig, behind, heq, hsixteen, hmultisig⟩
    cases before with
    | nil =>
      obtain ⟨rfl, rfl, _⟩ : first = sixteen ∧ second = .ok multisig ∧ opcodes = behind := by
        simpa using heq
      exact .inl ⟨hsixteen, multisig, rfl, hmultisig⟩
    | cons opcode before =>
      obtain ⟨_, hrest⟩ := cons.inj heq
      exact .inr ⟨before, sixteen, multisig, behind, hrest, hsixteen, hmultisig⟩
  · rintro (⟨hsixteen, multisig, rfl, hmultisig⟩ | ⟨before, sixteen, multisig, behind, heq, hpair⟩)
    · exact ⟨[], first, multisig, opcodes, rfl, hsixteen, hmultisig⟩
    · exact ⟨first :: before, sixteen, multisig, behind, by rw [heq]; rfl, hpair⟩

theorem not_sixteenKeys (hlength : opcodes.length < 2) : ¬ SixteenKeys opcodes := by
  rintro ⟨before, sixteen, multisig, behind, rfl, _⟩
  simp at hlength
  omega

theorem code_of_checksMultisig {code : UInt8} (hmultisig : checksMultisig code = true) :
    code = opCheckMultiSig ∨ code = opCheckMultiSigVerify ∨
      code = opCheckMultiSigECDSA := by
  simpa [checksMultisig, or_assoc] using hmultisig

/-- The opcodes for small numbers push a single byte. -/
theorem smallInt_pushes (hsmall : isSmallInt opcode.code = true) :
    opcode.isPushOpcode = true ∧ opcode.pushedItem = [opcode.code - opReserved] := by
  obtain ⟨hlow, hhigh⟩ : opTrue ≤ opcode.code ∧ opcode.code ≤ op16 := by
    simpa [isSmallInt] using hsmall
  have hdata : ¬ opcode.code ≤ opPushData4 := fun hle =>
    absurd (UInt8.le_trans hlow hle) (by decide)
  have hnegate : opcode.code ≠ op1Negate := by
    intro hcode
    rw [hcode] at hlow
    exact absurd hlow (by decide)
  refine ⟨decide_eq_true hhigh, ?_⟩
  rw [pushedItem, if_neg hdata, if_neg hnegate]

/-- The number that is read from that byte, and the one the opcode is converted to. -/
theorem smallInt_value : ∀ code : UInt8, isSmallInt code = true →
    deserializeInt [code - opReserved] = .ok (code.toNat - opReserved.toNat : Nat) ∧
      (code = op16 ∨ toSmallInt ⟨code, []⟩ = .ok (code.toNat - opReserved.toNat)) ∧
      code.toNat - opReserved.toNat ≤ maxPubKeysPerMultisig.toNat :=
  forall_code (by decide +kernel)

theorem toSmallInt_of_isSmallInt (hsmall : isSmallInt opcode.code = true)
    (hne : opcode.code ≠ op16) :
    toSmallInt opcode = .ok (opcode.code.toNat - opReserved.toNat) ∧
      opcode.code.toNat - opReserved.toNat ≤ maxPubKeysPerMultisig.toNat := by
  obtain ⟨_, hvalue, hle⟩ := smallInt_value opcode.code hsmall
  exact ⟨hvalue.resolve_left hne, hle⟩

/-- The range that `to_small_int` asserts leaves out the last opcode that is passed to it. -/
theorem toSmallInt_op16 (hcode : opcode.code = op16) : toSmallInt opcode = .error .panic := by
  rw [toSmallInt, hcode]
  rfl

theorem sigOpsOf_multisig (hmultisig : checksMultisig opcode.code = true)
    (previous : Option (Except TxScriptError OpCode)) :
    sigOpsOf previous opcode =
      match previous with
      | none => .ok (some maxPubKeysPerMultisig.toNat)
      | some (.error _) => .ok none
      | some (.ok previous) =>
        if isSmallInt previous.code then some <$> toSmallInt previous
        else .ok (some maxPubKeysPerMultisig.toNat) := by
  have hdisjoint : ¬ checksSignature opcode.code = true := by
    rcases code_of_checksMultisig hmultisig with hcode | hcode | hcode <;> rw [hcode] <;> decide
  exact (if_neg hdisjoint).trans (if_pos hmultisig)

/-- What one opcode adds: at most the largest number of keys, unless `Op16` is in front of a
multisig. -/
theorem sigOpsOf_cases (previous : Option OpCode) (opcode : OpCode) :
    (checksMultisig opcode.code = true ∧ (∃ sixteen ∈ previous, sixteen.code = op16) ∧
      sigOpsOf (previous.map .ok) opcode = .error .panic) ∨
    (¬ (checksMultisig opcode.code = true ∧ ∃ sixteen ∈ previous, sixteen.code = op16) ∧
      ∃ added ≤ maxPubKeysPerMultisig.toNat,
        sigOpsOf (previous.map .ok) opcode = .ok (some added)) := by
  by_cases hmultisig : checksMultisig opcode.code = true
  · rw [sigOpsOf_multisig hmultisig]
    cases previous with
    | none => exact .inr ⟨by simp, _, le_refl _, rfl⟩
    | some previous =>
      by_cases hsixteen : previous.code = op16
      · refine .inl ⟨hmultisig, ⟨previous, rfl, hsixteen⟩, ?_⟩
        have hsmall : isSmallInt previous.code = true := by rw [hsixteen]; rfl
        simp only [Option.map_some, if_pos hsmall, toSmallInt_op16 hsixteen]
        rfl
      · refine .inr ⟨by simpa [hmultisig] using hsixteen, ?_⟩
        by_cases hsmall : isSmallInt previous.code = true
        · obtain ⟨hvalue, hle⟩ := toSmallInt_of_isSmallInt hsmall hsixteen
          refine ⟨_, hle, ?_⟩
          simp only [Option.map_some, if_pos hsmall, hvalue]
          rfl
        · exact ⟨_, le_refl _, if_neg hsmall⟩
  · refine .inr ⟨fun h => hmultisig h.1, ?_⟩
    by_cases hsignature : checksSignature opcode.code = true
    · exact ⟨1, by decide, if_pos hsignature⟩
    · exact ⟨0, by decide, (if_neg hsignature).trans (if_neg hmultisig)⟩

/-- The loop returns unless it meets `Op16` before a multisig. -/
theorem countSigOps_returns_iff (hroom : numSigs + 20 * opcodes.length < wordBound 64) :
    (∃ count, countSigOps (previous.map .ok) opcodes numSigs = .ok count) ↔
      ¬ SixteenKeys (previous.toList.map .ok ++ opcodes) := by
  induction opcodes generalizing previous numSigs with
  | nil =>
    refine ⟨fun _ => ?_, fun _ => ⟨numSigs, by cases previous <;> rfl⟩⟩
    cases previous with
    | none | some => exact not_sixteenKeys (by simp)
  | cons opcode rest ih =>
    cases opcode with
    | error error =>
      refine ⟨fun _ => ?_, fun _ => ⟨numSigs, by cases previous <;> rfl⟩⟩
      cases previous with
      | none => exact sixteenKeys_error error
      | some previous =>
        rintro hpair
        rcases (sixteenKeys_cons previous _).mp hpair with ⟨_, _, hok, _⟩ | hrest
        · cases hok
        · exact sixteenKeys_error error hrest
    | ok opcode =>
      rw [countSigOps]
      rcases sigOpsOf_cases previous opcode with
        ⟨hmultisig, ⟨sixteen, hsixteen, hcode⟩, hpanic⟩ | ⟨hpair, added, hadded, hok⟩
      · obtain rfl : previous = some sixteen := hsixteen
        rw [hpanic]
        refine ⟨fun ⟨_, hcount⟩ => (nomatch hcount), fun hnone => absurd ?_ hnone⟩
        exact (sixteenKeys_cons sixteen _).mpr (.inl ⟨hcode, opcode, rfl, hmultisig⟩)
      · have hadded : added ≤ 20 := hadded
        rw [length_cons] at hroom
        have hsum : (U64.add numSigs added : Outcome Empty Nat) = .ok (numSigs + added) :=
          U64.add_eq_ok.mpr ⟨by omega, rfl⟩
        have hrest := @ih (some opcode) (numSigs + added) (by omega)
        rw [hok]
        simp only [ok_bind, hsum]
        rw [← Option.map_some, hrest, not_iff_not]
        cases previous with
        | none => exact Iff.rfl
        | some previous =>
          refine ⟨fun h => (sixteenKeys_cons previous _).mpr (.inr h), fun h => ?_⟩
          rcases (sixteenKeys_cons previous _).mp h with ⟨hcode, multisig, heq, hmultisig⟩ | h
          · cases heq
            exact absurd ⟨hmultisig, previous, rfl, hcode⟩ hpair
          · exact h

theorem length_data_le_serialize (opcode : OpCode) :
    opcode.data.length ≤ opcode.serialize.length := by
  unfold serialize
  split
  · simp
  · simp only [length_cons, length_append]
    omega

theorem length_parseScript_le (script : List UInt8) :
    (parseScript script).length ≤ script.length := by
  induction script using script_induction with
  | nil => exact zero_le _
  | cons code bytes ih =>
    have hrest := length_deserialize_le code bytes
    rw [parseScript_cons, length_cons, length_cons]
    omega

/-- What is read from a script is well formed and no longer than the script. -/
theorem wellFormed_of_mem_parseScript {script : List UInt8}
    (hmem : .ok opcode ∈ parseScript script) :
    opcode.WellFormed ∧ opcode.data.length ≤ script.length := by
  induction script using script_induction with
  | nil => cases hmem
  | cons code bytes ih =>
    have hrest := length_deserialize_le code bytes
    rw [parseScript_cons] at hmem
    rw [length_cons]
    rcases mem_cons.mp hmem with hread | hmem
    · obtain ⟨hopcode, hbytes⟩ := serialize_of_deserialize hread.symm
      refine ⟨hopcode, ?_⟩
      have hserialize := length_data_le_serialize opcode
      have hsum := congrArg length hbytes
      rw [length_append, length_cons] at hsum
      omega
    · obtain ⟨hopcode, hdata⟩ := ih hmem
      exact ⟨hopcode, by omega⟩

theorem getSigOpCountUpperBound_eq (signatureScript : List UInt8)
    (prevScriptPublicKey : ScriptPublicKey)
    (hversion : prevScriptPublicKey.version ≠ stealthScriptVersion) :
    getSigOpCountUpperBound signatureScript prevScriptPublicKey =
      getSigOpCountByOpcodes (countedOpcodes signatureScript prevScriptPublicKey) := by
  rw [getSigOpCountUpperBound, countedOpcodes, if_neg hversion, if_neg hversion]
  simp only
  split
  · rfl
  · by_cases hpush : (parseScript signatureScript).any isNoPush = true
    · rw [if_pos (by rw [hpush, Bool.or_true]), if_pos hpush]
      rfl
    · rw [if_neg hpush]
      cases hlast : (parseScript signatureScript).getLast? with
      | none =>
        rw [getLast?_eq_none_iff.mp hlast]
        rfl
      | some last =>
        have hmem := mem_of_getLast? hlast
        have hne : (parseScript signatureScript).isEmpty = false := by
          simpa using ne_nil_of_mem hmem
        rw [if_neg (by rw [hne, Bool.false_or]; exact hpush)]
        cases last with
        | error error =>
          exact absurd (any_eq_true.mpr ⟨_, hmem, rfl⟩) hpush
        | ok opcode => rfl

theorem length_countedOpcodes_lt {signatureScript : List UInt8}
    {prevScriptPublicKey : ScriptPublicKey} {bound : Nat}
    (hsignature : signatureScript.length < bound)
    (hscript : prevScriptPublicKey.script.length < bound) :
    (countedOpcodes signatureScript prevScriptPublicKey).length < bound := by
  have hpos : 0 < bound := zero_lt_of_lt hscript
  unfold countedOpcodes
  split_ifs
  · exact hpos
  · exact (length_parseScript_le _).trans_lt hscript
  · exact hpos
  split
  next opcode hlast =>
    obtain ⟨_, hdata⟩ := wellFormed_of_mem_parseScript (mem_of_getLast? hlast)
    have hle := length_parseScript_le opcode.data
    omega
  · exact hpos

/-- The counter returns exactly if it does not meet `Op16` before a multisig opcode. -/
theorem getSigOpCountUpperBound_returns_iff (signatureScript : List UInt8)
    (prevScriptPublicKey : ScriptPublicKey) (hsignature : signatureScript.length < 2 ^ 59)
    (hscript : prevScriptPublicKey.script.length < 2 ^ 59) :
    (∃ count, getSigOpCountUpperBound signatureScript prevScriptPublicKey = .ok count) ↔
      ¬ SixteenKeys (countedOpcodes signatureScript prevScriptPublicKey) := by
  by_cases hversion : prevScriptPublicKey.version = stealthScriptVersion
  · rw [getSigOpCountUpperBound, countedOpcodes, if_pos hversion, if_pos hversion]
    exact ⟨fun _ => not_sixteenKeys Nat.zero_lt_two, fun _ => ⟨1, rfl⟩⟩
  · have hlength := length_countedOpcodes_lt hsignature hscript
    have hroom : 0 + 20 * (countedOpcodes signatureScript prevScriptPublicKey).length <
        wordBound 64 := by
      rw [wordBound]
      omega
    rw [getSigOpCountUpperBound_eq signatureScript prevScriptPublicKey hversion]
    exact @countSigOps_returns_iff none _ 0 hroom

/-- A redeem script that asks for sixteen keys makes the counter panic. -/
theorem getSigOpCountUpperBound_panics :
    getSigOpCountUpperBound [0x02, 0x60, 0xae]
      ⟨0, [0xaa, 0x20] ++ List.replicate 32 0 ++ [0x87]⟩ = .error .panic := by
  rfl

/-- A redeem script that asks for two keys counts two. -/
theorem getSigOpCountUpperBound_returns_iff_two :
    getSigOpCountUpperBound [0x02, 0x52, 0xae]
        ⟨0, [0xaa, 0x20] ++ List.replicate 32 0 ++ [0x87]⟩ = .ok 2 ∧
      ¬ SixteenKeys (countedOpcodes [0x02, 0x52, 0xae]
        ⟨0, [0xaa, 0x20] ++ List.replicate 32 0 ++ [0x87]⟩) := by
  have hcount : getSigOpCountUpperBound [0x02, 0x52, 0xae]
      ⟨0, [0xaa, 0x20] ++ List.replicate 32 0 ++ [0x87]⟩ = .ok 2 := by rfl
  exact ⟨hcount, (getSigOpCountUpperBound_returns_iff _ _ (by decide) (by decide)).mp ⟨2, hcount⟩⟩

end Returns

/-! ## Executions within the count -/

namespace TxScriptEngine

variable {crypto : Crypto} {source : ScriptSource} {vm vm' last : TxScriptEngine} {opcode : OpCode}
  {verifyOnlyPush : Bool} {counter counter' : RuntimeSigOpCounter} {previous : Option OpCode}
  {opcodes : List (Except TxScriptError OpCode)}

/-- A small number that was pushed by the opcode in front is on top of the stack. -/
def ShowsNumber (previous : Option OpCode) (vm : TxScriptEngine) : Prop :=
  ∀ opcode ∈ previous, isSmallInt opcode.code = true → vm.isExecuting = true →
    ∃ below, vm.dstack = below ++ [[opcode.code - Codes.opReserved]]

variable {code : UInt8}

section

variable (hstep : step crypto source verifyOnlyPush vm (.ok opcode) counter = (.ok vm', counter'))

include hstep

variable (hvm : WithinLimit vm)

include hvm

/-- What a step returns is what its opcode returned, on the state in which it was counted. -/
theorem counted_of_step : ∃ numOps, WithinLimit { vm with numOps } ∧
    (if vm.isExecuting || opcode.isConditional then do
      call (if 0 < opcode.value ∧ opcode.value ≤ 0x4e then opcode.checkMinimalDataPush else .ok ())
      execute crypto source opcode { vm with numOps }
    else return { vm with numOps }) counter = (.ok vm', counter') := by
  obtain ⟨_, hparsed, hstep⟩ := call_bind_eq_ok.mp hstep
  cases hparsed
  obtain ⟨_, _, hstep⟩ := call_bind_eq_ok.mp hstep
  obtain ⟨executed, counter'', hexecute, hend⟩ := bind_eq_ok.mp hstep
  obtain ⟨counted, hcounted, hexecute⟩ := call_bind_eq_ok.mp hexecute
  have hreturns := countOpcode_returns opcode hvm
  rw [hcounted] at hreturns
  obtain ⟨rfl, hlimit⟩ := hreturns.of_ok
  split at hend
  · cases hend
  · cases hend
    exact ⟨_, hlimit, hexecute⟩

/-- In a skipped branch a push does nothing. -/
theorem step_skipped (hpush : opcode.isPushOpcode = true) (hskip : vm.isExecuting = false) :
    vm'.isExecuting = false := by
  have hconditional : opcode.isConditional = false := by
    have hcode : opcode.code ≤ noCostOpcode := of_decide_eq_true hpush
    have hlow : ¬ (0x63 : UInt8) ≤ opcode.code := fun hle =>
      absurd (UInt8.le_trans hle hcode) (by decide)
    rw [isConditional, decide_eq_false hlow, Bool.false_and]
  obtain ⟨_, _, hexecute⟩ := counted_of_step hstep hvm
  rw [hskip, hconditional, Bool.or_false, if_neg Bool.false_ne_true] at hexecute
  cases hexecute
  exact hskip

/-- The number that an opcode pushed is on top afterwards. -/
theorem step_showsNumber (hopcode : opcode.WellFormed) : ShowsNumber (some opcode) vm' := by
  intro pushed hpushed hsmall hexecuting
  obtain rfl : opcode = pushed := Option.some.inj hpushed
  obtain ⟨hpush, hitem⟩ := smallInt_pushes hsmall
  cases hbefore : vm.isExecuting with
  | false =>
    rw [step_skipped hstep hvm hpush hbefore] at hexecuting
    cases hexecuting
  | true =>
    rw [step_push hopcode hpush hbefore] at hstep
    obtain ⟨_, _, rfl⟩ := (pushStep_eq_ok hpush).mp (Prod.mk.inj hstep).1
    exact ⟨vm.dstack, by rw [hitem]⟩

omit hstep in
theorem keysOnTop_le_of_multisig {check : SigHashType → List UInt8 → List UInt8 → Run Bool}
    (hrun : opCheckMultisigSchnorrOrEcdsa check vm counter = (.ok vm', counter')) :
    keysOnTop vm.dstack ≤ maxPubKeysPerMultisig.toNat := by
  obtain ⟨operands, hoperands, _⟩ := call_bind_eq_ok.mp hrun
  have hreturns := multisigOperands_returns hvm
  rw [hoperands] at hreturns
  obtain ⟨_, _, _, _, hle⟩ := hreturns.of_ok
  exact Int.le_toNat (by decide) |>.mpr hle

/-- A multisig that succeeds has no more keys than allowed. -/
theorem keysOnTop_le_of_step (hmultisig : checksMultisig opcode.code = true)
    (hexecuting : vm.isExecuting = true) :
    keysOnTop vm.dstack ≤ maxPubKeysPerMultisig.toNat := by
  obtain ⟨numOps, hlimit, hexecute⟩ := counted_of_step hstep hvm
  rw [hexecuting, Bool.true_or, if_pos rfl] at hexecute
  obtain ⟨_, _, hexecute⟩ := call_bind_eq_ok.mp hexecute
  rw [execute, instruction] at hexecute
  change keysOnTop { vm with numOps }.dstack ≤ _
  rcases code_of_checksMultisig hmultisig with hcode | hcode | hcode
  · rw [hcode, show instructionOf opCheckMultiSig = .opCheckMultiSig from rfl] at hexecute
    exact keysOnTop_le_of_multisig hlimit hexecute
  · rw [hcode, show instructionOf opCheckMultiSigVerify = .opCheckMultiSigVerify from rfl]
      at hexecute
    obtain ⟨checked, _, hchecked, _⟩ := bind_eq_ok.mp hexecute
    exact keysOnTop_le_of_multisig hlimit hchecked
  · rw [hcode, show instructionOf opCheckMultiSigECDSA = .opCheckMultiSigECDSA from rfl]
      at hexecute
    exact keysOnTop_le_of_multisig hlimit hexecute

end

/-- The other opcodes check no signatures. -/
theorem signatureChecks_of_not_checks (hsignature : ¬ checksSignature code = true)
    (hmultisig : ¬ checksMultisig code = true) (stack : Stack) :
    (instructionOf code).signatureChecks stack = 0 := by
  have hall : ∀ code : UInt8, ¬ checksSignature code = true → ¬ checksMultisig code = true →
      (instructionOf code).signatureChecks [[2]] = 0 := forall_code (by decide +kernel)
  -- an instruction that checks no signature with two keys on top checks none at all
  have hzero := hall code hsignature hmultisig
  generalize instructionOf code = instruction at hzero
  cases instruction <;> first | rfl | exact absurd hzero (by decide)

/-- The signatures that an instruction may check, by its opcode. -/
theorem signatureChecks_of_code (code : UInt8) (stack : Stack) :
    (instructionOf code).signatureChecks stack =
      if checksSignature code then 1 else if checksMultisig code then keysOnTop stack else 0 := by
  by_cases hsignature : checksSignature code = true
  · rw [if_pos hsignature]
    simp only [checksSignature, Bool.or_eq_true, beq_iff_eq] at hsignature
    rcases hsignature with ((rfl | rfl) | rfl) | rfl <;> rfl
  · rw [if_neg hsignature]
    by_cases hmultisig : checksMultisig code = true
    · rw [if_pos hmultisig]
      rcases code_of_checksMultisig hmultisig with rfl | rfl | rfl <;> rfl
    · rw [if_neg hmultisig]
      exact signatureChecks_of_not_checks hsignature hmultisig stack

/-- An opcode that succeeds checks at most as many signatures as are counted for it. -/
theorem signatureChecks_le {added : Nat} (hvm : WithinLimit vm) (hshows : ShowsNumber previous vm)
    (hstep : step crypto source verifyOnlyPush vm (.ok opcode) counter = (.ok vm', counter'))
    (hadded : sigOpsOf (previous.map .ok) opcode = .ok (some added)) :
    signatureChecks vm opcode ≤ added := by
  by_cases hexecuting : vm.isExecuting = true
  · rw [signatureChecks, if_pos hexecuting, instruction, signatureChecks_of_code]
    by_cases hsignature : checksSignature opcode.code = true
    · have hone : sigOpsOf (previous.map .ok) opcode = .ok (some 1) := if_pos hsignature
      rw [hone] at hadded
      cases hadded
      rw [if_pos hsignature]
    · rw [if_neg hsignature]
      by_cases hmultisig : checksMultisig opcode.code = true
      · rw [if_pos hmultisig]
        have hlimit := keysOnTop_le_of_step hstep hvm hmultisig hexecuting
        rw [sigOpsOf_multisig hmultisig] at hadded
        cases previous with
        | none =>
          cases hadded
          exact hlimit
        | some previous =>
          simp only [Option.map_some] at hadded
          by_cases hsmall : isSmallInt previous.code = true
          · rw [if_pos hsmall] at hadded
            obtain ⟨below, hstack⟩ := hshows previous rfl hsmall hexecuting
            rw [hstack, keysOnTop, popItems_concat, (smallInt_value _ hsmall).1]
            by_cases hsixteen : previous.code = op16
            · rw [toSmallInt_op16 hsixteen] at hadded
              cases hadded
            · rw [(toSmallInt_of_isSmallInt hsmall hsixteen).1] at hadded
              cases hadded
              exact le_refl _
          · rw [if_neg hsmall] at hadded
            cases hadded
            exact hlimit
      · rw [if_neg hmultisig]
        exact zero_le _
  · rw [signatureChecks, if_neg hexecuting]
    exact zero_le _

/-- Over a stretch of opcodes the count covers the signatures that are checked. -/
theorem Reaches.sigOps_le {count numSigs total : Nat}
    (hreaches : Reaches crypto source verifyOnlyPush vm counter opcodes count last counter')
    (hvm : WithinLimit vm) (hshows : ShowsNumber previous vm)
    (hopcodes : ∀ opcode, .ok opcode ∈ opcodes → opcode.WellFormed)
    (hcount : countSigOps (previous.map .ok) opcodes numSigs = .ok total) :
    ∃ draws ≤ counter.remaining, counter' = counter.spend draws ∧ numSigs + draws ≤ total := by
  induction hreaches generalizing previous numSigs with
  | nil vm counter =>
    have htotal : numSigs = total := by
      cases previous <;> exact Except.ok.inj hcount
    exact ⟨0, zero_le _, rfl, htotal.le⟩
  | @cons vm middle last counter counter' counter'' opcode rest count hstep hrest ih =>
    have hopcode := hopcodes opcode (.head _ ..)
    obtain ⟨draws, hdraws, rfl, hle, hreturns⟩ :=
      Metered.Spec.of_eq_ok (step_runs crypto source verifyOnlyPush opcode hvm) hstep
    rw [countSigOps] at hcount
    rcases sigOpsOf_cases previous opcode with ⟨_, _, hpanic⟩ | ⟨_, added, _, hok⟩
    · rw [hpanic] at hcount
      cases hcount
    · rw [hok, ok_bind] at hcount
      obtain ⟨sum, hsum, hcount⟩ := bind_eq_ok.mp hcount
      obtain ⟨_, rfl⟩ := U64.add_eq_ok.mp hsum
      have hchecks := signatureChecks_le hvm hshows hstep hok
      obtain ⟨draws', hdraws', rfl, htotal⟩ := @ih (some opcode) (numSigs + added)
        hreturns.of_ok.1.2 (step_showsNumber hstep hvm hopcode)
        (fun opcode hmem => hopcodes opcode (.tail _ hmem)) hcount
      rw [spend_remaining] at hdraws'
      exact ⟨draws + draws', by omega, spend_spend _ _ _, by omega⟩

variable {script : List UInt8}

/-- The signatures that a script checks are within its count. -/
theorem executeScript_sigOps_le {total : Nat} (hvm : vm.numOps = 0)
    (hrun : executeScript crypto source script verifyOnlyPush vm counter = (.ok vm', counter'))
    (hcount : getSigOpCountByOpcodes (parseScript script) = .ok total) :
    ∃ draws ≤ counter.remaining, counter' = counter.spend draws ∧ draws ≤ total := by
  obtain ⟨_, count, last, hreaches, _⟩ := executeScript_balanced hrun
  have hcount : countSigOps ((none : Option OpCode).map .ok) (parseScript script) 0 = .ok total :=
    hcount
  obtain ⟨draws, hdraws, hspent, htotal⟩ := hreaches.sigOps_le (withinLimit_of_zero hvm)
    (fun opcode hnone => absurd hnone (Option.not_mem_none opcode))
    (fun _ hmem => (wellFormed_of_mem_parseScript hmem).1) hcount
  exact ⟨draws, hdraws, hspent, by omega⟩

variable {items : Stack}

/-- The script of the spent output, on what the signature script left. -/
theorem runScripts_second {isP2sh : Bool} {savedStack : Option Stack}
    (hrun : runScripts crypto source isP2sh { new with dstack := items } none
      [(script, 1)] counter = (.ok (vm, savedStack), counter')) :
    executeScript crypto source script false { new with dstack := items } counter =
        (.ok vm, counter') ∧
      (script ≠ [] → isP2sh = true → savedStack = some items) := by
  cases script with
  | nil =>
    cases hrun
    exact ⟨rfl, fun hne => absurd rfl hne⟩
  | cons code bytes =>
    obtain ⟨second, counter'', hsecond, hend⟩ := bind_eq_ok.mp hrun
    cases hend
    refine ⟨hsecond, fun _ hp2sh => ?_⟩
    rw [hp2sh]
    rfl

/-- The signature script and the script of the spent output, one after the other. -/
theorem runScripts_pair {isP2sh : Bool} {signatureScript : List UInt8} {savedStack : Option Stack}
    (hsource : isTxInput source = true)
    (hrun : runScripts crypto source isP2sh .new none [signatureScript, script].zipIdx counter =
      (.ok (vm, savedStack), counter')) :
    ∃ items : Stack, signatureScript = items.flatMap (addRawData []) ∧
      (∀ item ∈ items, item.length ≤ maxScriptElementSize) ∧
      executeScript crypto source script false { new with dstack := items } counter =
        (.ok vm, counter') ∧
      (script ≠ [] → isP2sh = true → savedStack = some items) := by
  cases signatureScript with
  | nil => exact ⟨[], rfl, by simp, runScripts_second hrun⟩
  | cons code bytes =>
    obtain ⟨signed, counter'', hsigned, hrest⟩ := bind_eq_ok.mp hrun
    have honly : (0 == 0 && isTxInput source) = true := by rw [hsource]; rfl
    rw [honly] at hsigned
    obtain ⟨hscript, hitems, hvm, rfl⟩ := executeScript_push_only hsigned
    rw [hvm, if_neg (by simp)] at hrest
    exact ⟨signed.dstack, hscript, hitems, runScripts_second hrest⟩

/-- A script that pays to a script hash, by its opcodes. -/
theorem parseScript_p2sh (hp2sh : isPayToScriptHash script = true) :
    ∃ hash, parseScript script =
      [.ok ⟨Codes.opBlake2b, []⟩, .ok ⟨Codes.opData32, hash⟩, .ok ⟨Codes.opEqual, []⟩] := by
  simp only [isPayToScriptHash, Bool.and_eq_true, beq_iff_eq] at hp2sh
  obtain ⟨⟨⟨hlength, hfirst⟩, hsecond⟩, hlast⟩ := hp2sh
  match script with
  | [] => cases hlength
  | [_] => cases hlength
  | first :: second :: rest =>
    rcases eq_nil_or_concat rest with rfl | ⟨hash, last, rfl⟩
    · cases hlength
    · have hhash : hash.length = 32 := by simpa using hlength
      obtain rfl : first = opBlake2b := by simpa using hfirst
      obtain rfl : second = opData32 := by simpa using hsecond
      obtain rfl : last = Codes.opEqual := by simpa [hhash] using hlast
      have hbytes : Codes.opBlake2b :: Codes.opData32 :: (hash ++ [Codes.opEqual]) =
          (⟨Codes.opBlake2b, []⟩ : OpCode).serialize ++ ((⟨Codes.opData32, hash⟩ : OpCode).serialize
            ++ ((⟨Codes.opEqual, []⟩ : OpCode).serialize ++ [])) := rfl
      refine ⟨hash, ?_⟩
      rw [concat_eq_append, hbytes, parseScript_serialize (by exact rfl),
        parseScript_serialize (by exact hhash), parseScript_serialize (by exact rfl),
          parseScript_nil]

/-- A redeem script that was pushed by an opcode without data cannot succeed. -/
theorem executeScript_number {byte : UInt8}
    (hbyte : (opSmallIntMinVal ≤ byte ∧ byte ≤ opSmallIntMaxVal) ∨ byte = op1NegateVal) :
    executeScript crypto source [byte] verifyOnlyPush vm counter ≠ (.ok vm', counter') := by
  have hall : ∀ byte : UInt8,
      (opSmallIntMinVal ≤ byte ∧ byte ≤ opSmallIntMaxVal) ∨ byte = op1NegateVal →
      (parseScript [byte]).head?.any (fun
        | .error _ => true
        | .ok opcode => opcode.isDisabled) = true := forall_code (by decide +kernel)
  obtain ⟨first, hfirst, hfails⟩ := (Option.any_eq_true _ _).mp (hall byte hbyte)
  obtain ⟨rest, hparsed⟩ : ∃ rest, parseScript [byte] = first :: rest :=
    head?_eq_some_iff.mp hfirst
  intro hrun
  obtain ⟨_, _, hopcodes, _⟩ := bind_eq_ok.mp hrun
  rw [hparsed] at hopcodes
  obtain ⟨_, _, hstep, _⟩ := bind_eq_ok.mp hopcodes
  cases first with
  | error error => cases hstep
  | ok opcode =>
    obtain ⟨_, hopcode, hstep⟩ := call_bind_eq_ok.mp hstep
    cases hopcode
    obtain ⟨_, hcheck, _⟩ := call_bind_eq_ok.mp hstep
    rw [checkOpcode, if_pos hfails] at hcheck
    cases hcheck

/-- The data of a canonical opcode is the item it pushes, unless it pushes a number. -/
theorem pushOpcode_data (item : List UInt8) :
    (pushOpcode item).data = item ∨ ∃ byte, item = [byte] ∧
      ((opSmallIntMinVal ≤ byte ∧ byte ≤ opSmallIntMaxVal) ∨ byte = op1NegateVal) := by
  have hdata : ∀ data, (dataOpcode data).data = data := by
    intro data
    unfold dataOpcode
    split_ifs <;> rfl
  match item with
  | [] => exact .inl rfl
  | [byte] =>
    by_cases hsmall : opSmallIntMinVal ≤ byte ∧ byte ≤ opSmallIntMaxVal
    · exact .inr ⟨byte, rfl, .inl hsmall⟩
    · by_cases hnegate : byte = op1NegateVal
      · exact .inr ⟨byte, rfl, .inr hnegate⟩
      · refine .inl ?_
        rw [pushOpcode, if_neg hsmall, if_neg hnegate, hdata]
  | first :: second :: rest => exact .inl (hdata _)

variable {prevScriptPublicKey : ScriptPublicKey}

/-- The opcodes that are counted behind a script hash are those of the item that the signature
script pushed last. -/
theorem countedOpcodes_p2sh {redeem : List UInt8}
    (hversion : prevScriptPublicKey.version ≠ stealthScriptVersion)
    (hp2sh : isPayToScriptHash prevScriptPublicKey.script = true)
    (hitems : ∀ item ∈ items ++ [redeem], item.length ≤ maxScriptElementSize) :
    countedOpcodes ((items ++ [redeem]).flatMap (addRawData [])) prevScriptPublicKey =
      parseScript (pushOpcode redeem).data := by
  have hpush : ((items ++ [redeem]).map fun item => Except.ok (pushOpcode item)).any isNoPush =
      false := by
    rw [any_map, any_eq_false]
    intro item hitem
    have haccepted := (accepted_pushOpcode (hitems item hitem)).1
    simp [isNoPush, haccepted.push]
  have hlast : ((items ++ [redeem]).map fun item =>
      (Except.ok (pushOpcode item) : Except TxScriptError OpCode)).getLast? =
        some (.ok (pushOpcode redeem)) := by
    rw [map_append, map_singleton, getLast?_concat]
  rw [countedOpcodes, if_neg hversion, if_neg (by rw [hp2sh]; decide), parseScript_canonical hitems,
    if_neg (by rw [hpush]; decide), hlast]

/-- The redeem script of a payment to a script hash stays within the count as well. -/
theorem runAll_sigOps_le {signatureScript : List UInt8} {bound : Nat}
    (hsource : isTxInput source = true)
    (hversion : prevScriptPublicKey.version ≠ stealthScriptVersion)
    (hrun : runAll crypto source [signatureScript, prevScriptPublicKey.script]
      (isPayToScriptHash prevScriptPublicKey.script) counter = (.ok vm, counter'))
    (hbound : getSigOpCountUpperBound signatureScript prevScriptPublicKey = .ok bound) :
    ∃ draws ≤ counter.remaining, counter' = counter.spend draws ∧ draws ≤ bound := by
  obtain ⟨⟨matched, savedStack⟩, counter'', hscripts, hend⟩ := bind_eq_ok.mp hrun
  obtain ⟨items, rfl, hitems, hscript, hsaved⟩ := runScripts_pair hsource hscripts
  rw [getSigOpCountUpperBound_eq _ _ hversion] at hbound
  cases hp2sh : isPayToScriptHash prevScriptPublicKey.script with
  | false =>
    rw [hp2sh] at hend
    cases hend
    rw [countedOpcodes, if_neg hversion, if_pos (by rw [hp2sh]; rfl)] at hbound
    exact executeScript_sigOps_le rfl hscript hbound
  | true =>
    have hne : prevScriptPublicKey.script ≠ [] := by
      intro hnil
      rw [hnil] at hp2sh
      cases hp2sh
    obtain rfl := hsaved hne hp2sh
    rw [hp2sh] at hend
    obtain ⟨checked, hchecked, hredeem⟩ := call_bind_eq_ok.mp hend
    have hreturns := checkErrorCondition_returns false matched
    rw [hchecked] at hreturns
    have hops := hreturns.of_ok.2.trans (executeScript_balanced hscript).1
    -- The script of the output checks no signature, so the redeem script starts with the counter.
    obtain ⟨hash, hparsed⟩ := parseScript_p2sh hp2sh
    obtain ⟨draws, _, rfl, hdraws⟩ := executeScript_sigOps_le rfl hscript
      (show getSigOpCountByOpcodes _ = .ok 0 by rw [hparsed]; rfl)
    obtain rfl : draws = 0 := le_zero.mp hdraws
    rw [spend_zero] at hredeem
    rcases eq_nil_or_concat items with rfl | ⟨below, redeem, rfl⟩
    · cases hredeem
    · rw [concat_eq_append] at hitems hbound hredeem
      simp only [getLast?_concat, dropLast_concat] at hredeem
      rw [countedOpcodes_p2sh hversion hp2sh hitems] at hbound
      rcases pushOpcode_data redeem with hdata | ⟨byte, rfl, hbyte⟩
      · rw [hdata] at hbound
        exact executeScript_sigOps_le (by exact hops) hredeem hbound
      · exact absurd hredeem (executeScript_number hbyte)

end TxScriptEngine

/-! ## Limits on the signature operations of an input -/

/-- Build the engine for an input and execute its scripts. -/
def TxScriptEngine.executeInput (crypto : Crypto) (tx : VerifiableTransaction)
    (input : TransactionInput) (inputIdx : Nat) (utxoEntry : UtxoEntry) :
    Outcome TxScriptError Unit × RuntimeSigOpCounter :=
  let counter := .new input.sigOpCount.toNat
  match ScriptSource.fromTransactionInput tx input inputIdx utxoEntry with
  | .error fault => (.error fault, counter)
  | .ok source => source.executeSource crypto counter

/-! The scripts see the input that they belong to, but not its number of signature operations. -/

section SigOpCount

variable {crypto : Crypto} {source source' : ScriptSource}

namespace TxScriptEngine

section

variable (hstep : step crypto source = step crypto source')

include hstep

theorem runOpcodes_congr : runOpcodes crypto source = runOpcodes crypto source' := by
  funext verifyOnlyPush vm opcodes
  induction opcodes generalizing vm with
  | nil => rfl
  | cons opcode rest ih =>
    rw [runOpcodes, runOpcodes, hstep]
    exact congrArg _ (funext ih)

theorem executeScript_congr : executeScript crypto source = executeScript crypto source' := by
  funext script verifyOnlyPush vm
  rw [executeScript, executeScript, runOpcodes_congr hstep]

theorem executeScripts_congr (hinput : isTxInput source = isTxInput source') :
    executeScripts crypto source = executeScripts crypto source' := by
  have hscripts : runScripts crypto source = runScripts crypto source' := by
    funext isP2sh vm savedStack scripts
    induction scripts generalizing vm savedStack with
    | nil => rfl
    | cons script rest ih => simp only [runScripts, ih, executeScript_congr hstep, hinput]
  funext scripts isP2sh
  simp only [executeScripts, runAll, hscripts, executeScript_congr hstep]

end

end TxScriptEngine

end SigOpCount

namespace TxScriptEngine

variable {crypto : Crypto} {tx : VerifiableTransaction} {input : TransactionInput} {idx : Nat}
  {utxoEntry : UtxoEntry}

theorem executeInput_eq (hidx : idx < tx.tx.inputs.length) (sigOpCount : UInt8) :
    executeInput crypto tx { input with sigOpCount } idx utxoEntry =
      (txInput tx input idx utxoEntry
        (isPayToScriptHash utxoEntry.scriptPublicKey.script)).executeSource crypto
        (.new sigOpCount.toNat) := by
  have hsource : fromTransactionInput tx { input with sigOpCount } idx utxoEntry =
      .ok (.txInput tx { input with sigOpCount } idx utxoEntry
        (isPayToScriptHash utxoEntry.scriptPublicKey.script)) := by
    rw [fromTransactionInput, assert, if_pos (by simpa using hidx)]
    rfl
  have hstep (isP2sh : Bool) : step crypto
      (.txInput tx { input with sigOpCount } idx utxoEntry isP2sh) =
      step crypto (.txInput tx input idx utxoEntry isP2sh) := rfl
  simp only [executeInput, hsource, executeSource, executeScripts_congr (hstep _) rfl]
  rfl

theorem executeInput_panics (hidx : ¬ idx < tx.tx.inputs.length) (sigOpCount : UInt8) :
    executeInput crypto tx { input with sigOpCount } idx utxoEntry =
      (.error .panic, .new sigOpCount.toNat) := by
  have hsource : fromTransactionInput tx { input with sigOpCount } idx utxoEntry =
      .error .panic := by
    rw [fromTransactionInput, assert, if_neg (by simpa using hidx)]
    rfl
  simp only [executeInput, hsource]

/-- A successful execution checks at most as many signatures as are counted for its output. -/
theorem executeSource_sigOps_le {limit bound : Nat} {counter' : RuntimeSigOpCounter}
    (hrun : (txInput tx input idx utxoEntry
      (isPayToScriptHash utxoEntry.scriptPublicKey.script)).executeSource crypto (.new limit) =
        (.ok (), counter'))
    (hbound : getSigOpCountUpperBound input.signatureScript utxoEntry.scriptPublicKey = .ok bound) :
    counter'.used ≤ bound := by
  have hspent : ∀ draws, draws ≤ (Budget.new limit).remaining →
      counter' = (Budget.new limit).spend draws → draws ≤ bound → counter'.used ≤ bound := by
    rintro draws hdraws rfl hle
    exact (used_new_spend hdraws).le.trans hle
  simp only [executeSource] at hrun
  by_cases hstealth : utxoEntry.scriptPublicKey.version = stealthScriptVersion
  · rw [if_pos hstealth] at hrun
    rw [getSigOpCountUpperBound, if_pos hstealth] at hbound
    cases hbound
    obtain ⟨draws, hdraws, hcounter, hle, _⟩ :=
      Metered.Spec.of_eq_ok (executeStealthSpend_runs crypto tx idx input utxoEntry) hrun
    exact hspent draws hdraws hcounter hle
  · rw [if_neg hstealth] at hrun
    by_cases hunknown : maxScriptPublicKeyVersion < utxoEntry.scriptPublicKey.version
    · rw [if_pos hunknown] at hrun
      exact hspent 0 (zero_le _) (Prod.mk.inj hrun).2.symm (zero_le _)
    · rw [if_neg hunknown] at hrun
      obtain ⟨vm, hall, _⟩ := executeScripts_one_item hrun
      obtain ⟨draws, hdraws, hcounter, hle⟩ := runAll_sigOps_le rfl hstealth hall hbound
      exact hspent draws hdraws hcounter hle

/-- Static and executed signature operations of an input. The transaction is held fixed while the
limit of the input changes, and with it the hashes that the signatures sign. -/
theorem sigOps_within_limits (crypto : Crypto) (tx : VerifiableTransaction)
    (input : TransactionInput) (idx : Nat) (utxoEntry : UtxoEntry) :
    (∀ bound, (executeInput crypto tx { input with sigOpCount := 255 } idx utxoEntry).1 = .ok () →
      getSigOpCountUpperBound input.signatureScript utxoEntry.scriptPublicKey = .ok bound →
      (executeInput crypto tx { input with sigOpCount := 255 } idx utxoEntry).2.used ≤ bound) ∧
    ∀ limit : UInt8,
      if (executeInput crypto tx { input with sigOpCount := 255 } idx utxoEntry).2.used ≤
          limit.toNat then
        (executeInput crypto tx { input with sigOpCount := limit } idx utxoEntry).1 =
          (executeInput crypto tx { input with sigOpCount := 255 } idx utxoEntry).1
      else
        (executeInput crypto tx { input with sigOpCount := limit } idx utxoEntry).1 =
          .error (.err (.exceededSigOpLimit limit.toNat)) := by
  by_cases hidx : idx < tx.tx.inputs.length
  · simp only [executeInput_eq hidx]
    refine ⟨fun bound hok hbound => executeSource_sigOps_le (Prod.ext hok rfl) hbound, ?_⟩
    intro limit
    have hlimit : limit.toNat ≤ (255 : UInt8).toNat := Nat.le_of_lt_succ limit.toNat_lt
    exact (executeSource_ends crypto _).compare hlimit
  · simp only [executeInput_panics hidx]
    refine ⟨fun bound hok => (nomatch hok), fun limit => ?_⟩
    trivial

/-- A signature script with one signature. -/
def sampleSignature : List UInt8 := 0x41 :: List.replicate 64 0 ++ [1]

/-- A script with one key. -/
def samplePubKey : List UInt8 := 0x20 :: List.replicate 32 0 ++ [Codes.opCheckSig]

/-- One key and one signature: the check is counted once, and needs a limit of one. -/
theorem sigOps_within_limits_one :
    (executeInput .accepting (sampleTransaction sampleSignature)
        { sampleInput sampleSignature with sigOpCount := 255 } 0
        (sampleEntry samplePubKey)).2.used ≤ 1 ∧
      (executeInput .accepting (sampleTransaction sampleSignature)
        { sampleInput sampleSignature with sigOpCount := 0 } 0 (sampleEntry samplePubKey)).1 =
        .error (.err (.exceededSigOpLimit 0)) := by
  obtain ⟨hbound, hlimits⟩ := sigOps_within_limits .accepting (sampleTransaction sampleSignature)
    (sampleInput sampleSignature) 0 (sampleEntry samplePubKey)
  refine ⟨hbound 1 (by rfl) (by rfl), ?_⟩
  have hzero := hlimits 0
  rwa [if_neg (by decide)] at hzero

end TxScriptEngine

end Qaspa.Script
