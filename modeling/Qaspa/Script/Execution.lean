import Qaspa.Script.Engine

/-! # Executing scripts within limits

One opcode checks at most as many signatures as it names: one, or the number of keys of a
multisig. It counts as one operation unless it pushes data, and a multisig counts its keys as
well. From that follows what a whole script does: it neither panics nor runs on, both stacks stay
within their common size, and the operations of a script stay within their limit.
-/

namespace Qaspa.Script

open Outcome Hashing Metered List Nat ScriptSource Metered.Spec U64

variable {α β : Type}

/-- A run checks at most `bound` signatures, and returns a value with a property or an error of
its own. -/
def Runs (computation : Run α) (bound : Nat) (onOk : α → Prop) : Prop :=
  Metered.Spec exceededSigOpLimit computation fun draws outcome =>
    draws ≤ bound ∧ Returns outcome onOk

section Runs

variable {computation first : Run α} {next : α → Run β} {onOk onOk' : α → Prop}
  {onNext : β → Prop} {bound bound' : Nat}

@[simp] theorem call_ok_bind (value : α) (next : α → Run β) :
    (call (.ok value) >>= next) = next value := rfl

variable {result : Outcome TxScriptError α}

theorem call_bind_eq_ok {counter rest : RuntimeSigOpCounter} {value : β} :
    (call result >>= next) counter = (.ok value, rest) ↔
      ∃ called, result = .ok called ∧ next called counter = (.ok value, rest) := by
  cases result with
  | error fault => exact ⟨fun hrun => (nomatch hrun), fun ⟨_, hcalled, _⟩ => (nomatch hcalled)⟩
  | ok called =>
    refine ⟨fun hrun => ⟨called, rfl, hrun⟩, fun ⟨_, hcalled, hrun⟩ => ?_⟩
    cases hcalled
    exact hrun

theorem runs_call (hresult : Returns result onOk) : Runs (call result) 0 onOk :=
  spec_lift ⟨le_refl 0, hresult⟩

variable {value : α}

theorem runs_pure (hvalue : onOk value) : Runs (pure value : Run α) 0 onOk :=
  spec_pure ⟨le_refl 0, returns_ok hvalue⟩

theorem runs_fail {error : TxScriptError} : Runs (call (fail error)) 0 onOk := runs_call returns_err

theorem Runs.mono (hrun : Runs computation bound onOk) (hbound : bound ≤ bound')
    (hweaken : ∀ value, onOk value → onOk' value) : Runs computation bound' onOk' := by
  apply Metered.Spec.mono hrun
  rintro draws outcome ⟨hdraws, houtcome⟩
  exact ⟨hdraws.trans hbound, houtcome.mono hweaken⟩

/-- A run that checks no signature. -/
theorem Runs.of_zero (hrun : Runs computation 0 onOk) : Runs computation bound onOk :=
  hrun.mono (zero_le bound) fun _ hvalue => hvalue

theorem Runs.bind (hfirst : Runs first bound onOk)
    (hnext : ∀ value, onOk value → Runs (next value) bound' onNext) :
    Runs (first >>= next) (bound + bound') onNext := by
  apply Metered.Spec.bind hfirst
  · rintro value draws ⟨hdraws, hvalue⟩
    apply Metered.Spec.mono (hnext value hvalue.of_ok)
    rintro draws' outcome ⟨hdraws', houtcome⟩
    exact ⟨Nat.add_le_add hdraws hdraws', houtcome⟩
  · rintro error draws ⟨hdraws, herror⟩
    exact ⟨le_add_right_of_le hdraws, ⟨herror.post⟩⟩

/-- A call in front of a run. -/
theorem Runs.call_bind (hresult : Returns result onOk)
    (hnext : ∀ value, onOk value → Runs (next value) bound onNext) :
    Runs (call result >>= next) bound onNext := by
  have hrun := (runs_call hresult).bind hnext
  rwa [zero_add] at hrun

/-- A run that returns a value with a property or an error of its own, however many signatures
it checks. -/
def Ends (computation : Run α) (onOk : α → Prop) : Prop :=
  Metered.Spec exceededSigOpLimit computation fun _ outcome => Returns outcome onOk

theorem Runs.ends (hrun : Runs computation bound onOk) : Ends computation onOk :=
  Metered.Spec.mono hrun fun _ _ hpost => hpost.2

theorem ends_pure (hvalue : onOk value) : Ends (pure value : Run α) onOk := (runs_pure hvalue).ends

theorem ends_fail {error : TxScriptError} : Ends (call (fail error)) onOk := runs_fail.ends

theorem Ends.bind (hfirst : Ends first onOk)
    (hnext : ∀ value, onOk value → Ends (next value) onNext) :
    Ends (first >>= next) onNext :=
  Metered.Spec.bind hfirst (fun value _ hvalue => hnext value hvalue.of_ok)
    fun _ _ herror => ⟨herror.post⟩

theorem Ends.call_bind (hresult : Returns result onOk)
    (hnext : ∀ value, onOk value → Ends (next value) onNext) : Ends (call result >>= next) onNext :=
  (runs_call hresult).ends.bind hnext

/-- Under every counter the run ends with a value or an error of its own. -/
theorem Ends.returns (hends : Ends computation onOk) (counter : RuntimeSigOpCounter) :
    Returns (computation counter).1 onOk := by
  rcases result hends counter with ⟨_, hreturns⟩ | hexceeded
  · exact hreturns
  · rw [hexceeded]
    exact returns_err

theorem Ends.of_eq_ok {counter rest : RuntimeSigOpCounter} (hends : Ends computation onOk)
    (hvalue : computation counter = (.ok value, rest)) : onOk value := by
  have hreturns := hends.returns counter
  rw [hvalue] at hreturns
  exact hreturns.of_ok

end Runs

/-! ## Checks of signatures -/

namespace ScriptSource

variable (crypto : Crypto) (source : ScriptSource) (hashType : SigHashType) (key sig : List UInt8)
  {vm : TxScriptEngine}

theorem secp_returns (result : Except Secp256k1Error α) : Faultless (secp result) :=
  returns_mapError result TxScriptError.invalidSignature

theorem hashTypeOf_returns (typ : UInt8) : Faultless (hashTypeOf typ) :=
  returns_mapError (SigHashType.fromU8 typ) fun _ => TxScriptError.invalidSigHashType typ

/-- A key, a signature and a message are parsed before they are verified. -/
theorem parsed_returns {Key Signature Message : Type} {encoding : Outcome TxScriptError Unit}
    {parsedKey : Except Secp256k1Error Key} {parsedSig : Except Secp256k1Error Signature}
    {parsedMsg : Except Secp256k1Error Message} {verified : Key → Signature → Message → Bool}
    (hencoding : Faultless encoding) : Faultless (do
      encoding
      let key ← secp parsedKey
      let sig ← secp parsedSig
      let msg ← secp parsedMsg
      .ok (verified key sig msg)) := by
  apply hencoding.bind
  intro _ _
  apply (secp_returns _).bind
  intro key _
  apply (secp_returns _).bind
  intro sig _
  exact (secp_returns _).bind fun _ _ => returns_ok trivial

/-- A check draws once, whatever comes of it. -/
theorem runs_consume {next : Unit → Run α} (hnext : Runs (next ()) 0 fun _ => True) :
    Runs (consumeSigOp >>= next) 1 fun _ => True := by
  have hdraw : Runs consumeSigOp 1 fun _ => True :=
    ⟨1, .ok (), uses_draw, le_refl 1, returns_ok trivial⟩
  exact hdraw.bind fun _ _ => hnext

theorem checkSchnorrSignature_runs :
    Runs (source.checkSchnorrSignature crypto hashType key sig) 1 fun _ => True := by
  apply runs_consume
  cases source with
  | standAloneScripts scripts => exact runs_fail
  | txInput tx input idx utxoEntry isP2sh =>
    exact runs_call (.check fun _ => parsed_returns (.guard fun _ => returns_ok trivial))

theorem checkEcdsaSignature_runs :
    Runs (source.checkEcdsaSignature crypto hashType key sig) 1 fun _ => True := by
  apply runs_consume
  cases source with
  | standAloneScripts scripts => exact runs_fail
  | txInput tx input idx utxoEntry isP2sh =>
    exact runs_call (.check fun _ => parsed_returns (.guard fun _ => returns_ok trivial))

theorem checkMldsaSignature_runs :
    Runs (source.checkMldsaSignature crypto hashType key sig) 1 fun _ => True := by
  apply runs_consume
  cases source with
  | standAloneScripts scripts => exact runs_fail
  | txInput tx input idx utxoEntry isP2sh =>
    refine runs_call (.check fun _ => .check fun _ => ?_)
    cases crypto.mlDsaPublicKeyFromBytes key with
    | none => exact returns_err
    | some pk =>
      cases crypto.mlDsaSignatureFromBytes sig with
      | none => exact returns_err
      | some signature => exact returns_ok trivial

end ScriptSource

/-! ## Multisig -/

/-- The number of keys that a multisig finds on the stack. -/
def keysOnTop (stack : Stack) : Nat :=
  match popItems deserializeInt 1 stack with
  | .ok (items, _) => (items ⟨0, Nat.one_pos⟩).toNat
  | .error _ => 0

theorem splitItems_returns (size : Nat) (stack : Stack) :
    Returns (splitItems size stack) fun split => split.2.length = size := by
  refine .guard fun hsize => ?_
  rw [vecSplitOffBack_of_le hsize]
  refine returns_ok ?_
  rw [length_drop]
  omega

theorem checkNumKeys_returns (numKeys : Int) :
    Returns (checkNumKeys numKeys) fun _ => 0 ≤ numKeys ∧ numKeys ≤ maxPubKeysPerMultisig :=
  .check fun hlow => .check fun hhigh => returns_ok ⟨by omega, by omega⟩

theorem checkNumSigs_returns (numSigs numKeys : Int) : Faultless (checkNumSigs numSigs numKeys) :=
  .check fun _ => .check fun _ => returns_ok trivial

/-- A run of operations that stays within the limit. -/
def WithinLimit (vm : TxScriptEngine) : Prop := 0 ≤ vm.numOps ∧ vm.numOps ≤ maxOpsPerScript

/-- The engine after an opcode that counts a number of operations. -/
def Counted (vm : TxScriptEngine) (operations : Nat) (vm' : TxScriptEngine) : Prop :=
  vm'.numOps = vm.numOps + operations ∧ WithinLimit vm'

theorem WithinLimit.counted {vm : TxScriptEngine} (hvm : WithinLimit vm) {dstack astack : Stack}
    {condStack : List OpCond} : Counted vm 0 ⟨dstack, astack, condStack, vm.numOps⟩ :=
  ⟨(Int.add_zero _).symm, hvm⟩

theorem multisigOperands_returns (hvm : WithinLimit vm) :
    Returns (multisigOperands vm) fun operands =>
      operands.numOps = vm.numOps + keysOnTop vm.dstack ∧ operands.numOps ≤ maxOpsPerScript ∧
        operands.pubKeys.length = keysOnTop vm.dstack ∧
        operands.signatures.length = operands.numSigs ∧
        (keysOnTop vm.dstack : Int) ≤ maxPubKeysPerMultisig := by
  apply (popItems_returns (fun _ => deserializeInt_returns) 1 vm.dstack).bind_of_eq
  rintro ⟨items, dstack⟩ hpop _
  have hkeys : keysOnTop vm.dstack = (items 0).toNat := by
    rw [keysOnTop, hpop]
    rfl
  apply (checkNumKeys_returns (items 0)).bind
  rintro _ ⟨hlow, hhigh⟩
  have hlimit : maxPubKeysPerMultisig = 20 := rfl
  have hops : maxOpsPerScript = 201 := rfl
  obtain ⟨hvmLow, hvmHigh⟩ := hvm
  rw [Signed.plain_eq_ok (by constructor <;> omega)]
  refine .check fun hwithin => ?_
  apply (splitItems_returns _ _).bind
  rintro ⟨dstack, pubKeys⟩ hpubKeys
  apply (popItems_returns (fun _ => deserializeInt_returns) 1 dstack).bind
  rintro ⟨numSigs, dstack⟩ _
  apply (checkNumSigs_returns _ _).bind
  intro _ _
  apply (splitItems_returns _ _).bind
  rintro ⟨dstack, signatures⟩ hsignatures
  refine returns_ok ⟨?_, ?_, hpubKeys.trans hkeys.symm, hsignatures, by omega⟩
  · simp only
    omega
  · simp only
    omega

section Multisig

variable {check : SigHashType → List UInt8 → List UInt8 → Run Bool}
  (hcheck : ∀ hashType key sig, Runs (check hashType key sig) 1 fun _ => True)

include hcheck

/-- Every check uses up a key, so checks and remaining keys make up at most the keys given. -/
theorem findKey_spec (hashType : SigHashType) (signature : List UInt8) {needed : Nat}
    (hneeded : 0 < needed) (pubKeys : Stack) :
    Metered.Spec exceededSigOpLimit (findKey check hashType signature needed pubKeys)
      fun draws outcome => draws ≤ pubKeys.length ∧
        Returns outcome fun found => ∀ rest, found = some rest →
          draws + rest.length ≤ pubKeys.length := by
  induction pubKeys with
  | nil =>
    rw [findKey, if_pos hneeded]
    exact spec_pure ⟨le_refl 0, returns_ok (by simp)⟩
  | cons pubKey rest ih =>
    unfold findKey
    rw [length_cons]
    split
    · exact spec_pure ⟨zero_le _, returns_ok (by simp)⟩
    · apply bind (hcheck hashType pubKey signature)
      · rintro valid draws ⟨hdraws, _⟩
        cases valid with
        | true =>
          refine spec_pure ⟨by omega, returns_ok ?_⟩
          rintro _ ⟨⟩
          omega
        | false =>
          apply mono ih
          rintro draws' outcome ⟨hdraws', houtcome⟩
          refine ⟨by omega, houtcome.mono ?_⟩
          intro found hfound rest' hrest'
          have := hfound rest' hrest'
          omega
      · rintro error draws ⟨hdraws, herror⟩
        exact ⟨by omega, ⟨herror.post⟩⟩

theorem signaturesFail_runs {numSigs : Nat} (signatures : Stack) {sigIdx : Nat}
    (hsigIdx : sigIdx + signatures.length = numSigs) (pubKeys : Stack) :
    Runs (signaturesFail check numSigs sigIdx signatures pubKeys) pubKeys.length fun _ => True := by
  induction signatures generalizing sigIdx pubKeys with
  | nil => exact (runs_pure trivial).of_zero
  | cons signature rest ih =>
    rw [length_cons] at hsigIdx
    unfold signaturesFail
    cases signature.getLast? with
    | none => exact (runs_pure trivial).of_zero
    | some typ =>
      apply Runs.call_bind (hashTypeOf_returns typ)
      intro hashType _
      rw [sub_of_le (by omega)]
      apply Metered.Spec.bind (findKey_spec hcheck hashType _ (by omega) pubKeys)
      · rintro found draws ⟨hdraws, hfound⟩
        cases found with
        | none => exact spec_pure ⟨hdraws, returns_ok trivial⟩
        | some keys =>
          have hkeys := hfound.of_ok keys rfl
          apply mono (ih (by omega) keys)
          rintro draws' outcome ⟨hdraws', houtcome⟩
          exact ⟨by omega, houtcome⟩
      · rintro error draws ⟨hdraws, herror⟩
        exact ⟨hdraws, ⟨herror.post⟩⟩

theorem opCheckMultisigSchnorrOrEcdsa_runs (hvm : WithinLimit vm) :
    Runs (opCheckMultisigSchnorrOrEcdsa check vm) (keysOnTop vm.dstack)
      (Counted vm (keysOnTop vm.dstack)) := by
  apply Runs.call_bind (multisigOperands_returns hvm)
  rintro operands ⟨hops, hlimit, hkeys, hsigs, _⟩
  rw [← hkeys, ← add_zero operands.pubKeys.length]
  have hidx : 0 + operands.signatures.length = operands.numSigs := (zero_add _).trans hsigs
  apply (signaturesFail_runs hcheck operands.signatures hidx operands.pubKeys).bind
  intro failed _
  split
  · exact runs_fail
  · refine runs_pure ⟨?_, ?_, hlimit⟩
    · simp only [hops, hkeys, add_zero]
    · have := hvm.1
      simp only [hops]
      omega

theorem opCheckSignature_runs (hvm : WithinLimit vm) :
    Runs (opCheckSignature check vm) 1 (Counted vm 0) := by
  apply Runs.call_bind (popRaw_returns 2 vm.dstack)
  rintro ⟨items, dstack⟩ _
  cases hlast : (items 0).getLast? with
  | none =>
    simp only [hlast]
    exact (runs_pure hvm.counted).of_zero
  | some typ =>
    simp only [hlast]
    apply Runs.call_bind (hashTypeOf_returns typ)
    intro hashType _
    exact (hcheck hashType (items 1) _).bind fun valid _ => runs_pure hvm.counted

end Multisig

/-! ## Operations on the data stack -/

section Stack

variable (stack : Stack)

theorem inWord_returns (exact : Int) (text : String) : Faultless (inWord exact text) := by
  unfold inWord
  cases Signed.checked 64 exact with
  | none => exact returns_err
  | some number => exact returns_ok trivial

theorem tryFromU64_returns (value : UInt64) : Faultless (tryFromU64 value) :=
  inWord_returns value.toNat tryFromIntError

theorem hashTop_returns (hash : List UInt8 → List UInt8) : Faultless (hashTop hash stack) :=
  (popRaw_returns 1 stack).bind fun _ _ => returns_ok trivial

theorem onNumber_returns {f : Int → Outcome TxScriptError Int}
    (hf : ∀ value, Faultless (f value)) : Faultless (onNumber f stack) := by
  apply (popItems_returns (fun _ => deserializeLong_returns) 1 stack).bind
  rintro ⟨items, stack⟩ _
  exact (hf (items 0)).bind fun result _ => pushLong_returns result stack

theorem onNumbers_returns {f : Int → Int → Outcome TxScriptError Int}
    (hf : ∀ a b, Faultless (f a b)) : Faultless (onNumbers f stack) := by
  apply (popItems_returns (fun _ => deserializeLong_returns) 2 stack).bind
  rintro ⟨items, stack⟩ _
  exact (hf (items 0) (items 1)).bind fun result _ => pushLong_returns result stack

theorem verifyTop_returns : Faultless (verifyTop stack) := by
  apply (popItems_returns (fun _ => deserializeBool_returns) 1 stack).bind
  rintro ⟨items, stack⟩ _
  exact .guard fun _ => returns_ok trivial

theorem opIfDup_returns : Faultless (opIfDup stack) := by
  have hpeek : Faultless (peekRaw 1 stack) :=
    (popRaw_returns 1 stack).bind fun _ _ => returns_ok trivial
  apply hpeek.bind
  intro items _
  apply deserializeBool_returns.bind
  intro truth _
  cases truth with
  | true | false => exact returns_ok trivial

theorem vecRemove_returns {index : Nat} (hindex : index < stack.length) :
    Faultless (vecRemove stack index : Outcome TxScriptError _) := by
  rw [vecRemove, vecGet_eq_ok (getElem?_eq_getElem hindex)]
  exact returns_ok trivial

theorem opNip_returns : Faultless (opNip stack) := by
  refine .guard fun hlength => ?_
  rw [sub_of_le hlength]
  exact (vecRemove_returns stack (by omega)).bind fun _ _ => returns_ok trivial

theorem selectedIndex_returns (text : String) :
    Returns (selectedIndex text stack) fun selected => selected.1 < selected.2.length := by
  apply (popItems_returns (fun _ => deserializeInt_returns) 1 stack).bind
  rintro ⟨items, stack⟩ _
  refine .check fun hloc => ?_
  rw [sub_of_le (by omega), ok_bind, sub_of_le (by omega)]
  refine returns_ok ?_
  simp only
  omega

theorem opPick_returns : Faultless (opPick stack) := by
  apply (selectedIndex_returns stack _).bind
  rintro ⟨index, stack⟩ hindex
  simp only at hindex ⊢
  rw [vecGet_eq_ok (getElem?_eq_getElem hindex)]
  exact returns_ok trivial

theorem opRoll_returns : Faultless (opRoll stack) := by
  apply (selectedIndex_returns stack _).bind
  rintro ⟨index, stack⟩ hindex
  exact (vecRemove_returns stack hindex).bind fun _ _ => returns_ok trivial

theorem opTuck_returns : Faultless (opTuck stack) := by
  refine .guard fun hlength => ?_
  have hne : stack ≠ [] := by
    rintro rfl
    simp at hlength
  rw [sub_of_le hlength, getLast?_eq_some_getLast hne]
  simp only [unwrap, ok_bind]
  rw [vecInsert, if_pos (by omega)]
  exact returns_ok trivial

theorem opSize_returns : Faultless (opSize stack) := by
  unfold opSize
  cases stack.getLast? with
  | none => exact returns_err
  | some last =>
    apply (inWord_returns last.length tryFromIntError).bind
    intro size _
    exact pushLong_returns size stack

theorem popEqual_returns : Faultless (popEqual stack) := by
  refine .guard fun hlength => ?_
  have hpair : (stack.drop (stack.length - 2)).length = 2 := by
    rw [length_drop]
    omega
  rw [vecSplitOffBack_of_le hlength, ok_bind]
  simp only
  rw [vecGet_eq_ok (getElem?_eq_getElem (by omega)),
    vecGet_eq_ok (getElem?_eq_getElem (by omega))]
  exact returns_ok trivial

theorem opNumEqualVerify_returns : Faultless (opNumEqualVerify stack) := by
  apply (popItems_returns (fun _ => deserializeLong_returns) 2 stack).bind
  rintro ⟨items, stack⟩ _
  exact .guard fun _ => returns_ok trivial

theorem opWithin_returns : Faultless (opWithin stack) := by
  apply (popItems_returns (fun _ => deserializeLong_returns) 3 stack).bind
  rintro ⟨items, stack⟩ _
  exact pushLong_returns _ stack

theorem condition_returns (whenTrue : OpCond) : Faultless (condition whenTrue stack) := by
  unfold condition
  split
  · exact returns_err
  · exact returns_ok trivial
  · split
    · exact returns_ok trivial
    · exact returns_err
  · exact returns_err

theorem lockTimeWord_returns (bytes : List UInt8) : Faultless (lockTimeWord bytes) :=
  .check fun _ => returns_ok trivial

theorem opCheckLockTimeVerify_returns (source : ScriptSource) :
    Faultless (opCheckLockTimeVerify source stack) := by
  cases source with
  | standAloneScripts scripts => exact returns_err
  | txInput tx input idx utxoEntry isP2sh =>
    apply (popRaw_returns 1 stack).bind
    rintro ⟨items, stack⟩ _
    apply (lockTimeWord_returns _).bind
    intro stackLockTime _
    exact .check fun _ => .check fun _ => .check fun _ => returns_ok trivial

theorem opCheckSequenceVerify_returns (source : ScriptSource) :
    Faultless (opCheckSequenceVerify source stack) := by
  cases source with
  | standAloneScripts scripts => exact returns_err
  | txInput tx input idx utxoEntry isP2sh =>
    apply (popRaw_returns 1 stack).bind
    rintro ⟨items, stack⟩ _
    apply (lockTimeWord_returns _).bind
    intro stackSequence _
    split
    · exact returns_ok trivial
    · exact .check fun _ => .check fun _ => returns_ok trivial

variable (tx : VerifiableTransaction)

theorem selectedUtxo_returns : Faultless (selectedUtxo tx stack) := by
  apply (popItems_returns (fun _ => deserializeInt_returns) 1 stack).bind
  rintro ⟨items, stack⟩ _
  simp only
  split
  · exact returns_ok trivial
  · exact returns_err

theorem selectedOutput_returns : Faultless (selectedOutput tx stack) := by
  apply (popItems_returns (fun _ => deserializeInt_returns) 1 stack).bind
  rintro ⟨items, stack⟩ _
  simp only
  split
  · exact returns_ok trivial
  · exact returns_err

theorem opTxInputSpk_returns : Faultless (opTxInputSpk tx stack) :=
  (selectedUtxo_returns stack tx).bind fun _ _ => returns_ok trivial

theorem opTxOutputSpk_returns : Faultless (opTxOutputSpk tx stack) :=
  (selectedOutput_returns stack tx).bind fun _ _ => returns_ok trivial

theorem opTxInputAmount_returns : Faultless (opTxInputAmount tx stack) := by
  apply (selectedUtxo_returns stack tx).bind
  rintro ⟨entry, stack⟩ _
  exact (tryFromU64_returns _).bind fun amount _ => pushLong_returns amount stack

theorem opTxOutputAmount_returns : Faultless (opTxOutputAmount tx stack) := by
  apply (selectedOutput_returns stack tx).bind
  rintro ⟨output, stack⟩ _
  exact (tryFromU64_returns _).bind fun amount _ => pushLong_returns amount stack

end Stack

/-! ## One opcode -/

/-- The keys that an instruction counts as operations. -/
def Instruction.multisigKeys (stack : Stack) : Instruction → Nat
  | .opCheckMultiSigECDSA | .opCheckMultiSig | .opCheckMultiSigVerify => keysOnTop stack
  | _ => 0

/-- The signatures that an instruction may check. -/
def Instruction.signatureChecks (stack : Stack) : Instruction → Nat
  | .opCheckSigMLDSA | .opCheckSigECDSA | .opCheckSig | .opCheckSigVerify => 1
  | instruction => instruction.multisigKeys stack

namespace TxScriptEngine

variable {vm : TxScriptEngine}

section

variable (hvm : WithinLimit vm)

include hvm

theorem onDstack_runs {f : Stack → Outcome TxScriptError Stack}
    (hf : ∀ stack, Faultless (f stack)) : Runs (vm.onDstack f) 0 (Counted vm 0) :=
  runs_call ((hf vm.dstack).bind fun _ _ => returns_ok hvm.counted)

theorem onNumber_runs {f : Int → Outcome TxScriptError Int}
    (hf : ∀ value, Faultless (f value)) : Runs (vm.onDstack (onNumber f)) 0 (Counted vm 0) :=
  onDstack_runs hvm fun stack => onNumber_returns stack hf

theorem onNumbers_runs {f : Int → Int → Outcome TxScriptError Int}
    (hf : ∀ a b, Faultless (f a b)) : Runs (vm.onDstack (onNumbers f)) 0 (Counted vm 0) :=
  onDstack_runs hvm fun stack => onNumbers_returns stack hf

theorem onTransaction_runs (source : ScriptSource) (name : String)
    {f : VerifiableTransaction → Nat → Stack → Outcome TxScriptError Stack}
    (hf : ∀ tx idx stack, Faultless (f tx idx stack)) :
    Runs (vm.onDstack (onTransaction source name f)) 0 (Counted vm 0) := by
  apply onDstack_runs hvm
  intro stack
  cases source with
  | standAloneScripts scripts => exact returns_err
  | txInput tx input idx utxoEntry isP2sh => exact hf tx idx stack

theorem openBranch_runs (whenTrue : OpCond) : Runs (vm.openBranch whenTrue) 0 (Counted vm 0) := by
  unfold openBranch
  split
  · apply runs_call
    exact (condition_returns _ _).bind fun _ _ => returns_ok hvm.counted
  · exact runs_pure hvm.counted

theorem opElse_runs : Runs vm.opElse 0 (Counted vm 0) := by
  unfold opElse
  cases vm.condStack.getLast? with
  | none => exact runs_fail
  | some cond => exact runs_pure hvm.counted

theorem opEndIf_runs : Runs vm.opEndIf 0 (Counted vm 0) := by
  unfold opEndIf
  cases vm.condStack.getLast? with
  | none => exact runs_fail
  | some cond => exact runs_pure hvm.counted

theorem opToAltStack_runs : Runs vm.opToAltStack 0 (Counted vm 0) :=
  runs_call ((popRaw_returns 1 vm.dstack).bind fun _ _ => returns_ok hvm.counted)

theorem opFromAltStack_runs : Runs vm.opFromAltStack 0 (Counted vm 0) := by
  unfold opFromAltStack
  cases vm.astack.getLast? with
  | none => exact runs_fail
  | some last => exact runs_pure hvm.counted

end

/-- The verification that follows a check keeps the count. -/
theorem runs_verify {run : Run TxScriptEngine} {bound operations : Nat}
    (hrun : Runs run bound (Counted vm operations)) :
    Runs (run >>= fun vm => vm.onDstack verifyTop) bound (Counted vm operations) := by
  rw [← add_zero bound]
  apply hrun.bind
  rintro checked ⟨hops, hlimit⟩
  apply (onDstack_runs hlimit verifyTop_returns).mono (le_refl 0)
  rintro verified ⟨hops', hlimit'⟩
  exact ⟨by omega, hlimit'⟩

variable (crypto : Crypto) (source : ScriptSource)

/-- What an opcode counts and how many signatures it checks, for every instruction. -/
theorem execute_runs (opcode : OpCode) (hvm : WithinLimit vm) :
    Runs (execute crypto source opcode vm) (opcode.instruction.signatureChecks vm.dstack)
      (Counted vm (opcode.instruction.multisigKeys vm.dstack)) := by
  have hschnorr := source.checkSchnorrSignature_runs crypto
  have hecdsa := source.checkEcdsaSignature_runs crypto
  have hmldsa := source.checkMldsaSignature_runs crypto
  have hdstack := fun (f : Stack → Outcome TxScriptError Stack)
    (hf : ∀ stack, Faultless (f stack)) => onDstack_runs hvm hf
  unfold execute
  cases opcode.instruction with
  | opFalse | pushData => exact hdstack _ fun _ => returns_ok trivial
  | pushNumber number => exact hdstack _ (pushLong_returns number)
  | reserved | disabled | invalid | opReturn => exact runs_fail
  | opNop => exact runs_pure hvm.counted
  | opIf => exact openBranch_runs hvm .true
  | opNotIf => exact openBranch_runs hvm .false
  | opElse => exact opElse_runs hvm
  | opEndIf => exact opEndIf_runs hvm
  | opVerify => exact hdstack _ verifyTop_returns
  | opToAltStack => exact opToAltStack_runs hvm
  | opFromAltStack => exact opFromAltStack_runs hvm
  | op2Drop => exact hdstack _ (dropItems_returns 2)
  | op2Dup => exact hdstack _ (dupItems_returns 2)
  | op3Dup => exact hdstack _ (dupItems_returns 3)
  | op2Over => exact hdstack _ (overItems_returns 2)
  | op2Rot => exact hdstack _ (rotItems_returns 2)
  | op2Swap => exact hdstack _ (swapItems_returns 2)
  | opIfDup => exact hdstack _ opIfDup_returns
  | opDepth => exact hdstack _ fun stack => pushLong_returns stack.length stack
  | opDrop => exact hdstack _ (dropItems_returns 1)
  | opDup => exact hdstack _ (dupItems_returns 1)
  | opNip => exact hdstack _ opNip_returns
  | opOver => exact hdstack _ (overItems_returns 1)
  | opPick => exact hdstack _ opPick_returns
  | opRoll => exact hdstack _ opRoll_returns
  | opRot => exact hdstack _ (rotItems_returns 1)
  | opSwap => exact hdstack _ (swapItems_returns 1)
  | opTuck => exact hdstack _ opTuck_returns
  | opSize => exact hdstack _ opSize_returns
  | opEqual =>
    exact hdstack _ fun stack => (popEqual_returns stack).bind fun _ _ => returns_ok trivial
  | opEqualVerify =>
    exact hdstack _ fun stack => (popEqual_returns stack).bind fun _ _ =>
      .guard fun _ => returns_ok trivial
  | op1Add | op1Sub | opNegate | opAbs => exact onNumber_runs hvm fun _ => inWord_returns _ _
  | opNot | op0NotEqual => exact onNumber_runs hvm fun _ => returns_ok trivial
  | opAdd | opSub => exact onNumbers_runs hvm fun _ _ => inWord_returns _ _
  | opBoolAnd | opBoolOr | opNumEqual | opNumNotEqual | opLessThan | opGreaterThan
  | opLessThanOrEqual | opGreaterThanOrEqual | opMin | opMax =>
    exact onNumbers_runs hvm fun _ _ => returns_ok trivial
  | opNumEqualVerify => exact hdstack _ opNumEqualVerify_returns
  | opWithin => exact hdstack _ opWithin_returns
  | opCheckSigMLDSA => exact opCheckSignature_runs hmldsa hvm
  | opSHA256 | opBlake2b => exact hdstack _ fun stack => hashTop_returns stack _
  | opCheckMultiSigECDSA => exact opCheckMultisigSchnorrOrEcdsa_runs hecdsa hvm
  | opCheckSigECDSA => exact opCheckSignature_runs hecdsa hvm
  | opCheckSig => exact opCheckSignature_runs hschnorr hvm
  | opCheckSigVerify => exact runs_verify (opCheckSignature_runs hschnorr hvm)
  | opCheckMultiSig => exact opCheckMultisigSchnorrOrEcdsa_runs hschnorr hvm
  | opCheckMultiSigVerify => exact runs_verify (opCheckMultisigSchnorrOrEcdsa_runs hschnorr hvm)
  | opCheckLockTimeVerify => exact hdstack _ fun stack => opCheckLockTimeVerify_returns stack source
  | opCheckSequenceVerify => exact hdstack _ fun stack => opCheckSequenceVerify_returns stack source
  | opTxInputCount | opTxOutputCount | opTxInputIndex =>
    exact onTransaction_runs hvm source _ fun _ _ => pushLong_returns _
  | opTxInputAmount =>
    exact onTransaction_runs hvm source _ fun tx _ stack => opTxInputAmount_returns stack tx
  | opTxInputSpk =>
    exact onTransaction_runs hvm source _ fun tx _ stack => opTxInputSpk_returns stack tx
  | opTxOutputAmount =>
    exact onTransaction_runs hvm source _ fun tx _ stack => opTxOutputAmount_returns stack tx
  | opTxOutputSpk =>
    exact onTransaction_runs hvm source _ fun tx _ stack => opTxOutputSpk_returns stack tx

/-- The operations that an opcode counts: one unless it pushes data, and the keys of a multisig
that is executed. -/
def operations (vm : TxScriptEngine) (opcode : OpCode) : Nat :=
  (if opcode.isPushOpcode then 0 else 1) +
    if vm.isExecuting then opcode.instruction.multisigKeys vm.dstack else 0

/-- The signatures that an opcode may check. -/
def signatureChecks (vm : TxScriptEngine) (opcode : OpCode) : Nat :=
  if vm.isExecuting then opcode.instruction.signatureChecks vm.dstack else 0

theorem countOpcode_returns (opcode : OpCode) (hvm : WithinLimit vm) :
    Returns (countOpcode opcode vm) fun counted =>
      counted = { vm with numOps := vm.numOps + (if opcode.isPushOpcode then 0 else 1) } ∧
        WithinLimit counted := by
  have hlimit : maxOpsPerScript = 201 := rfl
  obtain ⟨hlow, hhigh⟩ := hvm
  unfold countOpcode
  split
  next hpush =>
    rw [Signed.plain_eq_ok (by constructor <;> omega)]
    refine .check fun hwithin => returns_ok ⟨rfl, ?_, ?_⟩
    · simp only
      omega
    · simp only
      omega
  next hpush =>
    exact .check fun _ =>
      returns_ok ⟨by rw [if_pos (not_not.mp hpush), Int.add_zero], hlow, hhigh⟩

theorem checkDataLength_returns (opcode : OpCode) : Faultless opcode.checkDataLength := by
  have hcheck : ∀ (broken : Prop) [Decidable broken] (error : TxScriptError),
      Faultless (if broken then fail error else .ok ()) :=
    fun _ _ _ => .check fun _ => returns_ok trivial
  unfold OpCode.checkDataLength
  split
  · exact hcheck _ _
  · split
    · exact hcheck _ _
    · exact hcheck _ _

theorem checkMinimalDataPush_returns (opcode : OpCode) : Faultless opcode.checkMinimalDataPush := by
  unfold OpCode.checkMinimalDataPush
  split
  · exact .check fun _ => returns_ok trivial
  · split
    · exact .check fun _ => returns_ok trivial
    · split
      · exact .check fun _ => returns_ok trivial
      · exact checkDataLength_returns opcode
  · exact checkDataLength_returns opcode

/-- The conditionals, which are executed in a skipped branch as well, check no signatures. -/
theorem signatureChecks_of_isConditional {opcode : OpCode} (hcond : opcode.isConditional = true)
    (stack : Stack) : opcode.instruction.signatureChecks stack = 0 ∧
      opcode.instruction.multisigKeys stack = 0 := by
  have hinstruction : ∀ code : UInt8, (⟨code, []⟩ : OpCode).isConditional = true →
      instructionOf code ∈ [.opIf, .opNotIf, .reserved, .opElse, .opEndIf] :=
    forall_code (by decide +kernel)
  have hmem := hinstruction opcode.code hcond
  rw [OpCode.instruction]
  generalize instructionOf opcode.code = instruction at hmem
  simp only [mem_cons, not_mem_nil, or_false] at hmem
  rcases hmem with rfl | rfl | rfl | rfl | rfl <;> exact ⟨rfl, rfl⟩

theorem executeOpcode_runs (opcode : OpCode) (hvm : WithinLimit vm) :
    Runs (executeOpcode crypto source opcode vm) (signatureChecks vm opcode)
      (Counted vm (operations vm opcode)) := by
  apply Runs.call_bind (countOpcode_returns opcode hvm)
  rintro counted ⟨rfl, hcounted⟩
  have hexecuting : isExecuting { vm with
      numOps := vm.numOps + (if opcode.isPushOpcode then 0 else 1) } = vm.isExecuting := rfl
  rw [hexecuting, operations, signatureChecks]
  split
  next hrun =>
    have hchecked : Faultless (if 0 < opcode.value ∧ opcode.value ≤ 0x4e then
        opcode.checkMinimalDataPush else .ok ()) := by
      split
      · exact checkMinimalDataPush_returns opcode
      · exact returns_ok trivial
    apply Runs.call_bind hchecked
    intro _ _
    have hexecute := execute_runs crypto source opcode hcounted
    by_cases hvmExecuting : vm.isExecuting = true
    · rw [if_pos hvmExecuting]
      apply hexecute.mono (le_refl _)
      rintro after ⟨hops, hlimit⟩
      refine ⟨?_, hlimit⟩
      rw [hops]
      push_cast
      split <;> omega
    · have hcond : opcode.isConditional = true := by simpa [hvmExecuting] using hrun
      obtain ⟨hchecks, hkeys⟩ := signatureChecks_of_isConditional hcond vm.dstack
      rw [if_neg hvmExecuting]
      apply hexecute.mono hchecks.le
      rintro after ⟨hops, hlimit⟩
      refine ⟨?_, hlimit⟩
      rw [hops, hkeys]
      push_cast
      split <;> omega
  next hskip =>
    have hskipped : ¬ vm.isExecuting = true := by
      rintro hvmExecuting
      simp [hvmExecuting] at hskip
    rw [if_neg hskipped]
    refine runs_pure ⟨?_, hcounted⟩
    push_cast
    split <;> omega

/-! ## Scripts -/

variable (verifyOnlyPush : Bool)

/-- One opcode of a script: a parse error ends the script, an opcode counts its operations and
leaves the stacks within their common size. -/
theorem step_runs (opcode : OpCode) (hvm : WithinLimit vm) :
    Runs (step crypto source verifyOnlyPush vm (.ok opcode)) (signatureChecks vm opcode) fun vm' =>
      Counted vm (operations vm opcode) vm' ∧
        vm'.astack.length + vm'.dstack.length ≤ maxStackSize := by
  have hparsed : Returns ((Except.ok opcode : Except TxScriptError OpCode).mapError .err)
    fun parsed => opcode = parsed := returns_ok rfl
  apply Runs.call_bind hparsed
  rintro _ rfl
  have hchecked : Faultless (checkOpcode verifyOnlyPush opcode) :=
    .check fun _ => .check fun _ => .check fun _ => returns_ok trivial
  apply Runs.call_bind hchecked
  intro _ _
  rw [← add_zero (signatureChecks vm opcode)]
  apply (executeOpcode_runs crypto source opcode hvm).bind
  intro vm' hvm'
  simp only
  split
  · exact runs_fail
  next hsize => exact runs_pure ⟨hvm', by omega⟩

/-- A stretch of opcodes that was executed without an error, with the operations it counted. -/
inductive Reaches : TxScriptEngine → RuntimeSigOpCounter → List (Except TxScriptError OpCode) →
    Nat →
    TxScriptEngine → RuntimeSigOpCounter → Prop
  | nil (vm : TxScriptEngine) (counter : RuntimeSigOpCounter) : Reaches vm counter [] 0 vm counter
  | cons {vm middle last : TxScriptEngine} {counter counter' counter'' : RuntimeSigOpCounter}
      {opcode : OpCode} {rest : List (Except TxScriptError OpCode)} {count : Nat}
      (hstep : step crypto source verifyOnlyPush vm (.ok opcode) counter = (.ok middle, counter'))
      (hrest : Reaches middle counter' rest count last counter'') :
      Reaches vm counter (.ok opcode :: rest) (operations vm opcode + count) last counter''

variable {crypto source verifyOnlyPush} {last : TxScriptEngine}
  {counter counter' : RuntimeSigOpCounter} {opcodes : List (Except TxScriptError OpCode)}

theorem runOpcodes_eq_ok :
    runOpcodes crypto source verifyOnlyPush vm opcodes counter = (.ok last, counter') ↔
      ∃ count, Reaches crypto source verifyOnlyPush vm counter opcodes count last counter' := by
  constructor
  · intro hrun
    induction opcodes generalizing vm counter with
    | nil =>
      obtain ⟨rfl, rfl⟩ : vm = last ∧ counter = counter' := by
        simpa [runOpcodes, pure] using hrun
      exact ⟨0, .nil vm counter⟩
    | cons opcode rest ih =>
      obtain ⟨middle, counter'', hstep, hrest⟩ := bind_eq_ok.mp hrun
      obtain ⟨count, hreaches⟩ := ih hrest
      cases opcode with
      | error error => cases hstep
      | ok opcode => exact ⟨_, .cons hstep hreaches⟩
  · rintro ⟨count, hreaches⟩
    induction hreaches with
    | nil vm counter => rfl
    | cons hstep _ ih => exact bind_eq_ok.mpr ⟨_, _, hstep, ih⟩

/-- A stretch of a script counts its operations, and they stay within the limit. After every
opcode the stacks are within their common size. -/
theorem Reaches.spec {count : Nat}
    (hreaches : Reaches crypto source verifyOnlyPush vm counter opcodes count last counter')
    (hvm : WithinLimit vm) : Counted vm count last ∧
      (opcodes ≠ [] → last.astack.length + last.dstack.length ≤ maxStackSize) := by
  induction hreaches with
  | nil vm counter => exact ⟨hvm.counted, fun hne => absurd rfl hne⟩
  | cons hstep hrest ih =>
    obtain ⟨⟨hops, hlimit⟩, hsize⟩ :=
      (step_runs crypto source verifyOnlyPush _ hvm).ends.of_eq_ok hstep
    obtain ⟨⟨hcount, hlast⟩, hstacks⟩ := ih hlimit
    refine ⟨⟨by rw [hcount, hops]; push_cast; omega, hlast⟩, fun _ => ?_⟩
    cases hrest with
    | nil => exact hsize
    | cons => exact hstacks (cons_ne_nil _ _)

variable (crypto source verifyOnlyPush)

theorem runOpcodes_ends (opcodes : List (Except TxScriptError OpCode)) (hvm : WithinLimit vm) :
    Ends (runOpcodes crypto source verifyOnlyPush vm opcodes) WithinLimit := by
  induction opcodes generalizing vm with
  | nil => exact ends_pure hvm
  | cons opcode rest ih =>
    cases opcode with
    | error error => exact ends_fail
    | ok opcode =>
      exact (step_runs crypto source verifyOnlyPush opcode hvm).ends.bind fun _ hstep =>
        ih hstep.1.2

/-- A script starts and ends without operations of its own. -/
theorem executeScript_ends (script : List UInt8) (hvm : WithinLimit vm) :
    Ends (executeScript crypto source script verifyOnlyPush vm) fun vm' => vm'.numOps = 0 := by
  apply (runOpcodes_ends crypto source verifyOnlyPush (parseScript script) hvm).bind
  intro vm' _
  split
  · exact ends_fail
  · exact ends_pure rfl

theorem checkErrorCondition_returns (finalScript : Bool) (vm : TxScriptEngine) :
    Returns (checkErrorCondition finalScript vm) fun vm' =>
      (finalScript = true → vm.dstack.length = 1) ∧ vm'.numOps = vm.numOps := by
  unfold checkErrorCondition
  split
  next hclean =>
    rw [sub_of_le (by omega)]
    exact returns_err
  next hclean =>
    refine .check fun hempty => ?_
    apply (popItems_returns (fun _ => deserializeBool_returns) 1 vm.dstack).bind
    rintro ⟨items, dstack⟩ ⟨_, hlength⟩
    refine .guard fun _ => returns_ok ⟨fun hfinal => ?_, rfl⟩
    have : ¬ 1 < vm.dstack.length := fun hlong => hclean ⟨hfinal, hlong⟩
    omega

theorem withinLimit_of_zero (hvm : vm.numOps = 0) : WithinLimit vm := by
  have hlimit : maxOpsPerScript = 201 := rfl
  constructor <;> omega

theorem runScripts_ends (isP2sh : Bool) (savedStack : Option Stack)
    (scripts : List (List UInt8 × Nat)) (hvm : vm.numOps = 0) :
    Ends (runScripts crypto source isP2sh vm savedStack scripts) fun result =>
      result.1.numOps = 0 := by
  induction scripts generalizing vm savedStack with
  | nil => exact ends_pure hvm
  | cons script rest ih =>
    obtain ⟨script, idx⟩ := script
    unfold runScripts
    split
    · exact ih savedStack hvm
    · exact (executeScript_ends crypto source _ script (withinLimit_of_zero hvm)).bind
        fun vm' hvm' => ih _ hvm'

theorem runAll_ends (scripts : List (List UInt8)) (isP2sh : Bool) :
    Ends (runAll crypto source scripts isP2sh) fun _ => True := by
  apply (runScripts_ends crypto source isP2sh none scripts.zipIdx rfl).bind
  rintro ⟨vm, savedStack⟩ hvm
  cases isP2sh with
  | false => exact ends_pure trivial
  | true =>
    apply Ends.call_bind (checkErrorCondition_returns false vm)
    rintro vm' ⟨_, hvm'⟩
    cases savedStack with
    | none => exact ends_fail
    | some dstack =>
      simp only
      cases dstack.getLast? with
      | none => exact ends_fail
      | some script =>
        have hstart : WithinLimit { vm' with dstack := dstack.dropLast } :=
          withinLimit_of_zero (hvm'.trans hvm)
        exact mono (executeScript_ends crypto source false script hstart)
          fun _ _ hpost => hpost.mono fun _ _ => trivial

theorem executeScripts_ends (scripts : List (List UInt8)) (isP2sh : Bool) :
    Ends (executeScripts crypto source scripts isP2sh) fun _ => True := by
  unfold executeScripts
  split_ifs
  · exact ends_fail
  · exact ends_fail
  cases scripts.find? fun script => maxScriptsSize < script.length with
  | some script => exact ends_fail
  | none =>
    apply (runAll_ends crypto source scripts isP2sh).bind
    intro vm _
    exact Ends.call_bind (checkErrorCondition_returns true vm) fun _ _ => ends_pure trivial

theorem executeStealthSpend_runs (tx : VerifiableTransaction) (inputIdx : Nat)
    (input : TransactionInput) (utxoEntry : UtxoEntry) :
    Runs (executeStealthSpend crypto tx inputIdx input utxoEntry) 1 fun _ => True := by
  unfold executeStealthSpend
  simp only
  split
  · exact runs_fail.of_zero
  next hscript =>
    have hlength : utxoEntry.scriptPublicKey.script.length = 66 := not_not.mp hscript
    rw [vecSlice_of_le (by omega) (by omega)]
    apply Runs.call_bind (returns_mapError (crypto.publicKeyFromSlice _) fun _ => .pubKeyFormat)
    intro _ _
    rw [vecSlice_of_le (by omega) (by omega)]
    apply Runs.call_bind
      (returns_mapError (crypto.xOnlyPublicKeyFromSlice _) fun _ => .pubKeyFormat)
    intro pubkey _
    split_ifs with hshort
    · exact runs_fail.of_zero
    · exact runs_fail.of_zero
    have hbyte : input.signatureScript.length - 65 + 64 < input.signatureScript.length := by omega
    rw [sub_of_le (by omega), call_ok_bind, vecSlice_of_le (by omega) (by omega),
      vecGet_eq_ok (getElem?_eq_getElem hbyte)]
    apply Runs.call_bind (hashTypeOf_returns _)
    intro hashType _
    apply Runs.call_bind (secp_returns _)
    intro sig _
    apply Runs.call_bind (secp_returns _)
    intro msg _
    apply runs_consume
    split
    · exact runs_pure trivial
    · exact runs_fail

theorem executeSource_ends : Ends (source.executeSource crypto) fun _ => True := by
  unfold executeSource
  cases source with
  | standAloneScripts scripts => exact executeScripts_ends crypto _ scripts false
  | txInput tx input idx utxoEntry isP2sh =>
    simp only
    split_ifs
    · exact (executeStealthSpend_runs crypto tx idx input utxoEntry).ends
    · exact ends_pure trivial
    · exact executeScripts_ends crypto _ _ isP2sh

variable {crypto source verifyOnlyPush}

/-- A script that succeeds has closed all its conditionals. -/
theorem executeScript_balanced {script : List UInt8} {vm' : TxScriptEngine}
    (hrun : executeScript crypto source script verifyOnlyPush vm counter = (.ok vm', counter')) :
    vm'.numOps = 0 ∧ ∃ count last,
      Reaches crypto source verifyOnlyPush vm counter (parseScript script) count last counter' ∧
        last.condStack = [] := by
  obtain ⟨last, counter'', hopcodes, hend⟩ := bind_eq_ok.mp hrun
  split at hend
  · cases hend
  next hclosed =>
    obtain ⟨rfl, rfl⟩ : { last with astack := [], numOps := 0 } = vm' ∧ counter'' = counter' := by
      simpa [pure] using hend
    obtain ⟨count, hreaches⟩ := runOpcodes_eq_ok.mp hopcodes
    exact ⟨rfl, count, last, hreaches, by simpa using hclosed⟩

/-- Scripts that succeed leave one item. -/
theorem executeScripts_one_item {scripts : List (List UInt8)} {isP2sh : Bool}
    (hrun : executeScripts crypto source scripts isP2sh counter = (.ok (), counter')) :
    ∃ vm, runAll crypto source scripts isP2sh counter = (.ok vm, counter') ∧
      vm.dstack.length = 1 := by
  unfold executeScripts at hrun
  split_ifs at hrun
  · cases hrun
  · cases hrun
  cases hfind : scripts.find? fun script => decide (maxScriptsSize < script.length) with
  | some script =>
    rw [hfind] at hrun
    cases hrun
  | none =>
    rw [hfind] at hrun
    obtain ⟨vm, counter'', hall, hend⟩ := bind_eq_ok.mp hrun
    obtain ⟨vm', hresult, hdone⟩ := call_bind_eq_ok.mp hend
    have hreturns := checkErrorCondition_returns true vm
    obtain rfl : counter'' = counter' := by simpa [pure] using hdone
    rw [hresult] at hreturns
    exact ⟨vm, hall, hreturns.of_ok.1 rfl⟩

/-- The engine on an input of a transaction: it returns, every script of it stays within the
limits on operations and stack sizes, and success needs closed conditionals and a single item. -/
theorem execute_robust (crypto : Crypto) (tx : VerifiableTransaction) (input : TransactionInput)
    (utxoEntry : UtxoEntry) {idx : Nat} (hidx : idx < tx.tx.inputs.length) :
    ∃ source, ScriptSource.fromTransactionInput tx input idx utxoEntry = .ok source ∧
      (∀ counter, Returns (source.executeSource crypto counter).1 fun _ => True) ∧
      (∀ verifyOnlyPush vm counter opcodes count last counter', vm.numOps = 0 →
        Reaches crypto source verifyOnlyPush vm counter opcodes count last counter' →
        (count : Int) ≤ maxOpsPerScript ∧
          (opcodes ≠ [] → last.astack.length + last.dstack.length ≤ maxStackSize)) ∧
      (∀ verifyOnlyPush vm counter script vm' counter',
        executeScript crypto source script verifyOnlyPush vm counter = (.ok vm', counter') →
        vm'.numOps = 0 ∧ ∃ count last,
          Reaches crypto source verifyOnlyPush vm counter (parseScript script) count last counter' ∧
            last.condStack = []) ∧
      (∀ counter counter', utxoEntry.scriptPublicKey.version < stealthScriptVersion →
        source.executeSource crypto counter = (.ok (), counter') →
        ∃ vm, runAll crypto source [input.signatureScript, utxoEntry.scriptPublicKey.script]
            (isPayToScriptHash utxoEntry.scriptPublicKey.script) counter = (.ok vm, counter') ∧
          vm.dstack.length = 1) := by
  refine ⟨.txInput tx input idx utxoEntry (isPayToScriptHash utxoEntry.scriptPublicKey.script),
    ?_, fun counter => (executeSource_ends crypto _).returns counter, ?_,
    fun _ _ _ _ _ _ hrun => executeScript_balanced hrun, ?_⟩
  · rw [ScriptSource.fromTransactionInput, assert, if_pos (by simpa using hidx)]
    rfl
  · intro verifyOnlyPush vm counter opcodes count last counter' hvm hreaches
    have hstart := withinLimit_of_zero hvm
    obtain ⟨⟨hcount, _, hlimit⟩, hstacks⟩ := hreaches.spec hstart
    exact ⟨by omega, hstacks⟩
  · intro counter counter' hversion hrun
    have hnot : utxoEntry.scriptPublicKey.version ≠ stealthScriptVersion := by
      rintro heq
      rw [heq] at hversion
      exact absurd hversion (by decide)
    have hknown : ¬ maxScriptPublicKeyVersion < utxoEntry.scriptPublicKey.version := by
      intro habove
      exact UInt16.lt_irrefl _ (UInt16.lt_trans hversion habove)
    simp only [ScriptSource.executeSource, if_neg hnot, if_neg hknown] at hrun
    exact executeScripts_one_item hrun

end TxScriptEngine

/-- Operations that accept every key and every signature. -/
def Crypto.accepting : Crypto where
  PublicKey := Unit
  XOnlyPublicKey := Unit
  SchnorrSignature := Unit
  EcdsaSignature := Unit
  Message := Unit
  MlDsaPublicKey := Unit
  MlDsaSignature := Unit
  publicKeyFromSlice _ := .ok ()
  xOnlyPublicKeyFromSlice _ := .ok ()
  schnorrSignatureFromSlice _ := .ok ()
  ecdsaSignatureFromCompact _ := .ok ()
  messageFromDigestSlice _ := .ok ()
  mlDsaPublicKeyFromBytes _ := some ()
  mlDsaSignatureFromBytes _ := some ()
  verifySchnorr _ _ _ := true
  verifyEcdsa _ _ _ := true
  verifyMlDsa _ _ _ := true
  schnorrSignatureHash _ _ _ := []
  ecdsaSignatureHash _ _ _ := []
  sha256 := id
  blake2b := id

/-- An input with the given signature script. -/
def sampleInput (signatureScript : List UInt8) : TransactionInput :=
  ⟨⟨0, 0⟩, signatureScript, 0, 255⟩

/-- A transaction with one input. -/
def sampleTransaction (signatureScript : List UInt8) : VerifiableTransaction where
  tx := ⟨0, [sampleInput signatureScript], [], 0, subnetworkIdNative, 0, [], 0, 0⟩
  utxo _ := none

/-- An output with the given script. -/
def sampleEntry (script : List UInt8) : UtxoEntry := ⟨0, ⟨0, script⟩, 0, false⟩

/-- A script that pushes a number and compares it with itself. -/
theorem TxScriptEngine.execute_robust_dup :
    0 < (sampleTransaction [0x52]).tx.inputs.length ∧
      ∃ source, ScriptSource.fromTransactionInput (sampleTransaction [0x52]) (sampleInput [0x52]) 0
        (sampleEntry [0x76, 0x87]) = .ok source ∧
        ∀ counter, Returns (source.executeSource .accepting counter).1 fun _ => True := by
  refine ⟨by decide, ?_⟩
  obtain ⟨source, hsource, hreturns, _⟩ := execute_robust .accepting (sampleTransaction [0x52])
    (sampleInput [0x52]) (sampleEntry [0x76, 0x87]) (by decide : 0 < _)
  exact ⟨source, hsource, hreturns⟩

end Qaspa.Script
