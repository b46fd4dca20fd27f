import Mathlib.Data.UInt
import Qaspa.Hashing.SigHash
import Qaspa.Lib.HashMap

/-! # Partially signed transactions

A wallet turns a pending transaction into a record for each input and output, passes the record
around for signatures, and extracts the signed transaction. The conversion leaves out the
sequences of the inputs and the payload, and the extraction fills in the largest sequence and no
payload. Everything else but signature scripts and mass survives the round trip.
-/

namespace Qaspa.Pskt

open Outcome Hashing List

/-- A transaction of the native subnetwork without mass, with its identifier. -/
def newTransaction (hashId : Transaction → BitVec 256) (version : UInt16)
    (inputs : List TransactionInput) (outputs : List TransactionOutput) (lockTime : UInt64)
    (payload : List UInt8) : Transaction :=
  let tx : Transaction := ⟨version, inputs, outputs, lockTime, subnetworkIdNative, 0, payload, 0, 0⟩
  { tx with id := hashId tx }

inductive Version where
  | zero
  | one
  deriving DecidableEq, Repr

inductive Signature where
  | ecdsa (bytes : List UInt8)
  | schnorr (bytes : List UInt8)

structure KeySource where
  keyFingerprint : List UInt8
  derivationPath : List UInt32

/-- A signature for an input, with the bytes of the key. -/
structure SignInputOk where
  signature : Signature
  pubKey : List UInt8
  keySource : Option KeySource

structure Global where
  version : Version := .zero
  txVersion : UInt16 := 0
  fallbackLockTime : Option UInt64 := none
  id : Option (BitVec 256) := none
  payload : Option (List UInt8) := none

structure Input where
  utxoEntry : Option UtxoEntry := none
  previousOutpoint : TransactionOutpoint
  sequence : Option UInt64 := none
  minTime : Option UInt64 := none
  partialSigs : HashMap (List UInt8) Signature := ∅
  sighashType : SigHashType := sigHashAll
  sigOpCount : Option UInt8 := none
  bip32Derivations : HashMap (List UInt8) (Option KeySource) := ∅
  finalScriptSig : Option (List UInt8) := none

/-- Of an output, only the amount and the script are used. -/
structure Inner where
  globalMap : Global
  inputs : List Input
  outputs : List TransactionOutput

/-- The errors of signing, finalizing and extracting. -/
inductive Error (ε : Type) where
  | signFn (error : ε)
  | wrongFinalizedSigsCount (expected actual : Nat)
  | emptySignature (index : Nat)
  | finalaziCb (error : ε)
  | txNotFinalized
  | outOfBounds
  | payloadRequiresVersion1 (version : Version)

variable {ε : Type}

namespace Input

variable (input : Input)

/-- The input of the unsigned transaction. -/
def unsigned : TransactionInput :=
  ⟨input.previousOutpoint, [], input.sequence.getD (-1), input.sigOpCount.getD 0⟩

def sign (signed : SignInputOk) : Input :=
  { input with
    bip32Derivations := input.bip32Derivations.insert signed.pubKey signed.keySource
    partialSigs := input.partialSigs.insert signed.pubKey signed.signature }

def finalize (sig : List UInt8) : Input :=
  { input with sequence := some (input.sequence.getD (-1)), finalScriptSig := some sig }

/-- An input of the unsigned transaction with the final script. -/
def complete : TransactionInput × Input → Outcome (Error ε) TransactionInput
  | (dest, src) =>
    match src.finalScriptSig with
    | some script => .ok { dest with signatureScript := script }
    | none => .error (.err .txNotFinalized)

/-- Sign as many inputs as there are signatures. -/
def signAll : List Input → List SignInputOk → List Input
  | input :: inputs, signed :: rest => input.sign signed :: signAll inputs rest
  | inputs, _ => inputs

end Input

namespace Inner

variable (hashId : Transaction → BitVec 256)
  (calcMass : Transaction → List (TransactionInput × UtxoEntry) → UInt64)
  (signFn : PopulatedTransaction → List SigHashType → Except ε (List SignInputOk))
  (sigsFn : Inner → Except ε (List (List UInt8))) (pskt : Inner)

/-- The fallback counts only for a transaction without inputs. -/
def determineLockTime : UInt64 :=
  ((pskt.inputs.map (·.minTime)).max?.getD pskt.globalMap.fallbackLockTime).getD 0

/-- The payload counts only from the second version on. -/
def transaction : Transaction :=
  newTransaction hashId pskt.globalMap.txVersion (pskt.inputs.map Input.unsigned) pskt.outputs
    pskt.determineLockTime
    (if pskt.globalMap.version = .one then pskt.globalMap.payload.getD [] else [])

/-- The unsigned transaction. Its constructor asserts that every input has an entry. -/
def unsignedTx : Outcome Empty PopulatedTransaction :=
  let entries := pskt.inputs.filterMap (·.utxoEntry)
  if hlength : (pskt.transaction hashId).inputs.length = entries.length then
    .ok ⟨pskt.transaction hashId, _, List.map_fst_zip (Nat.le_of_eq hlength)⟩
  else .error .panic

def passSignature : Outcome (Error ε) Inner := do
  let unsigned ← (pskt.unsignedTx hashId).widen
  let signed ← (signFn unsigned (pskt.inputs.map (·.sighashType))).mapError (.err ∘ .signFn)
  return { pskt with inputs := Input.signAll pskt.inputs signed }

def finalizeInternal : Outcome (Error ε) Inner := do
  let sigs ← (sigsFn pskt).mapError (.err ∘ .finalaziCb)
  if sigs.length ≠ pskt.inputs.length then
    .error (.err (.wrongFinalizedSigsCount pskt.inputs.length sigs.length))
  if let some index := sigs.findIdx? (·.isEmpty) then .error (.err (.emptySignature index))
  let pskt := { pskt with inputs := pskt.inputs.zipWith Input.finalize sigs }
  let unsigned ← (pskt.unsignedTx hashId).widen
  return { pskt with globalMap := { pskt.globalMap with id := some unsigned.tx.id } }

/-- The signed transaction, with the mass that consensus calculates for it. -/
def extractTxUnchecked : Outcome (Error ε) Transaction := do
  if pskt.globalMap.id = none then .error (.err .txNotFinalized)
  let unsigned ← (pskt.unsignedTx hashId).widen
  let inputs ← (unsigned.tx.inputs.zip pskt.inputs).mapM Input.complete
  let tx := { unsigned.tx with inputs := inputs }
  return { tx with mass := calcMass tx unsigned.populatedInputs }

/-- The record of a pending transaction, with defaults for everything it leaves out. -/
def ofPending (pending : PopulatedTransaction) : Inner where
  globalMap := {}
  inputs := pending.populatedInputs.map fun (input, entry) =>
    { utxoEntry := some entry
      previousOutpoint := input.previousOutpoint
      sigOpCount := some input.sigOpCount }
  outputs := pending.tx.outputs

/-- A pending transaction converted, signed, finalized and extracted. -/
def roundTrip (pending : PopulatedTransaction) : Outcome (Error ε) Transaction := do
  let signed ← (ofPending pending).passSignature hashId signFn
  let finalized ← signed.finalizeInternal hashId sigsFn
  finalized.extractTxUnchecked hashId calcMass

end Inner

/-! ## What survives -/

/-- An input as the round trip leaves it, apart from the signature script. -/
def finalInput (input : TransactionInput) : TransactionInput :=
  { input with signatureScript := [], sequence := -1 }

/-- What the unsigned transaction takes from an input. -/
def Input.view (input : Input) : TransactionInput × Option UtxoEntry × Option UInt64 :=
  (input.unsigned, input.utxoEntry, input.minTime)

theorem map_view_zipWith_finalize (inputs : List Input) {sigs : List (List UInt8)}
    (hlength : sigs.length = inputs.length) :
    (inputs.zipWith Input.finalize sigs).map Input.view = inputs.map Input.view := by
  induction inputs generalizing sigs with
  | nil => rfl
  | cons input inputs ih =>
    cases sigs with
    | nil => cases hlength
    | cons sig sigs => exact congrArg (input.view :: ·) (ih (Nat.succ.inj hlength))

theorem map_view_signAll (inputs : List Input) (signed : List SignInputOk) :
    (Input.signAll inputs signed).map Input.view = inputs.map Input.view := by
  induction inputs generalizing signed with
  | nil => rfl
  | cons input inputs ih =>
    cases signed with
    | nil => rfl
    | cons first signed => exact congrArg (input.view :: ·) (ih signed)

/-- An input without its signature script. -/
def eraseScript (input : TransactionInput) : TransactionInput :=
  { input with signatureScript := [] }

/-- A transaction without its signature scripts and its mass. -/
def erase (tx : Transaction) : Transaction :=
  { tx with inputs := tx.inputs.map eraseScript, mass := 0 }

variable (ε) in
theorem mapM_complete (inputs : List Input)
    (hscripts : ∀ input ∈ inputs, ∃ script, input.finalScriptSig = some script) :
    ∃ completed, (((inputs.map Input.unsigned).zip inputs).mapM Input.complete :
        Outcome (Error ε) _) = .ok completed ∧
      completed.map eraseScript = inputs.map Input.unsigned := by
  induction inputs with
  | nil => exact ⟨[], rfl, rfl⟩
  | cons input inputs ih =>
    obtain ⟨⟨script, hscript⟩, hrest⟩ := forall_mem_cons.mp hscripts
    obtain ⟨completed, hcompleted, herase⟩ := ih hrest
    refine ⟨{ input.unsigned with signatureScript := script } :: completed, ?_,
      congrArg (input.unsigned :: ·) herase⟩
    rw [map_cons, zip_cons_cons, mapM_cons, hcompleted, Input.complete, hscript]
    rfl

namespace Inner

/-- A record that stands for a pending transaction, up to sequences and payload. -/
structure Carries (pending : PopulatedTransaction) (pskt : Inner) : Prop where
  globalMap : pskt.globalMap = { id := pskt.globalMap.id }
  inputs : pskt.inputs.map Input.view =
    pending.populatedInputs.map fun (input, entry) => (finalInput input, some entry, none)
  outputs : pskt.outputs = pending.tx.outputs

variable (hashId : Transaction → BitVec 256) {pending : PopulatedTransaction} {pskt : Inner}
  (calcMass : Transaction → List (TransactionInput × UtxoEntry) → UInt64)
  {signFn : PopulatedTransaction → List SigHashType → Except ε (List SignInputOk)}
  {sigsFn : Inner → Except ε (List (List UInt8))}

section

variable (hcarries : pskt.Carries pending)

include hcarries

theorem Carries.determineLockTime : pskt.determineLockTime = 0 := by
  have htimes : pskt.inputs.map (·.minTime) = pending.populatedInputs.map fun _ => none := by
    have hviews := congrArg (map (·.2.2)) hcarries.inputs
    rwa [map_map, map_map] at hviews
  rw [Inner.determineLockTime, hcarries.globalMap, htimes]
  cases pending.populatedInputs with
  | nil => rfl
  | cons _ inputs =>
    induction inputs with
    | nil => rfl
    | cons _ inputs ih => exact ih

theorem Carries.transaction : pskt.transaction hashId =
    newTransaction hashId 0 (pending.tx.inputs.map finalInput) pending.tx.outputs 0 [] := by
  have hinputs : pskt.inputs.map Input.unsigned = pending.tx.inputs.map finalInput := by
    have hviews := congrArg (map (·.1)) hcarries.inputs
    rw [map_map, map_map] at hviews
    rw [← pending.map_fst, map_map]
    exact hviews
  rw [Inner.transaction, hinputs, hcarries.outputs, hcarries.determineLockTime, hcarries.globalMap]
  rfl

theorem Carries.unsignedTx : ∃ unsigned,
    pskt.unsignedTx hashId = .ok unsigned ∧ unsigned.tx = pskt.transaction hashId := by
  have hentries : pskt.inputs.filterMap (·.utxoEntry) =
      pending.populatedInputs.filterMap (some ∘ Prod.snd) := by
    have hviews := congrArg (filterMap (·.2.1)) hcarries.inputs
    rwa [filterMap_map, filterMap_map] at hviews
  have hlength := congrArg length hcarries.inputs
  rw [length_map, length_map] at hlength
  refine ⟨_, dif_pos ?_, rfl⟩
  rw [hentries, filterMap_eq_map, length_map, ← hlength]
  exact length_map _

theorem Carries.passSignature
    (hsign : ∀ unsigned types, ∃ signed, signFn unsigned types = .ok signed) :
    ∃ next, pskt.passSignature hashId signFn = .ok next ∧ next.Carries pending := by
  obtain ⟨unsigned, hunsigned, _⟩ := hcarries.unsignedTx hashId
  obtain ⟨signed, hsigned⟩ := hsign unsigned (pskt.inputs.map (·.sighashType))
  refine ⟨{ pskt with inputs := Input.signAll pskt.inputs signed }, ?_, hcarries.globalMap, ?_,
    hcarries.outputs⟩
  · rw [Inner.passSignature, hunsigned]
    simp only [widen, ok_bind, hsigned]
    rfl
  · rw [map_view_signAll, hcarries.inputs]

theorem Carries.finalizeInternal {sigs : List (List UInt8)} (hsigs : sigsFn pskt = .ok sigs)
    (hlength : sigs.length = pskt.inputs.length) (hnonempty : ∀ sig ∈ sigs, sig ≠ []) :
    ∃ next, pskt.finalizeInternal hashId sigsFn = .ok next ∧ next.Carries pending ∧
      next.globalMap.id ≠ none ∧ ∀ input ∈ next.inputs, ∃ sig, input.finalScriptSig = some sig := by
  have hcarries' : ({ pskt with inputs := pskt.inputs.zipWith Input.finalize sigs } : Inner).Carries
      pending :=
    ⟨hcarries.globalMap, (map_view_zipWith_finalize _ hlength).trans hcarries.inputs,
      hcarries.outputs⟩
  obtain ⟨unsigned, hunsigned, _⟩ := hcarries'.unsignedTx hashId
  have hfind : sigs.findIdx? (·.isEmpty) = none := by
    simpa [findIdx?_eq_none_iff] using hnonempty
  refine ⟨⟨{ pskt.globalMap with id := some unsigned.tx.id },
    pskt.inputs.zipWith Input.finalize sigs, pskt.outputs⟩, ?_,
    ⟨?_, hcarries'.inputs, hcarries'.outputs⟩, Option.some_ne_none _, ?_⟩
  · rw [Inner.finalizeInternal, hsigs]
    simp only [Except.mapError, ok_bind, if_neg (not_not.mpr hlength), hfind, hunsigned, widen]
    rfl
  · rw [hcarries.globalMap]
  · intro input hinput
    obtain ⟨i, hi, rfl⟩ := getElem_of_mem hinput
    rw [getElem_zipWith]
    exact ⟨_, rfl⟩

theorem Carries.extractTxUnchecked (hid : pskt.globalMap.id ≠ none)
    (hscripts : ∀ input ∈ pskt.inputs, ∃ sig, input.finalScriptSig = some sig) :
    ∃ tx, (pskt.extractTxUnchecked hashId calcMass : Outcome (Error ε) Transaction) = .ok tx ∧
      erase tx =
        newTransaction hashId 0 (pending.tx.inputs.map finalInput) pending.tx.outputs 0 [] := by
  obtain ⟨unsigned, hunsigned, htx⟩ := hcarries.unsignedTx hashId
  obtain ⟨completed, hcompleted, herase⟩ := mapM_complete ε pskt.inputs hscripts
  have hinputs : unsigned.tx.inputs = pskt.inputs.map Input.unsigned := by rw [htx]; rfl
  rw [Inner.extractTxUnchecked, if_neg hid, hunsigned]
  simp only [widen, ok_bind, hinputs, hcompleted]
  refine ⟨_, rfl, ?_⟩
  rw [erase, herase, htx, ← hcarries.transaction]
  rfl

end

/-- A pending transaction as the generator constructs it, with the mass set afterwards. -/
structure Generated (pending : PopulatedTransaction) : Prop where
  tx_eq : erase pending.tx = newTransaction hashId 0 pending.tx.inputs pending.tx.outputs 0
    pending.tx.payload
  sequence_eq : ∀ input ∈ pending.tx.inputs, input.sequence = 0

/-- The extraction succeeds, and only the sequences and the payload do not survive. So the
extracted transaction differs from the pending one in more than signature scripts and mass as soon
as there is an input or a payload. -/
theorem roundTrip_generated (hgenerated : Generated hashId pending)
    (hsign : ∀ unsigned types, ∃ signed, signFn unsigned types = .ok signed)
    (hsigs : ∀ pskt, ∃ sigs, sigsFn pskt = .ok sigs ∧ sigs.length = pskt.inputs.length ∧
      ∀ sig ∈ sigs, sig ≠ []) :
    ∃ tx, roundTrip hashId calcMass signFn sigsFn pending = .ok tx ∧
      erase tx =
        newTransaction hashId 0 (pending.tx.inputs.map finalInput) pending.tx.outputs 0 [] ∧
      (erase tx = erase pending.tx ↔ pending.tx.inputs = [] ∧ pending.tx.payload = []) := by
  have hcarries : (ofPending pending).Carries pending := ⟨rfl, List.map_map, rfl⟩
  obtain ⟨signed, hsigned, hcarries⟩ := hcarries.passSignature hashId hsign
  obtain ⟨sigs, hsigs, hlength, hnonempty⟩ := hsigs signed
  obtain ⟨final, hfinal, hcarries, hid, hscripts⟩ :=
    hcarries.finalizeInternal hashId hsigs hlength hnonempty
  obtain ⟨tx, htx, herase⟩ := hcarries.extractTxUnchecked hashId calcMass hid hscripts
  refine ⟨tx, by rw [roundTrip, hsigned, ok_bind, hfinal, ok_bind, htx], herase, ?_⟩
  rw [herase, hgenerated.tx_eq]
  constructor
  · intro hsame
    have hinputs : pending.tx.inputs.map finalInput = pending.tx.inputs :=
      congrArg Transaction.inputs hsame
    refine ⟨eq_nil_iff_forall_not_mem.mpr fun input hinput => ?_,
      (congrArg Transaction.payload hsame).symm⟩
    -- every input of the list is the image of one, so it has the largest sequence
    have hfinal : input ∈ pending.tx.inputs.map finalInput := hinputs.symm ▸ hinput
    obtain ⟨source, _, rfl⟩ := mem_map.mp hfinal
    exact absurd (hgenerated.sequence_eq _ hinput) (show (-1 : UInt64) ≠ 0 by decide)
  · rintro ⟨hinputs, hpayload⟩
    rw [hinputs, hpayload, map_nil]

/-- A transaction with one input, as the generator makes it. -/
def samplePending : PopulatedTransaction :=
  ⟨{ newTransaction 0 0 [⟨⟨1, 0⟩, [], 0, 1⟩] [] 0 [] with mass := 1000 },
    [(⟨⟨1, 0⟩, [], 0, 1⟩, ⟨1, ⟨0, []⟩, 0, false⟩)], rfl⟩

theorem generated_samplePending : Generated 0 samplePending := ⟨rfl, by decide⟩

/-- The round trip with one byte as the signature script of every input. -/
def sampleTrip : Outcome (Error Empty) Transaction :=
  roundTrip 0 0 (fun _ _ => .ok []) (fun pskt => .ok (pskt.inputs.map fun _ => [1])) samplePending

/-- The generator gives every input the sequence zero, and the extracted one has the largest. -/
theorem sampleTrip_changes_sequence : Generated 0 samplePending ∧ ∃ tx,
    sampleTrip = .ok tx ∧ tx.inputs.map (·.sequence) = [-1] :=
  ⟨generated_samplePending, _, rfl, rfl⟩

theorem sampleTrip_differs : ∃ tx, sampleTrip = .ok tx ∧ erase tx ≠ erase samplePending.tx := by
  obtain ⟨tx, htx, _, hkeeps⟩ := roundTrip_generated 0 0 generated_samplePending
    (fun _ _ => ⟨[], rfl⟩)
    (fun pskt => ⟨pskt.inputs.map fun _ => [1], rfl, List.length_map _, by simp⟩)
  exact ⟨tx, htx, fun hsame => nomatch (hkeeps.mp hsame).1⟩

end Inner

/-! ## Assembly

The roles restrict the order of the calls, and a change of role changes only the marks that inputs
and outputs may be added. No call reads these marks or the counts kept beside them. -/

/-- What creator, constructor, updater and signer call. -/
inductive Call (ε : Type) where
  | fallbackLockTime (fallback : UInt64)
  | setVersion (version : Version)
  | input (input : Input)
  | output (output : TransactionOutput)
  | payload (payload : Option (List UInt8))
  | setSequence (n : UInt64) (inputIndex : Nat)
  | passSignature (signFn : PopulatedTransaction → List SigHashType → Except ε (List SignInputOk))
  | setInputPrevTransactionId (transactionId : BitVec 256)

def Input.setSequence (n : UInt64) (input : Input) : Input := { input with sequence := some n }

def Input.setTransactionId (transactionId : BitVec 256) (input : Input) : Input :=
  { input with previousOutpoint := { input.previousOutpoint with transactionId } }

def Inner.call (hashId : Transaction → BitVec 256) (pskt : Inner) :
    Call ε → Outcome (Error ε) Inner
  | .fallbackLockTime fallback =>
    .ok { pskt with globalMap := { pskt.globalMap with fallbackLockTime := some fallback } }
  | .setVersion version => .ok { pskt with globalMap := { pskt.globalMap with version } }
  | .input input => .ok { pskt with inputs := pskt.inputs ++ [input] }
  | .output output => .ok { pskt with outputs := pskt.outputs ++ [output] }
  | .payload payload =>
    if payload.isSome ∧ pskt.globalMap.version = .zero then
      .error (.err (.payloadRequiresVersion1 pskt.globalMap.version))
    else .ok { pskt with globalMap := { pskt.globalMap with payload } }
  | .setSequence n inputIndex =>
    if pskt.inputs.length ≤ inputIndex then .error (.err .outOfBounds)
    else .ok { pskt with inputs := pskt.inputs.modify inputIndex (Input.setSequence n) }
  | .passSignature signFn => pskt.passSignature hashId signFn
  | .setInputPrevTransactionId transactionId =>
    .ok { pskt with inputs := pskt.inputs.map (Input.setTransactionId transactionId) }

/-- What the calls ask for: inputs and outputs in the order added, the last sequence set for each
input and the last fallback. -/
structure Request where
  inputs : List Input := []
  sequence : Nat → Option UInt64 := fun _ => none
  outputs : List TransactionOutput := []
  fallback : Option UInt64 := none

namespace Request

variable (request : Request)

def call : Call ε → Request
  | .fallbackLockTime fallback => { request with fallback := some fallback }
  | .input input => { request with inputs := request.inputs ++ [input] }
  | .output output => { request with outputs := request.outputs ++ [output] }
  | .setSequence n inputIndex =>
    { request with sequence := Function.update request.sequence inputIndex (some n) }
  | .setInputPrevTransactionId transactionId =>
    { request with inputs := request.inputs.map (Input.setTransactionId transactionId) }
  | _ => request

/-- The input at an index, with the sequence set for it. -/
def sequenced (index : Nat) (input : Input) : Input :=
  { input with sequence := (request.sequence index).or input.sequence }

/-- The maximum of the times that inputs give, or else the fallback, or else zero. -/
def lockTime : UInt64 :=
  ((request.inputs.filterMap (·.minTime)).max?.or request.fallback).getD 0

/-- A record that was assembled as requested. -/
structure Met (pskt : Inner) : Prop where
  inputs : pskt.inputs.map Input.view =
    request.inputs.mapIdx fun i input => (request.sequenced i input).view
  unset : ∀ i, request.inputs.length ≤ i → request.sequence i = none
  outputs : pskt.outputs = request.outputs
  fallback : pskt.globalMap.fallbackLockTime = request.fallback

end Request

variable {hashId : Transaction → BitVec 256} {request : Request} {pskt next : Inner}

theorem Request.Met.call {call : Call ε} (hmet : request.Met pskt)
    (hcall : pskt.call hashId call = .ok next) : (request.call call).Met next := by
  obtain ⟨hinputs, hunset, houtputs, hfallback⟩ := hmet
  cases call with
  | fallbackLockTime fallback =>
    cases hcall
    exact ⟨hinputs, hunset, houtputs, rfl⟩
  | setVersion version =>
    cases hcall
    exact ⟨hinputs, hunset, houtputs, hfallback⟩
  | input input =>
    cases hcall
    refine ⟨?_, fun i hi => hunset i ?_, houtputs, hfallback⟩
    · rw [Request.call, map_append, hinputs, mapIdx_concat, sequenced,
        hunset _ (Nat.le_refl _)]
      rfl
    · rw [Request.call, length_append] at hi
      exact Nat.le_of_add_right_le hi
  | output output =>
    cases hcall
    exact ⟨hinputs, hunset, congrArg (· ++ [output]) houtputs, hfallback⟩
  | payload payload =>
    obtain ⟨_, hcall⟩ := ite_error_eq_ok.mp hcall
    cases hcall
    exact ⟨hinputs, hunset, houtputs, hfallback⟩
  | setSequence n inputIndex =>
    obtain ⟨hindex, hcall⟩ := ite_error_eq_ok.mp hcall
    cases hcall
    have hlength := congrArg length hinputs
    rw [length_map, length_mapIdx] at hlength
    refine ⟨ext_getElem? fun i => ?_, fun i hi => ?_, houtputs, hfallback⟩
    · have hview := congrArg (·[i]?) hinputs
      simp only [getElem?_map, getElem?_mapIdx] at hview
      simp only [Request.call, getElem?_map, getElem?_mapIdx, getElem?_modify]
      by_cases hi : i = inputIndex
      · subst hi
        have hset := congrArg (Option.map fun view => ({ view.1 with sequence := n }, view.2)) hview
        simpa [Function.comp_def, Input.view, Input.unsigned, Input.setSequence, sequenced]
          using hset
      · simpa [Ne.symm hi, sequenced, hi] using hview
    · have hi : request.inputs.length ≤ i := hi
      exact (Function.update_of_ne (by omega) _ _).trans (hunset i hi)
  | passSignature signFn =>
    obtain ⟨unsigned, _, hcall⟩ := bind_eq_ok.mp hcall
    obtain ⟨signed, _, hcall⟩ := bind_eq_ok.mp hcall
    cases hcall
    exact ⟨(map_view_signAll _ _).trans hinputs, hunset, houtputs, hfallback⟩
  | setInputPrevTransactionId transactionId =>
    cases hcall
    refine ⟨?_, fun i hi => hunset i (by simpa [Request.call] using hi), houtputs, hfallback⟩
    have hset := congrArg (map fun view => ({ view.1 with
      previousOutpoint := { view.1.previousOutpoint with transactionId } }, view.2)) hinputs
    simp only [Request.call, mapIdx_eq_zipIdx_map, zipIdx_map, map_map] at hset ⊢
    exact hset

theorem Request.Met.calls {calls : List (Call ε)} (hmet : request.Met pskt)
    (hcalls : calls.foldlM (Inner.call hashId) pskt = .ok next) :
    (calls.foldl Request.call request).Met next := by
  induction calls generalizing request pskt with
  | nil =>
    cases hcalls
    exact hmet
  | cons call calls ih =>
    obtain ⟨middle, hcall, hcalls⟩ := bind_eq_ok.mp hcalls
    exact ih (hmet.call hcall) hcalls

/-- Of times that need not be given, the maximum is that of the given ones. -/
theorem foldl_max_options (times : List (Option UInt64)) (first : Option UInt64) :
    times.foldl max first = ((first :: times).filterMap id).max? := by
  induction times generalizing first with
  | nil => cases first <;> rfl
  | cons second times ih =>
    refine (ih (max first second)).trans ?_
    cases first <;> cases second <;> rfl

/-- What no call changes about the inputs. -/
theorem Request.Met.map_view (hmet : request.Met pskt) :
    pskt.inputs.map (·.view.2) = request.inputs.map (·.view.2) := by
  have hviews := congrArg (map Prod.snd) hmet.inputs
  rw [map_map] at hviews
  refine hviews.trans (ext_getElem? fun i => ?_)
  simp [Function.comp_def, sequenced, Input.view]

theorem Request.Met.lockTime (hmet : request.Met pskt) :
    pskt.determineLockTime = request.lockTime ↔
      request.inputs = [] ∨ (∃ input ∈ request.inputs, input.minTime ≠ none) ∨
        request.fallback.getD 0 = 0 := by
  have htimes : pskt.inputs.map (·.minTime) = request.inputs.map (·.minTime) := by
    have hviews := congrArg (map Prod.snd) hmet.map_view
    rwa [map_map, map_map] at hviews
  rw [Inner.determineLockTime, htimes, hmet.fallback, Request.lockTime]
  cases hinputs : request.inputs with
  | nil => exact iff_of_true rfl (.inl rfl)
  | cons first rest =>
    have hmax : ((first :: rest).map (·.minTime)).max? =
        some ((first :: rest).filterMap (·.minTime)).max? := by
      rw [map_cons, max?_cons', foldl_max_options, ← map_cons, filterMap_map]
      rfl
    rw [hmax, Option.getD_some]
    cases htime : ((first :: rest).filterMap (·.minTime)).max? with
    | some time =>
      refine iff_of_true rfl (.inr (.inl ?_))
      by_contra hnone
      rw [filterMap_eq_nil_iff.mpr fun input hinput =>
        not_not.mp fun hgiven => hnone ⟨input, hinput, hgiven⟩] at htime
      cases htime
    | none =>
      rw [max?_eq_none_iff, filterMap_eq_nil_iff] at htime
      -- the code takes zero here, whatever the fallback
      have hnone : ¬ ∃ input ∈ first :: rest, input.minTime ≠ none :=
        fun ⟨input, hinput, hgiven⟩ => hgiven (htime input hinput)
      rw [or_iff_right (cons_ne_nil _ _), or_iff_right hnone]
      exact eq_comm

/-- There is an unsigned transaction if and only if every input has an entry. -/
theorem Request.Met.unsignedTx (hmet : request.Met pskt) :
    (∃ unsigned, pskt.unsignedTx hashId = .ok unsigned) ↔
      ∀ input ∈ request.inputs, input.utxoEntry.isSome := by
  have hentries : (pskt.transaction hashId).inputs.length =
      (pskt.inputs.filterMap (·.utxoEntry)).length ↔
        ∀ view ∈ pskt.inputs.map (·.view.2), view.1.isSome := by
    rw [Inner.transaction, newTransaction, length_map, eq_comm, filterMap_length_eq_length,
      forall_mem_map]
    rfl
  rw [hmet.map_view, forall_mem_map] at hentries
  refine Iff.trans ?_ hentries
  rw [Inner.unsignedTx]
  split
  next hlength => exact iff_of_true ⟨_, rfl⟩ hlength
  next hlength => exact iff_of_false nofun hlength

/-- The unsigned transaction, which exists if and only if every input has an entry, lists inputs and
outputs in the order added, every input with the last sequence set for it. Its lock time is the
requested one unless there are inputs, none gives a time, and the fallback is not zero. -/
theorem assembled_transaction (calls : List (Call ε))
    (hcalls : calls.foldlM (Inner.call hashId) ⟨{}, [], []⟩ = .ok pskt) :
    let request := calls.foldl Request.call {}
    ((∃ unsigned, pskt.unsignedTx hashId = .ok unsigned) ↔
        ∀ input ∈ request.inputs, input.utxoEntry.isSome) ∧
      ∀ unsigned, pskt.unsignedTx hashId = .ok unsigned →
        unsigned.tx.inputs =
            request.inputs.mapIdx (fun i input => (request.sequenced i input).unsigned) ∧
          unsigned.tx.outputs = request.outputs ∧
          (unsigned.tx.lockTime = request.lockTime ↔
            request.inputs = [] ∨ (∃ input ∈ request.inputs, input.minTime ≠ none) ∨
              request.fallback.getD 0 = 0) := by
  intro request
  have hmet : request.Met pskt := Request.Met.calls ⟨rfl, fun _ _ => rfl, rfl, rfl⟩ hcalls
  refine ⟨hmet.unsignedTx, fun unsigned hunsigned => ?_⟩
  have htx : unsigned.tx = pskt.transaction hashId := by
    rw [Inner.unsignedTx] at hunsigned
    split at hunsigned
    · exact Except.ok.inj hunsigned ▸ rfl
    · cases hunsigned
  rw [htx]
  refine ⟨?_, hmet.outputs, hmet.lockTime⟩
  have hinputs := congrArg (List.map Prod.fst) hmet.inputs
  rw [List.map_map] at hinputs
  exact hinputs.trans (List.ext_getElem? fun i => by simp [Function.comp_def, Input.view])

/-- A record with a fallback and one input, whose sequence is set. -/
def sampleCalls (minTime : Option UInt64) : List (Call Empty) :=
  [.fallbackLockTime 7,
    .input { utxoEntry := some ⟨1, ⟨0, []⟩, 0, false⟩, previousOutpoint := ⟨1, 0⟩, minTime },
    .setSequence 3 0]

/-- The input gives no time, and the fallback is not used. -/
theorem sampleCalls_ignores_fallback : ∃ pskt unsigned,
    (sampleCalls none).foldlM (Inner.call 0) ⟨{}, [], []⟩ = .ok pskt ∧
      pskt.unsignedTx 0 = .ok unsigned ∧ unsigned.tx.lockTime = 0 ∧
      ((sampleCalls none).foldl Request.call {}).lockTime = 7 :=
  ⟨_, _, rfl, rfl, rfl, rfl⟩

theorem sampleCalls_given : ∃ pskt unsigned,
    (sampleCalls (some 5)).foldlM (Inner.call 0) ⟨{}, [], []⟩ = .ok pskt ∧
      pskt.unsignedTx 0 = .ok unsigned ∧ unsigned.tx.inputs = [⟨⟨1, 0⟩, [], 3, 0⟩] ∧
      unsigned.tx.lockTime = 5 := by
  obtain ⟨hexists, hassembled⟩ := assembled_transaction (sampleCalls (some 5))
    (show (sampleCalls (some 5)).foldlM (Inner.call 0) ⟨{}, [], []⟩ = .ok _ from rfl)
  obtain ⟨unsigned, hunsigned⟩ := hexists.mpr (by decide)
  obtain ⟨hinputs, _, hlockTime⟩ := hassembled unsigned hunsigned
  exact ⟨_, unsigned, rfl, hunsigned, hinputs,
    hlockTime.mpr (.inr (.inl ⟨_, .head _, nofun⟩))⟩

end Qaspa.Pskt
