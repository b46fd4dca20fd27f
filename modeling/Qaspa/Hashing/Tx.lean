import Qaspa.Body.Isolation
import Qaspa.Hashing.Commitment

/-! # Transaction hashes and identifiers

The hash of a transaction covers all its fields. The identifier of an ordinary transaction leaves
out what is settled after signing: the signature scripts, their operation counts and the mass.
A coinbase is identified by all its fields, in the same space of identifiers.
-/

namespace Qaspa

open List Transaction

def TransactionInput.unsigned (input : TransactionInput) : TransactionInput :=
  { input with signatureScript := [], sigOpCount := 0 }

namespace Transaction

/-- The fields that are there before signing. -/
def unsigned (tx : Transaction) : Transaction :=
  { tx with inputs := tx.inputs.map .unsigned, mass := 0 }

/-- The fields that an identifier stands for. -/
def identified (tx : Transaction) : Transaction := if tx.isCoinbase then tx else tx.unsigned

/-- Lengths that fit a machine word. -/
structure Representable (tx : Transaction) : Prop where
  inputs : tx.inputs.length < 256 ^ 8
  signatureScripts : ∀ input ∈ tx.inputs, input.signatureScript.length < 256 ^ 8
  outputs : tx.outputs.length < 256 ^ 8
  scripts : ∀ output ∈ tx.outputs, output.scriptPublicKey.script.length < 256 ^ 8
  payload : tx.payload.length < 256 ^ 8

end Transaction

namespace Hashing

open LittleEndian

/-! ## Encoding -/

abbrev TxEncodingFlags := UInt8

namespace TxEncodingFlags

def full : TxEncodingFlags := 0

def excludeSignatureScript : TxEncodingFlags := 0b01

def excludeMassCommit : TxEncodingFlags := 0b10

def contains (flags flag : TxEncodingFlags) : Bool := flags &&& flag == flag

end TxEncodingFlags

open TxEncodingFlags

def writeInput (flags : TxEncodingFlags) (input : TransactionInput) : List UInt8 :=
  hashOutpoint input.previousOutpoint ++
    (if flags.contains excludeSignatureScript then writeVarBytes []
    else writeVarBytes input.signatureScript ++ encode 1 input.sigOpCount.toNat) ++
    encode 8 input.sequence.toNat

/-- The end of the bytes of a transaction: a mass of zero is not written. -/
def writeMass (flags : TxEncodingFlags) (mass : UInt64) : List UInt8 :=
  if flags.contains excludeMassCommit then []
  else if mass > 0 then encode 8 mass.toNat else []

/-- Outpoints and outputs are written as for signature hashes. -/
def writeTransaction (tx : Transaction) (flags : TxEncodingFlags) : List UInt8 :=
  encode 2 tx.version.toNat ++ encodeList 8 (writeInput flags) tx.inputs ++
    encodeList 8 hashOutput tx.outputs ++ encode 8 tx.lockTime.toNat ++
    encode 20 tx.subnetworkId.toNat ++ encode 8 tx.gas.toNat ++ writeVarBytes tx.payload ++
    writeMass flags tx.mass

def hash (transactionHash : List UInt8 → Hash) (tx : Transaction) : Hash :=
  transactionHash (writeTransaction tx full)

def idFlags (tx : Transaction) : TxEncodingFlags :=
  if tx.isCoinbase then full else excludeSignatureScript ||| excludeMassCommit

def id (transactionID : List UInt8 → Hash) (tx : Transaction) : Hash :=
  transactionID (writeTransaction tx (idFlags tx))

/-! ## What the bytes determine -/

theorem writeInput_delimited :
    Delimited (fun input => input.signatureScript.length < 256 ^ 8) (writeInput full) := by
  rintro ⟨outpoint, script, sequence, count⟩ ⟨outpoint', script', sequence', count'⟩ rest rest'
    hscript hscript' heq
  change hashOutpoint _ ++ (writeVarBytes _ ++ _) ++ _ ++ _ = hashOutpoint _ ++ (_ ++ _) ++ _ ++ _
    at heq
  simp only [append_assoc] at heq
  obtain ⟨rfl, hscripts⟩ := hashOutpoint_delimited _ _ _ _ trivial trivial heq
  obtain ⟨rfl, hcounts⟩ := encodeBytes_delimited 8 _ _ _ _ hscript hscript' hscripts
  obtain ⟨rfl, hsequences⟩ := writeU8_delimited _ _ _ _ trivial trivial hcounts
  obtain ⟨rfl, hrest⟩ := writeU64_delimited _ _ _ _ trivial trivial hsequences
  exact ⟨rfl, hrest⟩

theorem writeInput_unsigned_delimited : Delimited (fun input => input.unsigned = input)
    (writeInput (excludeSignatureScript ||| excludeMassCommit)) := by
  intro input input' rest rest' hinput hinput' heq
  simp only [writeInput, append_assoc] at heq
  obtain ⟨houtpoint, hscripts⟩ := hashOutpoint_delimited _ _ _ _ trivial trivial heq
  obtain ⟨hsequence, hrest⟩ :=
    writeU64_delimited _ _ _ _ trivial trivial (append_cancel_left hscripts)
  refine ⟨?_, hrest⟩
  rw [← hinput, ← hinput', TransactionInput.unsigned, TransactionInput.unsigned, houtpoint,
    hsequence]

theorem writeMass_injective {mass mass' : UInt64}
    (heq : writeMass full mass = writeMass full mass') :
    mass = mass' := by
  have hne : ∀ mass : UInt64, encode 8 mass.toNat ≠ [] := fun mass hnil => by
    simpa [hnil] using encode_length 8 mass.toNat
  change (if mass > 0 then _ else _) = if mass' > 0 then _ else _ at heq
  split at heq
  · split at heq
    · exact writeU64_delimited.injective trivial trivial heq
    · exact absurd heq (hne mass)
  · split at heq
    · exact absurd heq.symm (hne mass')
    · simp_all

variable {flags flags' : TxEncodingFlags} {tx tx' : Transaction}

theorem length_inputs_eq (htx : tx.Representable) (htx' : tx'.Representable)
    (heq : writeTransaction tx flags = writeTransaction tx' flags') :
    tx.inputs.length = tx'.inputs.length := by
  simp only [writeTransaction, encodeList, append_assoc] at heq
  obtain ⟨-, hinputs⟩ := writeU16_delimited _ _ _ _ trivial trivial heq
  exact (encode_delimited 8 _ _ _ _ htx.inputs htx'.inputs hinputs).1

/-- The bytes of a transaction determine its fields if those of its inputs and its mass do. -/
theorem eq_of_writeTransaction_eq {valid : TransactionInput → Prop}
    (hwrite : Delimited valid (writeInput flags)) (htx : tx.Representable)
    (htx' : tx'.Representable) (hvalid : ∀ input ∈ tx.inputs, valid input)
    (hvalid' : ∀ input ∈ tx'.inputs, valid input)
    (hmass : writeMass flags tx.mass = writeMass flags tx'.mass → tx.mass = tx'.mass)
    (heq : writeTransaction tx flags = writeTransaction tx' flags) :
    tx = { tx' with id := tx.id } := by
  simp only [writeTransaction, append_assoc] at heq
  obtain ⟨hversion, heq⟩ := writeU16_delimited _ _ _ _ trivial trivial heq
  obtain ⟨hinputs, heq⟩ := encodeList_delimited 8 hwrite _ _ _ _ ⟨htx.inputs, hvalid⟩
    ⟨htx'.inputs, hvalid'⟩ heq
  obtain ⟨houtputs, heq⟩ := encodeList_delimited 8 hashOutput_delimited _ _ _ _
    ⟨htx.outputs, htx.scripts⟩ ⟨htx'.outputs, htx'.scripts⟩ heq
  obtain ⟨hlockTime, heq⟩ := writeU64_delimited _ _ _ _ trivial trivial heq
  obtain ⟨hsubnetworkId, heq⟩ := writeSubnetworkId_delimited _ _ _ _ trivial trivial heq
  obtain ⟨hgas, heq⟩ := writeU64_delimited _ _ _ _ trivial trivial heq
  obtain ⟨hpayload, heq⟩ := encodeBytes_delimited 8 _ _ _ _ htx.payload htx'.payload heq
  exact mk.injEq .. ▸ ⟨hversion, hinputs, houtputs, hlockTime, hsubnetworkId, hgas,
    hpayload, hmass heq, rfl⟩

theorem writeTransaction_full_eq_iff (htx : tx.Representable) (htx' : tx'.Representable) :
    writeTransaction tx full = writeTransaction tx' full ↔ tx = { tx' with id := tx.id } := by
  refine ⟨eq_of_writeTransaction_eq writeInput_delimited htx htx' htx.signatureScripts
    htx'.signatureScripts writeMass_injective, fun heq => ?_⟩
  rw [heq]
  rfl

theorem writeTransaction_unsigned (tx : Transaction) :
    writeTransaction tx.unsigned (excludeSignatureScript ||| excludeMassCommit) =
      writeTransaction tx (excludeSignatureScript ||| excludeMassCommit) := by
  simp only [writeTransaction, unsigned, encodeList, flatMap_map, length_map]
  rfl

theorem writeTransaction_unsigned_eq_iff (htx : tx.Representable) (htx' : tx'.Representable) :
    writeTransaction tx (excludeSignatureScript ||| excludeMassCommit) =
        writeTransaction tx' (excludeSignatureScript ||| excludeMassCommit) ↔
      tx.unsigned = { tx'.unsigned with id := tx.id } := by
  have hunsigned : ∀ {tx : Transaction}, tx.Representable → tx.unsigned.Representable ∧
      ∀ input ∈ tx.unsigned.inputs, input.unsigned = input := fun htx => by
    refine ⟨{ htx with inputs := ?_, signatureScripts := ?_ }, ?_⟩
    · exact (length_map _).trans_lt htx.inputs
    · simp [unsigned, TransactionInput.unsigned]
    · simp [unsigned, TransactionInput.unsigned]
  rw [← writeTransaction_unsigned, ← writeTransaction_unsigned tx']
  refine ⟨eq_of_writeTransaction_eq writeInput_unsigned_delimited (hunsigned htx).1
    (hunsigned htx').1 (hunsigned htx).2 (hunsigned htx').2 fun _ => rfl, fun heq => ?_⟩
  rw [heq]
  rfl

/-- Transactions with one hash agree in all fields, and valid ones with one identifier in those
that the identifier stands for. The cached identifier is not a field. -/
theorem hash_and_id_identify (validator : TransactionValidator)
    (transactionHash transactionID : List UInt8 → Hash)
    (htx : tx.Representable) (htx' : tx'.Representable)
    (hhash : Set.InjOn transactionHash {writeTransaction tx full, writeTransaction tx' full})
    (hid : Set.InjOn transactionID
      {writeTransaction tx (idFlags tx), writeTransaction tx' (idFlags tx')}) :
    (hash transactionHash tx = hash transactionHash tx' ↔ tx = { tx' with id := tx.id }) ∧
      ((∀ checked ∈ [tx, tx'], validator.checkCoinbaseInIsolation checked = .ok () ∧
          validator.checkTransactionInputsCount checked = .ok ()) →
        (id transactionID tx = id transactionID tx' ↔
          tx.identified = { tx'.identified with id := tx.id })) := by
  refine ⟨(hhash.eq_iff (.inl rfl) (.inr rfl)).trans (writeTransaction_full_eq_iff htx htx'),
    fun hvalid => (hid.eq_iff (.inl rfl) (.inr rfl)).trans ?_⟩
  by_cases hkind : tx.isCoinbase = tx'.isCoinbase
  · unfold idFlags Transaction.identified
    rw [hkind]
    split
    · exact writeTransaction_full_eq_iff htx htx'
    · exact writeTransaction_unsigned_eq_iff htx htx'
  · -- Only a coinbase has no inputs.
    have hinputs : ∀ checked ∈ [tx, tx'], checked.isCoinbase = checked.inputs.isEmpty := by
      intro checked hchecked
      cases hcoinbase : checked.isCoinbase with
      | true =>
        simp [TransactionValidator.inputs_of_checkCoinbaseInIsolation (hvalid checked hchecked).1
          hcoinbase]
      | false =>
        simp [TransactionValidator.inputs_of_checkTransactionInputsCount (hvalid checked hchecked).2
          hcoinbase]
    have hidentified : ∀ tx : Transaction, tx.identified.isCoinbase = tx.isCoinbase := fun tx => by
      unfold Transaction.identified
      split <;> rfl
    refine iff_of_false (fun heq => hkind ?_) fun heq => hkind ?_
    · rw [hinputs tx (.head _), hinputs tx' (.tail _ (.head _)), Bool.eq_iff_iff,
        List.isEmpty_iff_length_eq_zero, List.isEmpty_iff_length_eq_zero,
        length_inputs_eq htx htx' heq]
    · rw [← hidentified, heq]
      exact hidentified tx'

/-- An ordinary transaction with one input. -/
def signedTransaction (signatureScript : List UInt8) : Transaction :=
  ⟨0, [⟨⟨0, 0⟩, signatureScript, 0, 1⟩], [], 0, subnetworkIdNative, 0, [], 0, 0⟩

/-- Another signature leaves the identifier. -/
theorem hash_and_id_identify_signed :
    let digest := fun stream : List UInt8 => (stream.length : Hash)
    id digest (signedTransaction [1]) = id digest (signedTransaction [2, 3]) ∧
      hash digest (signedTransaction [1]) ≠ hash digest (signedTransaction [2, 3]) := by
  intro digest
  have hrepresentable : ∀ script : List UInt8, script.length < 3 →
      (signedTransaction script).Representable := fun script hscript => by
    refine ⟨?_, List.forall_mem_singleton.mpr (hscript.trans (by decide)), ?_, nofun, ?_⟩
    all_goals simp [signedTransaction]
  obtain ⟨hhash, hid⟩ := hash_and_id_identify ⟨1, 1, 1, 1, 1, 1, 1, by decide⟩ digest digest
    (hrepresentable [1] (by decide)) (hrepresentable [2, 3] (by decide))
    (by
      rintro _ (rfl | rfl) _ (rfl | rfl) heq
      · rfl
      · exact absurd heq (by decide +kernel)
      · exact absurd heq (by decide +kernel)
      · rfl)
    (by rintro _ (rfl | rfl) _ (rfl | rfl) _ <;> rfl)
  exact ⟨(hid (by decide)).mpr rfl, fun heq => absurd (hhash.mp heq) (by simp [signedTransaction])⟩

end Hashing

end Qaspa
