import Mathlib.Algebra.GroupWithZero.Nat

/-! # Transaction data

The parts of the transaction model that the verified components read. A script
is its byte string, an outpoint names an output of a transaction, and a UTXO
entry records the DAA score of the block that accepted it.
-/

namespace Qaspa

open List

structure ScriptPublicKey where
  version : UInt16
  script : List UInt8
  deriving DecidableEq, Repr

/-- An output of a transaction. The transaction identifier is a 256-bit hash. -/
structure TransactionOutpoint where
  transactionId : BitVec 256
  index : UInt32
  deriving DecidableEq, Repr

structure UtxoEntry where
  amount : UInt64
  scriptPublicKey : ScriptPublicKey
  blockDaaScore : UInt64
  isCoinbase : Bool
  deriving DecidableEq, Repr

/-- Twenty bytes, the first of them the lowest. -/
abbrev SubnetworkId := BitVec 160

def subnetworkIdNative : SubnetworkId := 0

def subnetworkIdCoinbase : SubnetworkId := 1

structure TransactionInput where
  previousOutpoint : TransactionOutpoint
  signatureScript : List UInt8
  sequence : UInt64
  sigOpCount : UInt8
  deriving DecidableEq, Repr

structure TransactionOutput where
  value : UInt64
  scriptPublicKey : ScriptPublicKey
  deriving DecidableEq, Repr

/-- A transaction with its cached identifier. The mass is the storage mass it
commits to. -/
structure Transaction where
  version : UInt16
  inputs : List TransactionInput
  outputs : List TransactionOutput
  lockTime : UInt64
  subnetworkId : SubnetworkId
  gas : UInt64
  payload : List UInt8
  mass : UInt64
  id : BitVec 256
  deriving DecidableEq, Repr

namespace Transaction

def isCoinbase (tx : Transaction) : Bool := tx.subnetworkId == subnetworkIdCoinbase

/-- The outpoints a transaction spends. -/
def outpoints (tx : Transaction) : List TransactionOutpoint := tx.inputs.map (·.previousOutpoint)

/-- The value of all outputs. -/
def totalOut (tx : Transaction) : Nat := (tx.outputs.map fun output => output.value.toNat).sum

/-- The entries a transaction creates when a block of the given DAA score accepts
it. Output indices are truncated to 32 bits. -/
def createdEntries (tx : Transaction) (blockDaaScore : UInt64) :
    List (TransactionOutpoint × UtxoEntry) :=
  tx.outputs.mapIdx fun i output =>
    (⟨tx.id, UInt32.ofNat i⟩, ⟨output.value, output.scriptPublicKey, blockDaaScore, tx.isCoinbase⟩)

end Transaction

/-- A transaction whose inputs have been found, each with its entry. -/
structure PopulatedTransaction where
  tx : Transaction
  populatedInputs : List (TransactionInput × UtxoEntry)
  map_fst : populatedInputs.map Prod.fst = tx.inputs

structure ValidatedTransaction extends PopulatedTransaction where
  calculatedFee : Nat

/-- The entries a populated transaction spends. -/
def PopulatedTransaction.spentEntries (populated : PopulatedTransaction) :
    List (TransactionOutpoint × UtxoEntry) :=
  populated.populatedInputs.map fun input => (input.1.previousOutpoint, input.2)

/-- The value of all inputs. -/
def PopulatedTransaction.totalIn (populated : PopulatedTransaction) : Nat :=
  (populated.populatedInputs.map fun input => input.2.amount.toNat).sum

theorem PopulatedTransaction.map_fst_spentEntries (populated : PopulatedTransaction) :
    populated.spentEntries.map Prod.fst = populated.tx.outpoints := by
  rw [spentEntries, map_map, Transaction.outpoints, ← populated.map_fst, map_map]
  rfl

theorem Transaction.mem_createdEntries {tx : Transaction} {score : UInt64}
    {entry : TransactionOutpoint × UtxoEntry} (hentry : entry ∈ tx.createdEntries score) :
    entry.1.transactionId = tx.id := by
  obtain ⟨i, _, rfl⟩ := mem_mapIdx.mp hentry
  rfl

/-- Outputs that fit 32-bit indices are created at distinct outpoints. -/
theorem Transaction.nodup_createdEntries {tx : Transaction} (score : UInt64)
    (hlength : tx.outputs.length ≤ UInt32.size) :
    ((tx.createdEntries score).map Prod.fst).Nodup := by
  rw [createdEntries, nodup_iff_pairwise_ne, pairwise_iff_getElem]
  intro i j hi hj hij heq
  simp only [length_map, length_mapIdx] at hi hj
  simp only [getElem_map, getElem_mapIdx, TransactionOutpoint.mk.injEq, true_and] at heq
  have hvalue := congrArg UInt32.toNat heq
  rw [UInt32.toNat_ofNat_of_lt' (by omega), UInt32.toNat_ofNat_of_lt' (by omega)] at hvalue
  omega

end Qaspa
