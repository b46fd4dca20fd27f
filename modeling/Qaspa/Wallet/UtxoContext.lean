import Mathlib.Data.List.Sort
import Qaspa.Core.Tx
import Qaspa.Lib.HashMap
import Qaspa.Lib.Trace

/-! # The outputs of an account

A context tracks the outputs of an account: a map of all of them, and each of them in one of three
collections by maturity. The processor keeps the outputs that are not mature a second time and moves
them when the DAA score changes. Transactions that were submitted reserve their inputs. This is the
state of one context and the part of the processor that belongs to it.
-/

namespace Qaspa.Wallet

open HashMap

abbrev TransactionId := BitVec 256

structure UtxoEntryReference where
  outpoint : TransactionOutpoint
  entry : UtxoEntry
  deriving DecidableEq, Repr

/-- The periods of a network, in DAA scores. -/
structure NetworkParams where
  coinbaseTransactionMaturityPeriodDaa : Nat
  coinbaseTransactionStasisPeriodDaa : Nat
  userTransactionMaturityPeriodDaa : Nat
  deriving DecidableEq, Repr

inductive Maturity where
  | stasis
  | pending
  | confirmed
  deriving DecidableEq, Repr

namespace UtxoEntryReference

def transactionId (utxo : UtxoEntryReference) : TransactionId := utxo.outpoint.transactionId

def amount (utxo : UtxoEntryReference) : UInt64 := utxo.entry.amount

def blockDaaScore (utxo : UtxoEntryReference) : Nat := utxo.entry.blockDaaScore.toNat

/-- The sums are exact. Those of the code are words and panic for a score that is less than a
period below the greatest word. -/
def maturity (utxo : UtxoEntryReference) (params : NetworkParams) (currentDaaScore : Nat) :
    Maturity :=
  if utxo.entry.isCoinbase then
    if currentDaaScore < utxo.blockDaaScore + params.coinbaseTransactionStasisPeriodDaa then .stasis
    else if currentDaaScore < utxo.blockDaaScore + params.coinbaseTransactionMaturityPeriodDaa then
      .pending
    else .confirmed
  else if currentDaaScore < utxo.blockDaaScore + params.userTransactionMaturityPeriodDaa then
    .pending
  else .confirmed

end UtxoEntryReference

abbrev UtxoMap := HashMap TransactionOutpoint UtxoEntryReference

structure OutgoingTransaction where
  id : TransactionId
  utxoEntries : UtxoMap
  isBatch : Bool

structure Context where
  mature : List UtxoEntryReference
  pending : UtxoMap
  stasis : UtxoMap
  map : UtxoMap
  outgoing : HashMap TransactionId OutgoingTransaction

structure Processor where
  pending : UtxoMap
  stasis : UtxoMap
  outgoing : HashMap TransactionId OutgoingTransaction

/-- A context with the part of the processor that belongs to it. -/
structure UtxoWorld where
  context : Context
  processor : Processor

/-- Insertion into a list that is sorted by amount, as the sorted-insert crate does it. -/
def sortedInsert (utxo : UtxoEntryReference) (mature : List UtxoEntryReference) :
    List UtxoEntryReference :=
  mature.takeWhile (fun other => other.amount ≤ utxo.amount) ++
    utxo :: mature.dropWhile (fun other => other.amount ≤ utxo.amount)

theorem sortedInsert_perm (utxo : UtxoEntryReference) (mature : List UtxoEntryReference) :
    (sortedInsert utxo mature).Perm (utxo :: mature) := by
  have hsplit := List.takeWhile_append_dropWhile
    (p := fun other : UtxoEntryReference => decide (other.amount ≤ utxo.amount)) (l := mature)
  refine List.perm_middle.trans ?_
  rw [hsplit]

theorem mem_sortedInsert {utxo other : UtxoEntryReference} {mature : List UtxoEntryReference} :
    other ∈ sortedInsert utxo mature ↔ other = utxo ∨ other ∈ mature := by
  rw [(sortedInsert_perm utxo mature).mem_iff, List.mem_cons]

namespace UtxoWorld

def init : UtxoWorld := ⟨⟨[], ∅, ∅, ∅, ∅⟩, ⟨∅, ∅, ∅⟩⟩

/-- Enter an output that is not mature in the context and in the processor. -/
def place (world : UtxoWorld) (utxo : UtxoEntryReference) : Maturity → UtxoWorld
  | .stasis =>
    { context := { world.context with stasis := world.context.stasis.insert utxo.outpoint utxo }
      processor :=
        { world.processor with stasis := world.processor.stasis.insert utxo.outpoint utxo } }
  | .pending =>
    { context := { world.context with pending := world.context.pending.insert utxo.outpoint utxo }
      processor :=
        { world.processor with pending := world.processor.pending.insert utxo.outpoint utxo } }
  | .confirmed =>
    { world with
      context := { world.context with mature := sortedInsert utxo world.context.mature } }

def enterMap (world : UtxoWorld) (utxo : UtxoEntryReference) : UtxoWorld :=
  { world with
    context := { world.context with map := world.context.map.insert utxo.outpoint utxo } }

/-- An output that is in the map already is ignored. -/
def insert (world : UtxoWorld) (params : NetworkParams) (utxo : UtxoEntryReference)
    (currentDaaScore : Nat) (forceMaturity : Bool) : UtxoWorld :=
  if utxo.outpoint ∈ world.context.map then world
  else
    (world.enterMap utxo).place utxo
      (if forceMaturity then .confirmed else utxo.maturity params currentDaaScore)

/-- Outputs of an outgoing transaction are mature at once; those of a batch transaction are left
out. -/
def addUtxo (world : UtxoWorld) (params : NetworkParams) (currentDaaScore : Nat)
    (utxo : UtxoEntryReference) : UtxoWorld :=
  match world.processor.outgoing.lookup utxo.transactionId with
  | some outgoing =>
    if outgoing.isBatch then world else world.insert params utxo currentDaaScore true
  | none => world.insert params utxo currentDaaScore false

def handleUtxoAdded (world : UtxoWorld) (params : NetworkParams) (utxos : List UtxoEntryReference)
    (currentDaaScore : Nat) : UtxoWorld :=
  utxos.foldl (fun world utxo => world.addUtxo params currentDaaScore utxo) world

/-- One output of a removal, with the mature outputs that are to be removed. -/
def removeOne (removing : UtxoWorld × List TransactionOutpoint) (outpoint : TransactionOutpoint) :
    UtxoWorld × List TransactionOutpoint :=
  let context := removing.1.context
  let processor := removing.1.processor
  if outpoint ∈ context.map then
    let map := context.map.erase outpoint
    if outpoint ∈ context.pending then
      (⟨{ context with map := map, pending := context.pending.erase outpoint },
        { processor with pending := processor.pending.erase outpoint }⟩, removing.2)
    else if outpoint ∈ context.stasis then
      (⟨{ context with map := map, stasis := context.stasis.erase outpoint },
        { processor with stasis := processor.stasis.erase outpoint }⟩, removing.2)
    else (⟨{ context with map := map }, processor⟩, removing.2 ++ [outpoint])
  else removing

/-- Keep the mature outputs whose outpoint is not listed. -/
def retainMature (world : UtxoWorld) (outpoints : List TransactionOutpoint) : UtxoWorld :=
  { world with
    context := { world.context with
      mature := world.context.mature.filter fun utxo => utxo.outpoint ∉ outpoints } }

def remove (world : UtxoWorld) (outpoints : List TransactionOutpoint) : UtxoWorld :=
  let removing := outpoints.foldl removeOne (world, [])
  removing.1.retainMature removing.2

def handleUtxoRemoved (world : UtxoWorld) (utxos : List UtxoEntryReference) : UtxoWorld :=
  world.remove (utxos.map (·.outpoint))

/-- One output of a scan, with the mature outputs that were found. -/
def scanOne (params : NetworkParams) (currentDaaScore : Nat)
    (scanning : UtxoWorld × List UtxoEntryReference) (utxo : UtxoEntryReference) :
    UtxoWorld × List UtxoEntryReference :=
  if utxo.outpoint ∈ scanning.1.context.map then scanning
  else
    match utxo.maturity params currentDaaScore with
    | .confirmed => (scanning.1.enterMap utxo, scanning.2 ++ [utxo])
    | .pending => ((scanning.1.enterMap utxo).place utxo .pending, scanning.2)
    | .stasis => ((scanning.1.enterMap utxo).place utxo .stasis, scanning.2)

def setMature (world : UtxoWorld) (mature : List UtxoEntryReference) : UtxoWorld :=
  { world with context := { world.context with mature := mature } }

def extendFromScan (world : UtxoWorld) (params : NetworkParams) (utxos : List UtxoEntryReference)
    (currentDaaScore : Nat) : UtxoWorld :=
  let scanning := utxos.foldl (scanOne params currentDaaScore) (world, [])
  scanning.1.setMature ((scanning.1.context.mature ++ scanning.2).mergeSort
    fun left right => left.amount ≤ right.amount)

/-! ## Maturity -/

def promoteOne (context : Context) (utxo : UtxoEntryReference) : Context :=
  if utxo.outpoint ∈ context.pending then
    { context with
      pending := context.pending.erase utxo.outpoint
      mature := sortedInsert utxo context.mature }
  else context

/-- From pending to mature. The promotion of an output of an outgoing transaction panics. -/
def promote (context : Context) (utxos : List UtxoEntryReference) : Option Context :=
  let promoted := utxos.foldl promoteOne context
  if utxos.any fun utxo => (promoted.outgoing.lookup utxo.transactionId).isSome then none
  else some promoted

def reviveOne (context : Context) (utxo : UtxoEntryReference) : Context :=
  if utxo.outpoint ∈ context.stasis then
    { context with
      stasis := context.stasis.erase utxo.outpoint
      pending := context.pending.insert utxo.outpoint utxo }
  else context

/-- From stasis to pending. -/
def revive (context : Context) (utxos : List UtxoEntryReference) : Context :=
  utxos.foldl reviveOne context

/-- The outputs of a map that have a maturity. -/
def withMaturity (params : NetworkParams) (currentDaaScore : Nat) (utxos : UtxoMap)
    (maturity : Maturity) : List UtxoEntryReference :=
  (utxos.entries.filter fun entry => entry.2.maturity params currentDaaScore = maturity).map (·.2)

def eraseAll (utxos : UtxoMap) (erased : List UtxoEntryReference) : UtxoMap :=
  (erased.map (·.outpoint)).foldl (fun utxos outpoint => utxos.erase outpoint) utxos

def insertAll (utxos : UtxoMap) (inserted : List UtxoEntryReference) : UtxoMap :=
  inserted.foldl (fun utxos utxo => utxos.insert utxo.outpoint utxo) utxos

/-- Move the outputs on in the processor, and then in the context. -/
def handlePending (world : UtxoWorld) (params : NetworkParams) (currentDaaScore : Nat) :
    Option UtxoWorld :=
  let select := withMaturity params currentDaaScore
  let matured := select world.processor.pending .confirmed
  let skipped := select world.processor.stasis .confirmed
  let revived := select world.processor.stasis .pending
  let processor := { world.processor with
    pending := insertAll (eraseAll world.processor.pending matured) revived
    stasis := eraseAll world.processor.stasis (skipped ++ revived) }
  (promote world.context (matured ++ skipped)).map fun context =>
    ⟨revive context revived, processor⟩

/-! ## Outgoing transactions -/

/-- Reserve the inputs of a transaction. -/
def registerOutgoingTransaction (world : UtxoWorld) (tx : OutgoingTransaction) : UtxoWorld where
  context :=
    { world.context with
      mature := world.context.mature.filter fun utxo => utxo.outpoint ∉ tx.utxoEntries
      outgoing := world.context.outgoing.insert tx.id tx }
  processor := { world.processor with outgoing := world.processor.outgoing.insert tx.id tx }

/-- Return the inputs of a transaction to the mature outputs. -/
def cancelOutgoingTransaction (world : UtxoWorld) (id : TransactionId) : UtxoWorld where
  context :=
    match world.context.outgoing.lookup id with
    | some tx =>
      { world.context with
        outgoing := world.context.outgoing.erase id
        mature := world.context.mature ++ tx.utxoEntries.entries.map (·.2) }
    | none => world.context
  processor := { world.processor with outgoing := world.processor.outgoing.erase id }

end UtxoWorld

end Qaspa.Wallet
