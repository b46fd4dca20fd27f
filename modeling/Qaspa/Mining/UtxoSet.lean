import Qaspa.Mining.PreValidation
import Qaspa.Utxo.Collection

/-! # The outputs of pool transactions

The pool keeps the outputs of its transactions for the transactions that spend them. An output
should leave the collection when it is spent and come back when the spending transaction is
removed. Adding a transaction, however, erases outpoints of the transaction itself: what it spends
stays, and the collection holds every output of the pool.
-/

namespace Qaspa.Mining

open Outcome Utxo HashMap List

namespace MempoolUtxoSet

/-- The outpoints of a transaction with the first indices, truncated to 32 bits. -/
def firstOutpoints (transactionId : TransactionId) (count : Nat) : List TransactionOutpoint :=
  (List.range count).map fun i => ⟨transactionId, UInt32.ofNat i⟩

/-- The outpoints erased in front carry the id of the transaction and the indices of its inputs.
They are not the outpoints that the inputs spend. -/
def addTransaction (poolUnspentOutputs : UtxoCollection) (tx : Transaction) : UtxoCollection :=
  let remaining := (firstOutpoints tx.id tx.inputs.length).foldl
    (fun outputs outpoint => outputs.erase outpoint) poolUnspentOutputs
  ((firstOutpoints tx.id tx.outputs.length).zip tx.outputs).foldl
    (fun outputs created => outputs.insert created.1 (unacceptedEntry created.2)) remaining

/-- The outputs of pool transactions that the inputs spend are restored. -/
def removeTransaction (poolUnspentOutputs : UtxoCollection) (transaction : MutableTransaction)
    (parentIdsInPool : List TransactionId) : UtxoCollection :=
  let restored := (transaction.tx.inputs.zip transaction.entries).foldl
    (fun outputs (input, entry) =>
      match entry with
      | some entry =>
        if parentIdsInPool.contains input.previousOutpoint.transactionId then
          outputs.insert input.previousOutpoint entry
        else outputs
      | none => outputs) poolUnspentOutputs
  (firstOutpoints transaction.tx.id transaction.tx.outputs.length).foldl
    (fun outputs outpoint => outputs.erase outpoint) restored

variable {poolUnspentOutputs : UtxoCollection} {outpoint : TransactionOutpoint}

theorem mem_firstOutpoints {transactionId : TransactionId} {count : Nat} :
    outpoint ∈ firstOutpoints transactionId count ↔
      outpoint.transactionId = transactionId ∧ outpoint.index.toNat < count := by
  obtain ⟨id, index⟩ := outpoint
  rw [firstOutpoints, mem_map]
  constructor
  · rintro ⟨i, hi, heq⟩
    cases heq
    exact ⟨rfl, UInt32.toNat_ofNat'.trans_lt ((Nat.mod_le i _).trans_lt (mem_range.mp hi))⟩
  · rintro ⟨rfl, hindex⟩
    exact ⟨index.toNat, mem_range.mpr hindex, by simp⟩

/-- Outputs that are there already are restored without effect. -/
theorem mem_removeTransaction {transaction : MutableTransaction}
    {parentIdsInPool : List TransactionId}
    (hthere : ∀ outpoint ∈ transaction.tx.outpoints, outpoint.transactionId ∈ parentIdsInPool →
      outpoint ∈ poolUnspentOutputs) :
    outpoint ∈ removeTransaction poolUnspentOutputs transaction parentIdsInPool ↔
      outpoint ∈ poolUnspentOutputs ∧
        outpoint ∉ firstOutpoints transaction.tx.id transaction.tx.outputs.length := by
  rw [removeTransaction, mem_foldl_erase]
  refine and_congr_left' (foldlRecOn (motive := fun outputs : UtxoCollection =>
    outpoint ∈ outputs ↔ outpoint ∈ poolUnspentOutputs) _ _ .rfl fun outputs hsame item hitem => ?_)
  obtain ⟨input, entry⟩ := item
  cases entry with
  | none => exact hsame
  | some entry =>
    dsimp only
    split
    next hparent =>
      have hinput := hthere _ (mem_map_of_mem (of_mem_zip hitem).1)
        (contains_iff_mem.mp hparent)
      rw [AList.mem_insert, hsame]
      exact or_iff_right_of_imp fun heq => heq ▸ hinput
    next => exact hsame

end MempoolUtxoSet

namespace TransactionsPool

def getParentTransactionIdsInPool (pool : TransactionsPool) (tx : Transaction) :
    List TransactionId :=
  (tx.outpoints.map (·.transactionId)).filter fun id => (pool.allTransactions.lookup id).isSome

variable (pool : TransactionsPool) (outpoint : TransactionOutpoint)

/-- An output of a pool transaction. -/
abbrev Creates : Prop := ∃ creator ∈ pool.allTransactions.lookup outpoint.transactionId,
  outpoint.index.toNat < creator.tx.outputs.length

abbrev Spends : Prop := ∃ entry ∈ pool.allTransactions.entries, outpoint ∈ entry.2.tx.outpoints

/-- Inputs that name a pool transaction name one of its outputs. -/
abbrev Linked : Prop := ∀ entry ∈ pool.allTransactions.entries, ∀ outpoint ∈ entry.2.tx.outpoints,
  ∀ creator ∈ pool.allTransactions.lookup outpoint.transactionId,
    outpoint.index.toNat < creator.tx.outputs.length

end TransactionsPool

/-- The pool with the outputs it keeps. -/
structure UnspentPool extends TransactionsPool where
  poolUnspentOutputs : UtxoCollection

namespace UnspentPool

def new : UnspentPool := ⟨⟨∅, ∅⟩, ∅⟩

variable (pool : UnspentPool)

def addTransaction (transaction : MutableTransaction) : Outcome RuleError UnspentPool := do
  let added ← pool.toTransactionsPool.addTransaction transaction
  .ok ⟨added, MempoolUtxoSet.addTransaction pool.poolUnspentOutputs transaction.tx⟩

def removeTransaction (id : TransactionId) : Outcome RuleError UnspentPool := do
  let remaining ← pool.toTransactionsPool.removeTransaction id
  let removed ← unwrap (pool.allTransactions.lookup id)
  .ok ⟨remaining, MempoolUtxoSet.removeTransaction pool.poolUnspentOutputs removed
    (remaining.getParentTransactionIdsInPool removed.tx)⟩

/-- Transactions are added whose inputs, and those of the transactions that spend them, name
outputs that exist. -/
inductive Step : UnspentPool → Mempool.Change → UnspentPool → Prop where
  | insert {pool next : UnspentPool} {transaction : MutableTransaction}
      (hadd : pool.addTransaction transaction = .ok next) (hlinked : next.Linked) :
      Step pool (.insert transaction) next
  | remove {pool next : UnspentPool} {id : TransactionId}
      (hremove : pool.removeTransaction id = .ok next) : Step pool (.remove id) next

/-- The collection holds the outputs of the pool, spent or not. -/
structure Keeps : Prop where
  keyed : ∀ id transaction, pool.allTransactions.lookup id = some transaction →
    transaction.tx.id = id
  linked : pool.Linked
  mem_iff : ∀ outpoint, outpoint ∈ pool.poolUnspentOutputs ↔ pool.Creates outpoint

variable {pool} {next : UnspentPool}

theorem Keeps.addTransaction {transaction : MutableTransaction} (hpool : pool.Keeps)
    (hadd : pool.addTransaction transaction = .ok next) (hlinked : next.Linked) : next.Keeps := by
  obtain ⟨added, hadded, hadd⟩ := bind_eq_ok.mp hadd
  cases hadd
  simp only [TransactionsPool.addTransaction, check_bind_eq_ok, Except.ok.injEq] at hadded
  obtain ⟨hnew, _, rfl⟩ := hadded
  refine ⟨fun id other hlookup => ?_, hlinked, fun outpoint => ?_⟩
  · rcases lookup_insert_eq_some.mp hlookup with ⟨rfl, rfl⟩ | ⟨_, hlookup⟩
    · rfl
    · exact hpool.keyed id other hlookup
  rw [MempoolUtxoSet.addTransaction, mem_foldl_insert,
    map_fst_zip (by simp [MempoolUtxoSet.firstOutpoints]), mem_foldl_erase]
  simp only [MempoolUtxoSet.mem_firstOutpoints, TransactionsPool.Creates, lookup_insert_eq_ite]
  by_cases hid : outpoint.transactionId = transaction.tx.id
  · have hnone : outpoint ∉ pool.poolUnspentOutputs := by
      intro hmem
      obtain ⟨creator, hcreator, _⟩ := (hpool.mem_iff outpoint).mp hmem
      rw [hid, Option.mem_def] at hcreator
      simp [hcreator] at hnew
    simp [hid, hnone]
  · simp [hid, hpool.mem_iff, TransactionsPool.Creates]

theorem Keeps.removeTransaction {id : TransactionId} (hpool : pool.Keeps)
    (hremove : pool.removeTransaction id = .ok next) : next.Keeps := by
  obtain ⟨remaining, hremaining, hremove⟩ := bind_eq_ok.mp hremove
  obtain ⟨removed, hremoved, hremove⟩ := bind_eq_ok.mp hremove
  cases hremove
  have hlookup := unwrap_eq_ok.mp hremoved
  rw [TransactionsPool.removeTransaction, hlookup] at hremaining
  cases hremaining
  refine ⟨fun other transaction hother => ?_, ?_, fun outpoint => ?_⟩
  · exact hpool.keyed other transaction (lookup_erase_eq_some.mp hother).2
  · intro entry hentry outpoint hspends creator hcreator
    have hentry := (lookup_erase_eq_some.mp (lookup_eq_some.mpr hentry)).2
    exact hpool.linked entry (lookup_eq_some.mp hentry) outpoint hspends creator
      (lookup_erase_eq_some.mp hcreator).2
  · rw [MempoolUtxoSet.mem_removeTransaction, MempoolUtxoSet.mem_firstOutpoints, hpool.mem_iff,
      hpool.keyed id removed hlookup, TransactionsPool.Creates, TransactionsPool.Creates,
      lookup_erase_eq_ite]
    · by_cases hid : outpoint.transactionId = id
      · rw [hid, hlookup]
        simp
      · simp [hid]
    · intro outpoint hspends hparent
      obtain ⟨creator, hcreator⟩ := Option.isSome_iff_exists.mp (mem_filter.mp hparent).2
      have hcreator := (lookup_erase_eq_some.mp hcreator).2
      exact (hpool.mem_iff outpoint).mpr ⟨creator, hcreator,
        hpool.linked _ (lookup_eq_some.mp hlookup) outpoint hspends creator hcreator⟩

/-- Whatever was added and removed, an outpoint is kept exactly if a pool transaction creates it and
none spends it, unless it is both created and spent in the pool. -/
theorem poolUnspentOutputs_exact {changes : List Mempool.Change}
    (hrun : Runs Step new changes pool) (outpoint : TransactionOutpoint) :
    (outpoint ∈ pool.poolUnspentOutputs ↔ pool.Creates outpoint ∧ ¬ pool.Spends outpoint) ↔
      ¬ (pool.Creates outpoint ∧ pool.Spends outpoint) := by
  have hkeeps : pool.Keeps := by
    refine hrun.invariant Keeps (fun before change after hbefore hstep => ?_) ?_
    · cases hstep with
      | insert hadd hlinked => exact hbefore.addTransaction hadd hlinked
      | remove hremove => exact hbefore.removeTransaction hremove
    · refine ⟨nofun, nofun, fun outpoint => ⟨nofun, ?_⟩⟩
      rintro ⟨creator, hcreator, _⟩
      cases hcreator
  rw [hkeeps.mem_iff, iff_self_and, not_and]

def childTransaction : MutableTransaction :=
  { Mempool.parentTransaction with tx := Mempool.spendingOutput 0 }

/-- The output of a pool transaction is kept although a pool transaction spends it. -/
theorem poolUnspentOutputs_keeps_spent : ∃ pool,
    Runs Step new [.insert Mempool.parentTransaction, .insert childTransaction] pool ∧
      ⟨1, 0⟩ ∈ pool.poolUnspentOutputs ∧ pool.Creates ⟨1, 0⟩ ∧ pool.Spends ⟨1, 0⟩ :=
  ⟨_, .cons (.insert rfl (by decide)) (.cons (.insert rfl (by decide)) (.nil _)), by decide⟩

theorem poolUnspentOutputs_exact_removed : ∃ pool, Runs Step new
    [.insert Mempool.parentTransaction, .insert childTransaction, .remove 2] pool ∧
      ⟨1, 0⟩ ∈ pool.poolUnspentOutputs := by
  have hrun : Runs Step new
      [.insert Mempool.parentTransaction, .insert childTransaction, .remove 2] _ :=
    .cons (.insert rfl (by decide)) (.cons (.insert rfl (by decide)) (.cons (.remove rfl) (.nil _)))
  exact ⟨_, hrun, ((poolUnspentOutputs_exact hrun _).mpr (by decide)).mpr (by decide)⟩

end UnspentPool

end Qaspa.Mining
