import Qaspa.MuHash.Accumulator
import Qaspa.Utxo.Transaction

/-! # The multiset hash of transactions

A UTXO entry is hashed with its outpoint. A transaction removes the entries of its
inputs from the accumulator and adds those of its outputs, so an accumulator that
stands for some multiset of entries stands, after the transaction, for that
multiset changed by the moves of the transaction. Accumulators of several
transactions are combined in an order and grouping that the thread pool chooses.
-/

namespace Qaspa.MuHash

open LittleEndian Ledger List

/-- The bytes under which an entry is hashed. -/
def writeUtxo (entry : UtxoEntry) (outpoint : TransactionOutpoint) : List UInt8 :=
  encode 32 outpoint.transactionId.toNat ++
    encode 4 outpoint.index.toNat ++
    encode 8 entry.blockDaaScore.toNat ++
    encode 8 entry.amount.toNat ++
    [if entry.isCoinbase then 1 else 0] ++
    encode 2 entry.scriptPublicKey.version.toNat ++
    encode 8 entry.scriptPublicKey.script.length ++
    entry.scriptPublicKey.script

variable (elementStream : List UInt8 → ElementBytes)

/-- The element of an entry at its outpoint. -/
def utxoStream (utxo : TransactionOutpoint × UtxoEntry) : ElementBytes :=
  elementStream (writeUtxo utxo.2 utxo.1)

def addUtxo (self : MuHash) (outpoint : TransactionOutpoint) (entry : UtxoEntry) : Checked MuHash :=
  self.addElement elementStream (writeUtxo entry outpoint)

def addTransaction (self : MuHash) (tx : PopulatedTransaction) (blockDaaScore : UInt64) :
    Checked MuHash := do
  let self ← tx.populatedInputs.foldlM
    (fun self input =>
      self.removeElement elementStream (writeUtxo input.2 input.1.previousOutpoint)) self
  (tx.tx.createdEntries blockDaaScore).foldlM
    (fun self created => self.addUtxo elementStream created.1 created.2) self

def fromTransaction (tx : PopulatedTransaction) (blockDaaScore : UInt64) : Checked MuHash :=
  new.addTransaction elementStream tx blockDaaScore

/-- A move of the ledger, on the accumulator. -/
def move (self : MuHash) : Move TransactionOutpoint UtxoEntry → Checked MuHash
  | .spend outpoint entry => self.removeElement (utxoStream elementStream) (outpoint, entry)
  | .create outpoint entry => self.addElement (utxoStream elementStream) (outpoint, entry)

theorem addTransaction_eq (self : MuHash) (tx : PopulatedTransaction) (blockDaaScore : UInt64) :
    self.addTransaction elementStream tx blockDaaScore =
      (tx.moves blockDaaScore).foldlM (move elementStream) self := by
  rw [PopulatedTransaction.moves, foldlM_append, spends, creates,
    PopulatedTransaction.spentEntries]
  simp only [foldlM_map]
  rfl

/-! ## Reductions -/

/-- How a parallel reduction groups the items of a list: it may insert the identity
anywhere, and it keeps the order. -/
inductive Grouping (α : Type) where
  | identity
  | item (value : α)
  | combine (left right : Grouping α)

namespace Grouping

variable {α : Type}

def items : Grouping α → List α
  | .identity => []
  | .item value => [value]
  | .combine left right => left.items ++ right.items

/-- The combined accumulator of the items. -/
def reduce (accumulate : α → Checked MuHash) : Grouping α → Checked MuHash
  | .identity => .ok new
  | .item value => accumulate value
  | .combine left right => do
    let self ← left.reduce accumulate
    let other ← right.reduce accumulate
    self.combine other

/-- The grouping that folds a list from the right. -/
def linear (items : List α) : Grouping α :=
  items.foldr (fun value rest => .combine (.item value) rest) .identity

@[simp] theorem items_linear (list : List α) : (linear list).items = list := by
  induction list with
  | nil => rfl
  | cons value rest ih =>
    rw [linear, foldr_cons, items, ← linear, ih]
    rfl

end Grouping

/-- The choice of a grouping for every list. -/
structure Schedule (α : Type) where
  group : List α → Grouping α
  items_group : ∀ list, (group list).items = list

/-! ## What the accumulators stand for -/

/-- The second accumulator has recorded the given moves on top of the first. -/
def Records (self : MuHash) (moves : List (Move TransactionOutpoint UtxoEntry)) (next : MuHash) :
    Prop :=
  ∀ (hunits : ∀ utxo, (dataToElement (utxoStream elementStream) utxo).value.Coprime prime)
    (held : TransactionOutpoint × UtxoEntry →₀ ℤ),
    self.Represents (utxoStream elementStream) hunits held →
      next.Represents (utxoStream elementStream) hunits (held + count moves)

section Records

variable {elementStream} {self next other : MuHash}
  {moves others : List (Move TransactionOutpoint UtxoEntry)}

theorem Records.refl (self : MuHash) : Records elementStream self [] self := by
  intro hunits held hself
  rwa [count_nil, add_zero]

theorem Records.trans (hfirst : Records elementStream self moves next)
    (hsecond : Records elementStream next others other) :
    Records elementStream self (moves ++ others) other := by
  intro hunits held hself
  rw [count_append, ← add_assoc]
  exact hsecond hunits _ (hfirst hunits held hself)

/-- A move never fails, and it is recorded. -/
theorem move_records (self : MuHash) (move : Move TransactionOutpoint UtxoEntry) :
    ∃ next, self.move elementStream move = .ok next ∧ Records elementStream self [move] next := by
  cases move with
  | spend outpoint entry =>
    obtain ⟨product, hproduct, _⟩ := self.denominator.mul_eq_ok
      (dataToElement (utxoStream elementStream) (outpoint, entry))
    have hmove : self.move elementStream (.spend outpoint entry) =
        .ok { self with denominator := product } := by
      simp [MuHash.move, removeElement, hproduct]
    refine ⟨_, hmove, fun hunits held hself => ?_⟩
    obtain ⟨next, hnext, hrepresents⟩ := hself.removeElement (outpoint, entry)
    cases hmove.symm.trans hnext
    rwa [count_cons, count_nil, add_zero]
  | create outpoint entry =>
    obtain ⟨product, hproduct, _⟩ := self.numerator.mul_eq_ok
      (dataToElement (utxoStream elementStream) (outpoint, entry))
    have hmove : self.move elementStream (.create outpoint entry) =
        .ok { self with numerator := product } := by
      simp [MuHash.move, addElement, hproduct]
    refine ⟨_, hmove, fun hunits held hself => ?_⟩
    obtain ⟨next, hnext, hrepresents⟩ := hself.addElement (outpoint, entry)
    cases hmove.symm.trans hnext
    rwa [count_cons, count_nil, add_zero]

theorem addTransaction_records (self : MuHash) (tx : PopulatedTransaction)
    (blockDaaScore : UInt64) :
    ∃ next, self.addTransaction elementStream tx blockDaaScore = .ok next ∧
      Records elementStream self (tx.moves blockDaaScore) next := by
  rw [addTransaction_eq]
  induction tx.moves blockDaaScore generalizing self with
  | nil => exact ⟨self, rfl, .refl self⟩
  | cons move moves ih =>
    obtain ⟨middle, hmiddle, hfirst⟩ := self.move_records move
    obtain ⟨next, hnext, hrest⟩ := ih middle
    refine ⟨next, ?_, hfirst.trans hrest⟩
    rw [foldlM_cons, hmiddle, Outcome.ok_bind, hnext]

/-- Combining with an accumulator records what that accumulator has recorded. -/
theorem combine_records (self : MuHash) (hother : Records elementStream new moves other) :
    ∃ next, self.combine other = .ok next ∧ Records elementStream self moves next := by
  obtain ⟨numerator, hnumerator, _⟩ := self.numerator.mul_eq_ok other.numerator
  obtain ⟨denominator, hdenominator, _⟩ := self.denominator.mul_eq_ok other.denominator
  have hcombine : self.combine other = .ok ⟨numerator, denominator⟩ := by
    simp [MuHash.combine, hnumerator, hdenominator]
  refine ⟨_, hcombine, fun hunits held hself => ?_⟩
  have hrepresents := hother hunits 0 represents_new
  rw [zero_add] at hrepresents
  obtain ⟨next, hnext, hcombined⟩ := hself.combine hrepresents
  cases hcombine.symm.trans hnext
  exact hcombined

/-- Whatever the grouping, a reduction records the moves of all its items. -/
theorem reduce_records {α : Type} {accumulate : α → Checked MuHash}
    {movesOf : α → List (Move TransactionOutpoint UtxoEntry)}
    (haccumulate : ∀ item, ∃ next, accumulate item = .ok next ∧
      Records elementStream new (movesOf item) next) (grouping : Grouping α) :
    ∃ next, grouping.reduce accumulate = .ok next ∧
      Records elementStream new (grouping.items.flatMap movesOf) next := by
  induction grouping with
  | identity => exact ⟨new, rfl, .refl new⟩
  | item item =>
    obtain ⟨next, hnext, hrecords⟩ := haccumulate item
    exact ⟨next, hnext, by simpa [Grouping.items] using hrecords⟩
  | combine left right ihLeft ihRight =>
    obtain ⟨first, hfirst, hfirstRecords⟩ := ihLeft
    obtain ⟨second, hsecond, hsecondRecords⟩ := ihRight
    obtain ⟨next, hnext, hrecords⟩ := combine_records first hsecondRecords
    refine ⟨next, ?_, ?_⟩
    · rw [Grouping.reduce, hfirst, Outcome.ok_bind, hsecond, Outcome.ok_bind, hnext]
    · rw [Grouping.items, flatMap_append]
      exact hfirstRecords.trans hrecords

end Records

end Qaspa.MuHash
