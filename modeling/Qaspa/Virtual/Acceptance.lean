import Qaspa.Virtual.UtxoState

/-! # Accepting the transactions of a mergeset

A transaction is accepted once: when it is, its inputs leave the UTXO set for good,
because the transactions that created them are themselves accepted only once. This
is the invariant that carries the ledger along a chain. With it, the moves of every
valid transaction are legal at the moment they are made, so the diff never refuses
a transaction and the diff and the multiset hash record the same moves.
-/

namespace Qaspa.Virtual

open Utxo Ghostdag Coinbase Outcome Ledger List PopulatedTransaction Transaction

/-! ## The history of a UTXO set -/

/-- Transactions with the same identifier spend the same outpoints. -/
def DistinctIds (known : Transaction → Prop) : Prop :=
  ∀ tx tx', known tx → known tx' → tx.id = tx'.id → tx.outpoints = tx'.outpoints

/-- A UTXO set left by the accepted transactions: its entries were created by them,
and what they have spent is gone and was itself created by them. -/
structure Settled (known : Transaction → Prop) (accepted : List (BitVec 256)) (view : UtxoView) :
    Prop where
  present : ∀ outpoint, (view outpoint).isSome → outpoint.transactionId ∈ accepted
  spent : ∀ tx, known tx → tx.id ∈ accepted → ∀ outpoint ∈ tx.outpoints,
    view outpoint = none ∧ outpoint.transactionId ∈ accepted

theorem settled_empty (known : Transaction → Prop) : Settled known [] fun _ => none where
  present outpoint hsome := by simp at hsome
  spent tx _ haccepted := by simp at haccepted

section Moves

variable {known : Transaction → Prop} {accepted : List (BitVec 256)} {view : UtxoView}
  {populated : PopulatedTransaction} {score : UInt64} {outpoint : TransactionOutpoint}

theorem spent_of_mem_spentEntries {entry : TransactionOutpoint × UtxoEntry}
    (hentry : entry ∈ populated.spentEntries) : entry.1 ∈ populated.tx.outpoints := by
  rw [← populated.map_fst_spentEntries]
  exact mem_map_of_mem hentry

/-- Away from its own outputs, a transaction only removes what it spends. -/
theorem play_moves_of_ne (hne : outpoint.transactionId ≠ populated.tx.id) :
    play view (populated.moves score) outpoint =
      if outpoint ∈ populated.tx.outpoints then none else view outpoint := by
  have hcreates : ∀ book : UtxoView,
      play book (creates (populated.tx.createdEntries score)) outpoint =
        book outpoint := fun book =>
    play_of_forall_ne (forall_mem_map.mpr fun entry hentry heq =>
      hne (heq ▸ mem_createdEntries hentry))
  rw [moves, play, foldl_append, ← play, ← play, hcreates]
  split
  next hmem =>
    rw [← populated.map_fst_spentEntries] at hmem
    exact play_spends hmem
  next hmem =>
    exact play_of_forall_ne (forall_key_spends.mpr fun entry hentry heq =>
      hmem (heq ▸ spent_of_mem_spentEntries hentry))

namespace Settled

variable (hsettled : Settled known accepted view)

include hsettled

/-- A transaction whose inputs are present has not been accepted yet. -/
theorem not_mem_of_present (hknown : known populated.tx) (hinputs : populated.tx.outpoints ≠ [])
    (hpresent : ∀ entry ∈ populated.spentEntries, view entry.1 = some entry.2) :
    populated.tx.id ∉ accepted := by
  intro haccepted
  obtain ⟨outpoint, houtpoint⟩ := exists_mem_of_ne_nil _ hinputs
  obtain ⟨entry, hentry, rfl⟩ : ∃ entry ∈ populated.spentEntries, entry.1 = outpoint := by
    rw [← populated.map_fst_spentEntries] at houtpoint
    exact mem_map.mp houtpoint
  have hnone := (hsettled.spent populated.tx hknown haccepted entry.1 houtpoint).1
  rw [hpresent entry hentry] at hnone
  cases hnone

variable (hfresh : populated.tx.id ∉ accepted)
  (hpresent : ∀ entry ∈ populated.spentEntries, view entry.1 = some entry.2)

include hfresh hpresent

/-- What a new transaction spends is not its own output. -/
theorem ne_of_mem_outpoints (hmem : outpoint ∈ populated.tx.outpoints) :
    outpoint.transactionId ∈ accepted ∧ outpoint.transactionId ≠ populated.tx.id := by
  rw [← populated.map_fst_spentEntries] at hmem
  obtain ⟨entry, hentry, rfl⟩ := mem_map.mp hmem
  have haccepted := hsettled.present entry.1 (by rw [hpresent entry hentry]; rfl)
  exact ⟨haccepted, fun heq => hfresh (heq ▸ haccepted)⟩

theorem legal_moves (hnodup : populated.tx.outpoints.Nodup)
    (hlength : populated.tx.outputs.length ≤ UInt32.size) :
    Ledger.Legal view (populated.moves score) := by
  rw [moves, legal_append]
  refine ⟨legal_spends (by rwa [populated.map_fst_spentEntries]) hpresent,
    legal_creates (nodup_createdEntries score hlength) fun entry hentry => ?_⟩
  have hid := mem_createdEntries hentry
  have hkept : play view (spends populated.spentEntries) entry.1 = view entry.1 := by
    refine play_of_forall_ne (forall_key_spends.mpr fun spent hspent heq => ?_)
    have hmem := spent_of_mem_spentEntries hspent
    exact (hsettled.ne_of_mem_outpoints hfresh hpresent hmem).2 (heq ▸ hid)
  rw [hkept]
  by_contra hsome
  have haccepted := hsettled.present entry.1 (Option.isSome_iff_ne_none.mpr hsome)
  exact hfresh (hid ▸ haccepted)

/-- Accepting a new transaction keeps the history. -/
theorem accept (hids : DistinctIds known) (hknown : known populated.tx) :
    Settled known (accepted ++ [populated.tx.id])
      (play view (populated.moves score)) where
  present outpoint hsome := by
    by_cases hid : outpoint.transactionId = populated.tx.id
    · simp [hid]
    · rw [play_moves_of_ne hid] at hsome
      split at hsome
      · cases hsome
      · exact mem_append_left _ (hsettled.present outpoint hsome)
  spent tx htx haccepted outpoint houtpoint := by
    rcases mem_append.mp haccepted with hold | hnew
    · -- an earlier transaction spent outpoints of earlier transactions only
      obtain ⟨hnone, hcreated⟩ := hsettled.spent tx htx hold outpoint houtpoint
      have hid : outpoint.transactionId ≠ populated.tx.id := fun heq => hfresh (heq ▸ hcreated)
      rw [play_moves_of_ne hid, hnone, ite_self]
      exact ⟨rfl, mem_append_left _ hcreated⟩
    · have hsame := hids tx populated.tx htx hknown (mem_singleton.mp hnew)
      rw [hsame] at houtpoint
      obtain ⟨hcreated, hid⟩ := hsettled.ne_of_mem_outpoints hfresh hpresent houtpoint
      rw [play_moves_of_ne hid, if_pos houtpoint]
      exact ⟨rfl, mem_append_left _ hcreated⟩

end Settled

end Moves

/-! ## Valid transactions of one block -/

/-- Transactions that can be accepted one after the other on top of a view: each is
populated from the view, and no two spend the same outpoint. -/
structure Acceptable (known : Transaction → Prop) (view : UtxoView)
    (validated : List (ValidatedTransaction × UInt32)) : Prop where
  known : ∀ item ∈ validated, known item.1.tx
  inputs : ∀ item ∈ validated, item.1.tx.outpoints ≠ []
  length_outputs : ∀ item ∈ validated, item.1.tx.outputs.length ≤ UInt32.size
  present : ∀ item ∈ validated, ∀ entry ∈ item.1.spentEntries, view entry.1 = some entry.2
  nodup : (validated.flatMap (·.1.tx.outpoints)).Nodup

namespace VirtualStateProcessor

variable {Hash : Type} {self : VirtualStateProcessor Hash} {utxoView : UtxoView}
  {povDaaScore : UInt64} {flags : TxValidationFlags} {overflow : Prop}

/-- A validated transaction is the given one, populated from the view. -/
theorem populated_of_validate {transaction : Transaction} {validated : ValidatedTransaction}
    (hvalid : self.validateTransactionInUtxoContext transaction utxoView povDaaScore flags =
      .ok validated) :
    validated.tx = transaction ∧
      (∀ entry ∈ validated.spentEntries, utxoView entry.1 = some entry.2) ∧
      self.validatePopulatedTransactionAndGetFee validated.toPopulatedTransaction povDaaScore
        flags = .ok validated.calculatedFee := by
  unfold validateTransactionInUtxoContext at hvalid
  split at hvalid
  · cases hvalid
  next populatedInputs hpopulate =>
    obtain ⟨fee, hfee, hreturn⟩ := bind_eq_ok.mp hvalid
    cases hreturn
    refine ⟨rfl, fun entry hentry => ?_, hfee⟩
    obtain ⟨input, hinput, rfl⟩ := mem_map.mp hentry
    exact (populate_eq_some hpopulate).2 input hinput

/-- The transactions kept are some of the given ones, in order, and each of them
passed. -/
theorem filterValid_post {validate : Transaction → Outcome TxRuleError ValidatedTransaction}
    (htx : ∀ tx validated, validate tx = .ok validated → validated.tx = tx)
    (items : List (Transaction × Nat)) :
    Post (filterValid validate items)
      (fun kept => (kept.map (·.1.tx)).Sublist (items.map Prod.fst) ∧
        ∀ item ∈ kept, validate item.1.tx = .ok item.1)
      (StateFault.External overflow) := by
  induction items with
  | nil => simp [filterValid]
  | cons item items ih =>
    obtain ⟨transaction, i⟩ := item
    rw [filterValid]
    split
    next validated hvalid =>
      refine ih.bind fun kept _ hkept => ?_
      have hsame := htx transaction validated hvalid
      refine ⟨?_, forall_mem_cons.mpr ⟨by rw [hsame, hvalid], hkept.2⟩⟩
      simpa [hsame] using hkept.1
    · exact ih.mono fun kept hkept => ⟨hkept.1.cons _, hkept.2⟩
    · trivial

variable {known : Transaction → Prop} {txs : List Transaction}

theorem validateTransactionsInParallel_post (hbody : IsolatedBody txs)
    (hknown : ∀ tx ∈ txs, known tx) :
    Post (self.validateTransactionsInParallel txs utxoView povDaaScore flags)
      (Acceptable known utxoView) (StateFault.External overflow) := by
  obtain ⟨coinbase, rest, rfl, hcoinbase, hrest⟩ := hbody.coinbase
  have hitems : ((coinbase :: rest).zipIdx.drop 1).map Prod.fst = rest := by simp
  refine (filterValid_post (fun tx validated hvalid => (populated_of_validate hvalid).1) _).mono
    fun kept hkept => ?_
  rw [hitems] at hkept
  have hmem : ∀ item ∈ kept, item.1.tx ∈ rest := fun item hitem =>
    hkept.1.subset (mem_map_of_mem hitem)
  refine ⟨fun item hitem => hknown _ (.tail _ (hmem item hitem)),
    fun item hitem => ?_, fun item hitem => ?_,
    fun item hitem => (populated_of_validate (hkept.2 item hitem)).2.1, ?_⟩
  · have hisolated := hbody.isolated _ (.tail _ (hmem item hitem))
    simpa [outpoints] using hisolated.inputs_ne_nil (hrest _ (hmem item hitem))
  · exact (hbody.isolated _ (.tail _ (hmem item hitem))).length_outputs
  · have hsublist := (hkept.1.cons coinbase).flatMap outpoints
    rw [flatMap_map] at hsublist
    exact hsublist.nodup hbody.nodup_outpoints

/-- The validator charges what the inputs have left over the outputs. -/
def Balanced (self : VirtualStateProcessor Hash) : Prop :=
  ∀ populated povDaaScore flags fee,
    self.validatePopulatedTransactionAndGetFee populated povDaaScore flags = .ok fee →
      populated.totalIn = fee + populated.tx.totalOut

theorem Balanced.of_validated (hbalanced : self.Balanced)
    {validated : List (ValidatedTransaction × UInt32)}
    (hvalidated : self.validateTransactionsInParallel txs utxoView povDaaScore flags =
      .ok validated) :
    ∀ item ∈ validated, item.1.totalIn = item.1.calculatedFee + item.1.tx.totalOut := by
  intro item hitem
  have hpost : Post (self.validateTransactionsInParallel txs utxoView povDaaScore flags) _
      (StateFault.External True) :=
    filterValid_post (fun tx validated hvalid => (populated_of_validate hvalid).1) _
  have hvalid := (hpost.of_eq_ok hvalidated).2 item hitem
  exact hbalanced _ _ _ _ (populated_of_validate hvalid).2.2

end VirtualStateProcessor

/-! ## Amounts -/

def amountOf (entry : UtxoEntry) : ℤ := entry.amount.toNat

/-- The sum of all amounts held. -/
noncomputable def totalAmount (held : TransactionOutpoint × UtxoEntry →₀ ℤ) : ℤ :=
  total amountOf held

theorem totalAmount_add (held held' : TransactionOutpoint × UtxoEntry →₀ ℤ) :
    totalAmount (held + held') = totalAmount held + totalAmount held' :=
  total_add amountOf

theorem totalAmount_creates (tx : Transaction) (score : UInt64) :
    totalAmount (count (creates (tx.createdEntries score))) = tx.totalOut := by
  have hmap : (tx.createdEntries score).map (fun entry => amountOf entry.2) =
      tx.outputs.map fun output => (output.value.toNat : ℤ) := by
    apply ext_getElem
    · simp [createdEntries]
    · simp [createdEntries, amountOf]
  rw [totalAmount, total_count_creates, hmap, totalOut, Nat.cast_list_sum,
    map_map]
  rfl

theorem totalAmount_moves (populated : PopulatedTransaction) (score : UInt64) :
    totalAmount (count (populated.moves score)) =
      populated.tx.totalOut - populated.totalIn := by
  have hspends : totalAmount (count (spends populated.spentEntries)) =
      -(populated.totalIn : ℤ) := by
    rw [totalAmount, total_count_spends, spentEntries, map_map,
      totalIn, Nat.cast_list_sum, map_map]
    rfl
  rw [moves, count_append, totalAmount_add, totalAmount_creates]
  omega

/-! ## Progress of a block -/

/-- The moves of accepted transactions. -/
def movesOf (povDaaScore : UInt64) (validated : List (ValidatedTransaction × UInt32)) :
    List (Move TransactionOutpoint UtxoEntry) :=
  validated.flatMap fun item => item.1.moves povDaaScore

/-- The fees of accepted transactions. -/
def feesOf (validated : List (ValidatedTransaction × UInt32)) : Nat :=
  (validated.map fun item => item.1.calculatedFee).sum

/-- Balanced transactions take their fees out of the set. -/
theorem totalAmount_movesOf {povDaaScore : UInt64}
    {validated : List (ValidatedTransaction × UInt32)}
    (hbalanced : ∀ item ∈ validated, item.1.totalIn = item.1.calculatedFee + item.1.tx.totalOut) :
    totalAmount (count (movesOf povDaaScore validated)) = -(feesOf validated : ℤ) := by
  induction validated with
  | nil => simp [movesOf, feesOf, totalAmount]
  | cons item rest ih =>
    obtain ⟨hitem, hrest⟩ := forall_mem_cons.mp hbalanced
    rw [movesOf, flatMap_cons, count_append, totalAmount_add, totalAmount_moves,
      ← movesOf, ih hrest, feesOf, feesOf, map_cons, sum_cons]
    omega

section Progress

variable {Hash : Type} {known : Transaction → Prop} {history : List (BitVec 256)}
  {base : UtxoView}

/-- The state reached in the middle of a mergeset: the diff is over the set of the
selected parent, the history has the transactions accepted so far, and the composed
view holds the given entries. -/
structure Progress (known : Transaction → Prop) (history : List (BitVec 256)) (base : UtxoView)
    (ctx : UtxoProcessingContext Hash) (held : TransactionOutpoint × UtxoEntry →₀ ℤ) : Prop where
  created : ∀ outpoint, (base outpoint).isSome → outpoint.transactionId ∈ history
  tracks : UtxoDiff.Tracks base ctx.mergesetDiff
  settled : Settled known (history ++ ctx.acceptedTxIds) (base.compose ctx.mergesetDiff)
  holds : Ledger.Holds (base.compose ctx.mergesetDiff) held

variable {ctx : UtxoProcessingContext Hash} {held : TransactionOutpoint × UtxoEntry →₀ ℤ}

/-- Outside of the diff and the accepted ids the context is free. -/
theorem Progress.congr {ctx' : UtxoProcessingContext Hash}
    (hprogress : Progress known history base ctx held)
    (hdiff : ctx'.mergesetDiff = ctx.mergesetDiff)
    (hids : ctx'.acceptedTxIds = ctx.acceptedTxIds) : Progress known history base ctx' held := by
  obtain ⟨hcreated, htracks, hsettled, hholds⟩ := hprogress
  exact ⟨hcreated, by rwa [hdiff], by rwa [hdiff, hids], by rwa [hdiff]⟩

variable (hdistinct : DistinctIds known) (hprogress : Progress known history base ctx held)

include hdistinct hprogress

/-- A new transaction populated from the current view goes into the diff. -/
theorem Progress.addTransaction (povDaaScore : UInt64) (populated : PopulatedTransaction)
    (hknown : known populated.tx)
    (hfresh : populated.tx.id ∉ history ++ ctx.acceptedTxIds)
    (hpresent : ∀ entry ∈ populated.spentEntries,
      base.compose ctx.mergesetDiff entry.1 = some entry.2)
    (hnodup : populated.tx.outpoints.Nodup)
    (hlength : populated.tx.outputs.length ≤ UInt32.size) :
    ∃ mergesetDiff, ctx.mergesetDiff.addTransaction populated povDaaScore = .ok mergesetDiff ∧
      base.compose mergesetDiff =
        play (base.compose ctx.mergesetDiff) (populated.moves povDaaScore) ∧
      Progress known history base
        { ctx with mergesetDiff, acceptedTxIds := ctx.acceptedTxIds ++ [populated.tx.id] }
        (held + count (populated.moves povDaaScore)) := by
  have hlegal : Ledger.Legal (base.compose ctx.mergesetDiff) (populated.moves povDaaScore) :=
    hprogress.settled.legal_moves hfresh hpresent hnodup hlength
  have hcreated : ∀ outpoint entry,
      .create outpoint entry ∈ populated.moves povDaaScore → base outpoint = none := by
    intro outpoint entry hmem
    have hid : outpoint.transactionId = populated.tx.id := by
      simp only [moves, spends, creates, mem_append,
        mem_map, reduceCtorEq, and_false, exists_false, false_or] at hmem
      obtain ⟨created, hcreated, rfl, _⟩ := hmem
      exact mem_createdEntries hcreated
    by_contra hsome
    have hold := hprogress.created outpoint (Option.isSome_iff_ne_none.mpr hsome)
    exact hfresh (mem_append_left _ (hid ▸ hold))
  obtain ⟨mergesetDiff, hdiff, htracks, hview⟩ := hprogress.tracks.moves hlegal hcreated
  refine ⟨mergesetDiff, ?_, hview, hprogress.created, htracks, ?_, ?_⟩
  · rw [UtxoDiff.addTransaction_eq, hdiff]
  · rw [hview, ← append_assoc]
    exact hprogress.settled.accept hfresh hpresent hdistinct hknown
  · rw [hview]
    exact hprogress.holds.play hlegal

end Progress

variable {rest : List (ValidatedTransaction × UInt32)} {item : ValidatedTransaction × UInt32}

/-- The remaining transactions of a block are untouched when one is accepted. -/
theorem Acceptable.tail {known : Transaction → Prop} {view : UtxoView}
    {accepted : List (BitVec 256)} (hacceptable : Acceptable known view (item :: rest))
    (hsettled : Settled known accepted view) (hfresh : item.1.tx.id ∉ accepted)
    (povDaaScore : UInt64) :
    Acceptable known (play view (item.1.moves povDaaScore)) rest := by
  have hnodup := hacceptable.nodup
  obtain ⟨_, hnodup, hdisjoint⟩ := nodup_append'.mp hnodup
  refine ⟨fun other hother => hacceptable.known other (.tail _ hother),
    fun other hother => hacceptable.inputs other (.tail _ hother),
    fun other hother => hacceptable.length_outputs other (.tail _ hother),
    fun other hother entry hentry => ?_, hnodup⟩
  have hpresent := hacceptable.present other (.tail _ hother) entry hentry
  have haccepted := hsettled.present entry.1 (by rw [hpresent]; rfl)
  have hspent : entry.1 ∉ item.1.tx.outpoints := fun hmem =>
    hdisjoint hmem (mem_flatMap.mpr ⟨other, hother, spent_of_mem_spentEntries hentry⟩)
  rw [play_moves_of_ne fun heq => hfresh (heq ▸ haccepted), if_neg hspent, hpresent]

namespace VirtualStateProcessor

variable {Hash : Type} {known : Transaction → Prop} {history : List (BitVec 256)}
  {base : UtxoView} {povDaaScore : UInt64} {ctx : UtxoProcessingContext Hash}
  {held : TransactionOutpoint × UtxoEntry →₀ ℤ} {overflow : Prop}

/-- All valid transactions of a block are accepted. Their fees overflow only if the
amounts may, since balanced transactions pay their fees out of the UTXO set. -/
theorem acceptTransactions_post (hdistinct : DistinctIds known)
    (hprogress : Progress known history base ctx held) (blockFee : Nat)
    {validated : List (ValidatedTransaction × UInt32)}
    (hacceptable : Acceptable known (base.compose ctx.mergesetDiff) validated)
    (hbound : overflow ∨ (∀ item ∈ validated,
      item.1.totalIn = item.1.calculatedFee + item.1.tx.totalOut) ∧
      blockFee + totalAmount held < wordBound 64) :
    Post (acceptTransactions povDaaScore ctx blockFee validated)
      (fun result =>
        Progress known history base result.1
            (held + count (movesOf povDaaScore validated)) ∧
          result.2 = blockFee + feesOf validated ∧
          result.1 = { ctx with
            mergesetDiff := result.1.mergesetDiff
            acceptedTxIds := ctx.acceptedTxIds ++ validated.map (·.1.tx.id) })
      (StateFault.External overflow) := by
  induction validated generalizing ctx held blockFee with
  | nil => simpa [acceptTransactions, movesOf, feesOf] using hprogress
  | cons item rest ih =>
    have hmem : item ∈ item :: rest := .head _ ..
    have hfresh := hprogress.settled.not_mem_of_present (hacceptable.known item hmem)
      (hacceptable.inputs item hmem) (hacceptable.present item hmem)
    obtain ⟨mergesetDiff, hdiff, hview, hnext⟩ := hprogress.addTransaction hdistinct povDaaScore
      item.1.toPopulatedTransaction (hacceptable.known item hmem) hfresh
      (hacceptable.present item hmem) (nodup_append'.mp (by exact hacceptable.nodup)).1
      (hacceptable.length_outputs item hmem)
    have htail := hacceptable.tail hprogress.settled hfresh povDaaScore
    rw [← hview] at htail
    -- what the transaction pays has left the set
    have hpaid : item.1.totalIn = item.1.calculatedFee + item.1.tx.totalOut →
        totalAmount (held + count (item.1.moves povDaaScore)) =
          totalAmount held - item.1.calculatedFee := by
      intro hbalanced
      rw [totalAmount_add, totalAmount_moves]
      omega
    have hremains : 0 ≤ totalAmount (held + count (item.1.moves povDaaScore)) :=
      hnext.holds.total_nonneg amountOf fun _ => Int.natCast_nonneg _
    have hadd : Post ((U64.add blockFee item.1.calculatedFee : Checked Nat).mapError
        fun _ => StateFault.feeOverflow) (· = blockFee + item.1.calculatedFee)
        (StateFault.External overflow) := by
      refine Post.mapError (fun _ hfee => (U64.add_eq_ok.mp hfee).2) fun _ hfee => ?_
      rcases hbound with hoverflow | ⟨hbalanced, hlt⟩
      · exact hoverflow
      · have hlarge := U64.add_eq_error hfee
        rw [hpaid (hbalanced item hmem)] at hremains
        omega
    have hbound' : overflow ∨ (∀ other ∈ rest,
        other.1.totalIn = other.1.calculatedFee + other.1.tx.totalOut) ∧
        ((blockFee + item.1.calculatedFee : Nat) : ℤ) +
          totalAmount (held + count (item.1.moves povDaaScore)) < wordBound 64 := by
      rcases hbound with hoverflow | ⟨hbalanced, hlt⟩
      · exact .inl hoverflow
      · refine .inr ⟨fun other hother => hbalanced other (.tail _ hother), ?_⟩
        rw [hpaid (hbalanced item hmem)]
        omega
    rw [acceptTransactions, hdiff]
    refine hadd.bind fun fee _ hfee => ?_
    subst hfee
    refine (ih hnext _ htail hbound').mono fun result ⟨hresult, hfees, hctx⟩ => ⟨?_, ?_, ?_⟩
    · rwa [movesOf, flatMap_cons, count_append, ← add_assoc]
    · rw [hfees, feesOf, feesOf, map_cons, sum_cons, Nat.add_assoc]
    · rw [hctx, append_assoc]
      rfl

end VirtualStateProcessor

end Qaspa.Virtual
