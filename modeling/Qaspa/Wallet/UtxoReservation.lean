import Qaspa.Wallet.UtxoContext

/-! # Reserved outputs

A transaction that is submitted takes its inputs out of the mature outputs, and a transaction whose
submission failed returns them. The inputs of a transaction were mature when it was generated: by
the time it is submitted, or returned, they may have been removed.
-/

namespace Qaspa.Wallet.UtxoWorld

open HashMap List AList

/-- An input of a registered transaction. -/
def Reserved (outgoing : HashMap TransactionId OutgoingTransaction)
    (outpoint : TransactionOutpoint) : Prop :=
  ∃ id tx, outgoing.lookup id = some tx ∧ outpoint ∈ tx.utxoEntries

/-- An output of a registered batch transaction. -/
def BatchOutput (outgoing : HashMap TransactionId OutgoingTransaction)
    (outpoint : TransactionOutpoint) : Prop :=
  ∃ tx, outgoing.lookup outpoint.transactionId = some tx ∧ tx.isBatch = true

/-- The outputs that a context offers for spending are neither spent nor reserved. -/
structure Offered (context : Context) : Prop where
  nodup : (context.mature.map (·.outpoint)).Nodup
  covered : ∀ utxo ∈ context.mature,
    utxo.outpoint ∈ context.map ∨ BatchOutput context.outgoing utxo.outpoint
  unreserved : ∀ utxo ∈ context.mature, ¬Reserved context.outgoing utxo.outpoint

inductive ReservationEvent where
  | added (utxos : List UtxoEntryReference) (currentDaaScore : Nat)
  | removed (utxos : List UtxoEntryReference)
  | registered (tx : OutgoingTransaction)
  | cancelled (id : TransactionId)

/-- What a returned transaction asks of the context: its inputs are still mature outputs, or
outputs of another batch transaction, that nobody else has reserved, and nothing that it created
is on offer. -/
structure Returnable (context : Context) (id : TransactionId) (tx : OutgoingTransaction) :
    Prop where
  covered : ∀ outpoint ∈ tx.utxoEntries,
    outpoint ∈ context.map ∨ BatchOutput (context.outgoing.erase id) outpoint
  settled : ∀ outpoint ∈ tx.utxoEntries, outpoint ∉ context.pending ∧ outpoint ∉ context.stasis
  exclusive : ∀ outpoint ∈ tx.utxoEntries, ¬Reserved (context.outgoing.erase id) outpoint
  withdrawn : ∀ utxo ∈ context.mature, utxo.outpoint ∈ context.map ∨ utxo.transactionId ≠ id

/-- The entries of a generated transaction are keyed by their outpoints. -/
def Keyed (tx : OutgoingTransaction) : Prop :=
  ∀ outpoint utxo, tx.utxoEntries.lookup outpoint = some utxo → utxo.outpoint = outpoint

/-- A reserved output is not added again, transactions have distinct identifiers, and a returned
transaction is returnable. -/
inductive ReservingStep (params : NetworkParams) :
    UtxoWorld → ReservationEvent → UtxoWorld → Prop where
  | added {world : UtxoWorld} {utxos : List UtxoEntryReference} {currentDaaScore : Nat}
      (hfree : ∀ utxo ∈ utxos, utxo.outpoint ∈ world.context.map ∨
        BatchOutput world.context.outgoing utxo.outpoint ∨
          ¬Reserved world.context.outgoing utxo.outpoint) :
      ReservingStep params world (.added utxos currentDaaScore)
        (world.handleUtxoAdded params utxos currentDaaScore)
  | removed {world : UtxoWorld} {utxos : List UtxoEntryReference} :
      ReservingStep params world (.removed utxos) (world.handleUtxoRemoved utxos)
  | registered {world : UtxoWorld} {tx : OutgoingTransaction} (hkeyed : Keyed tx)
      (hfresh : tx.id ∉ world.context.outgoing) :
      ReservingStep params world (.registered tx) (world.registerOutgoingTransaction tx)
  | cancelled {world : UtxoWorld} {id : TransactionId}
      (hreturn : ∀ tx, world.context.outgoing.lookup id = some tx →
        Returnable world.context id tx) :
      ReservingStep params world (.cancelled id) (world.cancelOutgoingTransaction id)

/-- What holds along a run: an offered output is in no other collection. -/
structure Reserving (world : UtxoWorld) : Prop where
  offered : Offered world.context
  keyed : ∀ id tx, world.context.outgoing.lookup id = some tx → Keyed tx
  apart : ∀ utxo ∈ world.context.mature,
    utxo.outpoint ∉ world.context.pending ∧ utxo.outpoint ∉ world.context.stasis
  mapped : ∀ outpoint, outpoint ∈ world.context.pending ∨ outpoint ∈ world.context.stasis →
    outpoint ∈ world.context.map
  distinct : ∀ outpoint ∈ world.context.pending, outpoint ∉ world.context.stasis
  outgoing : world.processor.outgoing.Same world.context.outgoing

variable {world world' : UtxoWorld} {params : NetworkParams} {currentDaaScore : Nat}

theorem reserving_init : Reserving init where
  offered := ⟨nodup_nil, nofun, nofun⟩
  keyed := fun _ _ hlookup => (nomatch hlookup)
  apart := nofun
  mapped := fun outpoint hmem => hmem.elim (fun h => absurd h (notMem_empty outpoint))
    fun h => absurd h (notMem_empty outpoint)
  distinct := fun outpoint hmem => absurd hmem (notMem_empty outpoint)
  outgoing := fun _ => rfl

/-! ## Outputs that are added -/

variable {outpoint : TransactionOutpoint}

section

variable (hworld : Reserving world)

include hworld

variable {utxo : UtxoEntryReference}

theorem Reserving.place (hmap : utxo.outpoint ∉ world.context.map)
    (hbatch : ¬BatchOutput world.context.outgoing utxo.outpoint)
    (hfree : ¬Reserved world.context.outgoing utxo.outpoint) (maturity : Maturity) :
    Reserving ((world.enterMap utxo).place utxo maturity) := by
  have hne : ∀ other ∈ world.context.mature, other.outpoint ≠ utxo.outpoint := by
    intro other hother heq
    rcases hworld.offered.covered other hother with hknown | hmade
    · exact hmap (heq ▸ hknown)
    · exact hbatch (heq ▸ hmade)
  have hpending : utxo.outpoint ∉ world.context.pending := fun h => hmap (hworld.mapped _ (.inl h))
  have hstasis : utxo.outpoint ∉ world.context.stasis := fun h => hmap (hworld.mapped _ (.inr h))
  have hcovered : ∀ other ∈ world.context.mature,
      other.outpoint ∈ world.context.map.insert utxo.outpoint utxo ∨
        BatchOutput world.context.outgoing other.outpoint := fun other hother =>
    (hworld.offered.covered other hother).imp_left fun h => (mem_insert _).mpr (.inr h)
  cases maturity with
  | stasis =>
    refine ⟨⟨hworld.offered.nodup, hcovered, hworld.offered.unreserved⟩, hworld.keyed, ?_, ?_,
      ?_, hworld.outgoing⟩
    · intro other hother
      obtain ⟨hother₁, hother₂⟩ := hworld.apart other hother
      refine ⟨hother₁, fun hmem => ?_⟩
      exact ((mem_insert _).mp hmem).elim (hne other hother) hother₂
    · intro outpoint hmem
      refine (mem_insert _).mpr ?_
      rcases hmem with hmem | hmem
      · exact .inr (hworld.mapped _ (.inl hmem))
      · exact ((mem_insert _).mp hmem).imp_right fun h => hworld.mapped _ (.inr h)
    · intro outpoint hmem hinsert
      rcases (mem_insert _).mp hinsert with rfl | hinsert
      · exact hpending hmem
      · exact hworld.distinct outpoint hmem hinsert
  | pending =>
    refine ⟨⟨hworld.offered.nodup, hcovered, hworld.offered.unreserved⟩, hworld.keyed, ?_, ?_,
      ?_, hworld.outgoing⟩
    · intro other hother
      obtain ⟨hother₁, hother₂⟩ := hworld.apart other hother
      refine ⟨fun hmem => ?_, hother₂⟩
      exact ((mem_insert _).mp hmem).elim (hne other hother) hother₁
    · intro outpoint hmem
      refine (mem_insert _).mpr ?_
      rcases hmem with hmem | hmem
      · exact ((mem_insert _).mp hmem).imp_right fun h => hworld.mapped _ (.inl h)
      · exact .inr (hworld.mapped _ (.inr hmem))
    · intro outpoint hinsert hmem
      rcases (mem_insert _).mp hinsert with rfl | hinsert
      · exact hstasis hmem
      · exact hworld.distinct outpoint hinsert hmem
  | confirmed =>
    have hmature : ∀ {P : UtxoEntryReference → Prop}, P utxo →
        (∀ other ∈ world.context.mature, P other) →
        ∀ other ∈ sortedInsert utxo world.context.mature, P other := by
      intro P hutxo hall other hother
      rcases mem_sortedInsert.mp hother with rfl | hother
      · exact hutxo
      · exact hall other hother
    refine ⟨⟨?_, ?_, ?_⟩, hworld.keyed, ?_, ?_, hworld.distinct, hworld.outgoing⟩
    · change ((sortedInsert utxo world.context.mature).map (·.outpoint)).Nodup
      rw [((sortedInsert_perm utxo world.context.mature).map _).nodup_iff, map_cons,
        nodup_cons]
      refine ⟨fun hmem => ?_, hworld.offered.nodup⟩
      obtain ⟨other, hother, heq⟩ := mem_map.mp hmem
      exact hne other hother heq
    · exact hmature (.inl ((mem_insert _).mpr (.inl rfl))) hcovered
    · exact hmature hfree hworld.offered.unreserved
    · exact hmature ⟨hpending, hstasis⟩ hworld.apart
    · intro outpoint hmem
      exact (mem_insert _).mpr (.inr (hworld.mapped outpoint hmem))

omit hworld in
theorem outgoing_place (utxo : UtxoEntryReference) (maturity : Maturity) :
    ((world.enterMap utxo).place utxo maturity).context.outgoing = world.context.outgoing ∧
      ((world.enterMap utxo).place utxo maturity).context.map =
        world.context.map.insert utxo.outpoint utxo ∧
      ((world.enterMap utxo).place utxo maturity).processor.outgoing =
        world.processor.outgoing := by
  cases maturity with
  | stasis | pending | confirmed => exact ⟨rfl, rfl, rfl⟩

omit hworld in
/-- Adding an output leaves the transactions alone and forgets nothing. -/
structure Extends (world world' : UtxoWorld) : Prop where
  outgoing : world'.context.outgoing = world.context.outgoing
  map : ∀ outpoint ∈ world.context.map, outpoint ∈ world'.context.map

omit hworld in
theorem extends_insert (utxo : UtxoEntryReference) (forceMaturity : Bool) :
    Extends world (world.insert params utxo currentDaaScore forceMaturity) := by
  unfold insert
  split
  · exact ⟨rfl, fun _ hmem => hmem⟩
  · refine ⟨(outgoing_place utxo _).1, fun outpoint hmem => ?_⟩
    rw [(outgoing_place utxo _).2.1]
    exact (mem_insert _).mpr (.inr hmem)

theorem Reserving.insert (hbatch : ¬BatchOutput world.context.outgoing utxo.outpoint)
    (hfree : utxo.outpoint ∈ world.context.map ∨ ¬Reserved world.context.outgoing utxo.outpoint)
    (forceMaturity : Bool) :
    Reserving (world.insert params utxo currentDaaScore forceMaturity) := by
  unfold UtxoWorld.insert
  split
  · exact hworld
  next hmap => exact hworld.place hmap hbatch (hfree.resolve_left hmap) _

theorem Reserving.addUtxo
    (hfree : utxo.outpoint ∈ world.context.map ∨ BatchOutput world.context.outgoing utxo.outpoint
      ∨ ¬Reserved world.context.outgoing utxo.outpoint) :
    Reserving (world.addUtxo params currentDaaScore utxo) ∧
      Extends world (world.addUtxo params currentDaaScore utxo) := by
  have hlookup := hworld.outgoing utxo.transactionId
  unfold UtxoWorld.addUtxo
  cases houtgoing : world.processor.outgoing.lookup utxo.transactionId with
  | none =>
    have hbatch : ¬BatchOutput world.context.outgoing utxo.outpoint := by
      rintro ⟨tx, htx, _⟩
      cases (hlookup.symm.trans houtgoing).symm.trans htx
    have hfree' := hfree.imp_right fun h => h.resolve_left hbatch
    exact ⟨hworld.insert hbatch hfree' _, extends_insert utxo _⟩
  | some tx =>
    cases hisBatch : tx.isBatch with
    | true => exact ⟨by simpa [hisBatch] using hworld, by simpa [hisBatch] using
          ⟨rfl, fun _ h => h⟩⟩
    | false =>
      have hbatch : ¬BatchOutput world.context.outgoing utxo.outpoint := by
        rintro ⟨tx', htx', hisBatch'⟩
        obtain rfl := Option.mem_unique (hlookup.symm.trans houtgoing) htx'
        cases hisBatch.symm.trans hisBatch'
      have hfree' := hfree.imp_right fun h => h.resolve_left hbatch
      have hnext : Reserving (world.insert params utxo currentDaaScore true) :=
        hworld.insert hbatch hfree' true
      exact ⟨by simpa [hisBatch] using hnext, by simpa [hisBatch] using extends_insert utxo true⟩

theorem Reserving.handleUtxoAdded {utxos : List UtxoEntryReference}
    (hfree : ∀ utxo ∈ utxos, utxo.outpoint ∈ world.context.map ∨ BatchOutput
      world.context.outgoing utxo.outpoint ∨ ¬Reserved world.context.outgoing utxo.outpoint) :
    Reserving (world.handleUtxoAdded params utxos currentDaaScore) := by
  induction utxos generalizing world with
  | nil => exact hworld
  | cons utxo utxos ih =>
    obtain ⟨hutxo, hutxos⟩ := forall_mem_cons.mp hfree
    refine ih (hworld.addUtxo hutxo).1 fun other hother => ?_
    rw [(hworld.addUtxo hutxo).2.outgoing]
    exact (hutxos other hother).imp_left ((hworld.addUtxo hutxo).2.map _)

/-! ## Outputs that are removed -/

/-- An output is taken out of the map and of every collection. -/
theorem Reserving.forget (hmap : world'.context.map = world.context.map.erase outpoint)
    (hpending : ∀ other ∈ world'.context.pending, other ∈ world.context.pending ∧ other ≠ outpoint)
    (hstasis : ∀ other ∈ world'.context.stasis, other ∈ world.context.stasis ∧ other ≠ outpoint)
    (hmature : world'.context.mature.Sublist world.context.mature)
    (hne : ∀ utxo ∈ world'.context.mature, utxo.outpoint ≠ outpoint)
    (houtgoing : world'.context.outgoing = world.context.outgoing)
    (hprocessor : world'.processor.outgoing = world.processor.outgoing) : Reserving world' where
  offered :=
    { nodup := hworld.offered.nodup.sublist (hmature.map _)
      covered := fun utxo hutxo => by
        rw [hmap, houtgoing]
        exact (hworld.offered.covered utxo (hmature.subset hutxo)).imp_left fun hmem =>
          mem_erase.mpr ⟨hne utxo hutxo, hmem⟩
      unreserved := fun utxo hutxo => by
        rw [houtgoing]
        exact hworld.offered.unreserved utxo (hmature.subset hutxo) }
  keyed := houtgoing ▸ hworld.keyed
  apart := fun utxo hutxo =>
    ⟨fun hmem => (hworld.apart utxo (hmature.subset hutxo)).1 (hpending _ hmem).1,
      fun hmem => (hworld.apart utxo (hmature.subset hutxo)).2 (hstasis _ hmem).1⟩
  mapped := fun other hmem => by
    rw [hmap, mem_erase]
    rcases hmem with hmem | hmem
    · exact ⟨(hpending other hmem).2, hworld.mapped other (.inl (hpending other hmem).1)⟩
    · exact ⟨(hstasis other hmem).2, hworld.mapped other (.inr (hstasis other hmem).1)⟩
  distinct := fun other hmem hmem' =>
    hworld.distinct other (hpending other hmem).1 (hstasis other hmem').1
  outgoing := by
    rw [houtgoing, hprocessor]
    exact hworld.outgoing

end

theorem Reserving.removeOne {mature : List TransactionOutpoint}
    (hworld : Reserving (world.retainMature mature)) (outpoint : TransactionOutpoint) :
    Reserving ((UtxoWorld.removeOne (world, mature) outpoint).1.retainMature
      (UtxoWorld.removeOne (world, mature) outpoint).2) := by
  have herase : ∀ (utxos : UtxoMap), ∀ other ∈ utxos.erase outpoint,
      other ∈ utxos ∧ other ≠ outpoint := fun _ _ hmem => (mem_erase.mp hmem).symm
  unfold UtxoWorld.removeOne
  by_cases hmap : outpoint ∈ world.context.map
  · by_cases hpending : outpoint ∈ world.context.pending
    · simp only [hmap, hpending]
      refine hworld.forget rfl (herase _) (fun other hmem => ⟨hmem, fun heq => ?_⟩) (.refl _)
        (fun utxo hutxo heq => (hworld.apart utxo hutxo).1 (heq ▸ hpending)) rfl rfl
      exact hworld.distinct outpoint hpending (heq ▸ hmem)
    · have hother : ∀ other ∈ world.context.pending, other ∈ world.context.pending ∧
          other ≠ outpoint := fun other hmem => ⟨hmem, fun heq => hpending (heq ▸ hmem)⟩
      by_cases hstasis : outpoint ∈ world.context.stasis
      · simp only [hmap, hpending, hstasis]
        exact hworld.forget rfl hother (herase _) (.refl _)
          (fun utxo hutxo heq => (hworld.apart utxo hutxo).2 (heq ▸ hstasis)) rfl rfl
      · simp only [hmap, hpending, hstasis, if_true, if_false]
        refine hworld.forget rfl hother (fun other hmem => ⟨hmem, fun heq => hstasis (heq ▸ hmem)⟩)
          ?_ ?_ rfl rfl
        · refine monotone_filter_right _ fun utxo hkept => ?_
          simp only [decide_eq_true_eq, mem_append, not_or] at hkept ⊢
          exact hkept.1
        · intro utxo hutxo heq
          have hkept := (mem_filter.mp hutxo).2
          simp [heq] at hkept
  · simp only [hmap]
    exact hworld

theorem Reserving.handleUtxoRemoved (hworld : Reserving world) (utxos : List UtxoEntryReference) :
    Reserving (world.handleUtxoRemoved utxos) := by
  have hall : world.retainMature [] = world := by simp [retainMature]
  exact foldlRecOn (b := (world, []))
    (motive := fun removing => Reserving (removing.1.retainMature removing.2)) _
    UtxoWorld.removeOne (hall.symm ▸ hworld)
    fun _ hremoving outpoint _ => hremoving.removeOne outpoint

/-! ## Transactions -/

variable {tx : OutgoingTransaction}

theorem Reserving.registerOutgoingTransaction (hworld : Reserving world) (hkeyed : Keyed tx)
    (hfresh : tx.id ∉ world.context.outgoing) :
    Reserving (world.registerOutgoingTransaction tx) := by
  have hkept : ∀ utxo ∈ (world.registerOutgoingTransaction tx).context.mature,
      utxo ∈ world.context.mature ∧ utxo.outpoint ∉ tx.utxoEntries := by
    intro utxo hutxo
    obtain ⟨hmem, hfree⟩ := mem_filter.mp hutxo
    exact ⟨hmem, of_decide_eq_true hfree⟩
  refine ⟨⟨?_, ?_, ?_⟩, ?_, ?_, hworld.mapped, hworld.distinct, ?_⟩
  · exact hworld.offered.nodup.sublist (filter_sublist.map _)
  · intro utxo hutxo
    refine (hworld.offered.covered utxo (hkept utxo hutxo).1).imp_right ?_
    rintro ⟨batch, hbatch, hisBatch⟩
    have hne : utxo.outpoint.transactionId ≠ tx.id := fun heq =>
      hfresh (heq ▸ lookup_isSome.mp (Option.isSome_of_eq_some hbatch))
    exact ⟨batch, (lookup_insert_ne hne).trans hbatch, hisBatch⟩
  · rintro utxo hutxo ⟨id, tx', htx', hinput⟩
    rcases lookup_insert_eq_some.mp htx' with ⟨-, rfl⟩ | ⟨-, hold⟩
    · exact (hkept utxo hutxo).2 hinput
    · exact hworld.offered.unreserved utxo (hkept utxo hutxo).1 ⟨id, tx', hold, hinput⟩
  · intro id tx' htx'
    rcases lookup_insert_eq_some.mp htx' with ⟨-, rfl⟩ | ⟨-, hold⟩
    · exact hkeyed
    · exact hworld.keyed id tx' hold
  · exact fun utxo hutxo => hworld.apart utxo (hkept utxo hutxo).1
  · intro id
    change (world.processor.outgoing.insert tx.id tx).lookup id =
      (world.context.outgoing.insert tx.id tx).lookup id
    rw [lookup_insert_eq_ite, lookup_insert_eq_ite, hworld.outgoing]

theorem nodup_of_keyed (hkeyed : Keyed tx) :
    ((tx.utxoEntries.entries.map (·.2)).map (·.outpoint)).Nodup := by
  have hkeys : (tx.utxoEntries.entries.map (·.2)).map (·.outpoint) = tx.utxoEntries.keys := by
    rw [map_map]
    exact map_congr_left fun entry hentry => hkeyed _ _ (lookup_eq_some.mpr hentry)
  rw [hkeys]
  exact tx.utxoEntries.keys_nodup

theorem Reserving.cancelOutgoingTransaction (hworld : Reserving world) {id : TransactionId}
    (hreturn : ∀ tx, world.context.outgoing.lookup id = some tx → Returnable world.context id tx) :
    Reserving (world.cancelOutgoingTransaction id) := by
  have hsame : Same (world.processor.outgoing.erase id) (world.context.outgoing.erase id) := by
    intro other
    rw [lookup_erase_eq_ite, lookup_erase_eq_ite, hworld.outgoing]
  unfold UtxoWorld.cancelOutgoingTransaction
  cases houtgoing : world.context.outgoing.lookup id with
  | none =>
    refine { hworld with outgoing := fun other => ?_ }
    rw [hsame other, lookup_erase_eq_ite]
    split
    next heq => rw [heq, houtgoing]
    · rfl
  | some tx =>
    have hreturn := hreturn tx houtgoing
    have hinput : ∀ utxo ∈ tx.utxoEntries.entries.map (·.2), utxo.outpoint ∈ tx.utxoEntries := by
      intro utxo hutxo
      obtain ⟨⟨outpoint, _⟩, hentry, rfl⟩ := mem_map.mp hutxo
      have hlookup := lookup_eq_some.mpr hentry
      rw [hworld.keyed id tx houtgoing _ _ hlookup]
      exact isSome_lookup.mp (Option.isSome_of_eq_some hlookup)
    refine ⟨⟨?_, ?_, ?_⟩, ?_, ?_, hworld.mapped, hworld.distinct, hsame⟩
    · rw [map_append]
      refine hworld.offered.nodup.append (nodup_of_keyed (hworld.keyed id tx houtgoing)) ?_
      intro outpoint hoffered hreturned
      obtain ⟨utxo, hutxo, rfl⟩ := mem_map.mp hoffered
      obtain ⟨other, hother, heq⟩ := mem_map.mp hreturned
      exact hworld.offered.unreserved utxo hutxo ⟨id, tx, houtgoing, heq ▸ hinput other hother⟩
    · intro utxo hutxo
      rcases mem_append.mp hutxo with hutxo | hutxo
      · rcases hreturn.withdrawn utxo hutxo with hmap | hne
        · exact .inl hmap
        · refine (hworld.offered.covered utxo hutxo).imp_right ?_
          rintro ⟨batch, hbatch, hisBatch⟩
          exact ⟨batch, (lookup_erase_ne hne).trans hbatch, hisBatch⟩
      · exact hreturn.covered _ (hinput utxo hutxo)
    · intro utxo hutxo hreserved
      rcases mem_append.mp hutxo with hutxo | hutxo
      · obtain ⟨other, tx', hlookup, hin⟩ := hreserved
        exact hworld.offered.unreserved utxo hutxo
          ⟨other, tx', (lookup_erase_eq_some.mp hlookup).2, hin⟩
      · exact hreturn.exclusive _ (hinput utxo hutxo) hreserved
    · intro other tx' htx'
      exact hworld.keyed other tx' (lookup_erase_eq_some.mp htx').2
    · intro utxo hutxo
      rcases mem_append.mp hutxo with hutxo | hutxo
      · exact hworld.apart utxo hutxo
      · exact hreturn.settled _ (hinput utxo hutxo)

theorem Reserving.step {event : ReservationEvent} (hworld : Reserving world)
    (hstep : ReservingStep params world event world') : Reserving world' := by
  cases hstep with
  | added hfree => exact hworld.handleUtxoAdded hfree
  | removed => exact hworld.handleUtxoRemoved _
  | registered hkeyed hfresh => exact hworld.registerOutgoingTransaction hkeyed hfresh
  | cancelled hreturn => exact hworld.cancelOutgoingTransaction hreturn

/-- Over every run of that kind, the mature outputs are distinct, known and not reserved. -/
theorem mature_offered {events : List ReservationEvent}
    (hrun : Runs (ReservingStep params) init events world) : Offered world.context :=
  (hrun.invariant Reserving (fun _ _ _ hworld hstep => hworld.step hstep) reserving_init).offered

/-! ## A late submission -/

/-- An output of an ordinary transaction of the block with score 10. -/
def userOutput : UtxoEntryReference := ⟨⟨9, 0⟩, ⟨1000, ⟨0, []⟩, 10, false⟩⟩

/-- A transaction that spends it. -/
def spendingTransaction : OutgoingTransaction := ⟨7, (∅ : UtxoMap).insert ⟨9, 0⟩ userOutput, false⟩

def userParams : NetworkParams := ⟨1000, 500, 100⟩

/-- The context with the output, that is mature at once. -/
def fundedWorld : UtxoWorld := init.handleUtxoAdded userParams [userOutput] 200

theorem reserved_empty (outpoint : TransactionOutpoint) : ¬Reserved ∅ outpoint := by
  rintro ⟨_, _, hlookup, _⟩
  cases hlookup

theorem returnable_spendingTransaction :
    Returnable (fundedWorld.registerOutgoingTransaction spendingTransaction).context 7
      spendingTransaction where
  covered := fun outpoint hinput => by
    rw [(mem_insert _).mp hinput |>.resolve_right (notMem_empty _)]
    exact .inl (by decide)
  settled := fun outpoint hinput => by
    rw [(mem_insert _).mp hinput |>.resolve_right (notMem_empty _)]
    decide
  exclusive := fun outpoint _ => reserved_empty outpoint
  withdrawn := by decide

theorem mature_offered_returned :
    Offered ((fundedWorld.registerOutgoingTransaction
      spendingTransaction).cancelOutgoingTransaction 7).context := by
  have hreturn : ∀ tx, (fundedWorld.registerOutgoingTransaction
      spendingTransaction).context.outgoing.lookup 7 = some tx →
      Returnable (fundedWorld.registerOutgoingTransaction spendingTransaction).context 7 tx := by
    intro tx htx
    cases htx
    exact returnable_spendingTransaction
  have hrun : Runs (ReservingStep userParams) init
      [.added [userOutput] 200, .registered spendingTransaction, .cancelled 7] _ :=
    .cons (.added fun utxo _ => .inr (.inr (reserved_empty utxo.outpoint)))
      (.cons (.registered (by unfold Keyed; decide) (by decide))
        (.cons (.cancelled hreturn) (.nil _)))
  exact mature_offered hrun

/-- The output is removed after the transaction was generated and before it is submitted. When the
submission fails, the output is on offer again although the context does not know it. -/
theorem mature_offers_removed :
    let context := (((fundedWorld.handleUtxoRemoved [userOutput]).registerOutgoingTransaction
      spendingTransaction).cancelOutgoingTransaction 7).context
    context.mature = [userOutput] ∧ (⟨9, 0⟩ : TransactionOutpoint) ∉ context.map ∧
      context.outgoing.keys = [] := by
  decide

end Qaspa.Wallet.UtxoWorld
