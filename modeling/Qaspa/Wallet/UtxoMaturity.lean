import Qaspa.Wallet.UtxoContext

/-! # Maturity of tracked outputs

Abstractly a context is a partial map from outpoints to outputs with a maturity. The collections of
the context and of the processor represent such a map, and the operations act on it one outpoint
at a time. An output that passes from stasis to confirmed in one step of the DAA score is
lost by the processor and stays in the stasis of the context.
-/

namespace Qaspa.Wallet

open HashMap List Function UtxoWorld

/-- The tracked outputs, each with the collection it is in. -/
abbrev Tracked := TransactionOutpoint → Option (UtxoEntryReference × Maturity)

/-- The output of a slot, if it is in the given collection. -/
def heldAs (maturity : Maturity) (slot : Option (UtxoEntryReference × Maturity)) :
    Option UtxoEntryReference :=
  slot.bind fun tracked => if tracked.2 = maturity then some tracked.1 else none

@[simp] theorem heldAs_none (maturity : Maturity) : heldAs maturity none = none := rfl

@[simp] theorem heldAs_some (maturity maturity' : Maturity) (utxo : UtxoEntryReference) :
    heldAs maturity (some (utxo, maturity')) = if maturity' = maturity then some utxo else none :=
  rfl

theorem heldAs_eq_some {maturity : Maturity} {slot : Option (UtxoEntryReference × Maturity)}
    {utxo : UtxoEntryReference} : heldAs maturity slot = some utxo ↔
      slot = some (utxo, maturity) := by
  cases slot with
  | none => simp
  | some tracked =>
    obtain ⟨utxo', maturity'⟩ := tracked
    by_cases hmaturity : maturity' = maturity
    · simp [hmaturity]
    · simp [hmaturity]

namespace UtxoWorld

/-- The collections hold the tracked outputs. -/
structure Represents (world : UtxoWorld) (tracked : Tracked) : Prop where
  map : ∀ outpoint, world.context.map.lookup outpoint = (tracked outpoint).map Prod.fst
  stasis : ∀ outpoint, world.context.stasis.lookup outpoint = heldAs .stasis (tracked outpoint)
  pending : ∀ outpoint, world.context.pending.lookup outpoint = heldAs .pending (tracked outpoint)
  mature : ∀ utxo, utxo ∈ world.context.mature ↔ tracked utxo.outpoint = some (utxo, .confirmed)
  nodup : (world.context.mature.map (·.outpoint)).Nodup
  keyed : ∀ outpoint utxo maturity, tracked outpoint = some (utxo, maturity) →
    utxo.outpoint = outpoint
  processorStasis : ∀ outpoint,
    world.processor.stasis.lookup outpoint = heldAs .stasis (tracked outpoint)
  processorPending : ∀ outpoint,
    world.processor.pending.lookup outpoint = heldAs .pending (tracked outpoint)
  noOutgoing : world.context.outgoing = ∅ ∧ world.processor.outgoing = ∅

variable {world world' : UtxoWorld} {tracked : Tracked} {utxo : UtxoEntryReference}
  {outpoint : TransactionOutpoint} {params : NetworkParams} {currentDaaScore : Nat}

theorem represents_init : init.Represents fun _ => none where
  map _ := rfl
  stasis _ := rfl
  pending _ := rfl
  mature utxo := by simp [init]
  nodup := nodup_nil
  keyed _ _ _ htracked := (nomatch htracked)
  processorStasis _ := rfl
  processorPending _ := rfl
  noOutgoing := ⟨rfl, rfl⟩

theorem Represents.mem_map (hworld : world.Represents tracked) :
    outpoint ∈ world.context.map ↔ tracked outpoint ≠ none := by
  rw [← isSome_lookup, hworld.map, Option.isSome_map, Option.isSome_iff_ne_none]

/-! ## Entering and leaving -/

/-- A collection holds the outputs of a maturity. -/
def Holds (utxos : UtxoMap) (maturity : Maturity) (tracked : Tracked) : Prop :=
  ∀ outpoint, utxos.lookup outpoint = heldAs maturity (tracked outpoint)

/-- Outputs are tracked under their outpoints. -/
def Labelled (tracked : Tracked) : Prop :=
  ∀ outpoint utxo maturity, tracked outpoint = some (utxo, maturity) → utxo.outpoint = outpoint

section Collection

variable {utxos : UtxoMap} {maturity : Maturity} {slot : Option (UtxoEntryReference × Maturity)}
  {changed : TransactionOutpoint} (hutxos : Holds utxos maturity tracked)

include hutxos

theorem Holds.insert : Holds (utxos.insert utxo.outpoint utxo) maturity
    (update tracked utxo.outpoint (some (utxo, maturity))) := by
  intro outpoint
  rw [lookup_insert_eq_ite, update_apply, apply_ite (heldAs maturity), hutxos, heldAs_some,
    if_pos rfl]

/-- A collection that an outpoint is not in before and after a change. -/
theorem Holds.keep (hbefore : heldAs maturity (tracked changed) = none)
    (hafter : heldAs maturity slot = none) :
    Holds utxos maturity (update tracked changed slot) := by
  intro outpoint
  rw [update_apply, apply_ite (heldAs maturity), hutxos, hafter]
  split
  next heq => rw [heq, hbefore]
  · rfl

theorem Holds.erase (hafter : heldAs maturity slot = none) :
    Holds (utxos.erase changed) maturity (update tracked changed slot) := by
  intro outpoint
  rw [lookup_erase_eq_ite, update_apply, apply_ite (heldAs maturity), hutxos, hafter]

theorem Holds.mem_iff : outpoint ∈ utxos ↔ (heldAs maturity (tracked outpoint)).isSome = true := by
  rw [← isSome_lookup, hutxos]

end Collection

section Update

variable {slot : Option (UtxoEntryReference × Maturity)} {changed : TransactionOutpoint}

/-- What holds of all tracked outputs also holds after a change of one of them. -/
theorem tracked_update {holds : TransactionOutpoint → UtxoEntryReference → Maturity → Prop}
    (hold : ∀ outpoint utxo maturity, tracked outpoint = some (utxo, maturity) →
      holds outpoint utxo maturity)
    (hslot : ∀ utxo maturity, slot = some (utxo, maturity) → holds changed utxo maturity) :
    ∀ outpoint utxo maturity, update tracked changed slot outpoint =
      some (utxo, maturity) → holds outpoint utxo maturity := by
  intro outpoint utxo maturity htracked
  rw [update_apply] at htracked
  split at htracked
  next heq => exact heq ▸ hslot utxo maturity htracked
  · exact hold outpoint utxo maturity htracked

/-- The mature outputs do not see a change of an outpoint that is not mature before and after. -/
theorem Represents.mature_update (hworld : world.Represents tracked)
    (hbefore : heldAs .confirmed (tracked changed) = none)
    (hafter : heldAs .confirmed slot = none) (utxo : UtxoEntryReference) :
    utxo ∈ world.context.mature ↔
      update tracked changed slot utxo.outpoint = some (utxo, .confirmed) := by
  rw [hworld.mature, ← heldAs_eq_some, ← heldAs_eq_some, update_apply,
    apply_ite (heldAs .confirmed), hafter]
  split
  next heq => rw [heq, hbefore]
  · rfl

end Update

/-- A new output enters one collection. -/
theorem Represents.place (hworld : world.Represents tracked)
    (hnone : tracked utxo.outpoint = none) (maturity : Maturity) :
    ((world.enterMap utxo).place utxo maturity).Represents
      (update tracked utxo.outpoint (some (utxo, maturity))) := by
  have hmap : ∀ outpoint, (world.context.map.insert utxo.outpoint utxo).lookup outpoint =
      (update tracked utxo.outpoint (some (utxo, maturity)) outpoint).map Prod.fst := by
    intro outpoint
    rw [lookup_insert_eq_ite, update_apply, apply_ite (Option.map Prod.fst), hworld.map]
    rfl
  have hkeyed : Labelled (update tracked utxo.outpoint (some (utxo, maturity))) :=
    tracked_update hworld.keyed fun other maturity hother =>
      congrArg (fun slot => slot.1.outpoint) (Option.some.inj hother).symm
  have hbefore (collection : Maturity) : heldAs collection (tracked utxo.outpoint) = none := by
    rw [hnone, heldAs_none]
  have hput {utxos : UtxoMap} {collection : Maturity} (hutxos : Holds utxos collection tracked) :
      Holds (if maturity = collection then utxos.insert utxo.outpoint utxo else utxos) collection
        (update tracked utxo.outpoint (some (utxo, maturity))) := by
    split
    next heq =>
      subst heq
      exact hutxos.insert
    next hne => exact hutxos.keep (hbefore _) (if_neg hne)
  cases maturity with
  | stasis | pending =>
    exact { hworld with
      map := hmap
      stasis := hput hworld.stasis
      pending := hput hworld.pending
      mature := hworld.mature_update (hbefore _) rfl
      keyed := hkeyed
      processorStasis := hput hworld.processorStasis
      processorPending := hput hworld.processorPending }
  | confirmed =>
    refine { hworld with
      map := hmap
      stasis := hput hworld.stasis
      pending := hput hworld.pending
      mature := ?_
      nodup := ?_
      keyed := hkeyed
      processorStasis := hput hworld.processorStasis
      processorPending := hput hworld.processorPending }
    · intro other
      change other ∈ sortedInsert utxo world.context.mature ↔ _
      rw [mem_sortedInsert, hworld.mature, update_apply]
      split
      next heq => simp [heq, hnone, eq_comm]
      next hne =>
        have hother : other ≠ utxo := fun heq => hne (congrArg _ heq)
        simp [hother]
    · change ((sortedInsert utxo world.context.mature).map (·.outpoint)).Nodup
      rw [((sortedInsert_perm utxo world.context.mature).map _).nodup_iff, map_cons,
        nodup_cons]
      refine ⟨?_, hworld.nodup⟩
      intro hmem
      obtain ⟨other, hother, heq⟩ := List.mem_map.mp hmem
      have htracked := (hworld.mature other).mp hother
      rw [heq, hnone] at htracked
      cases htracked

/-- What adding an output does to the tracked outputs. -/
def trackedAdd (tracked : Tracked) (params : NetworkParams) (currentDaaScore : Nat)
    (utxo : UtxoEntryReference) : Tracked :=
  if tracked utxo.outpoint = none then
    Function.update tracked utxo.outpoint (some (utxo, utxo.maturity params currentDaaScore))
  else tracked

theorem Represents.addUtxo (hworld : world.Represents tracked) (utxo : UtxoEntryReference) :
    (world.addUtxo params currentDaaScore utxo).Represents
      (trackedAdd tracked params currentDaaScore utxo) := by
  rw [UtxoWorld.addUtxo, hworld.noOutgoing.2, AList.lookup_empty, trackedAdd]
  dsimp only
  rw [insert]
  by_cases hnone : tracked utxo.outpoint = none
  · rw [if_neg (by rw [hworld.mem_map]; simp [hnone]), if_pos hnone]
    exact hworld.place hnone _
  · rw [if_pos (hworld.mem_map.mpr hnone), if_neg hnone]
    exact hworld

/-! ### Removal -/

/-- Removing an outpoint from one collection removes it from all. -/
theorem Represents.removeOne {removed : List TransactionOutpoint}
    (hworld : (world.retainMature removed).Represents tracked) (outpoint : TransactionOutpoint) :
    let removing := removeOne (world, removed) outpoint
    (removing.1.retainMature removing.2).Represents (update tracked outpoint none) := by
  have hmap : ∀ other, (world.context.map.erase outpoint).lookup other =
      (update tracked outpoint none other).map Prod.fst := by
    intro other
    rw [lookup_erase_eq_ite, update_apply, apply_ite (Option.map Prod.fst), ← hworld.map]
    rfl
  have hkeyed : Labelled (update tracked outpoint none) := tracked_update hworld.keyed nofun
  have hinMap : outpoint ∈ world.context.map ↔ tracked outpoint ≠ none := hworld.mem_map
  have hinPending : outpoint ∈ world.context.pending ↔
      (heldAs .pending (tracked outpoint)).isSome = true := Holds.mem_iff hworld.pending
  have hinStasis : outpoint ∈ world.context.stasis ↔
      (heldAs .stasis (tracked outpoint)).isSome = true := Holds.mem_iff hworld.stasis
  rw [UtxoWorld.removeOne]
  cases hslot : tracked outpoint with
  | none =>
    have hsame : update tracked outpoint none = tracked := by
      rw [← hslot, update_eq_self]
    rw [if_neg (by simp [hinMap, hslot]), hsame]
    exact hworld
  | some slot =>
    obtain ⟨utxo, maturity⟩ := slot
    have htake {utxos : UtxoMap} {collection : Maturity} (hutxos : Holds utxos collection tracked) :
        Holds (if maturity = collection then utxos.erase outpoint else utxos) collection
          (update tracked outpoint none) := by
      split
      · exact hutxos.erase rfl
      next hne => exact hutxos.keep (by simp [hslot, hne]) rfl
    rw [if_pos (hinMap.mpr (by simp [hslot]))]
    cases maturity with
    | pending | stasis =>
      simp only [hinPending, hinStasis, hslot, heldAs_some, reduceCtorEq, if_true, if_false,
        Option.isSome_some, Option.isSome_none, Bool.false_eq_true]
      exact { hworld with
        map := hmap
        stasis := htake hworld.stasis
        pending := htake hworld.pending
        mature := hworld.mature_update (by simp [hslot]) rfl
        keyed := hkeyed
        processorStasis := htake hworld.processorStasis
        processorPending := htake hworld.processorPending }
    | confirmed =>
      rw [if_neg (by simp [hinPending, hslot]), if_neg (by simp [hinStasis, hslot])]
      have hfilter : world.context.mature.filter (fun utxo => utxo.outpoint ∉ removed ++ [outpoint])
          = (world.retainMature removed).context.mature.filter
            fun utxo => utxo.outpoint ≠ outpoint := by
        simp only [retainMature]
        simp [and_comm]
      refine { hworld with
        map := hmap
        stasis := htake hworld.stasis
        pending := htake hworld.pending
        mature := ?_
        nodup := ?_
        keyed := hkeyed
        processorStasis := htake hworld.processorStasis
        processorPending := htake hworld.processorPending }
      · intro other
        change other ∈ world.context.mature.filter _ ↔ _
        rw [hfilter, mem_filter, hworld.mature]
        by_cases hother : other.outpoint = outpoint
        · simp [hother]
        · simp [hother]
      · change ((world.context.mature.filter _).map _).Nodup
        rw [hfilter]
        exact hworld.nodup.sublist (filter_sublist.map _)

theorem Represents.remove (hworld : world.Represents tracked)
    (outpoints : List TransactionOutpoint) :
    (world.remove outpoints).Represents
      (outpoints.foldl (fun tracked outpoint => update tracked outpoint none) tracked) := by
  have hall : world.retainMature [] = world := by simp [retainMature]
  -- What has been removed so far, with the mature outputs that are still to be filtered out.
  exact foldl_rel (a := (world, []))
    (r := fun removing tracked => (removing.1.retainMature removing.2).Represents tracked)
    (hall.symm ▸ hworld) fun outpoint _ _ _ hremoving => hremoving.removeOne outpoint

/-! ### Scans -/

theorem Represents.of_perm {mature : List UtxoEntryReference} (hworld : world.Represents tracked)
    (hperm : mature.Perm world.context.mature) : (world.setMature mature).Represents tracked :=
  { hworld with
    mature := fun utxo => hperm.mem_iff.trans (hworld.mature utxo)
    nodup := (hperm.map _).nodup_iff.mpr hworld.nodup }

/-- The world of a scan with the mature outputs found so far. -/
def scanned (scanning : UtxoWorld × List UtxoEntryReference) : UtxoWorld :=
  scanning.1.setMature (scanning.1.context.mature ++ scanning.2)

theorem Represents.scanOne {scanning : UtxoWorld × List UtxoEntryReference}
    (hworld : (scanned scanning).Represents tracked) (utxo : UtxoEntryReference) :
    (scanned (scanOne params currentDaaScore scanning utxo)).Represents
      (trackedAdd tracked params currentDaaScore utxo) := by
  have hinMap : utxo.outpoint ∈ scanning.1.context.map ↔ tracked utxo.outpoint ≠ none :=
    hworld.mem_map
  rw [UtxoWorld.scanOne, trackedAdd]
  by_cases hnone : tracked utxo.outpoint = none
  · rw [if_neg (by simp [hinMap, hnone]), if_pos hnone]
    have hplaced := hworld.place hnone (utxo.maturity params currentDaaScore)
    cases hmaturity : utxo.maturity params currentDaaScore with
    | stasis | pending =>
      rw [hmaturity] at hplaced
      exact hplaced
    | confirmed =>
      rw [hmaturity] at hplaced
      have hperm : (scanning.1.context.mature ++ (scanning.2 ++ [utxo])).Perm
          (sortedInsert utxo (scanning.1.context.mature ++ scanning.2)) := by
        refine List.Perm.trans ?_ (sortedInsert_perm _ _).symm
        rw [← append_assoc]
        exact perm_append_singleton _ _
      exact hplaced.of_perm hperm
  · rw [if_pos (hinMap.mpr hnone), if_neg hnone]
    exact hworld

theorem Represents.extendFromScan (hworld : world.Represents tracked)
    (utxos : List UtxoEntryReference) :
    (world.extendFromScan params utxos currentDaaScore).Represents
      (utxos.foldl (fun tracked utxo => trackedAdd tracked params currentDaaScore utxo)
        tracked) := by
  have hstart : (scanned (world, [])).Represents tracked := hworld.of_perm (by rw [append_nil])
  have hloop : (scanned (utxos.foldl (UtxoWorld.scanOne params currentDaaScore)
      (world, []))).Represents _ :=
    foldl_rel (r := fun scanning tracked => (scanned scanning).Represents tracked)
      hstart fun utxo _ _ _ hscanning => hscanning.scanOne utxo
  exact hloop.of_perm (mergeSort_perm _ _)

/-! ### Changes of the score -/

section Selection

variable {utxos : UtxoMap} {maturity now : Maturity} (hutxos : Holds utxos maturity tracked)
  (hkeyed : Labelled tracked)

include hutxos hkeyed

theorem mem_withMaturity :
    utxo ∈ withMaturity params currentDaaScore utxos now ↔
      tracked utxo.outpoint = some (utxo, maturity) ∧
        utxo.maturity params currentDaaScore = now := by
  simp only [withMaturity, mem_map, mem_filter, decide_eq_true_eq, Sigma.exists,
    ← lookup_eq_some, exists_eq_right, exists_and_right]
  refine and_congr_left' ⟨?_, fun htracked => ⟨_, (hutxos _).trans (heldAs_eq_some.mpr htracked)⟩⟩
  rintro ⟨outpoint, hlookup⟩
  rw [hutxos, heldAs_eq_some] at hlookup
  rwa [hkeyed outpoint utxo maturity hlookup]

/-- The outputs that are selected are in every collection of their maturity. -/
theorem mem_of_mem_withMaturity {others : UtxoMap} (hothers : Holds others maturity tracked) :
    ∀ utxo ∈ withMaturity params currentDaaScore utxos now, utxo.outpoint ∈ others := by
  intro utxo hutxo
  rw [Holds.mem_iff hothers, ((mem_withMaturity hutxos hkeyed).mp hutxo).1]
  simp

theorem nodup_withMaturity (params : NetworkParams) (currentDaaScore : Nat) (now : Maturity) :
    ((withMaturity params currentDaaScore utxos now).map (·.outpoint)).Nodup := by
  rw [withMaturity, map_map]
  have hkeys : ∀ entry ∈ utxos.entries.filter
      (fun entry => entry.2.maturity params currentDaaScore = now),
      ((fun utxo : UtxoEntryReference => utxo.outpoint) ∘ fun entry => entry.2) entry =
        entry.1 := by
    intro entry hentry
    have hlookup := lookup_eq_some.mpr (mem_of_mem_filter hentry)
    rw [hutxos, heldAs_eq_some] at hlookup
    exact hkeyed entry.1 entry.2 maturity hlookup
  rw [map_congr_left hkeys]
  exact List.Nodup.sublist (filter_sublist.map _) utxos.nodupKeys

/-- An outpoint is selected if its output is. -/
theorem mem_map_withMaturity :
    outpoint ∈ (withMaturity params currentDaaScore utxos now).map (·.outpoint) ↔
      ∃ utxo, tracked outpoint = some (utxo, maturity) ∧
        utxo.maturity params currentDaaScore = now := by
  simp only [mem_map, mem_withMaturity hutxos hkeyed]
  refine exists_congr fun utxo => ⟨?_, fun hheld => ?_⟩
  · rintro ⟨hheld, rfl⟩
    exact hheld
  · have heq := hkeyed outpoint utxo maturity hheld.1
    exact ⟨heq ▸ hheld, heq⟩

end Selection

theorem lookup_insertAll_of_notMem {inserted : List UtxoEntryReference} (utxos : UtxoMap)
    (houtpoint : outpoint ∉ inserted.map (·.outpoint)) :
    (insertAll utxos inserted).lookup outpoint = utxos.lookup outpoint := by
  induction inserted generalizing utxos with
  | nil => rfl
  | cons utxo inserted ih =>
    rw [map_cons, mem_cons, not_or] at houtpoint
    exact (ih _ houtpoint.2).trans (AList.lookup_insert_ne houtpoint.1)

theorem mem_erase_rest {rest : List UtxoEntryReference} {utxos : UtxoMap}
    (hfresh : utxo.outpoint ∉ rest.map (·.outpoint))
    (hrest : ∀ other ∈ rest, other.outpoint ∈ utxos) :
    ∀ other ∈ rest, other.outpoint ∈ utxos.erase utxo.outpoint := by
  intro other hother
  rw [AList.mem_erase]
  refine ⟨fun heq => hfresh ?_, hrest other hother⟩
  exact heq ▸ mem_map_of_mem hother

/-- Every output in turn leaves the pending ones and becomes mature. -/
theorem foldl_promoteOne {context : Context} {utxos : List UtxoEntryReference}
    (hnodup : (utxos.map (·.outpoint)).Nodup)
    (hpending : ∀ utxo ∈ utxos, utxo.outpoint ∈ context.pending) :
    ∃ pending mature, utxos.foldl promoteOne context =
        { context with pending := pending, mature := mature } ∧
      pending = eraseAll context.pending utxos ∧ mature.Perm (utxos ++ context.mature) := by
  induction utxos generalizing context with
  | nil => exact ⟨context.pending, context.mature, rfl, rfl, List.Perm.refl _⟩
  | cons utxo utxos ih =>
    obtain ⟨hfresh, hnodup⟩ := nodup_cons.mp hnodup
    obtain ⟨hutxo, hpending⟩ := forall_mem_cons.mp hpending
    rw [foldl_cons, promoteOne, if_pos hutxo]
    obtain ⟨pending, mature, heq, hpending, hmature⟩ := @ih { context with
      pending := context.pending.erase utxo.outpoint
      mature := sortedInsert utxo context.mature } hnodup (mem_erase_rest hfresh hpending)
    refine ⟨pending, mature, heq, hpending, hmature.trans ?_⟩
    exact ((sortedInsert_perm utxo context.mature).append_left utxos).trans perm_middle

theorem foldl_reviveOne {context : Context} {utxos : List UtxoEntryReference}
    (hnodup : (utxos.map (·.outpoint)).Nodup)
    (hstasis : ∀ utxo ∈ utxos, utxo.outpoint ∈ context.stasis) :
    revive context utxos = { context with
      stasis := eraseAll context.stasis utxos
      pending := insertAll context.pending utxos } := by
  induction utxos generalizing context with
  | nil => rfl
  | cons utxo utxos ih =>
    obtain ⟨hfresh, hnodup⟩ := nodup_cons.mp hnodup
    obtain ⟨hutxo, hstasis⟩ := forall_mem_cons.mp hstasis
    rw [revive, foldl_cons, reviveOne, if_pos hutxo]
    exact ih hnodup (mem_erase_rest hfresh hstasis)

/-- The collection of an output after a change of the score. -/
def advance (maturity now : Maturity) : Maturity :=
  match maturity, now with
  | .pending, .confirmed => .confirmed
  | .stasis, .pending => .pending
  | maturity, _ => maturity

def trackedAdvance (tracked : Tracked) (params : NetworkParams) (currentDaaScore : Nat) : Tracked :=
  fun outpoint => (tracked outpoint).map fun slot =>
    (slot.1, advance slot.2 (slot.1.maturity params currentDaaScore))

/-- No output passes from stasis to confirmed at once. -/
def NoStageSkipped (tracked : Tracked) (params : NetworkParams) (currentDaaScore : Nat) : Prop :=
  ∀ outpoint utxo, tracked outpoint = some (utxo, .stasis) →
    utxo.maturity params currentDaaScore ≠ .confirmed

section Advance

variable (hkeyed : Labelled tracked) {pending stasis utxos : UtxoMap}

include hkeyed

theorem lookup_eraseAll_withMaturity {maturity now : Maturity} {selected : UtxoMap}
    (hselected : Holds selected maturity tracked) (hutxos : Holds utxos maturity tracked) :
    (eraseAll utxos (withMaturity params currentDaaScore selected now)).lookup outpoint =
      (heldAs maturity (tracked outpoint)).filter fun utxo =>
        utxo.maturity params currentDaaScore ≠ now := by
  have hmem : outpoint ∈ (withMaturity params currentDaaScore selected now).map (·.outpoint) ↔ _ :=
    mem_map_withMaturity hselected hkeyed
  rw [eraseAll, lookup_foldl_erase, hutxos]
  cases hslot : heldAs maturity (tracked outpoint) with
  | none => simp
  | some utxo =>
    rw [heldAs_eq_some] at hslot
    by_cases hnow : utxo.maturity params currentDaaScore = now
    · simp [hmem.mpr ⟨utxo, hslot, hnow⟩, hnow, Option.filter]
    · rw [if_neg (mt hmem.mp (by simpa [hslot] using hnow))]
      simp [hnow, Option.filter]

theorem lookup_insertAll_withMaturity {maturity now : Maturity} {selected : UtxoMap}
    (hselected : Holds selected maturity tracked) :
    (insertAll utxos (withMaturity params currentDaaScore selected now)).lookup outpoint =
      ((heldAs maturity (tracked outpoint)).filter fun utxo =>
        utxo.maturity params currentDaaScore = now).or (utxos.lookup outpoint) := by
  by_cases hmem : outpoint ∈ (withMaturity params currentDaaScore selected now).map (·.outpoint)
  · obtain ⟨utxo, htracked, hnow⟩ := (mem_map_withMaturity hselected hkeyed).mp hmem
    obtain rfl := hkeyed outpoint utxo maturity htracked
    have hlookup := lookup_foldl_insert_of_mem UtxoEntryReference.outpoint id
      (nodup_withMaturity hselected hkeyed params currentDaaScore now) utxos
      ((mem_withMaturity hselected hkeyed).mpr ⟨htracked, hnow⟩)
    rw [heldAs_eq_some.mpr htracked]
    refine hlookup.trans ?_
    simp [hnow, Option.filter]
  · rw [lookup_insertAll_of_notMem _ hmem]
    rw [mem_map_withMaturity hselected hkeyed] at hmem
    cases hslot : heldAs maturity (tracked outpoint) with
    | none => simp
    | some utxo =>
      have hnow : utxo.maturity params currentDaaScore ≠ now :=
        fun hnow => hmem ⟨utxo, heldAs_eq_some.mp hslot, hnow⟩
      simp [hnow, Option.filter]

/-- The pending outputs after a change of the score, in the context and in the processor. -/
theorem lookup_pending_advance (hpending : Holds pending .pending tracked)
    (hstasis : Holds stasis .stasis tracked) (hutxos : Holds utxos .pending tracked) :
    Holds (insertAll (eraseAll utxos (withMaturity params currentDaaScore pending .confirmed))
      (withMaturity params currentDaaScore stasis .pending)) .pending
        (trackedAdvance tracked params currentDaaScore) := by
  intro outpoint
  rw [lookup_insertAll_withMaturity hkeyed hstasis,
    lookup_eraseAll_withMaturity hkeyed hpending hutxos, trackedAdvance]
  rcases tracked outpoint with _ | ⟨utxo, maturity⟩
  · rfl
  · cases maturity <;> cases hnow : utxo.maturity params currentDaaScore <;>
      simp [heldAs, advance, hnow]

/-- The outputs that stay in stasis. -/
theorem lookup_stasis_advance (hstasis : Holds stasis .stasis tracked)
    (hutxos : Holds utxos .stasis tracked) :
    Holds (eraseAll utxos (withMaturity params currentDaaScore stasis .pending)) .stasis
      (trackedAdvance tracked params currentDaaScore) := by
  intro outpoint
  rw [lookup_eraseAll_withMaturity hkeyed hstasis hutxos, trackedAdvance]
  rcases tracked outpoint with _ | ⟨utxo, maturity⟩
  · rfl
  · cases maturity <;> cases hnow : utxo.maturity params currentDaaScore <;>
      simp [heldAs, advance, hnow]

end Advance

variable {score : Nat} {maturity : Maturity}

theorem advance_eq_confirmed {now : Maturity} :
    advance maturity now = .confirmed ↔
      maturity = .confirmed ∨ maturity = .pending ∧ now = .confirmed := by
  cases maturity <;> cases now <;> simp [advance]

/-- A change of the score moves every output on, as long as no stage is skipped. -/
theorem Represents.handlePending (hworld : world.Represents tracked)
    (hskip : NoStageSkipped tracked params currentDaaScore) :
    ∃ world', world.handlePending params currentDaaScore = some world' ∧
      world'.Represents (trackedAdvance tracked params currentDaaScore) := by
  have hkeyed : Labelled tracked := hworld.keyed
  have hskipped : withMaturity params currentDaaScore world.processor.stasis .confirmed = [] := by
    refine eq_nil_iff_forall_not_mem.mpr fun utxo hutxo => ?_
    obtain ⟨htracked, hnow⟩ := (mem_withMaturity hworld.processorStasis hkeyed).mp hutxo
    exact hskip utxo.outpoint utxo htracked hnow
  obtain ⟨pending, mature, hpromote, hpending, hmature⟩ := foldl_promoteOne
    (nodup_withMaturity hworld.processorPending hkeyed params currentDaaScore .confirmed)
    (mem_of_mem_withMaturity hworld.processorPending hkeyed hworld.pending)
  have hpromoted : promote world.context
      (withMaturity params currentDaaScore world.processor.pending .confirmed) =
        some { world.context with pending := pending, mature := mature } := by
    rw [promote]
    simp [hpromote, hworld.noOutgoing.1]
  rw [UtxoWorld.handlePending]
  simp only [hskipped, append_nil, nil_append, hpromoted, Option.map_some]
  rw [@foldl_reviveOne { world.context with pending := pending, mature := mature } _
    (nodup_withMaturity hworld.processorStasis hkeyed params currentDaaScore .pending)
    (mem_of_mem_withMaturity hworld.processorStasis hkeyed hworld.stasis)]
  refine ⟨_, rfl, {
    map := ?_
    stasis := lookup_stasis_advance hkeyed hworld.processorStasis hworld.stasis
    pending := ?_
    mature := ?_
    nodup := ?_
    keyed := ?_
    processorStasis := lookup_stasis_advance hkeyed hworld.processorStasis
      hworld.processorStasis
    processorPending := lookup_pending_advance hkeyed hworld.processorPending
      hworld.processorStasis hworld.processorPending
    noOutgoing := hworld.noOutgoing }⟩
  · intro outpoint
    rw [trackedAdvance, Option.map_map]
    exact hworld.map outpoint
  · subst hpending
    exact lookup_pending_advance hkeyed hworld.processorPending hworld.processorStasis
      hworld.pending
  · intro utxo
    rw [hmature.mem_iff, mem_append, mem_withMaturity hworld.processorPending hkeyed,
      hworld.mature, trackedAdvance]
    cases hslot : tracked utxo.outpoint with
    | none => simp
    | some slot =>
      obtain ⟨utxo', maturity⟩ := slot
      by_cases heq : utxo' = utxo
      · simp [heq, advance_eq_confirmed, or_comm]
      · simp [heq]
  · -- A pending output is not mature, so that no outpoint occurs twice.
    rw [(hmature.map _).nodup_iff, map_append, nodup_append']
    refine ⟨nodup_withMaturity hworld.processorPending hkeyed params currentDaaScore .confirmed,
      hworld.nodup, fun outpoint hpending hold => ?_⟩
    obtain ⟨utxo, htracked, -⟩ := (mem_map_withMaturity hworld.processorPending hkeyed).mp hpending
    obtain ⟨utxo', hmem, heq⟩ := List.mem_map.mp hold
    have hconfirmed := (hworld.mature utxo').mp hmem
    rw [heq, htracked] at hconfirmed
    cases hconfirmed
  · intro outpoint utxo maturity htracked
    obtain ⟨⟨utxo', maturity'⟩, hslot, heq⟩ := Option.map_eq_some_iff.mp htracked
    rw [← (Prod.mk.inj heq).1]
    exact hkeyed outpoint utxo' maturity' hslot

/-! ## Runs -/

inductive UtxoEvent where
  | added (utxos : List UtxoEntryReference) (currentDaaScore : Nat)
  | removed (utxos : List UtxoEntryReference)
  | scanned (utxos : List UtxoEntryReference) (currentDaaScore : Nat)
  | daaScoreChanged (currentDaaScore : Nat)

/-- A world with the last DAA score. -/
structure ScoredWorld where
  world : UtxoWorld
  score : Nat

/-- The DAA score never decreases, and a change of it skips no stage of an output. -/
inductive OrderedStep (params : NetworkParams) : ScoredWorld → UtxoEvent → ScoredWorld → Prop where
  | added {scored : ScoredWorld} {utxos : List UtxoEntryReference} {currentDaaScore : Nat}
      (hscore : scored.score ≤ currentDaaScore) :
      OrderedStep params scored (.added utxos currentDaaScore)
        ⟨scored.world.handleUtxoAdded params utxos currentDaaScore, currentDaaScore⟩
  | removed {scored : ScoredWorld} {utxos : List UtxoEntryReference} :
      OrderedStep params scored (.removed utxos)
        ⟨scored.world.handleUtxoRemoved utxos, scored.score⟩
  | scanned {scored : ScoredWorld} {utxos : List UtxoEntryReference} {currentDaaScore : Nat}
      (hscore : scored.score ≤ currentDaaScore) :
      OrderedStep params scored (.scanned utxos currentDaaScore)
        ⟨scored.world.extendFromScan params utxos currentDaaScore, currentDaaScore⟩
  | daaScoreChanged {scored : ScoredWorld} {currentDaaScore : Nat} {world' : UtxoWorld}
      (hscore : scored.score ≤ currentDaaScore)
      (hskip : ∀ outpoint utxo, scored.world.context.stasis.lookup outpoint = some utxo →
        utxo.maturity params currentDaaScore ≠ .confirmed)
      (hpending : scored.world.handlePending params currentDaaScore = some world') :
      OrderedStep params scored (.daaScoreChanged currentDaaScore) ⟨world', currentDaaScore⟩

/-- Every tracked output is in the collection of its maturity and in no other one, and the
processor has the same outputs as the context. -/
structure Classified (params : NetworkParams) (currentDaaScore : Nat) (world : UtxoWorld) :
    Prop where
  stasis : ∀ outpoint utxo, world.context.stasis.lookup outpoint = some utxo ↔
    world.context.map.lookup outpoint = some utxo ∧ utxo.maturity params currentDaaScore = .stasis
  pending : ∀ outpoint utxo, world.context.pending.lookup outpoint = some utxo ↔
    world.context.map.lookup outpoint = some utxo ∧ utxo.maturity params currentDaaScore = .pending
  mature : ∀ utxo, utxo ∈ world.context.mature ↔
    world.context.map.lookup utxo.outpoint = some utxo ∧
      utxo.maturity params currentDaaScore = .confirmed
  keyed : ∀ outpoint utxo, world.context.map.lookup outpoint = some utxo → utxo.outpoint = outpoint
  nodup : (world.context.mature.map (·.outpoint)).Nodup
  processorStasis : world.processor.stasis.Same world.context.stasis
  processorPending : world.processor.pending.Same world.context.pending

/-- The stages that an output may be in at a maturity. -/
def Reached (maturity now : Maturity) : Prop :=
  match maturity with
  | .stasis => True
  | .pending => now ≠ .stasis
  | .confirmed => now = .confirmed

/-- Outputs do not lose a stage when the score grows. -/
theorem reached_mono (utxo : UtxoEntryReference) (params : NetworkParams) {score' : Nat}
    (hle : score ≤ score') (hreached : Reached maturity (utxo.maturity params score)) :
    Reached maturity (utxo.maturity params score') := by
  cases maturity with
  | stasis => trivial
  | pending | confirmed =>
    simp only [Reached, UtxoEntryReference.maturity] at hreached ⊢
    grind

theorem reached_self (maturity : Maturity) : Reached maturity maturity := by
  cases maturity with
  | stasis => trivial
  | pending => exact nofun
  | confirmed => rfl

/-- Tracked outputs are in a stage that they have reached. -/
def AllReached (params : NetworkParams) (score : Nat) (tracked : Tracked) : Prop :=
  ∀ outpoint utxo maturity, tracked outpoint = some (utxo, maturity) →
    Reached maturity (utxo.maturity params score)

/-- What a context tracks in the middle of a run. -/
structure Aged (params : NetworkParams) (scored : ScoredWorld) (tracked : Tracked) : Prop where
  represents : scored.world.Represents tracked
  reached : ∀ outpoint utxo maturity, tracked outpoint = some (utxo, maturity) →
    Reached maturity (utxo.maturity params scored.score)

theorem AllReached.foldl_trackedAdd (hreached : AllReached params score tracked)
    (utxos : List UtxoEntryReference) : AllReached params score
      (utxos.foldl (fun tracked utxo => trackedAdd tracked params score utxo) tracked) := by
  refine foldlRecOn (motive := AllReached params score) utxos _ hreached ?_
  intro tracked hreached utxo _
  dsimp only [trackedAdd]
  split
  · refine tracked_update hreached fun other maturity hother => ?_
    cases hother
    exact reached_self _
  · exact hreached

theorem AllReached.mono {score' : Nat} (hreached : AllReached params score tracked)
    (hle : score ≤ score') : AllReached params score' tracked :=
  fun outpoint utxo maturity htracked =>
    reached_mono utxo params hle (hreached outpoint utxo maturity htracked)

/-- An output that has reached its stage is moved to the one of its maturity. -/
theorem advance_eq {now : Maturity} (hreached : Reached maturity now)
    (hskip : maturity = .stasis → now ≠ .confirmed) : advance maturity now = now := by
  cases maturity with
  | stasis =>
    cases now with
    | stasis => rfl
    | pending => rfl
    | confirmed => exact absurd rfl (hskip rfl)
  | pending =>
    cases now with
    | stasis => exact absurd rfl hreached
    | pending => rfl
    | confirmed => rfl
  | confirmed => exact (show now = .confirmed from hreached).symm ▸ rfl

variable {scored scored' : ScoredWorld}

theorem Aged.advance (haged : Aged params scored tracked)
    (hscore : scored.score ≤ currentDaaScore)
    (hskip : ∀ outpoint utxo, scored.world.context.stasis.lookup outpoint = some utxo →
      utxo.maturity params currentDaaScore ≠ .confirmed) :
    NoStageSkipped tracked params currentDaaScore ∧
      ∀ outpoint utxo maturity,
        trackedAdvance tracked params currentDaaScore outpoint = some (utxo, maturity) →
        maturity = utxo.maturity params currentDaaScore := by
  have hnone : NoStageSkipped tracked params currentDaaScore := by
    intro outpoint utxo htracked
    refine hskip outpoint utxo ?_
    rw [haged.represents.stasis, heldAs_eq_some]
    exact htracked
  refine ⟨hnone, fun outpoint utxo maturity htracked => ?_⟩
  obtain ⟨⟨utxo', maturity'⟩, hslot, heq⟩ := Option.map_eq_some_iff.mp htracked
  cases heq
  refine advance_eq (reached_mono utxo' params hscore (haged.reached _ _ _ hslot)) ?_
  intro hstasis
  subst hstasis
  exact hnone outpoint utxo' hslot

theorem Aged.step {event : UtxoEvent} (haged : Aged params scored tracked)
    (hstep : OrderedStep params scored event scored') : ∃ tracked',
      Aged params scored' tracked' := by
  cases hstep with
  | added hscore =>
    have hreached := AllReached.mono haged.reached hscore
    exact ⟨_, foldl_rel (r := Represents) haged.represents
      fun utxo _ _ _ hworld => hworld.addUtxo utxo, hreached.foldl_trackedAdd _⟩
  | scanned hscore =>
    have hreached := AllReached.mono haged.reached hscore
    exact ⟨_, haged.represents.extendFromScan _, hreached.foldl_trackedAdd _⟩
  | removed =>
    exact ⟨_, haged.represents.remove _, foldlRecOn (motive := AllReached params _) _ _
      haged.reached fun _ hreached _ _ => tracked_update hreached nofun⟩
  | daaScoreChanged hscore hskip hpending =>
    obtain ⟨hnone, hnow⟩ := haged.advance hscore hskip
    obtain ⟨world', hworld', hrepresents⟩ := haged.represents.handlePending hnone
    cases hpending.symm.trans hworld'
    refine ⟨_, hrepresents, fun outpoint utxo maturity htracked => ?_⟩
    rw [hnow outpoint utxo maturity htracked]
    exact reached_self _

theorem Represents.classified (hworld : world.Represents tracked)
    (hnow : ∀ outpoint utxo maturity, tracked outpoint = some (utxo, maturity) →
      maturity = utxo.maturity params currentDaaScore) :
    world.Classified params currentDaaScore := by
  have hslot : ∀ outpoint utxo maturity, tracked outpoint = some (utxo, maturity) ↔
      world.context.map.lookup outpoint = some utxo ∧
        utxo.maturity params currentDaaScore = maturity := by
    intro outpoint utxo maturity
    rw [hworld.map, Option.map_eq_some_iff]
    constructor
    · intro htracked
      exact ⟨⟨_, htracked, rfl⟩, (hnow outpoint utxo maturity htracked).symm⟩
    · intro ⟨⟨⟨utxo', maturity'⟩, htracked, heq⟩, hmaturity⟩
      subst heq
      rw [htracked, hnow outpoint utxo' maturity' htracked, hmaturity]
  exact {
    stasis := fun outpoint utxo => by rw [hworld.stasis, heldAs_eq_some, hslot]
    pending := fun outpoint utxo => by rw [hworld.pending, heldAs_eq_some, hslot]
    mature := fun utxo => by rw [hworld.mature, hslot]
    keyed := fun outpoint utxo hlookup =>
      hworld.keyed outpoint utxo _ ((hslot outpoint utxo _).mpr ⟨hlookup, rfl⟩)
    nodup := hworld.nodup
    processorStasis := fun outpoint => by rw [hworld.processorStasis, hworld.stasis]
    processorPending := fun outpoint => by rw [hworld.processorPending, hworld.pending] }

/-- Over every run whose changes of the DAA score skip no stage of an output, a further change of
that kind leaves every tracked output in the collection of its maturity. -/
theorem handlePending_classifies {events : List UtxoEvent}
    (hrun : Runs (OrderedStep params) ⟨init, 0⟩ events scored)
    (hscore : scored.score ≤ currentDaaScore)
    (hskip : ∀ outpoint utxo, scored.world.context.stasis.lookup outpoint = some utxo →
      utxo.maturity params currentDaaScore ≠ .confirmed) :
    ∃ world', scored.world.handlePending params currentDaaScore = some world' ∧
      world'.Classified params currentDaaScore := by
  obtain ⟨tracked, haged⟩ := hrun.invariant (fun scored => ∃ tracked, Aged params scored tracked)
    (fun _ _ _ ⟨_, haged⟩ hstep => haged.step hstep)
    ⟨_, represents_init, fun _ _ _ htracked => (nomatch htracked)⟩
  obtain ⟨hnone, hnow⟩ := haged.advance hscore hskip
  obtain ⟨world', hworld', hrepresents⟩ := haged.represents.handlePending hnone
  exact ⟨world', hworld', hrepresents.classified hnow⟩

/-! ## A skipped stage -/

/-- The periods of the main network. -/
def mainnetParams : NetworkParams := ⟨1000, 500, 100⟩

/-- A coinbase output of the block with score 10. -/
def coinbaseOutput : UtxoEntryReference := ⟨⟨9, 0⟩, ⟨1000, ⟨0, []⟩, 10, true⟩⟩

theorem handlePending_classifies_revived :
    ∃ world', (init.handleUtxoAdded mainnetParams [coinbaseOutput] 20).handlePending mainnetParams
        600 = some world' ∧ world'.Classified mainnetParams 600 := by
  have hrun : Runs (OrderedStep mainnetParams) ⟨init, 0⟩ [.added [coinbaseOutput] 20]
      ⟨init.handleUtxoAdded mainnetParams [coinbaseOutput] 20, 20⟩ :=
    .cons (.added (Nat.zero_le 20)) (.nil _)
  exact handlePending_classifies hrun (by decide) (by decide)

/-- The score passes both periods of a coinbase output in one step: the processor drops the output
and the context keeps it in stasis, although it is mature. -/
theorem handlePending_skips_stage :
    (((init.handleUtxoAdded mainnetParams [coinbaseOutput] 20).handlePending mainnetParams
        2000).any fun world =>
      coinbaseOutput.maturity mainnetParams 2000 = .confirmed &&
        world.context.map.lookup ⟨9, 0⟩ == some coinbaseOutput &&
        world.context.stasis.lookup ⟨9, 0⟩ == some coinbaseOutput &&
        world.processor.stasis.lookup ⟨9, 0⟩ == none && world.context.mature.isEmpty) = true := by
  decide +kernel

end UtxoWorld

end Qaspa.Wallet
