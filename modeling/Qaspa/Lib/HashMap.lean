import Mathlib.Data.List.Induction
import Mathlib.Data.List.AList

/-! # Hash maps with an arbitrary iteration order

A hash map is an association list with distinct keys. The order of its entries
stands for the unspecified order in which the map is iterated: a result that
holds for every map holds for every such order. Two maps are the same value when
they answer every lookup alike.
-/

namespace Qaspa

open List AList

abbrev HashMap (K V : Type) := AList fun _ : K => V

namespace HashMap

variable {K V : Type} [DecidableEq K]

/-- Equality of the map type: the same value under every key. -/
def Same (left right : HashMap K V) : Prop := ∀ key, left.lookup key = right.lookup key

variable {map : HashMap K V} {key : K}

theorem lookup_eq_some {value : V} :
    map.lookup key = some value ↔ (⟨key, value⟩ : Sigma fun _ : K => V) ∈ map.entries :=
  mem_lookup_iff

theorem isSome_lookup : (map.lookup key).isSome = true ↔ key ∈ map := lookup_isSome

theorem forall_lookup {P : K → V → Prop} :
    (∀ key value, map.lookup key = some value → P key value) ↔
      ∀ entry ∈ map.entries, P entry.1 entry.2 := by
  simp only [lookup_eq_some]
  exact ⟨fun hall entry hentry => hall entry.1 entry.2 hentry,
    fun hall key value hentry => hall ⟨key, value⟩ hentry⟩

instance decidableForallLookup {map : HashMap K V} {P : K → V → Prop}
    [∀ key value, Decidable (P key value)] :
    Decidable (∀ key value, map.lookup key = some value → P key value) :=
  decidable_of_iff' _ forall_lookup

theorem lookup_insert_eq_ite (map : HashMap K V) (key other : K) (value : V) :
    (map.insert key value).lookup other = if other = key then some value else map.lookup other := by
  split
  next heq => rw [heq, lookup_insert]
  next hne => rw [lookup_insert_ne hne]

theorem lookup_erase_eq_ite (map : HashMap K V) (key other : K) :
    (map.erase key).lookup other = if other = key then none else map.lookup other := by
  split
  next heq => rw [heq, lookup_erase]
  next hne => rw [lookup_erase_ne hne]

/-- What a map holds after an insertion is new or old. -/
theorem lookup_insert_eq_some {other : K} {value found : V} :
    (map.insert key value).lookup other = some found ↔
      (other = key ∧ value = found) ∨ (other ≠ key ∧ map.lookup other = some found) := by
  rw [lookup_insert_eq_ite]
  split
  next heq => simp [heq]
  next hne => simp [hne]

theorem lookup_erase_eq_some {other : K} {found : V} :
    (map.erase key).lookup other = some found ↔ other ≠ key ∧ map.lookup other = some found := by
  rw [lookup_erase_eq_ite]
  split
  next heq => simp [heq]
  next hne => simp [hne]

/-- A map with the given entries; of entries with one key the first stays. -/
def ofList (pairs : List (K × V)) : HashMap K V :=
  pairs.foldr (fun pair map => map.insert pair.1 pair.2) ∅

theorem mem_of_lookup_ofList {pairs : List (K × V)} {value : V}
    (hlookup : (ofList pairs).lookup key = some value) : (key, value) ∈ pairs := by
  induction pairs with
  | nil => simp [ofList] at hlookup
  | cons pair pairs ih =>
    rcases lookup_insert_eq_some.mp hlookup with ⟨rfl, rfl⟩ | ⟨-, hlookup⟩
    · exact .head _
    · exact .tail _ (ih hlookup)

theorem lookup_insert_insert (first second key : K) (value value' : V) :
    (((∅ : HashMap K V).insert first value).insert second value').lookup key =
      if key = second then some value' else if key = first then some value else none := by
  rw [lookup_insert_eq_ite, lookup_insert_eq_ite, lookup_empty]

/-! ## Loops over the entries of a map -/

/-- Insert every entry of `source` that is to be kept into `target`. -/
def extendWhere (keep : K → V → Bool) (source target : HashMap K V) : HashMap K V :=
  source.entries.foldl
    (fun target entry => if keep entry.1 entry.2 then target.insert entry.1 entry.2 else target)
    target

/-- What a key holds after an incoming entry that is to be kept has replaced the
present one. -/
def overwrite (incoming present : Option V) (keep : V → Bool) : Option V :=
  match incoming with
  | some value => if keep value then some value else present
  | none => present

/-- Erase every key of `source` from `target`. -/
def eraseKeys (source target : HashMap K V) : HashMap K V :=
  source.keys.foldl (fun target key => target.erase key) target

/-- A loop whose body changes a view of the state only at the entry of one key. -/
theorem foldl_entries_view {S C : Type} (view : S → C) (body : S → K → V → S) (effect : V → C → C)
    (key : K) (hself : ∀ state value, view (body state key value) = effect value (view state))
    (hother : ∀ state other value, key ≠ other → view (body state other value) = view state)
    (map : HashMap K V) (state : S) :
    view (map.entries.foldl (fun state entry => body state entry.1 entry.2) state) =
      (map.lookup key).elim (view state) fun value => effect value (view state) := by
  have hloop : ∀ (entries : List (Sigma fun _ : K => V)) (_ : entries.NodupKeys) (state : S),
      view (entries.foldl (fun state entry => body state entry.1 entry.2) state) =
        (entries.dlookup key).elim (view state) fun value => effect value (view state) := by
    intro entries
    induction entries with
    | nil => simp
    | cons entry rest ih =>
      intro hkeys state
      obtain ⟨hfresh, hrest⟩ := nodupKeys_cons.mp hkeys
      rw [foldl_cons, ih hrest]
      by_cases hkey : key = entry.1
      · subst hkey
        rw [dlookup_eq_none.mpr hfresh, dlookup_cons_eq, Option.elim_none, hself,
          Option.elim_some]
      · rw [dlookup_cons_ne _ _ hkey, hother _ _ _ hkey]
  exact hloop map.entries map.nodupKeys state

theorem lookup_extendWhere (keep : K → V → Bool) (source target : HashMap K V) (key : K) :
    (extendWhere keep source target).lookup key =
      overwrite (source.lookup key) (target.lookup key) (keep key) := by
  have hview := foldl_entries_view (fun target : HashMap K V => target.lookup key)
    (fun target key value => if keep key value then target.insert key value else target)
    (fun value present => if keep key value then some value else present) key
    (fun target value => by split <;> simp_all)
    (fun target other value hother => by
      split
      · exact lookup_insert_ne hother
      · rfl)
    source target
  refine hview.trans ?_
  cases source.lookup key <;> rfl

theorem lookup_foldl_erase (keys : List K) (map : HashMap K V) (key : K) :
    (keys.foldl (fun map key => map.erase key) map).lookup key =
      if key ∈ keys then none else map.lookup key := by
  induction keys generalizing map with
  | nil => simp
  | cons head rest ih =>
    rw [foldl_cons, ih, lookup_erase_eq_ite]
    by_cases hkey : key = head
    · simp [hkey]
    · simp [hkey]

theorem mem_foldl_erase (keys : List K) (map : HashMap K V) (key : K) :
    key ∈ keys.foldl (fun map key => map.erase key) map ↔ key ∈ map ∧ key ∉ keys := by
  rw [← isSome_lookup, lookup_foldl_erase, ← isSome_lookup]
  split <;> simp_all

theorem mem_foldl_insert {α : Type} (key : α → K) (value : α → V) (items : List α)
    (map : HashMap K V) (other : K) :
    other ∈ items.foldl (fun map item => map.insert (key item) (value item)) map ↔
      other ∈ items.map key ∨ other ∈ map := by
  induction items generalizing map with
  | nil => simp
  | cons item items ih =>
    rw [foldl_cons, ih, mem_insert, map_cons, mem_cons]
    tauto

theorem lookup_eraseKeys (source target : HashMap K V) (key : K) :
    (eraseKeys source target).lookup key =
      if (source.lookup key).isSome then none else target.lookup key := by
  rw [eraseKeys, lookup_foldl_erase]
  simp only [isSome_lookup, AList.mem_keys]

/-- Inserting items with distinct keys leaves each of them in the map. -/
theorem lookup_foldl_insert_of_mem {α : Type} (key : α → K) (value : α → V) {items : List α}
    (hnodup : (items.map key).Nodup) (map : HashMap K V) {item : α} (hitem : item ∈ items) :
    (items.foldl (fun map item => map.insert (key item) (value item)) map).lookup (key item) =
      some (value item) := by
  induction items using reverseRecOn with
  | nil => cases hitem
  | append_singleton items last ih =>
    rw [map_append] at hnodup
    obtain ⟨hitems, _, hdisjoint⟩ := nodup_append'.mp hnodup
    rw [foldl_append, foldl_cons, foldl_nil]
    rcases mem_append.mp hitem with hmem | hlast
    · have hne : key item ≠ key last := fun heq =>
        hdisjoint (mem_map_of_mem hmem) (by simp [heq])
      rw [lookup_insert_ne hne, ih hitems hmem]
    · rw [mem_singleton.mp hlast, lookup_insert]

/-- A loop that inserts an image of every value. -/
theorem lookup_foldl_insert_map {W : Type} (f : V → W) (source : HashMap K V)
    (target : HashMap K W) (key : K) :
    (source.entries.foldl (fun target entry => target.insert entry.1 (f entry.2)) target).lookup
        key = ((source.lookup key).map f).or (target.lookup key) := by
  have hview := foldl_entries_view (fun target : HashMap K W => target.lookup key)
    (fun target key value => target.insert key (f value)) (fun value _ => some (f value)) key
    (fun target _ => lookup_insert target) (fun _ _ _ hother => lookup_insert_ne hother)
    source target
  refine hview.trans ?_
  cases source.lookup key <;> rfl

/-- A loop that sends every entry either to the first or to the second
accumulator is two independent insertion loops. -/
theorem foldl_partition (choose : K → V → Bool) (source first second : HashMap K V) :
    source.entries.foldl
        (fun acc entry =>
          if choose entry.1 entry.2 then (acc.1.insert entry.1 entry.2, acc.2)
          else (acc.1, acc.2.insert entry.1 entry.2))
        (first, second) =
      (extendWhere choose source first,
        extendWhere (fun key value => !choose key value) source second) := by
  unfold extendWhere
  induction source.entries generalizing first second with
  | nil => rfl
  | cons entry rest ih =>
    by_cases hchoose : choose entry.1 entry.2 = true
    · simpa [hchoose] using ih _ _
    · simpa [hchoose] using ih _ _

/-! ## Searching two maps for a common key -/

/-- The first key of the smaller map that the other map also has and whose two
values satisfy the rule. -/
def findCommon (rule : K → V → V → Bool) (this other : HashMap K V) : Option K :=
  if this.entries.length ≤ other.entries.length then
    this.entries.findSome? fun entry =>
      match other.lookup entry.1 with
      | some value => if rule entry.1 entry.2 value then some entry.1 else none
      | none => none
  else
    other.entries.findSome? fun entry =>
      match this.lookup entry.1 with
      | some value => if rule entry.1 value entry.2 then some entry.1 else none
      | none => none

theorem findCommon_eq_none {rule : K → V → V → Bool} {this other : HashMap K V} :
    findCommon rule this other = none ↔
      ∀ key left right, this.lookup key = some left → other.lookup key = some right →
        rule key left right = false := by
  unfold findCommon
  split
  · simp only [findSome?_eq_none_iff, Sigma.forall, ← lookup_eq_some]
    refine forall₂_congr fun key left => ?_
    cases other.lookup key with
    | none => simp
    | some right => simp
  · simp only [findSome?_eq_none_iff, Sigma.forall, ← lookup_eq_some]
    refine forall_congr' fun key => (forall_congr' fun right => ?_).trans forall_comm
    cases this.lookup key with
    | none => simp
    | some left => simp

end HashMap

end Qaspa
