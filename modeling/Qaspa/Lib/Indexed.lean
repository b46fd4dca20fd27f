import Mathlib.Data.Prod.Lex
import Qaspa.Lib.HashMap

/-! # Secondary indexes

A map from identifiers to values, and an index that lists the identifiers of the values with a
given key. The index is built up by pushing an identifier to the list of its key whenever a value
is added, and has to stay in step with the map.
-/

namespace Qaspa.HashMap

open List

variable {I K V : Type} [DecidableEq I] [DecidableEq K]

/-- The identifiers listed under a key. -/
def bucket (index : HashMap K (List I)) (key : K) : List I := (index.lookup key).getD []

def pushAt (index : HashMap K (List I)) (key : K) (id : I) : HashMap K (List I) :=
  index.insert key (index.bucket key ++ [id])

/-- Push an identifier to the list of its key, if it has one. -/
def pushAt? (index : HashMap K (List I)) (key : Option K) (id : I) : HashMap K (List I) :=
  match key with
  | some key => index.pushAt key id
  | none => index

/-- Every identifier is listed once, under the key of its value. -/
structure Indexes (values : HashMap I V) (index : HashMap K (List I)) (keyOf : V → Option K) :
    Prop where
  mem_bucket : ∀ key id,
    id ∈ index.bucket key ↔ ∃ value, values.lookup id = some value ∧ keyOf value = some key
  nodup_bucket : ∀ key, (index.bucket key).Nodup

namespace Indexes

variable {values : HashMap I V} {index : HashMap K (List I)} {keyOf : V → Option K}

theorem empty : Indexes (∅ : HashMap I V) (∅ : HashMap K (List I)) keyOf where
  mem_bucket := by simp [bucket]
  nodup_bucket := by simp [bucket]

/-- A new value whose identifier is pushed. -/
theorem insert (hindex : Indexes values index keyOf) {id : I} {value : V}
    (hfresh : values.lookup id = none) :
    Indexes (values.insert id value) (index.pushAt? (keyOf value) id) keyOf := by
  have hold : ∀ key other, other ∈ index.bucket key → other ≠ id := by
    rintro key other hmem rfl
    obtain ⟨_, hlookup, -⟩ := (hindex.mem_bucket key other).mp hmem
    rw [hfresh] at hlookup
    cases hlookup
  -- The list of one key grows by the new identifier, the others stay.
  have hbucket : ∀ key, (index.pushAt? (keyOf value) id).bucket key =
      if keyOf value = some key then index.bucket key ++ [id] else index.bucket key := by
    intro key
    cases hkey : keyOf value with
    | none => simp [pushAt?]
    | some own =>
      by_cases hown : own = key
      · subst hown
        rw [if_pos rfl, pushAt?, bucket, pushAt, AList.lookup_insert]
        rfl
      · rw [if_neg (by simpa using hown), pushAt?, bucket, pushAt,
          AList.lookup_insert_ne (Ne.symm hown)]
        rfl
  constructor
  · intro key other
    rw [hbucket]
    by_cases hother : other = id
    · subst hother
      have hnot : other ∉ index.bucket key := fun hmem => hold key other hmem rfl
      split <;> simp_all
    · rw [AList.lookup_insert_ne hother, ← hindex.mem_bucket key other]
      split <;> simp [hother]
  · intro key
    rw [hbucket]
    split
    · refine nodup_append'.mpr ⟨hindex.nodup_bucket key, nodup_singleton id, ?_⟩
      intro other hmem hnew
      exact hold key other hmem (mem_singleton.mp hnew)
    · exact hindex.nodup_bucket key

/-- A value that is replaced by one with the same key. -/
theorem replace (hindex : Indexes values index keyOf) {id : I} {value value' : V}
    (hlookup : values.lookup id = some value) (hkey : keyOf value' = keyOf value) :
    Indexes (values.insert id value') index keyOf where
  mem_bucket := by
    intro key other
    rw [hindex.mem_bucket]
    by_cases hother : other = id
    · subst hother
      simp [hlookup, hkey]
    · rw [AList.lookup_insert_ne hother]
  nodup_bucket := hindex.nodup_bucket

end Indexes

/-! ## The last of the greatest elements -/

variable {α κ : Type} [LinearOrder κ]

/-- The last element with the greatest key. -/
def maxByKey (key : α → κ) (list : List α) : Option α :=
  list.foldl
    (fun best element =>
      match best with
      | none => some element
      | some greatest => if key element < key greatest then some greatest else some element)
    none

theorem maxByKey_spec (key : α → κ) (list : List α) :
    match maxByKey key list with
    | none => list = []
    | some greatest => greatest ∈ list ∧ ∀ element ∈ list, key element ≤ key greatest := by
  induction list using reverseRecOn with
  | nil => rfl
  | append_singleton list last ih =>
    rw [maxByKey, foldl_append, ← maxByKey, foldl_cons, foldl_nil]
    cases hbest : maxByKey key list with
    | none =>
      rw [hbest] at ih
      obtain rfl : list = [] := ih
      simp
    | some greatest =>
      rw [hbest] at ih
      obtain ⟨hmem, hle⟩ := ih
      simp only [forall_mem_append, forall_mem_singleton]
      by_cases hlt : key last < key greatest
      · rw [if_pos hlt]
        exact ⟨mem_append_left _ hmem, hle, hlt.le⟩
      · rw [if_neg hlt]
        exact ⟨mem_append_right _ (mem_singleton_self last),
          fun element hold => (hle element hold).trans (not_lt.mp hlt), le_rfl⟩

theorem maxByKey_eq_none {key : α → κ} {list : List α} : maxByKey key list = none ↔ list = [] := by
  constructor
  · intro hnone
    have hspec := maxByKey_spec key list
    rw [hnone] at hspec
    exact hspec
  · rintro rfl
    rfl

theorem maxByKey_eq_some {key : α → κ} {list : List α} {greatest : α}
    (hsome : maxByKey key list = some greatest) :
    greatest ∈ list ∧ ∀ element ∈ list, key element ≤ key greatest := by
  have hspec := maxByKey_spec key list
  rw [hsome] at hspec
  exact hspec

/-- A bound of the greatest key bounds them all. -/
theorem maxByKey_lt_iff {key : α → κ} {list : List α} {bound : κ} :
    (∀ greatest, maxByKey key list = some greatest → key greatest < bound) ↔
      ∀ element ∈ list, key element < bound := by
  refine ⟨fun hbound element helement => ?_,
    fun hall greatest hsome => hall greatest (maxByKey_eq_some hsome).1⟩
  cases hgreatest : maxByKey key list with
  | none =>
    rw [maxByKey_eq_none.mp hgreatest] at helement
    cases helement
  | some greatest =>
    exact ((maxByKey_eq_some hgreatest).2 element helement).trans_lt (hbound greatest hgreatest)

end Qaspa.HashMap
