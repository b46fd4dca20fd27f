import Mathlib.Tactic.Common

/-! # Changes of one key

A diff between two finite maps says, about each key, which value it adds and
which value it removes. This is the algebra of such changes at a single key:
when a change fits a base value, how two changes in a row compose to one, and
how the difference of two changes leads from the first to the second. Values are
compared for equality; nothing is assumed about them otherwise.
-/

namespace Qaspa

@[ext]
structure Change (V : Type) where
  add : Option V
  remove : Option V
  deriving DecidableEq

namespace Change

variable {V : Type} [DecidableEq V]

omit [DecidableEq V] in
/-- A change leaves its key alone, or it inserts, deletes or replaces a value. -/
@[elab_as_elim, cases_eliminator]
theorem casesOptions {motive : Change V → Prop} (change : Change V) (keep : motive ⟨none, none⟩)
    (insert : ∀ added, motive ⟨some added, none⟩) (delete : ∀ removed, motive ⟨none, some removed⟩)
    (replace : ∀ added removed, motive ⟨some added, some removed⟩) : motive change := by
  obtain ⟨_ | added, _ | removed⟩ := change
  exacts [keep, delete removed, insert added, replace added removed]

/-- No value is added and removed at once. -/
def ValuesDiffer (change : Change V) : Prop := change.add = none ∨ change.add ≠ change.remove

/-- A change fits a base value: it removes what is there, and adds only where
nothing is left. -/
structure Applicable (base : Option V) (change : Change V) : Prop where
  removePresent : change.remove.isSome → base = change.remove
  addAbsent : change.add.isSome → base = none ∨ change.remove.isSome
  valuesDiffer : change.ValuesDiffer

/-- The value after a change. -/
def applyTo (base : Option V) (change : Change V) : Option V :=
  match change.add with
  | some value => some value
  | none => if change.remove.isSome then none else base

/-- Keep the incoming value over the present one, unless it is the excluded value. -/
def prefer (incoming present excluded : Option V) : Option V :=
  match incoming with
  | some value => if excluded = some value then present else some value
  | none => present

/-- Drop the present value when the incoming one is the held value. -/
def dropIf (incoming held present : Option V) : Option V :=
  match incoming with
  | some value => if held = some value then none else present
  | none => present

/-- First `this`, then `other`, as one change. The removals of `other` are
processed before its additions. -/
def compose (this other : Change V) : Change V :=
  ⟨prefer other.add (dropIf other.remove this.add this.add)
      (prefer other.remove this.remove this.add),
    dropIf other.add (prefer other.remove this.remove this.add)
      (prefer other.remove this.remove this.add)⟩

/-- The change that leads from the result of `this` to the result of `other`. -/
def difference (this other : Change V) : Change V :=
  ⟨prefer other.add (prefer this.remove none other.remove) this.add,
    prefer other.remove (prefer this.add none other.add) this.remove⟩

/-- The change that leads back. -/
def reverse (change : Change V) : Change V := ⟨change.remove, change.add⟩

/-- Neither change repeats what the other did. -/
structure Composable (this other : Change V) : Prop where
  remove : other.remove.isSome → this.remove.isSome → this.add = other.remove
  add : other.add.isSome → this.add.isSome → other.remove = this.add

/-- The two changes can be of the same base value. -/
structure Comparable (this other : Change V) : Prop where
  removeAdd : this.remove.isSome → other.add.isSome →
    other.add ≠ this.remove ∧ (this.add = other.add ∨ other.remove = this.remove)
  addRemove : this.add.isSome → other.remove.isSome →
    other.remove ≠ this.add ∧ (this.remove = other.remove ∨ other.add = this.add)
  removeRemove : this.remove.isSome → other.remove.isSome → other.remove = this.remove

def AddedByBoth (this other : Change V) : Prop := this.add.isSome ∧ other.add = this.add

/-- Both add the value, but only `this` first removes another one. -/
def RemovedByThisOnly (this other : Change V) : Prop :=
  this.AddedByBoth other ∧ this.remove.isSome ∧ other.remove = none

/-- `other` removes a value that differs from the one `this` adds. -/
def RemovesAnother (this other : Change V) : Prop :=
  this.add.isSome ∧ other.remove.isSome ∧ other.remove ≠ this.add

/-- `this` replaces a value and `other` does nothing. -/
def ReplacedAndKept (this other : Change V) : Prop :=
  this.add.isSome ∧ this.remove.isSome ∧ other = ⟨none, none⟩

variable {this other : Change V} {base : Option V}

/-! ## Changes that follow each other -/

section Following

variable (hthis : this.Applicable base) (hother : other.Applicable (this.applyTo base))

include hthis hother

omit [DecidableEq V] in
theorem Applicable.composable : this.Composable other := by
  obtain ⟨hpresent', habsent', _⟩ := hother
  cases this <;> cases other <;> constructor <;> simp_all [applyTo]

/-- Two changes that fit in a row compose to a change of the first base. -/
theorem Applicable.compose : (this.compose other).Applicable base := by
  obtain ⟨hpresent, habsent, hdiffer⟩ := hthis
  obtain ⟨hpresent', habsent', hdiffer'⟩ := hother
  by_cases hback : other.add = this.remove <;> cases this <;> cases other <;> constructor <;>
    simp_all [applyTo, Change.compose, prefer, dropIf, ValuesDiffer, @eq_comm V]

/-- Applying the composition is applying the two changes in turn. -/
theorem Applicable.applyTo_compose :
    (this.compose other).applyTo base = other.applyTo (this.applyTo base) := by
  obtain ⟨hpresent, habsent, hdiffer⟩ := hthis
  obtain ⟨hpresent', habsent', hdiffer'⟩ := hother
  by_cases hback : other.add = this.remove <;> cases this <;> cases other <;>
    simp_all [applyTo, Change.compose, prefer, dropIf, ValuesDiffer, @eq_comm V]

end Following

/-! ## Changes taken back -/

omit [DecidableEq V] in
theorem Applicable.reverse (hthis : this.Applicable base) :
    this.reverse.Applicable (this.applyTo base) := by
  obtain ⟨hpresent, habsent, hdiffer⟩ := hthis
  cases this <;> constructor <;> simp_all [applyTo, Change.reverse, ValuesDiffer, @eq_comm V]

omit [DecidableEq V] in
theorem Applicable.applyTo_reverse (hthis : this.Applicable base) :
    this.reverse.applyTo (this.applyTo base) = base := by
  obtain ⟨hpresent, habsent, _⟩ := hthis
  cases this <;> simp_all [applyTo, Change.reverse]

/-! ## Changes of one base -/

section CommonBase

variable (hthis : this.Applicable base) (hother : other.Applicable base)

include hthis hother

omit [DecidableEq V] in
theorem Applicable.comparable : this.Comparable other := by
  obtain ⟨hpresent, habsent, hdiffer⟩ := hthis
  obtain ⟨hpresent', habsent', hdiffer'⟩ := hother
  cases this <;> cases other <;> constructor <;> simp_all [ValuesDiffer, @eq_comm V]

omit [DecidableEq V] in
/-- Where both add, the base decides for both whether something had to be removed. -/
theorem Applicable.remove_isSome_iff (hboth : this.AddedByBoth other) :
    this.remove.isSome ↔ other.remove.isSome := by
  obtain ⟨hpresent, habsent, _⟩ := hthis
  obtain ⟨hpresent', habsent', _⟩ := hother
  cases this <;> cases other <;> simp_all [AddedByBoth]

end CommonBase

/-! ## Composition and difference undo each other -/

theorem Comparable.composable_difference (hcomparable : this.Comparable other)
    (hthis : this.ValuesDiffer) (honly : ¬ this.RemovedByThisOnly other) :
    this.Composable (this.difference other) := by
  obtain ⟨hremoveAdd, haddRemove, hremoveRemove⟩ := hcomparable
  by_cases hadd : other.add = this.add <;> by_cases hremove : other.remove = this.remove <;>
    cases this <;> cases other <;> constructor <;>
    simp_all [difference, prefer, RemovedByThisOnly, AddedByBoth, ValuesDiffer, @eq_comm V]

theorem Comparable.compose_difference (hcomparable : this.Comparable other)
    (hthis : this.ValuesDiffer) (hother : other.ValuesDiffer)
    (honly : ¬ this.RemovedByThisOnly other) : this.compose (this.difference other) = other := by
  obtain ⟨hremoveAdd, haddRemove, hremoveRemove⟩ := hcomparable
  by_cases hadd : other.add = this.add <;> by_cases hremove : other.remove = this.remove <;>
    cases this <;> cases other <;>
    simp_all [compose, difference, prefer, dropIf, RemovedByThisOnly, AddedByBoth, ValuesDiffer,
      @eq_comm V]

/-- The one case in which the difference cannot be composed again: it would add
back the removed value where the added one still stands. -/
theorem RemovedByThisOnly.not_composable_difference (honly : this.RemovedByThisOnly other) :
    ¬ this.Composable (this.difference other) := by
  rintro ⟨_, hadd⟩
  cases this <;> cases other <;> simp_all [difference, prefer, RemovedByThisOnly, AddedByBoth]

section

variable (hcomposable : this.Composable other)

include hcomposable

theorem Composable.comparable_compose (hthis : this.ValuesDiffer) (hother : other.ValuesDiffer) :
    this.Comparable (this.compose other) := by
  obtain ⟨hremove, hadd⟩ := hcomposable
  by_cases hback : other.add = this.remove <;> by_cases hundo : other.remove = this.add <;>
    cases this <;> cases other <;>
    constructor <;> simp_all [compose, prefer, dropIf, ValuesDiffer, @eq_comm V]

theorem Composable.difference_compose (hthis : this.ValuesDiffer) (hother : other.ValuesDiffer) :
    this.difference (this.compose other) = other := by
  obtain ⟨hremove, hadd⟩ := hcomposable
  by_cases hback : other.add = this.remove <;> by_cases hundo : other.remove = this.add <;>
    cases this <;> cases other <;>
    simp_all [compose, difference, prefer, dropIf, ValuesDiffer, @eq_comm V]

/-- A composition keeps an added value that replaced another one only by leaving
the key alone. -/
theorem Composable.addedByBoth_compose_removed (hother : other.ValuesDiffer) :
    this.AddedByBoth (this.compose other) ∧ this.remove.isSome ↔ this.ReplacedAndKept other := by
  obtain ⟨hremove, hadd⟩ := hcomposable
  by_cases hback : other.add = this.remove <;> by_cases hundo : other.remove = this.add <;>
    cases this <;> cases other <;>
    simp_all [compose, prefer, dropIf, ValuesDiffer, AddedByBoth, ReplacedAndKept, @eq_comm V]

theorem Composable.addedByBoth_compose_remove (hother : other.ValuesDiffer) :
    this.AddedByBoth (this.compose other) ∧ (this.compose other).remove.isSome ↔
      this.ReplacedAndKept other ∨ this.RemovesAnother other := by
  obtain ⟨hremove, hadd⟩ := hcomposable
  by_cases hback : other.add = this.remove <;> by_cases hundo : other.remove = this.add <;>
    cases this <;> cases other <;>
    simp_all [compose, prefer, dropIf, ValuesDiffer, AddedByBoth, ReplacedAndKept, RemovesAnother,
      @eq_comm V]

end

end Change

end Qaspa
