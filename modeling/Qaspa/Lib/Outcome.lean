import Mathlib.Algebra.GroupWithZero.Nat
import Mathlib.Tactic.Common

/-! # Outcomes of fallible imperative code

A fallible call returns a value, returns an error of its own error type, or
panics. A loop that is run on a budget may in addition exhaust that budget;
keeping this outcome apart from the panic lets a result state that neither
occurs. Unsigned machine words are natural numbers whose arithmetic panics as
soon as the exact result leaves the word.
-/

namespace Qaspa

/-- Everything that can happen instead of an ordinary return. -/
inductive Fault (ε : Type) where
  | err (error : ε)
  | panic
  | outOfFuel
  deriving DecidableEq, Repr

/-- The result of a call whose error type is `ε`. -/
abbrev Outcome (ε α : Type) := Except (Fault ε) α

namespace Outcome

variable {ε α β : Type}

/-- Panic unless a condition holds, as an assertion does. -/
def assert (condition : Bool) : Outcome ε Unit :=
  if condition then .ok () else .error .panic

/-- Unwrap an optional value, panicking when there is none. -/
def unwrap : Option α → Outcome ε α
  | some value => .ok value
  | none => .error .panic

/-- A call without errors of its own, inside one with errors. -/
def widen : Outcome Empty α → Outcome ε α
  | .ok value => .ok value
  | .error .panic => .error .panic
  | .error .outOfFuel => .error .outOfFuel

@[simp] theorem widen_ok (value : α) : (widen (.ok value) : Outcome ε α) = .ok value := rfl

@[simp] theorem assert_eq_ok {condition : Bool} {returned : Unit} :
    (assert condition : Outcome ε Unit) = .ok returned ↔ condition = true := by
  cases condition <;> simp [assert]

@[simp] theorem unwrap_eq_ok {value : Option α} {result : α} :
    (unwrap value : Outcome ε α) = .ok result ↔ value = some result := by
  cases value <;> simp [unwrap]

variable {result : β}

/-- A sequence of calls returns exactly when each call in it returns. -/
theorem bind_eq_ok {first : Except ε α} {next : α → Except ε β} :
    (first >>= next) = .ok result ↔ ∃ value, first = .ok value ∧ next value = .ok result := by
  cases first with
  | error fault | ok value => simp [bind, Except.bind]

/-- A check in front of a call. -/
theorem check_bind_eq_ok {first : Except ε PUnit} {next : PUnit → Except ε β} :
    (first >>= next) = .ok result ↔ first = .ok ⟨⟩ ∧ next ⟨⟩ = .ok result := by
  rw [bind_eq_ok]
  exact ⟨fun ⟨_, hfirst, hnext⟩ => ⟨hfirst, hnext⟩, fun ⟨hfirst, hnext⟩ => ⟨_, hfirst, hnext⟩⟩

/-- A rule whose violation is an error. -/
theorem ite_error_eq_ok {broken : Prop} [Decidable broken] {error : ε} {next : Except ε β} :
    (if broken then .error error else next) = .ok result ↔ ¬ broken ∧ next = .ok result := by
  by_cases hbroken : broken
  · simp [hbroken]
  · simp [hbroken]

@[simp] theorem ok_bind (value : α) (next : α → Except ε β) :
    ((Except.ok value : Except ε α) >>= next) = next value := rfl

@[simp] theorem error_bind (fault : ε) (next : α → Except ε β) :
    ((Except.error fault : Except ε α) >>= next) = .error fault := rfl

@[simp] theorem pure_eq_ok (value : α) : (pure value : Except ε α) = .ok value := rfl

@[simp] theorem mapError_eq_ok {ε' : Type} {result : Except ε α} {translate : ε → ε'} {value : α} :
    result.mapError translate = .ok value ↔ result = .ok value := by
  cases result with
  | error fault | ok value => simp [Except.mapError]

/-! ## Postconditions

A postcondition says what holds of the value when a call returns, and which faults
it may end with otherwise. -/

def Post (result : Except ε α) (onOk : α → Prop) (onError : ε → Prop) : Prop :=
  match result with
  | .ok value => onOk value
  | .error fault => onError fault

section Post

variable {result first : Except ε α} {next : α → Except ε β} {onOk onOk' : α → Prop}
  {onNext : β → Prop} {onError : ε → Prop} {value : α}

@[simp] theorem post_ok : Post (.ok value : Except ε α) onOk onError ↔ onOk value := Iff.rfl

theorem Post.bind (hfirst : Post first onOk onError)
    (hnext : ∀ value, first = .ok value → onOk value → Post (next value) onNext onError) :
    Post (first >>= next) onNext onError := by
  cases first with
  | ok value => exact hnext value rfl hfirst
  | error fault => exact hfirst

theorem Post.mono (hresult : Post result onOk onError)
    (hweaken : ∀ value, onOk value → onOk' value) :
    Post result onOk' onError := by
  cases result with
  | ok value => exact hweaken value hresult
  | error fault => exact hresult

theorem Post.of_eq_ok (hresult : Post result onOk onError) (hvalue : result = .ok value) :
    onOk value := by
  subst hvalue
  exact hresult

theorem Post.of_eq_error {fault : ε} (hresult : Post result onOk onError)
    (hfault : result = .error fault) : onError fault := by
  subst hfault
  exact hresult

/-- A call whose faults are translated. -/
theorem Post.mapError {ε' : Type} {translate : ε → ε'} {onError' : ε' → Prop}
    (hok : ∀ value, result = .ok value → onOk value)
    (herror : ∀ fault, result = .error fault → onError' (translate fault)) :
    Post (result.mapError translate) onOk onError' := by
  cases result with
  | ok value => exact hok value rfl
  | error fault => exact herror fault rfl

/-- A call that returns a value with a property, or an error of its own: it neither panics nor
exhausts a budget. -/
structure Returns (result : Outcome ε α) (onOk : α → Prop) : Prop where
  post : Post result onOk fun fault => ∃ error, fault = .err error

/-- A call that ends with a value or an error of its own. -/
abbrev Faultless (result : Outcome ε α) : Prop := Returns result fun _ => True

variable {result first : Outcome ε α} {next : α → Outcome ε β}

theorem returns_ok (hvalue : onOk value) : Returns (.ok value : Outcome ε α) onOk := ⟨hvalue⟩

variable {error : ε}

theorem returns_err : Returns (.error (.err error) : Outcome ε α) onOk := ⟨⟨error, rfl⟩⟩

/-- A call of another component, whose errors become errors of this one. -/
theorem returns_mapError {ε' : Type} (called : Except ε' α) (translate : ε' → ε) :
    Faultless (called.mapError fun error => Fault.err (translate error)) := by
  cases called with
  | error error => exact returns_err
  | ok value => exact returns_ok trivial

theorem Returns.of_ok (hreturns : Returns (.ok value : Outcome ε α) onOk) :
    onOk value := hreturns.post

theorem Returns.bind (hfirst : Returns first onOk)
    (hnext : ∀ value, onOk value → Returns (next value) onNext) :
    Returns (first >>= next) onNext :=
  ⟨hfirst.post.bind fun value _ hvalue => (hnext value hvalue).post⟩

/-- The value of the first call, with the call it came from. -/
theorem Returns.bind_of_eq (hfirst : Returns first onOk)
    (hnext : ∀ value, first = .ok value → onOk value → Returns (next value) onNext) :
    Returns (first >>= next) onNext :=
  ⟨hfirst.post.bind fun value hvalue hok => (hnext value hvalue hok).post⟩

theorem Returns.mono (hresult : Returns result onOk) (hweaken : ∀ value, onOk value → onOk' value) :
    Returns result onOk' :=
  ⟨hresult.post.mono hweaken⟩

theorem faultless_bind : Faultless (first >>= next) ↔
    Faultless first ∧ ∀ value, first = .ok value → Faultless (next value) := by
  constructor
  · intro hboth
    cases first with
    | ok value => exact ⟨returns_ok trivial, fun _ hvalue => Except.ok.inj hvalue ▸ hboth⟩
    | error fault => exact ⟨⟨hboth.post⟩, nofun⟩
  · rintro ⟨hfirst, hnext⟩
    exact hfirst.bind_of_eq fun value hvalue _ => hnext value hvalue

/-- A call that ends, and not with an error. -/
theorem Returns.exists_ok (hresult : Faultless result)
    (hnone : ¬ ∃ error, result = .error (.err error)) : ∃ value, result = .ok value := by
  cases result with
  | ok value => exact ⟨value, rfl⟩
  | error fault =>
    obtain ⟨error, rfl⟩ := hresult.post
    exact absurd ⟨error, rfl⟩ hnone

theorem not_faultless_panic : ¬ Faultless (.error .panic : Outcome ε α) := by
  rintro ⟨_, hpanic⟩
  cases hpanic

/-- A rule whose violation is an error. -/
theorem Returns.check {broken : Prop} [Decidable broken]
    (hresult : ¬ broken → Returns result onOk) :
    Returns (if broken then .error (.err error) else result) onOk := by
  split
  next => exact returns_err
  next hkept => exact hresult hkept

/-- A call whose precondition is checked. -/
theorem Returns.guard {holds : Prop} [Decidable holds] (hresult : holds → Returns result onOk) :
    Returns (if holds then result else .error (.err error)) onOk := by
  split
  next hholds => exact hresult hholds
  next => exact returns_err

/-- A condition whose failure is a panic. -/
theorem returns_of_holds {holds : Prop} [Decidable holds] (hholds : holds) :
    Returns (if holds then .ok value else .error .panic : Outcome ε α) (· = value) := by
  rw [if_pos hholds]
  exact returns_ok rfl

theorem faultless_ite {holds : Prop} [Decidable holds] :
    Faultless (if holds then .ok value else .error .panic : Outcome ε α) ↔ holds := by
  split
  next hholds => exact iff_of_true (returns_ok trivial) hholds
  next hholds => exact iff_of_false not_faultless_panic hholds

/-- What a fold keeps about the items that are still to come. -/
theorem returns_foldlM {σ : Type} {step : σ → α → Outcome ε σ} (Inv : List α → σ → Prop)
    (hstep : ∀ first rest state, Inv (first :: rest) state → Returns (step state first) (Inv rest))
    {list : List α} {state : σ} (hstate : Inv list state) :
    Returns (list.foldlM step state) (Inv []) := by
  induction list generalizing state with
  | nil => exact returns_ok hstate
  | cons first rest ih => exact (hstep first rest state hstate).bind fun _ hnext => ih hnext

/-- Calls in a row, whose results match their arguments. -/
theorem returns_mapM {call : α → Outcome ε β} {onEach : α → β → Prop} {list : List α}
    (hcall : ∀ x ∈ list, Returns (call x) (onEach x)) :
    Returns (list.mapM call) (List.Forall₂ onEach list) := by
  induction list with
  | nil => exact returns_ok .nil
  | cons first list ih =>
    rw [List.mapM_cons]
    refine (hcall first (by simp)).bind fun head hhead => ?_
    refine (ih fun x hx => hcall x (by simp [hx])).bind fun tail htail => ?_
    exact returns_ok (.cons hhead htail)

/-- Calls in a row that have no errors of their own. -/
theorem faultless_mapM {call : α → Outcome ε β} {list : List α}
    (hcall : ∀ x ∈ list, ¬ ∃ error, call x = .error (.err error)) :
    Faultless (list.mapM call) ↔ ∀ x ∈ list, Faultless (call x) := by
  refine ⟨fun hlist => ?_, fun hlist => (returns_mapM hlist).mono fun _ _ => trivial⟩
  induction list with
  | nil => exact nofun
  | cons first list ih =>
    obtain ⟨hnone, hrest⟩ := List.forall_mem_cons.mp hcall
    rw [List.mapM_cons] at hlist
    obtain ⟨hfirst, htail⟩ := faultless_bind.mp hlist
    obtain ⟨value, hvalue⟩ := hfirst.exists_ok hnone
    exact List.forall_mem_cons.mpr ⟨hfirst, ih hrest (faultless_bind.mp (htail value hvalue)).1⟩

end Post

end Outcome

/-! ## Checked unsigned words -/

/-- The number of values of a machine word of the given width. -/
def wordBound (bits : Nat) : Nat := 2 ^ bits

/-- The largest 64-bit word. -/
def u64Max : Nat := wordBound 64 - 1

namespace U64

variable {ε : Type}

/-- Addition that panics when the sum does not fit. -/
def add (left right : Nat) : Outcome ε Nat :=
  if left + right < wordBound 64 then .ok (left + right) else .error .panic

/-- Multiplication that panics when the product does not fit. -/
def mul (left right : Nat) : Outcome ε Nat :=
  if left * right < wordBound 64 then .ok (left * right) else .error .panic

/-- Division that panics when the divisor is zero. -/
def div (left right : Nat) : Outcome ε Nat :=
  if right ≠ 0 then .ok (left / right) else .error .panic

/-- Subtraction that panics when the difference would be negative. -/
def sub (left right : Nat) : Outcome ε Nat :=
  if right ≤ left then .ok (left - right) else .error .panic

variable {left right result : Nat}

@[simp] theorem add_eq_ok :
    (add left right : Outcome ε Nat) = .ok result ↔
      left + right < wordBound 64 ∧ result = left + right := by
  unfold add
  split
  next hfits => simp [hfits, eq_comm]
  next hfits => simp [hfits]

theorem add_eq_error {fault : Fault ε} (hadd : (add left right : Outcome ε Nat) = .error fault) :
    wordBound 64 ≤ left + right := by
  unfold add at hadd
  split at hadd
  · cases hadd
  next hfits => exact Nat.le_of_not_lt hfits

@[simp] theorem sub_eq_ok :
    (sub left right : Outcome ε Nat) = .ok result ↔ right ≤ left ∧ result = left - right := by
  unfold sub
  split
  next hfits => simp [hfits, eq_comm]
  next hfits => simp [hfits]

theorem sub_of_le (hle : right ≤ left) :
    (sub left right : Outcome ε Nat) = .ok (left - right) := if_pos hle

def checkedAdd (left right : Nat) : Option Nat :=
  if left + right < wordBound 64 then some (left + right) else none

def checkedMul (left right : Nat) : Option Nat :=
  if left * right < wordBound 64 then some (left * right) else none

end U64

end Qaspa
