import Qaspa.Lib.Outcome

/-! # Two systems that run the same operations

A system performs operations one after another. An operation that returns an error
leaves the state as it was, and the caller may go on; a panic ends the run. One
system simulates another when every operation, performed by both in related
states, ends alike in both and leaves them in related states. What an operation may
rely on is a condition on the state of the second system and on the operations
already performed.
-/

namespace Qaspa

open Outcome

/-- Two results that are the same fault, or two related values. -/
inductive Agree {ε α β : Type} (Related : α → β → Prop) : Except ε α → Except ε β → Prop where
  | ok {left : α} {right : β} (hrelated : Related left right) : Agree Related (.ok left) (.ok right)
  | error (fault : ε) : Agree Related (.error fault) (.error fault)

namespace Agree

variable {ε α β α' β' : Type} {Related : α → β → Prop} {Related' : α' → β' → Prop}

theorem bind {first : Except ε α} {second : Except ε β} {next : α → Except ε α'}
    {next' : β → Except ε β'} (hfirst : Agree Related first second)
    (hnext : ∀ left right, Related left right → Agree Related' (next left) (next' right)) :
    Agree Related' (first >>= next) (second >>= next') := by
  cases hfirst with
  | ok hrelated => exact hnext _ _ hrelated
  | error fault => exact .error fault

theorem mono {Weaker : α → β → Prop} {first : Except ε α} {second : Except ε β}
    (hagree : Agree Related first second)
    (hweaken : ∀ left right, Related left right → Weaker left right) :
    Agree Weaker first second := by
  cases hagree with
  | ok hrelated => exact .ok (hweaken _ _ hrelated)
  | error fault => exact .error fault

end Agree

/-! ## Runs -/

variable {ε Operation Left Right : Type}

/-- Perform one operation. The caller sees its error, if any. -/
def attempt {State : Type} (step : Operation → State → Outcome ε State) (operation : Operation)
    (state : State) : Outcome Empty (Option ε × State) :=
  match step operation state with
  | .ok next => .ok (none, next)
  | .error (.err error) => .ok (some error, state)
  | .error .panic => .error .panic
  | .error .outOfFuel => .error .outOfFuel

/-- Perform the operations in turn, and collect what the caller sees. -/
def run {State : Type} (step : Operation → State → Outcome ε State) :
    List Operation → State → Outcome Empty (List (Option ε) × State)
  | [], state => .ok ([], state)
  | operation :: operations, state => do
    let (error, next) ← attempt step operation state
    let (errors, final) ← run step operations next
    return (error :: errors, final)

/-- Every operation of the list meets its condition in the state it is performed in. The
history lists the operations performed before, the latest first. -/
def Admissible {State : Type} (step : Operation → State → Outcome ε State)
    (Permitted : List Operation → State → Operation → Prop) :
    List Operation → State → List Operation → Prop
  | _, _, [] => True
  | history, state, operation :: operations =>
    Permitted history state operation ∧
      ∀ error next, attempt step operation state = .ok (error, next) →
        Admissible step Permitted (operation :: history) next operations

/-- The first operation of a list, with what it comes to. -/
theorem Admissible.cons {State : Type} {step : Operation → State → Outcome ε State}
    {Permitted : List Operation → State → Operation → Prop} {history operations : List Operation}
    {state next : State} {operation : Operation} {error : Option ε}
    (hnext : attempt step operation state = .ok (error, next))
    (hpermitted : Permitted history state operation)
    (hrest : Admissible step Permitted (operation :: history) next operations) :
    Admissible step Permitted history state (operation :: operations) := by
  refine ⟨hpermitted, fun error' next' hnext' => ?_⟩
  obtain ⟨-, rfl⟩ := Prod.mk.inj (Except.ok.inj (hnext.symm.trans hnext'))
  exact hrest

/-- An invariant of single operations is one of whole runs. -/
theorem run_eq_ok {State : Type} {step : Operation → State → Outcome ε State}
    {Permitted : List Operation → State → Operation → Prop} (Invariant : State → Prop)
    {history operations : List Operation} {state : State}
    (hstep : ∀ operation ∈ operations, ∀ history state, Invariant state →
      Permitted history state operation →
      ∃ error next, attempt step operation state = .ok (error, next) ∧ Invariant next)
    (hstate : Invariant state) (hadmissible : Admissible step Permitted history state operations) :
    ∃ errors final, run step operations state = .ok (errors, final) ∧ Invariant final := by
  induction operations generalizing history state with
  | nil => exact ⟨[], state, rfl, hstate⟩
  | cons operation operations ih =>
    obtain ⟨hpermitted, hrest⟩ := hadmissible
    obtain ⟨error, next, hnext, hinvariant⟩ :=
      hstep operation (by simp) history state hstate hpermitted
    obtain ⟨errors, final, hfinal, hinvariant'⟩ :=
      ih (fun operation hmem => hstep operation (by simp [hmem])) hinvariant
        (hrest error next hnext)
    exact ⟨error :: errors, final, by simp [run, hnext, hfinal], hinvariant'⟩

section Simulation

variable {stepLeft : Operation → Left → Outcome ε Left}
  {stepRight : Operation → Right → Outcome ε Right}
  {Permitted : List Operation → Right → Operation → Prop}
  {Related : List Operation → Left → Right → Prop}

/-- Steps that end alike are seen alike. The relation has to survive an operation that
fails, since the history still grows by it. -/
theorem attempt_agree {operation : Operation} {left : Left} {right : Right}
    {After : Left → Right → Prop}
    (hstep : Agree After (stepLeft operation left) (stepRight operation right))
    (hfailed : ∀ error, stepLeft operation left = .error (.err error) → After left right) :
    Agree (fun this other => this.1 = other.1 ∧ After this.2 other.2)
      (attempt stepLeft operation left) (attempt stepRight operation right) := by
  unfold attempt
  generalize hthis : stepLeft operation left = this at hstep hfailed
  generalize stepRight operation right = other at hstep
  cases hstep with
  | ok hrelated => exact .ok ⟨rfl, hrelated⟩
  | error fault =>
    cases fault with
    | err error => exact .ok ⟨rfl, hfailed error rfl⟩
    | panic | outOfFuel => exact .error _

/-- A simulation of single operations is one of whole runs. -/
theorem run_agree
    (hstep : ∀ history left right operation, Related history left right →
      Permitted history right operation →
      Agree (fun this other => this.1 = other.1 ∧ Related (operation :: history) this.2 other.2)
        (attempt stepLeft operation left) (attempt stepRight operation right))
    {history operations : List Operation} {left : Left} {right : Right}
    (hrelated : Related history left right)
    (hadmissible : Admissible stepRight Permitted history right operations) :
    Agree (fun this other => this.1 = other.1 ∧
        Related (operations.reverse ++ history) this.2 other.2)
      (run stepLeft operations left) (run stepRight operations right) := by
  induction operations generalizing history left right with
  | nil => exact .ok ⟨rfl, hrelated⟩
  | cons operation operations ih =>
    obtain ⟨hpermitted, hrest⟩ := hadmissible
    have hone := hstep history left right operation hrelated hpermitted
    simp only [run]
    generalize hthis : attempt stepLeft operation left = this at hone
    generalize hother : attempt stepRight operation right = other at hone hrest
    cases hone with
    | error fault => exact .error fault
    | @ok this other hnext =>
      obtain ⟨herror, hnext⟩ := hnext
      refine (ih hnext (hrest _ _ rfl)).bind fun final final' hfinal => .ok ⟨?_, ?_⟩
      · simp only [herror, hfinal.1]
      · simpa using hfinal.2

end Simulation

end Qaspa
