import Mathlib.Tactic.Common

/-! # Computations that draw on a budget

A metered computation may draw units from a budget and fails as soon as nothing is left. What
was drawn before an error stays drawn. The budget decides nothing else: a computation has one
outcome and one number of draws, and a budget either covers the draws or ends the run early with
the error for an exceeded limit. The rules below establish this for composed computations,
together with a postcondition on the draws and the outcome.
-/

namespace Qaspa

/-- What a budget was set up with, and what is left of it. -/
structure Budget where
  limit : Nat
  remaining : Nat
  deriving DecidableEq, Repr

namespace Budget

def new (limit : Nat) : Budget := ⟨limit, limit⟩

def used (budget : Budget) : Nat := budget.limit - budget.remaining

/-- The budget after a number of draws. -/
def spend (budget : Budget) (draws : Nat) : Budget :=
  { budget with remaining := budget.remaining - draws }

@[simp] theorem spend_zero (budget : Budget) : budget.spend 0 = budget := rfl

@[simp] theorem spend_remaining (budget : Budget) (draws : Nat) :
    (budget.spend draws).remaining = budget.remaining - draws := rfl

theorem spend_spend (budget : Budget) (first second : Nat) :
    (budget.spend first).spend second = budget.spend (first + second) := by
  simp only [spend, Nat.sub_sub]

theorem used_new_spend {limit draws : Nat} (hdraws : draws ≤ limit) :
    ((new limit).spend draws).used = draws := by
  simp only [new, spend, used]
  omega

end Budget

/-- A computation that threads a budget through its calls, also past an error. -/
def Metered (ε α : Type) : Type := Budget → Except ε α × Budget

namespace Metered

variable {ε α β : Type}

instance : Monad (Metered ε) where
  pure value := fun budget => (.ok value, budget)
  bind first next := fun budget =>
    match first budget with
    | (.ok value, rest) => next value rest
    | (.error error, rest) => (.error error, rest)

/-- A call that draws nothing. -/
def lift (result : Except ε α) : Metered ε α := fun budget => (result, budget)

/-- Draw one unit. -/
def draw (exceeded : Nat → ε) : Metered ε Unit := fun budget =>
  if budget.remaining = 0 then (.error (exceeded budget.limit), budget)
  else (.ok (), budget.spend 1)

theorem bind_apply (first : Metered ε α) (next : α → Metered ε β) (budget : Budget) :
    (first >>= next) budget =
      match first budget with
      | (.ok value, rest) => next value rest
      | (.error error, rest) => (.error error, rest) := rfl

/-- A sequence of calls returns exactly if each of its calls does. -/
theorem bind_eq_ok {first : Metered ε α} {next : α → Metered ε β} {budget rest : Budget}
    {result : β} :
    (first >>= next) budget = (.ok result, rest) ↔
      ∃ value middle, first budget = (.ok value, middle) ∧
        next value middle = (.ok result, rest) := by
  rw [bind_apply]
  rcases first budget with ⟨result' | value, middle⟩
  · simp
  · simp

/-- The draws and the outcome of a computation, whatever the budget: one that covers the draws
leads to the outcome, and a smaller one to the error for its limit. -/
structure Uses (exceeded : Nat → ε) (computation : Metered ε α) (draws : Nat)
    (outcome : Except ε α) : Prop where
  enough : ∀ budget, draws ≤ budget.remaining → computation budget = (outcome, budget.spend draws)
  short : ∀ budget, budget.remaining < draws →
    computation budget = (.error (exceeded budget.limit), budget.spend draws)

section Uses

variable {exceeded : Nat → ε} {first : Metered ε α} {next : α → Metered ε β}

theorem uses_lift (outcome : Except ε α) : Uses exceeded (lift outcome) 0 outcome where
  enough _ _ := rfl
  short _ hshort := absurd hshort (Nat.not_lt_zero _)

theorem uses_draw : Uses exceeded (draw exceeded) 1 (.ok ()) where
  enough budget hbudget := if_neg (by omega)
  short budget hbudget := by
    have hempty : budget.remaining = 0 := by omega
    rw [draw, if_pos hempty, Budget.spend, hempty, Nat.zero_sub, ← hempty]

theorem Uses.bind {value : α} {draws draws' : Nat} {outcome : Except ε β}
    (hfirst : Uses exceeded first draws (.ok value))
    (hnext : Uses exceeded (next value) draws' outcome) :
    Uses exceeded (first >>= next) (draws + draws') outcome where
  enough budget hbudget := by
    rw [bind_apply, hfirst.enough budget (by omega)]
    rw [← Budget.spend_spend]
    exact hnext.enough _ (by rw [Budget.spend_remaining]; omega)
  short budget hbudget := by
    by_cases hreached : draws ≤ budget.remaining
    · rw [bind_apply, hfirst.enough budget hreached, ← Budget.spend_spend]
      exact hnext.short _ (by rw [Budget.spend_remaining]; omega)
    · rw [bind_apply, hfirst.short budget (by omega), Budget.spend, Budget.spend,
        Nat.sub_eq_zero_of_le (by omega : budget.remaining ≤ draws),
        Nat.sub_eq_zero_of_le (Nat.le_of_lt hbudget)]

end Uses

/-- A computation has draws and an outcome that satisfy a postcondition. -/
def Spec (exceeded : Nat → ε) (computation : Metered ε α) (post : Nat → Except ε α → Prop) : Prop :=
  ∃ draws outcome, Uses exceeded computation draws outcome ∧ post draws outcome

section Spec

variable {exceeded : Nat → ε} {computation first : Metered ε α} {next : α → Metered ε β}
  {post : Nat → Except ε α → Prop}

theorem spec_lift {outcome : Except ε α} (hpost : post 0 outcome) :
    Spec exceeded (lift outcome) post :=
  ⟨0, outcome, uses_lift outcome, hpost⟩

theorem spec_pure {value : α} (hpost : post 0 (.ok value)) :
    Spec exceeded (pure value : Metered ε α) post :=
  spec_lift hpost

section

variable (hspec : Spec exceeded computation post)

include hspec

theorem Spec.mono {post' : Nat → Except ε α → Prop}
    (hweaken : ∀ draws outcome, post draws outcome → post' draws outcome) :
    Spec exceeded computation post' := by
  obtain ⟨draws, outcome, huses, hpost⟩ := hspec
  exact ⟨draws, outcome, huses, hweaken draws outcome hpost⟩

omit hspec in
theorem Spec.bind {post' : Nat → Except ε β → Prop} (hfirst : Spec exceeded first post)
    (hnext : ∀ value draws, post draws (.ok value) →
      Spec exceeded (next value) fun draws' outcome => post' (draws + draws') outcome)
    (herror : ∀ error draws, post draws (.error error) → post' draws (.error error)) :
    Spec exceeded (first >>= next) post' := by
  obtain ⟨draws, outcome, huses, hpost⟩ := hfirst
  cases outcome with
  | ok value =>
    obtain ⟨draws', outcome, huses', hpost'⟩ := hnext value draws hpost
    exact ⟨draws + draws', outcome, huses.bind huses', hpost'⟩
  | error error =>
    refine ⟨draws, .error error, ⟨fun budget hbudget => ?_, fun budget hbudget => ?_⟩,
      herror error draws hpost⟩
    · rw [bind_apply, huses.enough budget hbudget]
    · rw [bind_apply, huses.short budget hbudget]

/-- What a run under one budget returned is the outcome, and the draws fitted the budget. -/
theorem Spec.of_eq_ok {budget rest : Budget} {value : α}
    (hrun : computation budget = (.ok value, rest)) :
    ∃ draws, draws ≤ budget.remaining ∧ rest = budget.spend draws ∧ post draws (.ok value) := by
  obtain ⟨draws, outcome, huses, hpost⟩ := hspec
  by_cases hdraws : draws ≤ budget.remaining
  · rw [huses.enough budget hdraws] at hrun
    cases hrun
    exact ⟨draws, hdraws, rfl, hpost⟩
  · rw [huses.short budget (by omega)] at hrun
    cases (Prod.mk.inj hrun).1

/-- A run either has the outcome, or ends with the error for the exceeded limit. -/
theorem Spec.result (budget : Budget) :
    (∃ draws, post draws (computation budget).1) ∨
      (computation budget).1 = .error (exceeded budget.limit) := by
  obtain ⟨draws, outcome, huses, hpost⟩ := hspec
  by_cases hdraws : draws ≤ budget.remaining
  · exact .inl ⟨draws, by rw [huses.enough budget hdraws]; exact hpost⟩
  · exact .inr (by rw [huses.short budget (by omega)])

/-- Two runs compared: under a smaller budget a computation returns the same if that budget
covers what the larger run drew, and fails for its limit otherwise. -/
theorem Spec.compare {limit limit' : Nat} (hlimit : limit ≤ limit') :
    if (computation (.new limit')).2.used ≤ limit then
      (computation (.new limit)).1 = (computation (.new limit')).1
    else (computation (.new limit)).1 = .error (exceeded limit) := by
  obtain ⟨draws, outcome, huses, _⟩ := hspec
  by_cases hdraws : draws ≤ limit'
  · rw [huses.enough (.new limit') hdraws, Budget.used_new_spend hdraws]
    split
    next hcovered => rw [huses.enough (.new limit) hcovered]
    next hexceeded => rw [huses.short (.new limit) (Nat.lt_of_not_le hexceeded)]; rfl
  · have hshort := huses.short (.new limit') (Nat.lt_of_not_le hdraws)
    have hused : (computation (.new limit')).2.used = limit' := by
      rw [hshort]
      simp only [Budget.new, Budget.spend, Budget.used]
      omega
    rw [hused]
    split
    next hle => rw [Nat.le_antisymm hlimit hle]
    next hlt => rw [huses.short (.new limit) (by simp only [Budget.new]; omega)]; rfl

end

end Spec

end Metered

end Qaspa
