import Mathlib.Data.List.Induction
import Mathlib.Data.List.Infix
import Mathlib.Logic.Function.Iterate

/-!
# Machines

A machine goes from state to state with events. Its runs may be restricted: an event may be ruled
out in a state.

## Main definitions

* `Machine.Reachable` — the states of the runs whose events are all allowed.

## Main results

* `Machine.Reachable.invariant` — what the start has and every allowed event keeps.
* `Machine.exists_rest` — a machine that goes on by itself comes to rest.
-/

namespace Machine

variable {S E : Type*}

/-- The states that are reached from `start` with events that are allowed where they happen. -/
inductive Reachable (step : S → E → S) (allowed : S → E → Prop) (start : S) : S → Prop
  | start : Reachable step allowed start start
  | step {s : S} {e : E} (h : Reachable step allowed start s) (he : allowed s e) :
    Reachable step allowed start (step s e)

variable {step : S → E → S} {allowed : S → E → Prop} {start s : S} {P : S → Prop}

/-- What holds at the start and is kept by allowed events holds in every state. -/
theorem Reachable.invariant (h : Reachable step allowed start s) (hstart : P start)
    (hstep : ∀ s e, allowed s e → P s → P (step s e)) : P s := by
  induction h with
  | start => exact hstart
  | step _ he ih => exact hstep _ _ he ih

/-- A whole list of events, each allowed. -/
theorem Reachable.foldl {events : List E} (h : Reachable step allowed start s)
    (hall : ∀ pre e, pre ++ [e] <+: events → allowed (pre.foldl step s) e) :
    Reachable step allowed start (events.foldl step s) := by
  induction events using List.reverseRecOn with
  | nil => exact h
  | append_singleton events e ih =>
    rw [List.foldl_append]
    exact .step (ih fun pre e' hpre => hall pre e' (hpre.trans (List.prefix_append _ _)))
      (hall events e (List.prefix_refl _))

/-- A state that goes on by itself, with a measure that goes down, comes to rest. -/
theorem exists_rest {next : S → S} {rest : S → Prop} (measure : S → ℕ)
    (h : ∀ s, ¬ rest s → measure (next s) < measure s) (s : S) : ∃ n, rest (next^[n] s) := by
  induction hn : measure s using Nat.strong_induction_on generalizing s with
  | _ n ih =>
    by_cases hrest : rest s
    · exact ⟨0, hrest⟩
    · obtain ⟨k, hk⟩ := ih _ (hn ▸ h s hrest) (next s) rfl
      exact ⟨k + 1, hk⟩

end Machine
