import Mathlib.Data.List.Basic

set_option autoImplicit false

namespace VitaTools.Library

universe u v

/-- What each action does; `none` where it is not enabled. -/
structure Transitions (State : Type u) (Action : Type v) where
  step : State → Action → Option State

namespace Transitions

variable {State : Type u} {Action : Type v} (system : Transitions State Action)

/-- The states of the runs from `start` all of whose steps are allowed. -/
inductive Reachable (allowed : State → Action → Prop) (start : State) : State → Prop
  | start : Reachable allowed start start
  | next {s t : State} (action : Action) : Reachable allowed start s → allowed s action →
      system.step s action = some t → Reachable allowed start t

variable {system}

theorem Reachable.invariant {allowed : State → Action → Prop} {start s : State}
    (reached : system.Reachable allowed start s) (holds : State → Prop) (initial : holds start)
    (preserved : ∀ s action t, holds s → allowed s action → system.step s action = some t →
      holds t) : holds s := by
  induction reached with
  | start => exact initial
  | next action _ permitted step ih => exact preserved _ action _ ih permitted step

theorem Reachable.trans {allowed : State → Action → Prop} {start s t : State}
    (first : system.Reachable allowed start s) (second : system.Reachable allowed s t) :
    system.Reachable allowed start t := by
  induction second with
  | start => exact first
  | next action _ permitted step ih => exact ih.next action permitted step

variable (system)

theorem exists_reachable (allowed : State → Action → Prop) (holds goal : State → Prop)
    (work : State → Nat)
    (ahead : ∀ s, holds s → ¬ goal s → ∃ action t, allowed s action ∧
      system.step s action = some t ∧ holds t ∧ work t < work s) {s : State} (begun : holds s) :
    ∃ t, system.Reachable allowed s t ∧ holds t ∧ goal t := by
  induction left : work s using Nat.strongRecOn generalizing s with
  | ind left ih =>
      by_cases done : goal s
      next => exact ⟨s, .start, begun, done⟩
      next =>
        obtain ⟨action, t, permitted, step, kept, less⟩ := ahead s begun done
        obtain ⟨u, reached, there⟩ := ih (work t) (by omega) kept rfl
        exact ⟨u, (Reachable.next action .start permitted step).trans reached, there⟩

def follow (allowed : State → Action → Prop) [∀ s a, Decidable (allowed s a)] :
    State → List Action → Option State
  | s, [] => some s
  | s, action :: rest =>
      if allowed s action then (system.step s action).bind fun t => follow allowed t rest else none

variable {system}

theorem reachable_of_follow {allowed : State → Action → Prop} [∀ s a, Decidable (allowed s a)]
    {begun s t : State} (reached : system.Reachable allowed begun s) (actions : List Action)
    (followed : system.follow allowed s actions = some t) : system.Reachable allowed begun t := by
  induction actions generalizing s with
  | nil =>
      cases followed
      exact reached
  | cons action rest ih =>
      rw [follow] at followed
      split at followed
      case isTrue permitted =>
        obtain ⟨next, step, later⟩ := Option.bind_eq_some_iff.mp followed
        exact ih (reached.next action permitted step) later
      case isFalse => contradiction

end Transitions

end VitaTools.Library
