import Mathlib.Data.List.Basic

set_option autoImplicit false

namespace VitaTools.Library

universe u v w

structure Machine (State : Type u) (Request : Type v) (Reply : Type w) where
  step : State → Request → State × Reply

namespace Machine

variable {State : Type u} {Abstract : Type u} {Request : Type v} {Reply : Type w}

def after (machine : Machine State Request Reply) : State → List Request → State
  | state, [] => state
  | state, request :: rest => machine.after (machine.step state request).1 rest

def replies (machine : Machine State Request Reply) : State → List Request → List Reply
  | _, [] => []
  | state, request :: rest =>
      (machine.step state request).2 :: machine.replies (machine.step state request).1 rest

def Simulates (concrete : Machine State Request Reply) (abstract : Machine Abstract Request Reply)
    (related : State → Abstract → Prop) : Prop :=
  ∀ state image request, related state image →
    (concrete.step state request).2 = (abstract.step image request).2 ∧
      related (concrete.step state request).1 (abstract.step image request).1

theorem Simulates.replies_eq {concrete : Machine State Request Reply}
    {abstract : Machine Abstract Request Reply} {related : State → Abstract → Prop}
    (simulates : Simulates concrete abstract related) (requests : List Request)
    (state : State) (image : Abstract) (start : related state image) :
    concrete.replies state requests = abstract.replies image requests := by
  induction requests generalizing state image with
  | nil => rfl
  | cons request rest ih =>
      have step := simulates state image request start
      simp only [replies, step.1, ih _ _ step.2]

theorem Simulates.after_related {concrete : Machine State Request Reply}
    {abstract : Machine Abstract Request Reply} {related : State → Abstract → Prop}
    (simulates : Simulates concrete abstract related) (requests : List Request)
    (state : State) (image : Abstract) (start : related state image) :
    related (concrete.after state requests) (abstract.after image requests) := by
  induction requests generalizing state image with
  | nil => exact start
  | cons request rest ih => exact ih _ _ (simulates state image request start).2

/-- Every request finds a state in which the predicate holds of the two. -/
def Along (machine : Machine State Request Reply) (holds : State → Request → Prop) :
    State → List Request → Prop
  | _, [] => True
  | state, request :: rest =>
      holds state request ∧ machine.Along holds (machine.step state request).1 rest

theorem Along.congr {machine : Machine State Request Reply} {holds other : State → Request → Prop}
    (invariant : State → Prop)
    (same : ∀ state request, invariant state → (holds state request ↔ other state request))
    (kept : ∀ state request, invariant state → holds state request →
      invariant (machine.step state request).1)
    (state : State) (requests : List Request) (start : invariant state) :
    machine.Along holds state requests ↔ machine.Along other state requests := by
  induction requests generalizing state with
  | nil => exact Iff.rfl
  | cons request rest ih =>
      simp only [Along, ← same state request start]
      constructor
      · rintro ⟨first, later⟩
        exact ⟨first, (ih _ (kept state request start first)).mp later⟩
      · rintro ⟨first, later⟩
        exact ⟨first, (ih _ (kept state request start first)).mpr later⟩

end Machine

end VitaTools.Library
