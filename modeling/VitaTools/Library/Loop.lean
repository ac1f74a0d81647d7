import VitaTools.Library.Transition
import Mathlib.Logic.Function.Iterate

set_option autoImplicit false

namespace VitaTools.Library

universe u

structure Loop (State : Type u) where
  more : State → Bool
  pass : State → State

namespace Loop

variable {State : Type u}

-- `none` when the passes allowed do not suffice.
def run (loop : Loop State) : Nat → State → Option State
  | 0, _ => none
  | fuel + 1, s => if loop.more s then loop.run fuel (loop.pass s) else some s

variable (loop : Loop State)

def Returns (start : State) : Prop := ∃ fuel, (loop.run fuel start).isSome

def system : Transitions State Unit where
  step s _ := if loop.more s then some (loop.pass s) else none

abbrev Visits (start s : State) : Prop := loop.system.Reachable (fun _ _ => True) start s

variable {loop}

theorem Visits.next {start s : State} (visited : loop.Visits start s) (more : loop.more s = true) :
    loop.Visits start (loop.pass s) :=
  Transitions.Reachable.next () visited trivial (if_pos more)

theorem step_eq {s t : State} {action : Unit} (step : loop.system.step s action = some t) :
    loop.more s = true ∧ t = loop.pass s := by
  simp only [system] at step
  split at step
  case isTrue more => exact ⟨more, (Option.some.inj step).symm⟩
  case isFalse => contradiction

theorem Visits.invariant {start s : State} (visited : loop.Visits start s) (holds : State → Prop)
    (initial : holds start)
    (preserved : ∀ s, loop.Visits start s → holds s → loop.more s = true → holds (loop.pass s)) :
    holds s := by
  have both := Transitions.Reachable.invariant visited (fun s => loop.Visits start s ∧ holds s)
    ⟨.start, initial⟩ ?_
  · exact both.2
  · rintro s action t ⟨visited, kept⟩ - step
    obtain ⟨more, rfl⟩ := step_eq step
    exact ⟨Visits.next visited more, preserved s visited kept more⟩

section

variable {Image : Type u} {image : Loop Image} (f : State → Image)
variable (more : ∀ s, image.more (f s) = loop.more s)
variable (pass : ∀ s, image.pass (f s) = f (loop.pass s))
include more pass

theorem Visits.map {start s : State} (visited : loop.Visits start s) :
    image.Visits (f start) (f s) := by
  apply visited.invariant fun s => image.Visits (f start) (f s)
  · exact .start
  · intro s _ mapped goes
    rw [← pass]
    exact mapped.next ((more s).trans goes)

theorem Visits.lift {start : State} {t : Image} (visited : image.Visits (f start) t) :
    ∃ s, loop.Visits start s ∧ t = f s := by
  apply visited.invariant fun t => ∃ s, loop.Visits start s ∧ t = f s
  · exact ⟨start, .start, rfl⟩
  · rintro t - ⟨s, visited, rfl⟩ goes
    exact ⟨loop.pass s, visited.next ((more s).symm.trans goes), pass s⟩

end

theorem Returns.visits {start : State} (returns : loop.Returns start) :
    ∃ s, loop.Visits start s ∧ loop.more s = false := by
  obtain ⟨fuel, returned⟩ := returns
  suffices later : ∀ s, loop.Visits start s → (loop.run fuel s).isSome →
      ∃ t, loop.Visits start t ∧ loop.more t = false from later start .start returned
  clear returned
  induction fuel with
  | zero => intro s _ returned; cases returned
  | succ fuel ih =>
      intro s visited returned
      cases more : loop.more s with
      | false => exact ⟨s, visited, more⟩
      | true =>
          rw [run, if_pos more] at returned
          exact ih _ (visited.next more) returned

theorem Visits.iterate {start : State} (passes : Nat)
    (more : ∀ k < passes, loop.more (loop.pass^[k] start) = true) :
    loop.Visits start (loop.pass^[passes] start) := by
  induction passes with
  | zero => exact .start
  | succ passes ih =>
      rw [Function.iterate_succ_apply']
      have before := ih fun k less => more k (Nat.lt_succ_of_lt less)
      exact before.next (more passes (Nat.lt_succ_self passes))

theorem Visits.eq_iterate {start s : State} (visited : loop.Visits start s) :
    ∃ passes, s = loop.pass^[passes] start ∧
      ∀ k < passes, loop.more (loop.pass^[k] start) = true := by
  apply visited.invariant fun s => ∃ passes, s = loop.pass^[passes] start ∧
    ∀ k < passes, loop.more (loop.pass^[k] start) = true
  · exact ⟨0, rfl, fun k less => absurd less (Nat.not_lt_zero k)⟩
  · rintro s - ⟨passes, rfl, before⟩ more
    refine ⟨passes + 1, (Function.iterate_succ_apply' _ _ _).symm, fun k less => ?_⟩
    rcases Nat.lt_succ_iff_lt_or_eq.mp less with earlier | rfl
    · exact before k earlier
    · exact more

theorem returns_of_falls (holds : State → Prop) (measure : State → Nat)
    (falls : ∀ s, holds s → loop.more s = true →
      holds (loop.pass s) ∧ measure (loop.pass s) < measure s)
    (start : State) (initial : holds start) : loop.Returns start := by
  induction bound : measure start using Nat.strongRecOn generalizing start with
  | ind bound ih =>
      cases more : loop.more start with
      | false => exact ⟨1, by simp [run, more]⟩
      | true =>
          obtain ⟨kept, lower⟩ := falls start initial more
          obtain ⟨fuel, returned⟩ := ih _ (bound ▸ lower) _ kept rfl
          exact ⟨fuel + 1, by rwa [run, if_pos more]⟩

end Loop

end VitaTools.Library
