import VitaTools.Library.Loop
import Mathlib.Data.Fintype.Pigeonhole
import Mathlib.Logic.Relation
import Mathlib.SetTheory.Cardinal.Finite

set_option autoImplicit false

namespace VitaTools.Library

universe u

instance finiteBitVec (w : Nat) : Finite (BitVec w) :=
  Finite.of_injective BitVec.toFin fun _ _ => BitVec.eq_of_toFin_eq

namespace Loop

variable {State : Type u} {loop : Loop State}

variable (loop) in
def Follows (s t : State) : Prop := loop.more s = true ∧ t = loop.pass s

theorem visits_iff {start s : State} :
    loop.Visits start s ↔ Relation.ReflTransGen loop.Follows start s := by
  constructor
  · intro visited
    apply visited.invariant fun s => Relation.ReflTransGen loop.Follows start s
    · exact .refl
    · exact fun s _ followed more => followed.tail ⟨more, rfl⟩
  · intro followed
    induction followed with
    | refl => exact .start
    | tail _ step ih =>
        obtain ⟨more, rfl⟩ := step
        exact ih.next more

theorem Visits.trans {a b c : State} (first : loop.Visits a b) (second : loop.Visits b c) :
    loop.Visits a c := visits_iff.mpr ((visits_iff.mp first).trans (visits_iff.mp second))

theorem Visits.head {start s : State} (visited : loop.Visits start s) :
    s = start ∨ loop.more start = true ∧ loop.Visits (loop.pass start) s := by
  rcases Relation.ReflTransGen.cases_head (visits_iff.mp visited) with same | ⟨next, step, later⟩
  · exact .inl same.symm
  · obtain ⟨more, rfl⟩ := step
    exact .inr ⟨more, visits_iff.mpr later⟩

theorem circles_iff {s : State} :
    Relation.TransGen loop.Follows s s ↔ loop.more s = true ∧ loop.Visits (loop.pass s) s := by
  constructor
  · intro circle
    obtain ⟨next, ⟨more, rfl⟩, later⟩ := Relation.TransGen.head'_iff.mp circle
    exact ⟨more, visits_iff.mpr later⟩
  · rintro ⟨more, later⟩
    exact Relation.TransGen.head' ⟨more, rfl⟩ (visits_iff.mp later)

theorem Visits.to_end {start s stop : State} (visited : loop.Visits start s)
    (stops : loop.Visits start stop) (ended : loop.more stop = false) : loop.Visits s stop := by
  apply visited.invariant fun s => loop.Visits s stop
  · exact stops
  · intro s _ before more
    rcases before.head with rfl | ⟨-, later⟩
    · rw [ended] at more
      contradiction
    · exact later

theorem returns_of_end (start : State) (passes : Nat)
    (ended : loop.more (loop.pass^[passes] start) = false) : loop.Returns start := by
  induction passes generalizing start with
  | zero =>
      refine ⟨1, ?_⟩
      simp only [Function.iterate_zero_apply] at ended
      simp [run, ended]
  | succ passes ih =>
      obtain ⟨fuel, returned⟩ := ih (loop.pass start) ended
      cases more : loop.more start with
      | false => exact ⟨1, by simp [run, more]⟩
      | true => exact ⟨fuel + 1, by rwa [run, if_pos more]⟩

theorem not_circles_of_returns {start s : State} (returns : loop.Returns start)
    (visited : loop.Visits start s) : ¬ Relation.TransGen loop.Follows s s := by
  intro circle
  obtain ⟨more, around⟩ := circles_iff.mp circle
  obtain ⟨stop, stops, ended⟩ := returns.visits
  have back : loop.Visits stop s := by
    apply (visited.to_end stops ended).invariant fun t => loop.Visits t s
    · exact .start
    · intro t _ toward _
      rcases toward.head with rfl | ⟨-, later⟩
      · exact around
      · exact later
  rcases back.head with rfl | ⟨goes, -⟩
  · rw [ended] at more
    contradiction
  · rw [ended] at goes
    contradiction

theorem circle_of_repeat {start : State} {i j : Nat} (less : i < j)
    (more : ∀ k < j, loop.more (loop.pass^[k] start) = true)
    (same : loop.pass^[i] start = loop.pass^[j] start) :
    Relation.TransGen loop.Follows (loop.pass^[i] start) (loop.pass^[i] start) := by
  obtain ⟨gap, rfl⟩ := Nat.exists_eq_add_of_lt less
  refine circles_iff.mpr ⟨more i less, ?_⟩
  have around : loop.Visits (loop.pass^[i + 1] start)
      (loop.pass^[gap] (loop.pass^[i + 1] start)) := by
    apply Visits.iterate gap
    intro k inside
    rw [← Function.iterate_add_apply]
    exact more _ (by omega)
  rw [← Function.iterate_add_apply, show gap + (i + 1) = i + gap + 1 by omega, ← same,
    Function.iterate_succ_apply'] at around
  exact around

theorem circles_of_not_returns [Finite State] {start : State} (endless : ¬ loop.Returns start) :
    ∃ s, loop.Visits start s ∧ Relation.TransGen loop.Follows s s := by
  have more (k : Nat) : loop.more (loop.pass^[k] start) = true := by
    cases ended : loop.more (loop.pass^[k] start) with
    | true => rfl
    | false => exact absurd (returns_of_end start k ended) endless
  have repeats : ∃ i j, i < j ∧ loop.pass^[i] start = loop.pass^[j] start := by
    obtain ⟨i, j, apart, same⟩ :=
      Finite.exists_ne_map_eq_of_infinite fun k : Nat => loop.pass^[k] start
    rcases Nat.lt_or_gt_of_ne apart with less | less
    · exact ⟨i, j, less, same⟩
    · exact ⟨j, i, less, same.symm⟩
  obtain ⟨i, j, less, same⟩ := repeats
  exact ⟨loop.pass^[i] start, Visits.iterate i fun k _ => more k,
    circle_of_repeat less (fun k _ => more k) same⟩

theorem returns_iff [Finite State] {start : State} :
    loop.Returns start ↔ ∀ s, Relation.ReflTransGen loop.Follows start s →
      ¬ Relation.TransGen loop.Follows s s := by
  constructor
  · exact fun returns s followed => not_circles_of_returns returns (visits_iff.mpr followed)
  · intro straight
    by_contra endless
    obtain ⟨s, visited, circle⟩ := circles_of_not_returns endless
    exact straight s (visits_iff.mp visited) circle

theorem run_more {fuel more : Nat} {s t : State} (least : fuel ≤ more)
    (returned : loop.run fuel s = some t) : loop.run more s = some t := by
  induction fuel generalizing s more with
  | zero => cases returned
  | succ fuel ih =>
      obtain ⟨more, rfl⟩ : ∃ k, more = k + 1 := ⟨more - 1, by omega⟩
      rw [run] at returned ⊢
      split at returned
      case isTrue goes => rw [if_pos goes, ih (by omega) returned]
      case isFalse ended => rw [if_neg ended, returned]

theorem run_iterate {start : State} {passes : Nat}
    (before : ∀ k < passes, loop.more (loop.pass^[k] start) = true)
    (ended : loop.more (loop.pass^[passes] start) = false) :
    loop.run (passes + 1) start = some (loop.pass^[passes] start) := by
  induction passes generalizing start with
  | zero =>
      simp only [Function.iterate_zero_apply] at ended
      simp [run, ended]
  | succ passes ih =>
      have more : loop.more start = true := before 0 (by omega)
      rw [run, if_pos more]
      exact ih (fun k less => before (k + 1) (by omega)) ended

theorem run_iff {start stop : State} :
    (∃ fuel, loop.run fuel start = some stop) ↔
      loop.Visits start stop ∧ loop.more stop = false := by
  constructor
  · rintro ⟨fuel, returned⟩
    induction fuel generalizing start with
    | zero => cases returned
    | succ fuel ih =>
        cases more : loop.more start with
        | false =>
            rw [run, if_neg (by simp [more])] at returned
            cases returned
            exact ⟨.start, more⟩
        | true =>
            rw [run, if_pos more] at returned
            obtain ⟨visited, ended⟩ := ih returned
            exact ⟨(Visits.next .start more).trans visited, ended⟩
  · rintro ⟨visited, ended⟩
    obtain ⟨passes, rfl, before⟩ := visited.eq_iterate
    exact ⟨passes + 1, run_iterate before ended⟩

theorem run_card [Finite State] {start : State} (returns : loop.Returns start) :
    (loop.run (Nat.card State + 1) start).isSome = true := by
  have := Fintype.ofFinite State
  rw [Nat.card_eq_fintype_card]
  obtain ⟨stop, visited, ended⟩ := returns.visits
  obtain ⟨passes, rfl, before⟩ := visited.eq_iterate
  have few : passes ≤ Fintype.card State := by
    by_contra many
    have more : Fintype.card State < Fintype.card (Fin (Fintype.card State + 1)) := by simp
    obtain ⟨i, j, apart, same⟩ := Fintype.exists_ne_map_eq_of_card_lt
      (fun k : Fin (Fintype.card State + 1) => loop.pass^[k] start) more
    have repeats : ∃ i j, i < j ∧ j < passes ∧ loop.pass^[i] start = loop.pass^[j] start := by
      rcases Nat.lt_or_gt_of_ne (Fin.val_ne_of_ne apart) with less | less
      · exact ⟨i, j, less, by omega, same⟩
      · exact ⟨j, i, less, by omega, same.symm⟩
    obtain ⟨i, j, less, inside, same⟩ := repeats
    have circle := circle_of_repeat less (fun k earlier => before k (earlier.trans inside)) same
    have reached : loop.Visits start (loop.pass^[i] start) :=
      Visits.iterate i fun k earlier => before k (by omega)
    exact not_circles_of_returns returns reached circle
  rw [run_more (Nat.succ_le_succ few) (run_iterate before ended)]
  rfl

theorem run_map {Image : Type u} {image : Loop Image} (f : State → Image)
    (more : ∀ s, image.more (f s) = loop.more s) (pass : ∀ s, image.pass (f s) = f (loop.pass s))
    (fuel : Nat) (s : State) : image.run fuel (f s) = (loop.run fuel s).map f := by
  induction fuel generalizing s with
  | zero => rfl
  | succ fuel ih =>
      rw [run, run, more, pass]
      split
      · exact ih _
      · rfl

end Loop

end VitaTools.Library
