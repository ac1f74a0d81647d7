import Mathlib.Data.Set.Lattice
import Mathlib.Logic.Function.Basic

set_option autoImplicit false

namespace VitaTools.Library

universe u v w

variable {Place : Type u} {Value : Type v} {Item : Type w}

open Classical in
/-- `picture` on the places, and what was there elsewhere. -/
noncomputable def paint (places : Set Place) (picture old : Place → Value) : Place → Value :=
  fun p => if p ∈ places then picture p else old p

variable {places other : Set Place} {picture old : Place → Value} {p : Place}

theorem paint_inside (inside : p ∈ places) : paint places picture old p = picture p :=
  if_pos inside

theorem paint_outside (outside : p ∉ places) : paint places picture old p = old p :=
  if_neg outside

theorem paint_paint : paint other picture (paint places picture old) =
    paint (places ∪ other) picture old := by
  funext p
  by_cases inside : p ∈ other
  · rw [paint_inside inside, paint_inside (Set.mem_union_right _ inside)]
  · rw [paint_outside inside]
    by_cases before : p ∈ places
    · rw [paint_inside before, paint_inside (Set.mem_union_left _ before)]
    · rw [paint_outside before, paint_outside (fun either => either.elim before inside)]

theorem update_eq_paint [DecidableEq Place] :
    Function.update old p (picture p) = paint {p} picture old := by
  funext q
  by_cases same : q = p
  · subst same
    rw [Function.update_self, paint_inside (Set.mem_singleton q)]
  · have outside : q ∉ ({p} : Set Place) := same
    rw [Function.update_of_ne same, paint_outside outside]

theorem foldl_paint (picture : Place → Value) (items : List Item)
    (write : (Place → Value) → Item → Place → Value) (covers : Item → Set Place)
    (agrees : ∀ item ∈ items, ∀ old, write old item = paint (covers item) picture old)
    (old : Place → Value) :
    items.foldl write old = paint {p | ∃ item ∈ items, p ∈ covers item} picture old := by
  induction items generalizing old with
  | nil =>
      funext p
      rw [paint_outside (by simp)]
      rfl
  | cons item items ih =>
      rw [List.foldl_cons, agrees item List.mem_cons_self,
        ih fun later member => agrees later (List.mem_cons_of_mem _ member), paint_paint]
      congr 1
      ext p
      simp

end VitaTools.Library
