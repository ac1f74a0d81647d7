import Mathlib.Tactic.Common

set_option autoImplicit false

namespace VitaTools.Library

universe u

/-- `items` are in `text` from `i` on. -/
def Lies {α : Type u} (text : Nat → α) : Nat → List α → Prop
  | _, [] => True
  | i, item :: items => text i = item ∧ Lies text (i + 1) items

variable {α : Type u} {text : Nat → α} {i : Nat}

theorem lies_append {front back : List α} :
    Lies text i (front ++ back) ↔ Lies text i front ∧ Lies text (i + front.length) back := by
  induction front generalizing i with
  | nil => simp [Lies]
  | cons item front ih =>
      simp [Lies, ih, and_assoc, Nat.add_comm, Nat.add_left_comm]

theorem lies_shift {items : List α} {n : Nat} :
    Lies (fun k => text (k + n)) i items ↔ Lies text (i + n) items := by
  induction items generalizing i with
  | nil => rfl
  | cons item items ih => simp [Lies, ih, Nat.add_right_comm]

theorem lies_of_getD {items : List α} {default : α}
    (same : ∀ k < items.length, text (i + k) = items.getD k default) : Lies text i items := by
  induction items generalizing i with
  | nil => trivial
  | cons item items ih =>
      refine ⟨same 0 (Nat.succ_pos _), ih fun k inside => ?_⟩
      simpa [Nat.add_comm, Nat.add_left_comm] using same (k + 1) (Nat.succ_lt_succ inside)

theorem lies_congr {other : Nat → α} {items : List α} (lies : Lies text i items)
    (same : ∀ k, i ≤ k → k < i + items.length → other k = text k) : Lies other i items := by
  induction items generalizing i with
  | nil => trivial
  | cons item items ih =>
      rw [List.length_cons] at same
      refine ⟨(same i (Nat.le_refl _) (by omega)).trans lies.1, ih lies.2 fun k least most => ?_⟩
      exact same k (by omega) (by omega)

theorem lies_getD {items : List α} (lies : Lies text i items) (default : α) {k : Nat}
    (inside : k < items.length) : text (i + k) = items.getD k default := by
  induction items generalizing i k with
  | nil => simp at inside
  | cons item items ih =>
      cases k with
      | zero => exact lies.1
      | succ k =>
          have later := ih lies.2 (Nat.lt_of_succ_lt_succ inside)
          simpa [Nat.add_comm, Nat.add_left_comm] using later

end VitaTools.Library
