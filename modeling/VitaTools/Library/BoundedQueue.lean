import Mathlib.Data.List.Basic

set_option autoImplicit false

namespace VitaTools.Library

universe u

structure BoundedQueue (α : Type u) (capacity : Nat) where
  items : List α
  bounded : items.length ≤ capacity

namespace BoundedQueue

variable {α : Type u} {capacity : Nat}

def empty : BoundedQueue α capacity := ⟨[], Nat.zero_le _⟩

def room (queue : BoundedQueue α capacity) : Nat := capacity - queue.items.length

/-- Append the longest prefix of `data` that fits. -/
def offer (queue : BoundedQueue α capacity) (data : List α) : BoundedQueue α capacity where
  items := queue.items ++ data.take queue.room
  bounded := by
    have := queue.bounded
    simp only [room, List.length_append, List.length_take]
    omega

/-- Append all of `data` and drop the oldest elements in excess of the capacity. -/
def push (queue : BoundedQueue α capacity) (data : List α) : BoundedQueue α capacity where
  items := (queue.items ++ data).drop ((queue.items ++ data).length - capacity)
  bounded := by
    rw [List.length_drop]
    omega

/-- Remove the `count` oldest elements. -/
def discard (queue : BoundedQueue α capacity) (count : Nat) : BoundedQueue α capacity where
  items := queue.items.drop count
  bounded := by
    have := queue.bounded
    rw [List.length_drop]
    omega

@[ext] theorem ext {left right : BoundedQueue α capacity} (same : left.items = right.items) :
    left = right := by
  cases left
  cases right
  congr

@[simp] theorem empty_items : (empty : BoundedQueue α capacity).items = [] := rfl

theorem offer_nil (queue : BoundedQueue α capacity) : queue.offer [] = queue := by
  ext1
  simp [offer]

theorem offer_full (queue : BoundedQueue α capacity) (data : List α)
    (full : queue.items.length = capacity) : queue.offer data = queue := by
  ext1
  simp [offer, room, full]

theorem offer_cons (queue : BoundedQueue α capacity) (head : α) (rest : List α)
    (space : queue.items.length < capacity) :
    queue.offer (head :: rest) = (queue.offer [head]).offer rest := by
  obtain ⟨extra, room⟩ : ∃ extra, capacity - queue.items.length = extra + 1 :=
    ⟨capacity - queue.items.length - 1, by omega⟩
  have left : capacity - (queue.items.length + 1) = extra := by omega
  ext1
  simp [offer, BoundedQueue.room, room, left]

theorem offer_singleton_items (queue : BoundedQueue α capacity) (value : α)
    (space : queue.items.length < capacity) :
    (queue.offer [value]).items = queue.items ++ [value] := by
  obtain ⟨extra, room⟩ : ∃ extra, capacity - queue.items.length = extra + 1 :=
    ⟨capacity - queue.items.length - 1, by omega⟩
  simp [offer, BoundedQueue.room, room]

theorem push_nil (queue : BoundedQueue α capacity) : queue.push [] = queue := by
  have := queue.bounded
  have none : queue.items.length - capacity = 0 := by omega
  ext1
  simp [push, none]

theorem push_cons (queue : BoundedQueue α capacity) (head : α) (rest : List α) :
    queue.push (head :: rest) = (queue.push [head]).push rest := by
  have := queue.bounded
  ext1
  by_cases space : queue.items.length < capacity
  · have kept : queue.items.length + 1 - capacity = 0 := by omega
    simp [push, kept]
  · have full : queue.items.length = capacity := by omega
    have lost : capacity + 1 - capacity = 1 := by omega
    cases items : queue.items with
    | nil =>
        have zero : capacity = 0 := by simpa [items] using full.symm
        simp [push, items, zero]
    | cons oldest others =>
        have size : others.length + 1 = capacity := by simpa [items] using full
        have first : others.length + 1 + 1 - capacity = 1 := by omega
        have more : others.length + (rest.length + 1) + 1 - capacity = rest.length + 1 := by omega
        have after : others.length + (rest.length + 1) - capacity = rest.length := by omega
        simp [push, items, first, more, after]

theorem push_singleton_items (queue : BoundedQueue α capacity) (value : α)
    (space : queue.items.length < capacity) :
    (queue.push [value]).items = queue.items ++ [value] := by
  have kept : queue.items.length + 1 - capacity = 0 := by omega
  simp [push, kept]

theorem push_full_items (queue : BoundedQueue α capacity) (value oldest : α) (others : List α)
    (shape : queue.items = oldest :: others) (full : queue.items.length = capacity) :
    (queue.push [value]).items = others ++ [value] := by
  have size : others.length + 1 = capacity := by simpa [shape] using full
  have lost : others.length + 1 + 1 - capacity = 1 := by omega
  simp [push, shape, lost]

theorem offer_none (queue : BoundedQueue α capacity) (data : List α)
    (none : min data.length queue.room = 0) : queue.offer data = queue := by
  have taken : data.take queue.room = [] := by
    rw [← List.length_eq_zero_iff, List.length_take, Nat.min_comm, none]
  ext1
  simp [offer, taken]

theorem offer_some (queue : BoundedQueue α capacity) (data : List α)
    (some : 0 < min data.length queue.room) : (queue.offer data).items ≠ [] := by
  rw [← List.length_pos_iff]
  simp only [offer, List.length_append, List.length_take]
  omega

theorem offer_keeps (queue : BoundedQueue α capacity) (data : List α) (held : queue.items ≠ []) :
    (queue.offer data).items ≠ [] := by
  simp [offer, held]

theorem push_some (queue : BoundedQueue α capacity) (data : List α) (room : 0 < capacity)
    (some : queue.items ++ data ≠ []) : (queue.push data).items ≠ [] := by
  rw [← List.length_pos_iff] at some ⊢
  simp only [push, List.length_drop]
  omega

@[simp] theorem discard_items (queue : BoundedQueue α capacity) (count : Nat) :
    (queue.discard count).items = queue.items.drop count := rfl

theorem discard_zero (queue : BoundedQueue α capacity) : queue.discard 0 = queue := by
  ext1
  simp

theorem discard_discard (queue : BoundedQueue α capacity) (first second : Nat) :
    (queue.discard first).discard second = queue.discard (first + second) := by
  ext1
  simp [List.drop_drop]

end BoundedQueue

end VitaTools.Library
