import Mathlib.Data.List.Induction

set_option autoImplicit false

namespace VitaTools.Library

section Cut

variable {α : Type} (size : Nat)

def fullBlocks (items : List α) : List (List α) :=
  (List.range (items.length / size)).map fun i => (items.drop (size * i)).take size

def remainder (items : List α) : List α := items.drop (size * (items.length / size))

variable {size} {items more : List α}

theorem fullBlocks_short (short : items.length < size) : fullBlocks size items = [] := by
  rw [fullBlocks, Nat.div_eq_of_lt short]
  rfl

theorem remainder_short (short : items.length < size) : remainder size items = items := by
  rw [remainder, Nat.div_eq_of_lt short]
  rfl

theorem fullBlocks_block (positive : 0 < size) (full : items.length = size) :
    fullBlocks size items = [items] := by
  rw [fullBlocks, full, Nat.div_self positive]
  simp [← full]

theorem remainder_length (items : List α) :
    (remainder size items).length = items.length % size := by
  rw [remainder, List.length_drop]
  have divided := Nat.div_add_mod items.length size
  omega

theorem fullBlocks_append {count : Nat} (positive : 0 < size)
    (whole : items.length = size * count) :
    fullBlocks size (items ++ more) = fullBlocks size items ++ fullBlocks size more := by
  have total : (items ++ more).length / size = count + more.length / size := by
    rw [List.length_append, whole, Nat.mul_add_div positive]
  rw [fullBlocks, fullBlocks, fullBlocks, total, whole, Nat.mul_div_cancel_left _ positive,
    List.range_add, List.map_append, List.map_map]
  congr 1
  · apply List.map_congr_left
    intro i inside
    have end_inside : size * i + size ≤ size * count := by
      rw [← Nat.mul_succ]
      exact Nat.mul_le_mul_left size (List.mem_range.mp inside)
    rw [List.drop_append_of_le_length (by omega), List.take_append_of_le_length]
    rw [List.length_drop]
    omega
  · apply List.map_congr_left
    intro i _
    rw [Function.comp_apply, Nat.mul_add, ← whole, List.drop_length_add_append]

theorem remainder_append {count : Nat} (positive : 0 < size)
    (whole : items.length = size * count) :
    remainder size (items ++ more) = remainder size more := by
  rw [remainder, remainder, List.length_append, whole, Nat.mul_add_div positive, Nat.mul_add,
    ← whole, List.drop_length_add_append]

theorem cut (size : Nat) (items : List α) : ∃ front, items = front ++ remainder size items ∧
    front.length = size * (items.length / size) := by
  refine ⟨items.take (size * (items.length / size)), (List.take_append_drop _ _).symm, ?_⟩
  rw [List.length_take]
  exact Nat.min_eq_left (Nat.mul_div_le _ _)

theorem fullBlocks_add (positive : 0 < size) (items more : List α) :
    fullBlocks size (items ++ more) =
      fullBlocks size items ++ fullBlocks size (remainder size items ++ more) := by
  obtain ⟨front, whole, length⟩ := cut size items
  have short : (remainder size items).length < size := by
    rw [remainder_length]
    exact Nat.mod_lt _ positive
  generalize remainder size items = rest at whole short
  rw [whole, List.append_assoc, fullBlocks_append positive length,
    fullBlocks_append positive length, fullBlocks_short short, List.append_nil]

theorem remainder_add (positive : 0 < size) (items more : List α) :
    remainder size (items ++ more) = remainder size (remainder size items ++ more) := by
  obtain ⟨front, whole, length⟩ := cut size items
  generalize remainder size items = rest at whole
  rw [whole, List.append_assoc, remainder_append positive length]

end Cut

section Absorb

variable {σ α : Type} (size : Nat) (compress : σ → List α → σ)

def absorb (s : σ × List α) (item : α) : σ × List α :=
  if s.2.length + 1 = size then (compress s.1 (s.2 ++ [item]), []) else (s.1, s.2 ++ [item])

variable {size compress}

theorem foldl_absorb (positive : 0 < size) (start : σ) (items : List α) :
    items.foldl (absorb size compress) (start, []) =
      ((fullBlocks size items).foldl compress start, remainder size items) := by
  induction items using List.reverseRecOn with
  | nil =>
      rw [fullBlocks_short positive, remainder_short positive]
      rfl
  | append_singleton items item ih =>
      have short : (remainder size items).length < size := by
        rw [remainder_length]
        exact Nat.mod_lt _ positive
      rw [List.foldl_append, ih, List.foldl_cons, List.foldl_nil, absorb,
        fullBlocks_add positive, remainder_add positive, List.foldl_append]
      dsimp only
      have length : (remainder size items ++ [item]).length =
        (remainder size items).length + 1 := List.length_append
      split
      next full =>
        rw [← length] at full
        rw [fullBlocks_block positive full]
        congr 1
        have none_left : (remainder size (remainder size items ++ [item])).length = 0 := by
          rw [remainder_length, full, Nat.mod_self]
        exact (List.eq_nil_of_length_eq_zero none_left).symm
      next more =>
        have still_short : (remainder size items ++ [item]).length < size := by omega
        rw [fullBlocks_short still_short, remainder_short still_short]
        rfl

end Absorb

end VitaTools.Library
