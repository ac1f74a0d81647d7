import Mathlib.Logic.Function.Basic

set_option autoImplicit false

namespace VitaTools.Library

universe u

structure Terminal (Cell : Type u) where
  cells : Nat → Nat → Cell
  row : Nat
  col : Nat

namespace Terminal

variable {Cell : Type u} (t : Terminal Cell) (cols rows : Nat) (cell blank : Cell)

def wipe : Terminal Cell := ⟨fun _ _ => blank, 0, 0⟩

def newline : Terminal Cell := { t with row := t.row + 1, col := 0 }

def home : Terminal Cell := { t with col := 0 }

def put : Terminal Cell where
  cells := Function.update t.cells t.row (Function.update (t.cells t.row) t.col cell)
  row := t.row
  col := t.col + 1

def settle : Terminal Cell :=
  let t := if t.col = cols then t.newline else t
  if t.row = rows then wipe blank else t

-- Only a new line leads below the last row.
def Inside : Prop := t.col ≤ cols ∧ (t.row < rows ∨ (t.row = rows ∧ t.col = 0))

def Ready : Prop := t.row < rows ∧ t.col < cols

variable {t cols rows cell blank}

theorem Inside.settle_ready (inside : t.Inside cols rows) (positive : 0 < cols ∧ 0 < rows) :
    (t.settle cols rows blank).Ready cols rows := by
  obtain ⟨left, low⟩ := inside
  by_cases wraps : t.col = cols
  · by_cases full : t.row + 1 = rows
    · simpa [settle, newline, wipe, Ready, wraps, full] using positive.symm
    · simp only [settle, newline, Ready, wraps, if_true, full, if_false]
      omega
  · by_cases full : t.row = rows
    · simpa [settle, wipe, Ready, wraps, full] using positive.symm
    · simp only [settle, Ready, wraps, full, if_false]
      omega

theorem newline_inside (low : t.row < rows) : t.newline.Inside cols rows :=
  ⟨Nat.zero_le cols, (Nat.lt_or_eq_of_le low).imp_right fun last => ⟨last, rfl⟩⟩

theorem Ready.home_inside (ready : t.Ready cols rows) : t.home.Inside cols rows :=
  ⟨Nat.zero_le cols, Or.inl ready.1⟩

theorem Ready.put_inside (ready : t.Ready cols rows) : (t.put cell).Inside cols rows :=
  ⟨ready.2, Or.inl ready.1⟩

theorem put_cells (row col : Nat) : (t.put cell).cells row col =
    if row = t.row ∧ col = t.col then cell else t.cells row col := by
  by_cases here : row = t.row
  · subst here
    by_cases column : col = t.col
    · subst column
      simp [put]
    · simp [put, column]
  · simp [put, here]

end Terminal

end VitaTools.Library
