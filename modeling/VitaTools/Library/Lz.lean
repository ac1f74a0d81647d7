import Mathlib.Data.List.Induction
import VitaTools.Library.Strings

set_option autoImplicit false

namespace VitaTools.Library

universe u

inductive Phrase (α : Type u) where
  | literal (item : α)
  | copy (length distance : Nat)
deriving DecidableEq, Repr

variable {α : Type u} [Inhabited α]

def itemBehind (distance : Nat) (text : List α) : α := text.getD (text.length - distance) default

def copies (distance : Nat) : Nat → List α → List α
  | 0, text => text
  | count + 1, text => copies distance count (text ++ [itemBehind distance text])

@[simp] theorem copies_length (distance count : Nat) (text : List α) :
    (copies distance count text).length = text.length + count := by
  induction count generalizing text with
  | zero => rfl
  | succ count ih => simp [copies, ih, Nat.add_left_comm, Nat.add_comm]

theorem copies_succ (distance count : Nat) (text : List α) :
    copies distance (count + 1) text =
      copies distance count text ++ [itemBehind distance (copies distance count text)] := by
  induction count generalizing text with
  | zero => rfl
  | succ count ih => exact ih (text ++ [itemBehind distance text])

/-- The phrases make the text out of nothing: a copy starts at an item that is there, and its
length and distance are `allowed`. -/
inductive Makes (allowed : Nat → Nat → Prop) : List (Phrase α) → List α → Prop
  | nil : Makes allowed [] []
  | literal {phrases : List (Phrase α)} {text : List α} (made : Makes allowed phrases text)
      (item : α) : Makes allowed (phrases ++ [.literal item]) (text ++ [item])
  | copy {phrases : List (Phrase α)} {text : List α} (made : Makes allowed phrases text)
      {length distance : Nat} (back : 1 ≤ distance) (inside : distance ≤ text.length)
      (fits : allowed length distance) :
      Makes allowed (phrases ++ [.copy length distance]) (copies distance length text)

namespace Makes

variable {allowed : Nat → Nat → Prop} {phrases : List (Phrase α)} {text : List α}

theorem text_empty (made : Makes allowed ([] : List (Phrase α)) text) : text = [] := by
  generalize none : ([] : List (Phrase α)) = phrases at made
  cases made with
  | nil => rfl
  | literal made item => simp at none
  | copy made back inside fits => simp at none

end Makes

end VitaTools.Library
