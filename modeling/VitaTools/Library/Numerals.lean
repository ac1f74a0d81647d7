import Mathlib.Tactic.IntervalCases

set_option autoImplicit false

namespace VitaTools.Library

def digitValue (c : Char) : Nat :=
  if c.toNat < 97 then c.toNat - 48 else c.toNat - 87

theorem digitValue_digitChar {d : Nat} (small : d < 16) : digitValue d.digitChar = d := by
  interval_cases d <;> rfl

/-- The value of a numeral in base `b`. -/
def numeral (b : Nat) (digits : List Char) : Nat :=
  digits.foldl (fun v c => b * v + digitValue c) 0

theorem numeral_append (b : Nat) (digits : List Char) (c : Char) :
    numeral b (digits ++ [c]) = b * numeral b digits + digitValue c := by
  rw [numeral, List.foldl_append]
  rfl

theorem numeral_toDigits {b : Nat} (base : 1 < b) (small : b ≤ 16) (n : Nat) :
    numeral b (Nat.toDigits b n) = n := by
  induction n using Nat.strong_induction_on with
  | h n ih =>
      rw [Nat.toDigits_eq_if base]
      split
      next single =>
        have value := digitValue_digitChar (single.trans_le small)
        simpa [numeral] using value
      next more =>
        have shorter : n / b < n := Nat.div_lt_self (by omega) base
        have last : n % b < 16 := (Nat.mod_lt n (by omega)).trans_le small
        rw [numeral_append, ih _ shorter, digitValue_digitChar last]
        exact Nat.div_add_mod n b

theorem toDigits_injective {b : Nat} (base : 1 < b) (small : b ≤ 16) :
    Function.Injective (Nat.toDigits b) :=
  Function.LeftInverse.injective (g := numeral b) (numeral_toDigits base small)

theorem dash_not_mem_toDigits (n : Nat) : '-' ∉ Nat.toDigits 10 n := by
  intro member
  have digit := Nat.isDigit_of_mem_toDigits (by decide) (by decide) member
  contradiction

theorem append_separator {α : Type} {separator : α} {front front' back back' : List α}
    (last : separator ∉ back) (last' : separator ∉ back')
    (same : front ++ separator :: back = front' ++ separator :: back') :
    front = front' ∧ back = back' := by
  have contains (before after middle : List α) (equal : separator :: before =
      middle ++ separator :: after) (clear : separator ∉ before) : middle = [] := by
    cases middle with
    | nil => rfl
    | cons first rest =>
        rw [List.cons_append, List.cons.injEq] at equal
        rw [equal.2] at clear
        simp at clear
  rcases List.append_eq_append_iff.mp same with ⟨middle, split, rest⟩ | ⟨middle, split, rest⟩
  · rw [contains _ _ _ rest last] at split rest
    exact ⟨(split.trans (List.append_nil _)).symm, (List.cons.inj rest).2⟩
  · rw [contains _ _ _ rest last'] at split rest
    exact ⟨split.trans (List.append_nil _), (List.cons.inj rest).2.symm⟩

end VitaTools.Library
