import Mathlib.Algebra.Order.Ring.Nat
import Mathlib.Logic.ExistsUnique
import Mathlib.Order.Basic

set_option autoImplicit false

namespace VitaTools.Library

def leadingOne : List Bool → Nat
  | [] => 1
  | bit :: older => 2 * leadingOne older + bit.toNat

theorem leadingOne_range (bits : List Bool) :
    2 ^ bits.length ≤ leadingOne bits ∧ leadingOne bits < 2 ^ (bits.length + 1) := by
  induction bits with
  | nil => decide
  | cons bit older ih =>
      have small := Bool.toNat_lt bit
      rw [leadingOne, List.length_cons, Nat.pow_succ, Nat.pow_succ]
      rw [Nat.pow_succ] at ih
      omega

theorem leadingOne_injective : Function.Injective leadingOne := by
  intro first
  induction first with
  | nil =>
      intro second same
      cases second with
      | nil => rfl
      | cons bit older =>
          have large := (leadingOne_range older).1
          have positive := Nat.two_pow_pos older.length
          simp only [leadingOne] at same
          omega
  | cons bit older ih =>
      intro second same
      cases second with
      | nil =>
          have large := (leadingOne_range older).1
          have positive := Nat.two_pow_pos older.length
          simp only [leadingOne] at same
          omega
      | cons other rest =>
          have small := Bool.toNat_lt bit
          have little := Bool.toNat_lt other
          simp only [leadingOne] at same
          have bits : bit = other := by
            cases bit <;> cases other <;> simp only [Bool.toNat_true, Bool.toNat_false] at same <;>
              first
              | rfl
              | omega
          rw [bits, ih (by omega : leadingOne older = leadingOne rest)]

theorem exists_leadingOne {n : Nat} (positive : 0 < n) : ∃ bits, leadingOne bits = n := by
  induction n using Nat.strongRecOn with
  | ind n ih =>
      by_cases one : n = 1
      next => exact ⟨[], one.symm⟩
      next =>
        obtain ⟨older, half⟩ := ih (n / 2) (by omega) (by omega)
        refine ⟨decide (n % 2 = 1) :: older, ?_⟩
        rw [leadingOne, half]
        by_cases odd : n % 2 = 1
        next => simp only [odd, decide_true, Bool.toNat_true]; omega
        next => simp only [odd, decide_false, Bool.toNat_false]; omega

theorem existsUnique_leadingOne {n : Nat} (positive : 0 < n) : ∃! bits, leadingOne bits = n := by
  obtain ⟨bits, value⟩ := exists_leadingOne positive
  exact ⟨bits, value, fun other same => leadingOne_injective (same.trans value.symm)⟩

theorem leadingOne_length {bits : List Bool} {count : Nat} (low : 2 ^ count ≤ leadingOne bits)
    (high : leadingOne bits < 2 ^ (count + 1)) : bits.length = count := by
  obtain ⟨least, most⟩ := leadingOne_range bits
  have upper : count < bits.length + 1 :=
    (Nat.pow_lt_pow_iff_right (by decide)).mp (low.trans_lt most)
  have lower : bits.length < count + 1 :=
    (Nat.pow_lt_pow_iff_right (by decide)).mp (least.trans_lt high)
  omega

theorem existsUnique_leadingOne_length {n count : Nat} (low : 2 ^ count ≤ n)
    (high : n < 2 ^ (count + 1)) : ∃! bits, bits.length = count ∧ leadingOne bits = n := by
  obtain ⟨bits, value, unique⟩ := existsUnique_leadingOne ((Nat.two_pow_pos count).trans_le low)
  refine ⟨bits, ⟨leadingOne_length (value.symm ▸ low) (value.symm ▸ high), value⟩, ?_⟩
  exact fun other both => unique other both.2

/-- `decodes` gives each value with `count` bits behind a leading one, each from just one
sequence of as many bits. -/
structure ExactCode (count : Nat) (decodes : List Bool → Nat → Prop) : Prop where
  range : ∀ bits value, decodes bits value →
    bits.length = count ∧ 2 ^ count ≤ value ∧ value < 2 ^ (count + 1)
  every : ∀ bits, bits.length = count → ∃! value, decodes bits value
  unique : ∀ value, 2 ^ count ≤ value → value < 2 ^ (count + 1) → ∃! bits, decodes bits value

theorem exactCode_leadingOne {count : Nat} {decodes : List Bool → Nat → Prop}
    (leads : ∀ bits value, decodes bits value ↔ bits.length = count ∧ leadingOne bits = value) :
    ExactCode count decodes := by
  constructor
  next =>
    intro bits value decoded
    obtain ⟨length, same⟩ := (leads bits value).mp decoded
    rw [← same, ← length]
    exact ⟨rfl, leadingOne_range bits⟩
  next =>
    intro bits length
    refine ⟨leadingOne bits, (leads _ _).mpr ⟨length, rfl⟩, fun value decoded => ?_⟩
    exact ((leads _ _).mp decoded).2.symm
  next =>
    intro value low high
    simp only [leads]
    exact existsUnique_leadingOne_length low high

end VitaTools.Library
