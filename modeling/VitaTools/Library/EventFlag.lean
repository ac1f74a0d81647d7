import Mathlib.Data.BitVec

set_option autoImplicit false

namespace VitaTools.Library

abbrev EventFlag := BitVec 32

namespace EventFlag

def set (flag bits : EventFlag) : EventFlag := flag ||| bits

def clear (flag bits : EventFlag) : EventFlag := flag &&& bits

-- What `SCE_EVENT_WAITOR` waits for.
def waitOr (flag bits : EventFlag) : Bool := flag &&& bits != 0

-- What `SCE_EVENT_WAITAND` waits for.
def waitAnd (flag bits : EventFlag) : Bool := flag &&& bits == bits

def has (flag : EventFlag) (i : Nat) : Bool := flag.getLsbD i

@[simp] theorem has_set (flag bits : EventFlag) (i : Nat) :
    (flag.set bits).has i = (flag.has i || bits.has i) := BitVec.getLsbD_or

@[simp] theorem has_clear (flag bits : EventFlag) (i : Nat) :
    (flag.clear bits).has i = (flag.has i && bits.has i) := BitVec.getLsbD_and

@[simp] theorem has_zero (i : Nat) : has 0 i = false := BitVec.getLsbD_zero

theorem and_bit (flag : EventFlag) (i : Nat) :
    flag &&& BitVec.twoPow 32 i = if flag.has i then BitVec.twoPow 32 i else 0 :=
  BitVec.and_twoPow flag i

theorem twoPow_ne_zero {i : Nat} (small : i < 32) : BitVec.twoPow 32 i ≠ 0 := by
  intro zero
  have bit := congrArg (·.getLsbD i) zero
  simp [small] at bit

theorem waitAnd_bit {flag : EventFlag} {i : Nat} (small : i < 32) :
    flag.waitAnd (BitVec.twoPow 32 i) = flag.has i := by
  unfold waitAnd
  rw [and_bit]
  cases flag.has i
  · have zero : ¬ 0#32 = BitVec.twoPow 32 i := fun zero => twoPow_ne_zero small zero.symm
    simpa using zero
  · simp

theorem waitOr_bit {flag : EventFlag} {i : Nat} (small : i < 32) :
    flag.waitOr (BitVec.twoPow 32 i) = flag.has i := by
  unfold waitOr
  rw [and_bit]
  cases flag.has i
  · simp
  · simpa using twoPow_ne_zero small

theorem waitOr_or (flag first second : EventFlag) :
    flag.waitOr (first ||| second) = (flag.waitOr first || flag.waitOr second) := by
  have parts : flag &&& (first ||| second) = 0 ↔ flag &&& first = 0 ∧ flag &&& second = 0 := by
    rw [BitVec.and_or_distrib_left]
    exact BitVec.or_eq_zero_iff
  unfold waitOr
  rw [Bool.eq_iff_iff]
  simp only [bne_iff_ne, ne_eq, parts, Bool.or_eq_true]
  exact Decidable.not_and_iff_not_or_not

end EventFlag

end VitaTools.Library
