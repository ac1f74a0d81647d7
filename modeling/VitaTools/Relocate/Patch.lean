import VitaTools.Relocate.Complete

set_option autoImplicit false

namespace VitaTools.Relocate

open VitaTools.Library

def Code.kept : Code → Word
  | .v4bx => 0xf000000f
  | .thmCall => 0xd000f800
  | .call | .jump24 => 0xff000000
  | .movwAbsNc | .movtAbs => 0xfff0f000
  | .thmMovwAbsNc | .thmMovtAbs => 0x8f00fbf0
  | .none | .abs32 | .rel32 | .target1 | .target2 | .prel31 | .unknown => 0

def zeros : Memory := fun _ => 0

theorem thmCallValue_patches (word offset : Word) :
    thmCallValue ((word.extractLsb' 0 16).setWidth 32) ((word.extractLsb' 16 16).setWidth 32)
      offset = (word &&& 0xd000f800) ||| thmCallValue 0 0 offset := by
  apply BitVec.eq_of_getLsbD_eq
  intro i small
  simp only [thmCallValue]
  interval_cases i <;> simp

theorem movValue_patches (word offset : Word) :
    movValue word offset = (word &&& 0xfff0f000) ||| movValue 0 offset := by
  simp [movValue]

theorem thmMovValue_patches (word offset : Word) :
    thmMovValue ((word.extractLsb' 0 16).setWidth 32) ((word.extractLsb' 16 16).setWidth 32)
      offset = (word &&& 0x8f00fbf0) ||| thmMovValue 0 0 offset := by
  apply BitVec.eq_of_getLsbD_eq
  intro i small
  simp only [thmMovValue]
  interval_cases i <;> simp

theorem newValue_patches (code : Code) (seg : Memory) (target : Nat) (symval addend loc : Word) :
    newValue code seg target symval addend loc =
      (newValue code zeros 0 symval addend loc).map fun fields =>
        (seg.word target &&& code.kept) ||| fields := by
  have blank : zeros.word 0 = 0 ∧ zeros.half 0 = 0 ∧ zeros.half (0 + 2) = 0 := by decide
  have upper : seg.half target = (seg.word target).extractLsb' 0 16 :=
    (Memory.word_low seg target).symm
  have lower : seg.half (target + 2) = (seg.word target).extractLsb' 16 16 :=
    (Memory.word_high seg target).symm
  cases code <;> simp only [newValue, Code.kept, blank, upper, lower]
  case thmCall =>
    rw [thmCallValue_patches]
    split <;> rfl
  case call => split <;> simp
  case jump24 => split <;> simp
  case movwAbsNc =>
    rw [movValue_patches]
    rfl
  case movtAbs =>
    rw [movValue_patches]
    rfl
  case thmMovwAbsNc =>
    rw [thmMovValue_patches]
    rfl
  case thmMovtAbs =>
    rw [thmMovValue_patches]
    rfl
  all_goals simp

theorem loc_sub (segs : Nat → Phdr) (entry : Entry) :
    entry.loc segs - (segs entry.datseg).pVaddr = entry.offset := by
  rw [Entry.loc, BitVec.add_comm, BitVec.add_sub_cancel]

end VitaTools.Relocate
