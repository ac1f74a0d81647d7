import VitaTools.Relocate.Patch

set_option autoImplicit false

namespace VitaTools.Relocate

open VitaTools.Library

-- S:I1:I2:imm10:imm11:0 with I1 = ~(J1 ^ S) and I2 = ~(J2 ^ S).
def thmBranchImm (word : Word) : BitVec 25 :=
  let upper := word.extractLsb' 0 16
  let lower := word.extractLsb' 16 16
  let s := upper.extractLsb' 10 1
  let i1 := ~~~ (lower.extractLsb' 13 1 ^^^ s)
  let i2 := ~~~ (lower.extractLsb' 11 1 ^^^ s)
  (s ++ i1 ++ i2 ++ upper.extractLsb' 0 10 ++ lower.extractLsb' 0 11 ++ 0#1).setWidth 25

def thmBranch (word : Word) : Word := (thmBranchImm word).signExtend 32

-- imm24:00.
def armBranchImm (word : Word) : BitVec 26 := (word.extractLsb' 0 24 ++ 0#2).setWidth 26

def armBranch (word : Word) : Word := (armBranchImm word).signExtend 32

-- imm4:imm12.
def armImm16 (word : Word) : Word :=
  (word.extractLsb' 16 4 ++ word.extractLsb' 0 12).setWidth 32

-- imm4:i:imm3:imm8.
def thmImm16 (word : Word) : Word :=
  let upper := word.extractLsb' 0 16
  let lower := word.extractLsb' 16 16
  (upper.extractLsb' 0 4 ++ upper.extractLsb' 10 1 ++ lower.extractLsb' 12 3 ++
    lower.extractLsb' 0 8).setWidth 32

def be32 (p : Nat → Byte) : Word :=
  (p 0).setWidth 32 <<< 24 ||| (p 1).setWidth 32 <<< 16 ||| (p 2).setWidth 32 <<< 8 |||
    (p 3).setWidth 32

def getMovwValueFromInstr (opcode : Word) : Word :=
  (opcode.sshiftRight 8 &&& 0xFF) ||| (opcode <<< 4 &&& 0x700) |||
    (opcode.sshiftRight 7 &&& 0x800) ||| (opcode.sshiftRight 12 &&& 0xF000)

theorem getMovwValueFromInstr_be32 (m : Memory) (address : Nat) :
    getMovwValueFromInstr (be32 fun k => m (address + k)) =
      thmImm16 (m.word address) := by
  apply BitVec.eq_of_getLsbD_eq
  intro i small
  simp only [getMovwValueFromInstr, be32, thmImm16, Memory.word, BitVec.getLsbD_append,
    BitVec.getLsbD_setWidth, BitVec.getLsbD_extractLsb', BitVec.getLsbD_or, BitVec.getLsbD_and,
    BitVec.getLsbD_sshiftRight]
  interval_cases i <;> simp

theorem sign_of_branchFits {offset bound : Word} (width : Nat)
    (low : (-bound).toInt = -2 ^ width) (high : bound.toInt = 2 ^ width)
    (fits : branchFits offset bound = true) (i : Nat) (above : width ≤ i) (small : i < 32) :
    offset.getLsbD i = offset.getLsbD width := by
  simp only [branchFits, Bool.and_eq_true, BitVec.slt, decide_eq_true_eq, low, high] at fits
  have sign : offset.sshiftRight width = 0 ∨ offset.sshiftRight width = BitVec.allOnes 32 := by
    have shifted := BitVec.toInt_sshiftRight (x := offset) (n := width)
    rw [Int.shiftRight_eq_div_pow] at shifted
    rcases lt_or_ge offset.toInt 0 with negative | positive
    · right
      apply BitVec.eq_of_toInt_eq
      rw [shifted, Int.ediv_eq_neg_one_of_neg_of_le negative (by push_cast; omega)]
      decide
    · left
      apply BitVec.eq_of_toInt_eq
      rw [shifted, Int.ediv_eq_zero_of_lt positive (by push_cast; omega)]
      decide
  have bit (k : Nat) (inside : width + k < 32) :
      offset.getLsbD (width + k) = (offset.sshiftRight width).getLsbD k := by
    rw [BitVec.getLsbD_sshiftRight]
    simp [show k < 32 by omega, inside]
  obtain ⟨k, rfl⟩ := Nat.exists_eq_add_of_le above
  have first := bit 0 (by omega)
  rw [Nat.add_zero] at first
  rw [bit k small, first]
  rcases sign with zero | ones
  · simp [zero]
  · rw [ones, BitVec.getLsbD_allOnes, BitVec.getLsbD_allOnes]
    simp [show k < 32 by omega]

theorem signExtend_branch {offset bound : Word} (width : Nat)
    (low : (-bound).toInt = -2 ^ width) (high : bound.toInt = 2 ^ width) (narrow : width < 32)
    (fits : branchFits offset bound = true) (imm : BitVec (width + 1)) (aligned : Word)
    (fields : ∀ i, i ≤ width → imm.getLsbD i = (offset &&& aligned).getLsbD i)
    (upper : ∀ i, width ≤ i → i < 32 → aligned.getLsbD i = true) :
    imm.signExtend 32 = offset &&& aligned := by
  apply BitVec.eq_of_getLsbD_eq
  intro i small
  rw [BitVec.getLsbD_signExtend, BitVec.msb_eq_getLsbD_last, Nat.add_sub_cancel]
  split
  next inside => simp [small, fields i (by omega)]
  next above =>
    have sign := sign_of_branchFits width low high fits i (by omega) small
    rw [fields width (le_refl _), BitVec.getLsbD_and, BitVec.getLsbD_and, sign,
      upper i (by omega) small, upper width (le_refl _) narrow]
    simp [small]

theorem thmBranch_thmCallValue (upper lower : Word) {offset : Word}
    (fits : branchFits offset 0x01000000 = true) :
    thmBranch (thmCallValue upper lower offset) = offset &&& ~~~1 := by
  refine signExtend_branch 24 (by decide) (by decide) (by decide) fits _ _ ?_
    (by decide)
  have undo : ∀ a b : Bool, (a != (b != a)) = b := by decide
  intro i small
  simp only [thmBranchImm, thmCallValue, BitVec.getLsbD_append, BitVec.getLsbD_setWidth,
    BitVec.getLsbD_extractLsb', BitVec.getLsbD_or, BitVec.getLsbD_and, BitVec.getLsbD_not,
    BitVec.getLsbD_xor, BitVec.getLsbD_sshiftRight, BitVec.getLsbD_shiftLeft]
  interval_cases i <;> simp [undo]

theorem armBranch_branch (word : Word) {offset : Word}
    (fits : branchFits offset 0x02000000 = true) :
    armBranch ((word &&& 0xff000000) ||| ((offset.sshiftRight 2) &&& 0x00ffffff)) =
      offset &&& ~~~3 := by
  refine signExtend_branch 25 (by decide) (by decide) (by decide) fits _ _ ?_
    (by decide)
  intro i small
  simp only [armBranchImm, BitVec.getLsbD_append, BitVec.getLsbD_setWidth,
    BitVec.getLsbD_extractLsb', BitVec.getLsbD_or, BitVec.getLsbD_and, BitVec.getLsbD_not,
    BitVec.getLsbD_sshiftRight]
  interval_cases i <;> simp

theorem armImm16_movValue (word offset : Word) :
    armImm16 (movValue word offset) = offset &&& 0xFFFF := by
  apply BitVec.eq_of_getLsbD_eq
  intro i small
  simp only [armImm16, movValue, BitVec.getLsbD_append, BitVec.getLsbD_setWidth,
    BitVec.getLsbD_extractLsb', BitVec.getLsbD_or, BitVec.getLsbD_and, BitVec.getLsbD_shiftLeft]
  interval_cases i <;> simp

theorem thmImm16_thmMovValue (upper lower offset : Word) :
    thmImm16 (thmMovValue upper lower offset) = offset &&& 0xFFFF := by
  apply BitVec.eq_of_getLsbD_eq
  intro i small
  simp only [thmImm16, thmMovValue, BitVec.getLsbD_append, BitVec.getLsbD_setWidth,
    BitVec.getLsbD_extractLsb', BitVec.getLsbD_or, BitVec.getLsbD_and, BitVec.getLsbD_shiftLeft]
  interval_cases i <;> simp

/-- The codes that write an immediate in an encoding of its own. -/
def Code.Encoded : Code → Prop
  | .thmCall | .call | .jump24 | .prel31 | .movwAbsNc | .movtAbs | .thmMovwAbsNc
  | .thmMovtAbs => True
  | .none | .abs32 | .rel32 | .target1 | .v4bx | .target2 | .unknown => False

def Code.decode (code : Code) (word : Word) : Word :=
  match code with
  | .thmCall => thmBranch word
  | .call | .jump24 => armBranch word
  | .prel31 => word &&& 0x7fffffff
  | .movwAbsNc | .movtAbs => armImm16 word
  | .thmMovwAbsNc | .thmMovtAbs => thmImm16 word
  | .none | .abs32 | .rel32 | .target1 | .v4bx | .target2 | .unknown => word

def Code.immediate : Code → Word
  | .thmCall => 0x2fff07ff
  | .call | .jump24 => 0x00ffffff
  | .movwAbsNc | .movtAbs => 0x000f0fff
  | .thmMovwAbsNc | .thmMovtAbs => 0x70ff040f
  | .none | .abs32 | .rel32 | .target1 | .v4bx | .target2 | .prel31 | .unknown => 0xffffffff

def Code.meant (code : Code) (symval addend loc : Word) : Word :=
  match code with
  | .thmCall => (symval + addend - loc) &&& ~~~1
  | .call | .jump24 => (symval + addend - loc) &&& ~~~3
  | .prel31 => (symval + addend - loc) &&& 0x7fffffff
  | .movwAbsNc | .thmMovwAbsNc => (symval + addend) &&& 0xFFFF
  | .movtAbs | .thmMovtAbs => (symval + addend) >>> 16
  | .none | .abs32 | .rel32 | .target1 | .v4bx | .target2 | .unknown => symval + addend

theorem high_half (value : Word) : value.sshiftRight 16 &&& (0xFFFF : Word) = value >>> 16 := by
  apply BitVec.eq_of_getLsbD_eq
  intro i small
  simp only [BitVec.getLsbD_and, BitVec.getLsbD_sshiftRight, BitVec.getLsbD_ushiftRight]
  interval_cases i <;> simp

theorem decode_newValue {code : Code} (encoded : code.Encoded) (seg : Memory) (target : Nat)
    {symval addend loc value : Word}
    (computed : newValue code seg target symval addend loc = some value) :
    code.decode value = code.meant symval addend loc := by
  unfold newValue at computed
  cases code <;> simp only [Code.decode, Code.meant] at computed ⊢
  case thmCall =>
    split_ifs at computed with fits
    cases computed
    rw [thmBranch_thmCallValue _ _ fits, BitVec.add_comm addend]
  case call =>
    split_ifs at computed with fits
    cases computed
    rw [armBranch_branch _ fits, BitVec.add_comm addend]
  case jump24 =>
    split_ifs at computed with fits
    cases computed
    rw [armBranch_branch _ fits, BitVec.add_comm addend]
  case prel31 =>
    cases computed
    rw [BitVec.and_assoc, BitVec.and_self, BitVec.add_comm addend]
  case movwAbsNc =>
    cases computed
    exact armImm16_movValue _ _
  case movtAbs =>
    cases computed
    rw [armImm16_movValue, high_half]
  case thmMovwAbsNc =>
    cases computed
    rw [thmImm16_thmMovValue, BitVec.add_comm addend]
  case thmMovtAbs =>
    cases computed
    rw [thmImm16_thmMovValue, high_half, BitVec.add_comm addend]
  all_goals exact encoded.elim

theorem kept_immediate {code : Code} (encoded : code.Encoded) :
    code.kept = ~~~code.immediate := by
  cases code <;> first | rfl | exact encoded.elim

theorem thmCallValue_kept (offset : Word) : thmCallValue 0 0 offset &&& 0xd000f800 = 0 := by
  apply BitVec.eq_of_getLsbD_eq
  intro i small
  simp only [thmCallValue]
  interval_cases i <;> simp

theorem movValue_kept (offset : Word) : movValue 0 offset &&& 0xfff0f000 = 0 := by
  apply BitVec.eq_of_getLsbD_eq
  intro i small
  simp only [movValue]
  interval_cases i <;> simp

theorem thmMovValue_kept (offset : Word) : thmMovValue 0 0 offset &&& 0x8f00fbf0 = 0 := by
  apply BitVec.eq_of_getLsbD_eq
  intro i small
  simp only [thmMovValue]
  interval_cases i <;> simp

theorem zeros_kept {code : Code} (encoded : code.Encoded) {symval addend loc fields : Word}
    (computed : newValue code zeros 0 symval addend loc = some fields) :
    fields &&& code.kept = 0 := by
  have blank : zeros.word 0 = 0 ∧ zeros.half 0 = 0 ∧ zeros.half (0 + 2) = 0 := by decide
  have branch (offset : Word) : offset &&& 0x00ffffff &&& 0xff000000 = 0 := by
    rw [BitVec.and_assoc]
    exact BitVec.and_zero
  unfold newValue at computed
  cases code <;> simp only [Code.kept, blank] at computed ⊢
  case thmCall =>
    split_ifs at computed
    cases computed
    exact thmCallValue_kept _
  case call =>
    split_ifs at computed
    cases computed
    simpa using branch _
  case jump24 =>
    split_ifs at computed
    cases computed
    simpa using branch _
  case prel31 => exact BitVec.and_zero
  case movwAbsNc =>
    cases computed
    exact movValue_kept _
  case movtAbs =>
    cases computed
    exact movValue_kept _
  case thmMovwAbsNc =>
    cases computed
    exact thmMovValue_kept _
  case thmMovtAbs =>
    cases computed
    exact thmMovValue_kept _
  all_goals exact encoded.elim

theorem newValue_outside {code : Code} (encoded : code.Encoded) (seg : Memory) (target : Nat)
    {symval addend loc value : Word}
    (computed : newValue code seg target symval addend loc = some value) :
    value &&& ~~~code.immediate = seg.word target &&& ~~~code.immediate := by
  rw [newValue_patches, Option.map_eq_some_iff] at computed
  obtain ⟨fields, computed, rfl⟩ := computed
  rw [← kept_immediate encoded, BitVec.and_or_distrib_right, zeros_kept encoded computed]
  simp [BitVec.and_assoc]

variable (size : Word) (segs : Nat → Phdr)

-- The memory that an entry writes to, once it is processed.
def Entry.memory (entry : Entry) (image : Image) : Memory :=
  (relocateEntry size segs image entry).1.seg entry.segment

def Entry.newWord (entry : Entry) (image : Image) : Word :=
  (entry.memory size segs image).word entry.offset.toNat

theorem newWord_computed {entry : Entry} (writes : entry.Writes size segs)
    (inRange : entry.InRange segs) (image : Image) :
    newValue entry.code (image.seg entry.segment) entry.offset.toNat (entry.symval segs)
      entry.addend (entry.loc segs) = some (entry.newWord size segs image) := by
  obtain ⟨value, computed⟩ := computed_of_inRange segs writes.supported inRange image
  have word : entry.newWord size segs image = value := by
    rw [Entry.newWord, Entry.memory, relocateEntry_writes size segs writes, computed]
    dsimp only
    rw [Function.update_self, Memory.word_storeWord, Option.getD_some]
  rw [word, ← computed, Entry.computed, loc_sub]

theorem halves (value : Word) : value >>> 16 <<< 16 ||| value &&& 0xFFFF = value := by
  apply BitVec.eq_of_getLsbD_eq
  intro i small
  interval_cases i <;> simp

/-- A word that is written decodes to what its code means and keeps what is not immediate; the
bytes of a Thumb MOVW, read as `psp2-syslibtrace-nids-extract` reads them, give the low half;
and with the word of a MOVT for the same target they give the target. -/
theorem relocated_decodes {entry : Entry} (writes : entry.Writes size segs)
    (inRange : entry.InRange segs) (encoded : entry.code.Encoded) (image : Image) :
    entry.code.decode (entry.newWord size segs image) =
        entry.code.meant (entry.symval segs) entry.addend (entry.loc segs) ∧
      entry.newWord size segs image &&& ~~~entry.code.immediate =
        (image.seg entry.segment).word entry.offset.toNat &&& ~~~entry.code.immediate ∧
      (entry.code = .thmMovwAbsNc → getMovwValueFromInstr
          (be32 fun k => entry.memory size segs image (entry.offset.toNat + k)) =
        (entry.symval segs + entry.addend) &&& 0xFFFF) ∧
      ∀ (image' : Image) (high : Entry), high.Writes size segs →
        entry.code = .movwAbsNc ∧ high.code = .movtAbs ∨
          entry.code = .thmMovwAbsNc ∧ high.code = .thmMovtAbs →
        high.symval segs + high.addend = entry.symval segs + entry.addend →
        high.code.decode (high.newWord size segs image') <<< 16 |||
            entry.code.decode (entry.newWord size segs image) =
          entry.symval segs + entry.addend := by
  have computed := newWord_computed size segs writes inRange image
  have decoded := decode_newValue encoded _ _ computed
  refine ⟨decoded, newValue_outside encoded _ _ computed, ?_, ?_⟩
  · intro code
    rw [getMovwValueFromInstr_be32]
    simp only [code, Code.decode, Code.meant] at decoded
    exact decoded
  · intro image' high writes' codes same
    have inRange' : high.InRange segs := by
      constructor
      · intro code
        simp [code] at codes
      · intro code
        rcases code with code | code <;> simp [code] at codes
    have encoded' : high.code.Encoded := by
      rcases codes with ⟨-, code⟩ | ⟨-, code⟩ <;> rw [code] <;> trivial
    have decoded' :=
      decode_newValue encoded' _ _ (newWord_computed size segs writes' inRange' image')
    rw [decoded, decoded']
    rcases codes with ⟨low, code⟩ | ⟨low, code⟩ <;>
      simp only [low, code, Code.meant, same, halves]

def thmMovw : Entry := ⟨.thmMovwAbsNc, 15, 0, 0, 0x89AB⟩

theorem relocated_decodes_thmMovw :
    getMovwValueFromInstr (be32 fun k => thmMovw.memory 16 farSegs blank (0 + k)) = 0x89AB := by
  have writes : thmMovw.Writes 16 farSegs := ⟨by decide, by decide, by decide⟩
  have decodes := relocated_decodes 16 farSegs writes (by unfold Entry.InRange; decide) trivial
    blank
  exact decodes.2.2.1 rfl

end VitaTools.Relocate
