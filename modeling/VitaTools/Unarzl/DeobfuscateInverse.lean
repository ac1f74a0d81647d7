import VitaTools.Library.Rescan
import VitaTools.Unarzl.Deobfuscate

set_option autoImplicit false

namespace VitaTools.Unarzl

open VitaTools.Library

def opcodeClass (half : BitVec 16) : BitVec 5 := half.extractLsb' 11 5

theorem changeStride_class (w : BitVec 32) :
    changeStride w = (opcodeClass (w.extractLsb' 16 16)).setWidth 32 := by
  apply BitVec.eq_of_getLsbD_eq
  intro i small
  simp only [changeStride, opcodeClass]
  interval_cases i <;> simp

theorem isBl_bits {w : BitVec 32} (bl : isBl w = true) (i : Nat) :
    (w.getLsbD i && (0xF800F800#32).getLsbD i) = (0xF800F000#32).getLsbD i := by
  have masked : w &&& 0xF800F800#32 = 0xF800F000#32 := beq_iff_eq.mp bl
  rw [← BitVec.getLsbD_and, masked]

theorem isBl_blPair (v14 : BitVec 32) : isBl (blPair v14) = true := by
  simp only [isBl, blPair, beq_iff_eq]
  apply BitVec.eq_of_getLsbD_eq
  intro i small
  interval_cases i <;> simp

theorem changeStride_of_isBl {w : BitVec 32} (bl : isBl w = true) : changeStride w = 31 := by
  have masked : w &&& 0xF800F800 = 0xF800F000 := beq_iff_eq.mp bl
  rw [changeStride, masked]
  rfl

theorem class_of_isBl {w : BitVec 32} (bl : isBl w = true) :
    opcodeClass (w.extractLsb' 0 16) = 30 := by
  apply BitVec.eq_of_getLsbD_eq
  intro i small
  have bit := isBl_bits bl (i + 11)
  simp only [opcodeClass]
  interval_cases i <;> simpa using bit

theorem displacement_blPair (v14 : BitVec 32) :
    (displacement (blPair v14)).setWidth 22 = v14.setWidth 22 := by
  apply BitVec.eq_of_getLsbD_eq
  intro i small
  simp only [displacement, blPair]
  interval_cases i <;> simp

theorem blPair_low (v14 : BitVec 32) : blPair v14 = blPair ((v14.setWidth 22).setWidth 32) := by
  apply BitVec.eq_of_getLsbD_eq
  intro i small
  simp only [blPair]
  interval_cases i <;> simp

theorem blPair_congr {v w : BitVec 32} (same : v.setWidth 22 = w.setWidth 22) :
    blPair v = blPair w := by
  rw [blPair_low v, blPair_low w, same]

theorem blPair_displacement {w : BitVec 32} (bl : isBl w = true) :
    blPair (displacement w) = w := by
  apply BitVec.eq_of_getLsbD_eq
  intro i small
  have bit := isBl_bits bl i
  simp only [blPair, displacement]
  interval_cases i <;> simp_all

theorem blPair_undo {w : BitVec 32} (bl : isBl w = true) (by_ : BitVec 32) :
    blPair (displacement (blPair (displacement w + by_)) - by_) = w := by
  have same : (displacement (blPair (displacement w + by_)) - by_).setWidth 22 =
      (displacement w).setWidth 22 := by
    rw [BitVec.sub_eq_add_neg, BitVec.setWidth_add _ _ (by decide), displacement_blPair,
      ← BitVec.setWidth_add _ _ (by decide), BitVec.add_assoc, BitVec.add_right_neg,
      BitVec.add_zero]
  rw [blPair_congr same, blPair_displacement bl]

/-- Move every BL pair at `position` by `distance position`. -/
def moveBl (distance : Nat → BitVec 32) (position : Nat) (w : BitVec 32) : BitVec 32 :=
  if isBl w then blPair (displacement w + distance position) else w

def shortWord (w : BitVec 32) : Bool := changeStride w == 30

theorem not_isBl_of_short {w : BitVec 32} (isShort : shortWord w = true) : isBl w = false := by
  by_contra bl
  have thirtyOne := changeStride_of_isBl (Bool.of_not_eq_false bl)
  have thirty : changeStride w = 30 := beq_iff_eq.mp isShort
  rw [thirtyOne] at thirty
  contradiction

theorem moveBl_bl {w : BitVec 32} (bl : isBl w = true) (distance : Nat → BitVec 32)
    (position : Nat) :
    moveBl distance position w = blPair (displacement w + distance position) := if_pos bl

theorem moveBl_other {w : BitVec 32} (other : ¬ isBl w = true) (distance : Nat → BitVec 32)
    (position : Nat) : moveBl distance position w = w := if_neg other

def branchRewriter (distance : Nat → BitVec 32) : Rewriter where
  forward := moveBl distance
  backward := moveBl fun position => -distance position
  short := shortWord
  Kept first second := opcodeClass first = opcodeClass second
  undo := by
    intro position w
    by_cases bl : isBl w = true
    · rw [moveBl_bl bl, moveBl_bl (isBl_blPair _), ← BitVec.sub_eq_add_neg, blPair_undo bl]
    · rw [moveBl_other bl, moveBl_other bl]
  shortForward := by
    intro position w
    by_cases bl : isBl w = true
    · rw [moveBl_bl bl, shortWord, shortWord, changeStride_of_isBl bl,
        changeStride_of_isBl (isBl_blPair _)]
    · rw [moveBl_other bl]
  quietForward position w isShort := moveBl_other (by simp [not_isBl_of_short isShort]) _ _
  quietBackward position w isShort := moveBl_other (by simp [not_isBl_of_short isShort]) _ _
  keptRefl _ := rfl
  keptForward := by
    intro position w
    by_cases bl : isBl w = true
    · rw [moveBl_bl bl, class_of_isBl bl, class_of_isBl (isBl_blPair _)]
    · rw [moveBl_other bl]
  shortStable := by
    intro w v isShort _ kept
    have thirty : changeStride w = 30 := beq_iff_eq.mp isShort
    rw [shortWord, beq_iff_eq, changeStride_class, ← kept, ← changeStride_class, thirty]

/-- How far version 1 moves the branch of the word at `position`. -/
def ahead (position : Nat) : BitVec 32 := halfOffset (position + 4)

theorem body0_eq (s : Scan) (start : Nat) :
    (s.body0 start).1.mem =
        s.mem.storeWord start (moveBl (fun position => -ahead position) start (s.mem.word start)) ∧
      (s.body0 start).2 = start + stride shortWord (s.mem.word start) := by
  by_cases bl : isBl (s.mem.word start) = true
  · have long : ¬ shortWord (s.mem.word start) = true := by
      rw [shortWord, changeStride_of_isBl bl]
      decide
    rw [moveBl_bl bl, stride_long long]
    simp [Scan.body0, bl, Scan.storeBefore, Scan.visit, ahead, BitVec.sub_eq_add_neg]
  · rw [moveBl_other bl, Memory.storeWord_word]
    by_cases isShort : shortWord (s.mem.word start) = true
    · have thirty : changeStride (s.mem.word start) = 30 := beq_iff_eq.mp isShort
      rw [stride_short isShort]
      simp [Scan.body0, bl, thirty, Scan.visit]
    · have other : ¬ changeStride (s.mem.word start) = 30#32 := fun thirty =>
        isShort (beq_iff_eq.mpr thirty)
      rw [stride_long isShort]
      simp [Scan.body0, bl, other, Scan.visit]

theorem loop0_mem (len : Int) (s : Scan) (buf : Nat) (inside : (buf : Int) < len) :
    (s.loop0 len buf).mem =
      rescan (moveBl fun position => -ahead position) shortWord len s.mem buf := by
  fun_induction Scan.loop0 len s buf with
  | case1 s buf more ih =>
      rw [ih more, (body0_eq s buf).1, (body0_eq s buf).2]
      conv_rhs => rw [rescan, if_pos inside]
  | case2 s buf done =>
      rw [(body0_eq s buf).2] at done
      rw [rescan, if_pos inside, rescan, if_neg done, (body0_eq s buf).1]

theorem label9_eq (buf1 : Nat) (w : BitVec 32) :
    Scan.label9 (buf1 + 4) (changeStride w) = buf1 + stride shortWord w := by
  unfold Scan.label9 stride shortWord
  split_ifs <;> simp_all

theorem stride_of_isBl {w : BitVec 32} (bl : isBl w = true) : stride shortWord w = 4 := by
  apply stride_long
  rw [shortWord, changeStride_of_isBl bl]
  decide

theorem loop1_mem (len : Int) (s : Scan) (buf1 : Nat) :
    (s.loop1 len buf1).mem = rescan (moveBl ahead) shortWord len s.mem buf1 := by
  fun_induction Scan.loop1 len s buf1 with
  | case1 s buf1 inside v12 bl ih =>
      rw [ih]
      conv_rhs => rw [rescan, if_pos inside, moveBl_bl bl, stride_of_isBl bl]
      rfl
  | case2 s buf1 inside v12 other ih =>
      rw [ih, label9_eq]
      conv_rhs => rw [rescan, if_pos inside, moveBl_other other, Memory.storeWord_word]
      rfl
  | case3 s buf1 outside => rw [rescan, if_neg outside]

theorem version1_eq (len : Int) (s : Scan) (inside : 0 < len) :
    s.version1 len = s.loop1 len 0 := by
  rw [Scan.loop1, if_pos (by simpa using inside)]
  rfl

/-- Versions 1 and 0 of `arzl_deobfuscate` undo each other, in either order. -/
theorem arzlDeobfuscate_inverse (mem : Memory) (len version : Int) (positive : 0 < len)
    (notOne : version ≠ 1) (notTwo : version ≠ 2) :
    (arzlDeobfuscate (arzlDeobfuscate mem len 1).mem len version).mem = mem ∧
      (arzlDeobfuscate (arzlDeobfuscate mem len version).mem len 1).mem = mem := by
  have one (m : Memory) :
      (arzlDeobfuscate m len 1).mem = rescan (moveBl ahead) shortWord len m 0 := by
    simp only [arzlDeobfuscate, if_neg positive.ne', if_neg (by decide : ¬ (1 : Int) = 2), if_true,
      version1_eq len _ positive, loop1_mem]
  have other (m : Memory) : (arzlDeobfuscate m len version).mem =
      rescan (moveBl fun position => -ahead position) shortWord len m 0 := by
    simp only [arzlDeobfuscate, if_neg positive.ne', if_neg notOne, if_neg notTwo]
    exact loop0_mem len _ 0 positive
  constructor
  · rw [one, other]
    exact (branchRewriter ahead).rescan_undo len mem 0
  · rw [other, one]
    have undo := (branchRewriter fun position => -ahead position).rescan_undo len mem 0
    simpa only [branchRewriter, BitVec.neg_neg] using undo

theorem arzlDeobfuscate_inverse_bl :
    let mem : Memory := fun a => ([0x12, 0xF1, 0x34, 0xF9, 0x12, 0xF1] : List Byte).getD a 0
    (arzlDeobfuscate (arzlDeobfuscate mem 6 1).mem 6 7).mem = mem :=
  (arzlDeobfuscate_inverse _ 6 7 (by decide) (by decide) (by decide)).1

end VitaTools.Unarzl
