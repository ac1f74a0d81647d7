import VitaTools.Unarzl.DeobfuscateInverse

set_option autoImplicit false

namespace VitaTools.Unarzl

open VitaTools.Library

inductive WordClass where
  | blPair
  | movt
  | twoByte
  | other
deriving DecidableEq, Repr

def wordClass (data : BitVec 32) : WordClass :=
  if isBl data then .blPair
  else if isMovt data then .movt
  else if changeStride data = 30 then .twoByte
  else .other

namespace Scan

-- The words that `loop2` reads: where each is and what it is taken for.
def classes2 (len : Int) (s : Scan) (buf : Nat) : List (Nat × WordClass) :=
  (buf, wordClass (s.mem.word buf)) ::
    if ((s.body2 buf).2 : Int) < len then classes2 len (s.body2 buf).1 (s.body2 buf).2 else []
termination_by (len - buf).toNat
decreasing_by
  have := s.body2_next buf
  omega

end Scan

theorem isMovt_bits {w : BitVec 32} (movt : isMovt w = true) (i : Nat) :
    (w.getLsbD i && (0x8000FBF0#32).getLsbD i) = (0x0000F2C0#32).getLsbD i := by
  have masked : w &&& 0x8000FBF0#32 = 0x0000F2C0#32 := beq_iff_eq.mp movt
  rw [← BitVec.getLsbD_and, masked]

theorem top_of_isMovt {w : BitVec 32} (movt : isMovt w = true) : w.getLsbD 31 = false := by
  simpa using isMovt_bits movt 31

theorem top_of_changeStride {w : BitVec 32} (high : changeStride w = 30 ∨ changeStride w = 31) :
    w.getLsbD 31 = true := by
  have bit : (changeStride w).getLsbD 4 = true := by
    rcases high with thirty | thirtyOne
    · rw [thirty]; rfl
    · rw [thirtyOne]; rfl
  simpa [changeStride] using bit

theorem not_isBl_of_isMovt {w : BitVec 32} (movt : isMovt w = true) : ¬ isBl w = true := by
  intro bl
  have set := top_of_changeStride (.inr (changeStride_of_isBl bl))
  rw [top_of_isMovt movt] at set
  contradiction

theorem not_short_of_isMovt {w : BitVec 32} (movt : isMovt w = true) : ¬ shortWord w = true := by
  intro isShort
  have set := top_of_changeStride (.inl (beq_iff_eq.mp isShort))
  rw [top_of_isMovt movt] at set
  contradiction

theorem isMovt_movtSwap {w : BitVec 32} (movt : isMovt w = true) :
    isMovt (movtSwap w) = true := by
  rw [isMovt, beq_iff_eq]
  apply BitVec.eq_of_getLsbD_eq
  intro i small
  have bit := isMovt_bits movt i
  simp only [movtSwap]
  interval_cases i <;> simp_all

theorem movtSwap_movtSwap (w : BitVec 32) : movtSwap (movtSwap w) = w := by
  apply BitVec.eq_of_getLsbD_eq
  intro i small
  simp only [movtSwap]
  interval_cases i <;> simp

theorem class_movtSwap (w : BitVec 32) :
    opcodeClass ((movtSwap w).extractLsb' 0 16) = opcodeClass (w.extractLsb' 0 16) := by
  apply BitVec.eq_of_getLsbD_eq
  intro i small
  simp only [opcodeClass, movtSwap]
  interval_cases i <;> simp

/-- What version 2 leaves in place of the word at `position`, when branches move
by `distance`. -/
def filterWord (distance : Nat → BitVec 32) (position : Nat) (w : BitVec 32) : BitVec 32 :=
  if isMovt w then movtSwap w else moveBl distance position w

section

variable {w : BitVec 32} (distance : Nat → BitVec 32) (position : Nat)

theorem filterWord_movt (movt : isMovt w = true) : filterWord distance position w = movtSwap w :=
  if_pos movt

theorem filterWord_plain (plain : ¬ isMovt w = true) :
    filterWord distance position w = moveBl distance position w := if_neg plain

theorem not_isMovt_moveBl (plain : ¬ isMovt w = true) :
    ¬ isMovt (moveBl distance position w) = true := by
  by_cases bl : isBl w = true
  · rw [moveBl_bl bl]
    exact fun movt => not_isBl_of_isMovt movt (isBl_blPair _)
  · rwa [moveBl_other bl]

theorem filterWord_short (isShort : shortWord w = true) : filterWord distance position w = w := by
  rw [filterWord_plain _ _ fun movt => not_short_of_isMovt movt isShort]
  exact (branchRewriter distance).quietForward position w isShort

theorem wordClass_filterWord : wordClass (filterWord distance position w) = wordClass w := by
  by_cases movt : isMovt w = true
  · have swapped := isMovt_movtSwap movt
    rw [filterWord_movt _ _ movt, wordClass, if_neg (not_isBl_of_isMovt swapped), if_pos swapped,
      wordClass, if_neg (not_isBl_of_isMovt movt), if_pos movt]
  · rw [filterWord_plain _ _ movt]
    by_cases bl : isBl w = true
    · rw [moveBl_bl bl, wordClass, if_pos (isBl_blPair _), wordClass, if_pos bl]
    · rw [moveBl_other bl]

end

theorem wordClass_short {w : BitVec 32} (isShort : shortWord w = true) :
    wordClass w = .twoByte := by
  have thirty : changeStride w = 30 := beq_iff_eq.mp isShort
  rw [wordClass, if_neg (by simp [not_isBl_of_short isShort]),
    if_neg fun movt => not_short_of_isMovt movt isShort, if_pos thirty]

def filterRewriter (distance : Nat → BitVec 32) : Rewriter where
  forward := filterWord distance
  backward := filterWord fun position => -distance position
  short := shortWord
  Kept first second := opcodeClass first = opcodeClass second
  undo := by
    intro position w
    by_cases movt : isMovt w = true
    · rw [filterWord_movt _ _ movt, filterWord_movt _ _ (isMovt_movtSwap movt), movtSwap_movtSwap]
    · rw [filterWord_plain _ _ movt, filterWord_plain _ _ (not_isMovt_moveBl _ _ movt)]
      exact (branchRewriter distance).undo position w
  shortForward := by
    intro position w
    by_cases movt : isMovt w = true
    · rw [filterWord_movt _ _ movt, Bool.eq_false_of_not_eq_true (not_short_of_isMovt movt),
        Bool.eq_false_of_not_eq_true (not_short_of_isMovt (isMovt_movtSwap movt))]
    · rw [filterWord_plain _ _ movt]
      exact (branchRewriter distance).shortForward position w
  quietForward _ _ isShort := filterWord_short _ _ isShort
  quietBackward _ _ isShort := filterWord_short _ _ isShort
  keptRefl := (branchRewriter distance).keptRefl
  keptForward := by
    intro position w
    by_cases movt : isMovt w = true
    · rw [filterWord_movt _ _ movt, class_movtSwap]
    · rw [filterWord_plain _ _ movt]
      exact (branchRewriter distance).keptForward position w
  shortStable := (branchRewriter distance).shortStable

def back (position : Nat) : BitVec 32 := -ahead position

theorem body2_eq (s : Scan) (start : Nat) :
    (s.body2 start).1.mem =
        s.mem.storeWord start (filterWord back start (s.mem.word start)) ∧
      (s.body2 start).2 = start + stride shortWord (s.mem.word start) := by
  by_cases movt : isMovt (s.mem.word start) = true
  · rw [filterWord_movt _ _ movt, stride_long (not_short_of_isMovt movt)]
    simp [Scan.body2, not_isBl_of_isMovt movt, movt, Scan.storeBefore, Scan.visit]
  · -- Without a MOVT-like word version 2 does what the other versions do.
    have plain : s.body2 start = s.body0 start := by simp [Scan.body2, Scan.body0, movt]
    rw [plain, filterWord_plain _ _ movt]
    exact body0_eq s start

theorem loop2_mem (len : Int) (s : Scan) (buf : Nat) (inside : (buf : Int) < len) :
    (s.loop2 len buf).mem = rescan (filterWord back) shortWord len s.mem buf := by
  fun_induction Scan.loop2 len s buf with
  | case1 s buf more ih =>
      rw [ih more, (body2_eq s buf).1, (body2_eq s buf).2]
      conv_rhs => rw [rescan, if_pos inside]
  | case2 s buf done =>
      rw [(body2_eq s buf).2] at done
      rw [rescan, if_pos inside, rescan, if_neg done, (body2_eq s buf).1]

theorem classes2_eq (len : Int) (s : Scan) (buf : Nat) (inside : (buf : Int) < len) :
    s.classes2 len buf =
      (readings (filterWord back) shortWord len s.mem buf).map (Prod.map id wordClass) := by
  fun_induction Scan.classes2 len s buf with
  | case1 s buf ih =>
      rw [readings_inside _ _ _ _ _ inside, List.map_cons]
      split
      next more => rw [ih more more, (body2_eq s buf).1, (body2_eq s buf).2]; rfl
      next done =>
        rw [(body2_eq s buf).2] at done
        rw [readings, if_neg done]
        rfl

theorem body2_words (s : Scan) (start : Nat) :
    (s.body2 start).1.words = s.words ++ [start] := by
  dsimp only [Scan.body2]
  split_ifs <;> rfl

theorem loop2_words (len : Int) (s : Scan) (buf : Nat) :
    (s.loop2 len buf).words = s.words ++ (s.classes2 len buf).map Prod.fst := by
  fun_induction Scan.loop2 len s buf with
  | case1 s buf more ih =>
      rw [ih, body2_words]
      conv_rhs => rw [Scan.classes2, if_pos more]
      simp
  | case2 s buf done =>
      rw [body2_words, Scan.classes2, if_neg done]
      simp

theorem arzlDeobfuscate_two (mem : Memory) (len : Int) (positive : 0 < len) :
    arzlDeobfuscate mem len 2 = Scan.loop2 len ⟨mem, []⟩ 0 := by
  simp only [arzlDeobfuscate, if_neg positive.ne', if_true]

/-- Version 2 of `arzl_deobfuscate` is injective, and a second scan of its output
reads at the same positions words that it takes for the same. -/
theorem arzlDeobfuscate_injective (len : Int) (positive : 0 < len) :
    (Function.Injective fun mem => (arzlDeobfuscate mem len 2).mem) ∧
      ∀ mem : Memory,
        let once := arzlDeobfuscate mem len 2
        once.words = (Scan.classes2 len ⟨mem, []⟩ 0).map Prod.fst ∧
          Scan.classes2 len ⟨once.mem, []⟩ 0 = Scan.classes2 len ⟨mem, []⟩ 0 ∧
          (arzlDeobfuscate once.mem len 2).words = once.words := by
  have filtered (mem : Memory) :
      (arzlDeobfuscate mem len 2).mem = rescan (filterWord back) shortWord len mem 0 := by
    rw [arzlDeobfuscate_two mem len positive, loop2_mem len _ 0 positive]
  have visited (mem : Memory) : (arzlDeobfuscate mem len 2).words =
      (Scan.classes2 len ⟨mem, []⟩ 0).map Prod.fst := by
    rw [arzlDeobfuscate_two mem len positive, loop2_words, List.nil_append]
  have classes (mem : Memory) : Scan.classes2 len ⟨(arzlDeobfuscate mem len 2).mem, []⟩ 0 =
      Scan.classes2 len ⟨mem, []⟩ 0 := by
    rw [classes2_eq len _ 0 positive, classes2_eq len _ 0 positive, filtered]
    apply (filterRewriter back).readings_kind len wordClass
    · exact fun position w => wordClass_filterWord back position
    · intro w v isShort lower upper
      rw [wordClass_short isShort,
        wordClass_short ((filterRewriter back).shortStable w v isShort lower upper)]
  constructor
  next =>
    simp only [filtered]
    exact (filterRewriter back).rescan_injective len 0
  next =>
    intro mem
    refine ⟨visited mem, classes mem, ?_⟩
    rw [visited, visited, classes]

theorem arzlDeobfuscate_injective_odd :
    Function.Injective fun mem => (arzlDeobfuscate mem 7 2).mem :=
  (arzlDeobfuscate_injective 7 (by decide)).1

end VitaTools.Unarzl
