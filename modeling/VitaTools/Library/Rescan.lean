import VitaTools.Library.Memory

set_option autoImplicit false

namespace VitaTools.Library

def stride (short : BitVec 32 → Bool) (w : BitVec 32) : Nat := if short w then 2 else 4

theorem stride_short {short : BitVec 32 → Bool} {w : BitVec 32} (isShort : short w = true) :
    stride short w = 2 := if_pos isShort

theorem stride_long {short : BitVec 32 → Bool} {w : BitVec 32} (isLong : ¬ short w = true) :
    stride short w = 4 := if_neg isLong

theorem stride_bounds (short : BitVec 32 → Bool) (w : BitVec 32) :
    2 ≤ stride short w ∧ stride short w ≤ 4 := by
  unfold stride
  split <;> omega

section

variable (rewrite : Nat → BitVec 32 → BitVec 32) (short : BitVec 32 → Bool) (len : Int)

def rescan (m : Memory) (position : Nat) : Memory :=
  if (position : Int) < len then
    rescan (m.storeWord position (rewrite position (m.word position)))
      (position + stride short (m.word position))
  else m
termination_by (len - position).toNat
decreasing_by
  have := stride_bounds short (m.word position)
  omega

theorem rescan_before (m : Memory) (position : Nat)
    (a : Nat) (before : a < position) :
    rescan rewrite short len m position a = m a := by
  fun_induction rescan rewrite short len m position with
  | case1 m position inside ih =>
      rw [ih (by omega), Memory.storeWord_outside _ _ _ _ (.inl before)]
  | case2 => rfl

theorem rescan_storeWord (m : Memory) (position : Nat) (address : Nat) (value : BitVec 32)
    (before : address + 4 ≤ position) :
    rescan rewrite short len (m.storeWord address value) position =
      (rescan rewrite short len m position).storeWord address value := by
  fun_induction rescan rewrite short len m position with
  | case1 m position inside ih =>
      rw [rescan, if_pos inside, Memory.word_storeWord_apart _ _ _ _ (.inr before),
        Memory.storeWord_comm _ _ _ _ _ (.inr before)]
      exact ih (by omega)
  | case2 m position outside => rw [rescan, if_neg outside]

def readings (m : Memory) (position : Nat) : List (Nat × BitVec 32) :=
  if (position : Int) < len then
    (position, m.word position) ::
      readings (m.storeWord position (rewrite position (m.word position)))
        (position + stride short (m.word position))
  else []
termination_by (len - position).toNat
decreasing_by
  have := stride_bounds short (m.word position)
  omega

theorem readings_inside (m : Memory) (position : Nat) (inside : (position : Int) < len) :
    readings rewrite short len m position = (position, m.word position) ::
      readings rewrite short len (m.storeWord position (rewrite position (m.word position)))
        (position + stride short (m.word position)) := by
  rw [readings, if_pos inside]

theorem readings_storeWord (m : Memory) (position : Nat) (address : Nat) (value : BitVec 32)
    (before : address + 4 ≤ position) :
    readings rewrite short len (m.storeWord address value) position =
      readings rewrite short len m position := by
  fun_induction readings rewrite short len m position with
  | case1 m position inside ih =>
      rw [readings, if_pos inside, Memory.word_storeWord_apart _ _ _ _ (.inr before),
        Memory.storeWord_comm _ _ _ _ _ (.inr before), ih (by omega)]
  | case2 m position outside => rw [readings, if_neg outside]

end

/-- A pair of rewritings that undo each other word by word. `Kept` relates a
halfword to what rewriting may leave in its place as the lower half of a word. -/
structure Rewriter where
  forward : Nat → BitVec 32 → BitVec 32
  backward : Nat → BitVec 32 → BitVec 32
  short : BitVec 32 → Bool
  Kept : BitVec 16 → BitVec 16 → Prop
  undo : ∀ position w, backward position (forward position w) = w
  shortForward : ∀ position w, short (forward position w) = short w
  quietForward : ∀ position w, short w = true → forward position w = w
  quietBackward : ∀ position w, short w = true → backward position w = w
  keptRefl : ∀ half, Kept half half
  keptForward : ∀ position w,
    Kept (w.extractLsb' 0 16) ((forward position w).extractLsb' 0 16)
  -- Rewriting the upper half of a short word later leaves it short.
  shortStable : ∀ w v, short w = true → v.extractLsb' 0 16 = w.extractLsb' 0 16 →
    Kept (w.extractLsb' 16 16) (v.extractLsb' 16 16) → short v = true

namespace Rewriter

variable (r : Rewriter) (len : Int)

theorem half_kept (m : Memory) (position : Nat) :
    r.Kept (m.half position) ((rescan r.forward r.short len m position).half position) := by
  rw [rescan]
  split
  · have low := r.keptForward position (m.word position)
    set stored := m.storeWord position (r.forward position (m.word position)) with storedIs
    have here : stored.half position = (r.forward position (m.word position)).extractLsb' 0 16 := by
      rw [← Memory.word_low, storedIs, Memory.word_storeWord]
    have after : (rescan r.forward r.short len stored
        (position + stride r.short (m.word position))).half position = stored.half position := by
      have := stride_bounds r.short (m.word position)
      apply Memory.half_congr <;> exact rescan_before _ _ _ _ _ _ (by omega)
    rwa [after, here, ← Memory.word_low]
  · exact r.keptRefl _

theorem rescan_short {m : Memory} {position : Nat} (inside : (position : Int) < len)
    (isShort : r.short (m.word position) = true) :
    rescan r.forward r.short len m position = rescan r.forward r.short len m (position + 2) ∧
      ((rescan r.forward r.short len m position).word position).extractLsb' 0 16 =
        (m.word position).extractLsb' 0 16 ∧
      r.Kept ((m.word position).extractLsb' 16 16)
        (((rescan r.forward r.short len m position).word position).extractLsb' 16 16) := by
  have same : rescan r.forward r.short len m position =
      rescan r.forward r.short len m (position + 2) := by
    rw [rescan, if_pos inside, stride_short isShort, r.quietForward _ _ isShort,
      Memory.storeWord_word]
  refine ⟨same, ?_, ?_⟩
  · rw [same, Memory.word_low, Memory.word_low]
    apply Memory.half_congr <;> exact rescan_before _ _ _ _ _ _ (by omega)
  · rw [same, Memory.word_high, Memory.word_high]
    exact r.half_kept len m (position + 2)

theorem rescan_long {m : Memory} {position : Nat} (inside : (position : Int) < len)
    (isLong : ¬ r.short (m.word position) = true) :
    (rescan r.forward r.short len m position).word position =
        r.forward position (m.word position) ∧
      (rescan r.forward r.short len m position).storeWord position (m.word position) =
        rescan r.forward r.short len m (position + 4) := by
  rw [rescan, if_pos inside, stride_long isLong]
  constructor
  · rw [Memory.word_congr fun a _ high => rescan_before _ _ _ _ _ a high, Memory.word_storeWord]
  · rw [← rescan_storeWord _ _ _ _ _ _ _ (Nat.le_refl _), Memory.storeWord_storeWord,
      Memory.storeWord_word]

-- Scanning backward after forward restores the memory, although each scan decides
-- by what it reads where to read next.
theorem rescan_undo (m : Memory) (position : Nat) :
    rescan r.backward r.short len (rescan r.forward r.short len m position) position = m := by
  -- The measure is the distance to `len`; both scans stop at the same position.
  induction distance : (len - position).toNat using Nat.strong_induction_on
    generalizing m position with
  | h distance ih =>
      by_cases inside : (position : Int) < len
      · by_cases isShort : r.short (m.word position) = true
        · obtain ⟨same, lower, upper⟩ := r.rescan_short len inside isShort
          have shortStill := r.shortStable _ _ isShort lower upper
          rw [rescan, if_pos inside, stride_short shortStill, r.quietBackward _ _ shortStill,
            Memory.storeWord_word, same]
          exact ih _ (by omega) m (position + 2) rfl
        · obtain ⟨read, restored⟩ := r.rescan_long len inside isShort
          have longStill : ¬ r.short
              ((rescan r.forward r.short len m position).word position) = true := by
            rwa [read, r.shortForward]
          rw [rescan, if_pos inside, stride_long longStill, read, r.undo, restored]
          exact ih _ (by omega) m (position + 4) rfl
      · rw [rescan, if_neg inside, rescan, if_neg inside]

theorem readings_onward {m : Memory} {position : Nat} (inside : (position : Int) < len) :
    readings r.forward r.short len m position = (position, m.word position) ::
      readings r.forward r.short len m (position + stride r.short (m.word position)) := by
  rw [readings_inside _ _ _ _ _ inside]
  by_cases isShort : r.short (m.word position) = true
  · rw [r.quietForward _ _ isShort, Memory.storeWord_word]
  · rw [stride_long isShort, readings_storeWord _ _ _ _ _ _ _ (Nat.le_refl _)]

theorem rescan_injective (position : Nat) :
    Function.Injective fun m => rescan r.forward r.short len m position :=
  Function.LeftInverse.injective (g := fun m => rescan r.backward r.short len m position)
    fun m => r.rescan_undo len m position

section

variable {κ : Type} (kind : BitVec 32 → κ)
  (kindForward : ∀ position w, kind (r.forward position w) = kind w)
  (kindStable : ∀ w v, r.short w = true → v.extractLsb' 0 16 = w.extractLsb' 0 16 →
    r.Kept (w.extractLsb' 16 16) (v.extractLsb' 16 16) → kind v = kind w)

include kindForward kindStable

theorem readings_kind (m : Memory) (position : Nat) :
    (readings r.forward r.short len (rescan r.forward r.short len m position) position).map
        (Prod.map id kind) =
      (readings r.forward r.short len m position).map (Prod.map id kind) := by
  induction distance : (len - position).toNat using Nat.strong_induction_on
    generalizing m position with
  | h distance ih =>
      by_cases inside : (position : Int) < len
      · by_cases isShort : r.short (m.word position) = true
        · obtain ⟨same, lower, upper⟩ := r.rescan_short len inside isShort
          have shortStill := r.shortStable _ _ isShort lower upper
          have kindStill := kindStable _ _ isShort lower upper
          have rest := ih _ (by omega) m (position + 2) rfl
          rw [← same] at rest
          rw [r.readings_onward len inside, r.readings_onward len inside, stride_short shortStill,
            stride_short isShort, List.map_cons, List.map_cons, rest]
          simp [kindStill]
        · obtain ⟨read, restored⟩ := r.rescan_long len inside isShort
          have longStill : ¬ r.short
              ((rescan r.forward r.short len m position).word position) = true := by
            rwa [read, r.shortForward]
          have rest := ih _ (by omega) m (position + 4) rfl
          rw [← restored, readings_storeWord _ _ _ _ _ _ _ (Nat.le_refl _)] at rest
          rw [r.readings_onward len inside, r.readings_onward len inside, stride_long longStill,
            stride_long isShort, List.map_cons, List.map_cons, rest]
          simp [read, kindForward]
      · rw [readings, if_neg inside, readings, if_neg inside]

end

end Rewriter

/-- The words of a scan from `position` on end exactly at `len`. -/
inductive Tiled (short : BitVec 32 → Bool) (len : Int) (m : Memory) : Nat → Prop
  | finish {position : Nat} (here : (position : Int) = len) : Tiled short len m position
  | step {position : Nat} (inside : (position : Int) + 4 ≤ len)
      (rest : Tiled short len m (position + stride short (m.word position))) :
      Tiled short len m position

namespace Rewriter

variable (r : Rewriter) {len : Int} {m : Memory}

theorem readings_fit_iff (position : Nat) (within : (position : Int) ≤ len) :
    (∀ reading ∈ readings r.forward r.short len m position, (reading.1 : Int) + 4 ≤ len) ↔
      Tiled r.short len m position := by
  induction distance : (len - position).toNat using Nat.strong_induction_on
    generalizing position with
  | h distance ih =>
      by_cases inside : (position : Int) < len
      · have far := stride_bounds r.short (m.word position)
        rw [r.readings_onward len inside, List.forall_mem_cons]
        constructor
        · intro ⟨fits, rest⟩
          apply Tiled.step fits
          have inner : (position : Int) + 4 ≤ len := fits
          have further := ih _ (by omega) (position + stride r.short (m.word position))
            (by omega) rfl
          exact further.mp rest
        · intro tiled
          cases tiled with
          | finish here => omega
          | step fits tiled =>
              have rest := (ih _ (by omega) _ (by omega) rfl).mpr tiled
              exact ⟨fits, rest⟩
      · rw [readings, if_neg inside]
        exact ⟨fun _ => .finish (by omega), by simp⟩

theorem rescan_onward {position : Nat} (inside : (position : Int) < len) (a : Nat) :
    rescan r.forward r.short len m position a =
      if a < position + stride r.short (m.word position) then
        m.storeWord position (r.forward position (m.word position)) a
      else rescan r.forward r.short len m (position + stride r.short (m.word position)) a := by
  rw [rescan, if_pos inside]
  split
  next before => exact rescan_before _ _ _ _ _ a before
  next after =>
    by_cases isShort : r.short (m.word position) = true
    · rw [r.quietForward _ _ isShort, Memory.storeWord_word]
    · rw [stride_long isShort] at after ⊢
      rw [rescan_storeWord _ _ _ _ _ _ _ (Nat.le_refl _),
        Memory.storeWord_outside _ _ _ _ (.inr (by omega))]

theorem readings_same {n : Memory} {position : Nat} (tiled : Tiled r.short len m position)
    (same : ∀ a : Nat, (a : Int) < len → n a = m a) :
    readings r.forward r.short len n position = readings r.forward r.short len m position := by
  induction tiled with
  | finish here => rw [readings, if_neg (by omega), readings, if_neg (by omega)]
  | @step position inside rest ih =>
      have word : n.word position = m.word position :=
        Memory.word_congr fun b _ high => same b (by omega)
      have before : (position : Int) < len := by omega
      rw [r.readings_onward len before, r.readings_onward len before, word, ih]

theorem rescan_same {n : Memory} {position : Nat} (tiled : Tiled r.short len m position)
    (same : ∀ a : Nat, (a : Int) < len → n a = m a) (a : Nat) (before : (a : Int) < len) :
    rescan r.forward r.short len n position a = rescan r.forward r.short len m position a := by
  induction tiled with
  | @finish position here =>
      have stopped : ¬ (position : Int) < len := by omega
      rw [rescan, if_neg stopped, rescan, if_neg stopped, same a before]
  | @step position inside rest ih =>
      have word : n.word position = m.word position :=
        Memory.word_congr fun b _ high => same b (by omega)
      rw [r.rescan_onward (m := n) (by omega), r.rescan_onward (m := m) (by omega), word, ih]
      split
      next =>
        rw [Memory.storeWord, Memory.storeWord, same a before]
      next => rfl

theorem rescan_beyond {position : Nat} (tiled : Tiled r.short len m position) (a : Nat)
    (beyond : len ≤ a) : rescan r.forward r.short len m position a = m a := by
  induction tiled with
  | finish here => rw [rescan, if_neg (by omega)]
  | @step position inside rest ih =>
      have far := stride_bounds r.short (m.word position)
      rw [r.rescan_onward (by omega), if_neg (by omega), ih]

end Rewriter

end VitaTools.Library
