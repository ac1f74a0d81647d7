import VitaTools.Unarzl.Output

set_option autoImplicit false

namespace VitaTools.Unarzl

open VitaTools.Library

/-- `v109[index]` exists. -/
def InTable (index : Int) : Prop := 0 ≤ index ∧ index < 3240

namespace Decoder

variable (p : Args)

def Bounds (s : Decoder) : Prop :=
  s.v11 ≤ 7 ∧
  match s.pc with
  | .length => 0 ≤ s.v28 ∧ s.v28 ≤ 6 ∧ s.v34 = s.v28
  | .position =>
      -1 ≤ s.v28 ∧ s.v28 ≤ 6 ∧
        (s.v105 = 64 ∧ s.v34 = s.v28 + 248 ∨ s.v105 = 256 ∧ s.v34 = s.v28 ∧ 0 ≤ s.v28)
  | .distance => 1 ≤ s.slot
  | .literal | .store | .copy | .done _ => True

theorem bounds_start (out : Memory) : Bounds (p.start out) := ⟨Nat.zero_le _, trivial⟩

theorem literalTree_le (s : Decoder) : s.literalTree p ≤ 1785 := by
  unfold literalTree
  have low : ∀ n : Nat, n &&& 7 ≤ 7 := fun n => Nat.and_le_right
  exact Nat.mul_le_mul_left 255 (low _)

theorem or_cells (row column : Nat) (below : column < 32) :
    32 * row ||| column = 32 * row + column :=
  (Nat.two_pow_add_eq_or_of_lt (i := 5) below row).symm

theorem column_lt (x y : Nat) (low : y ≤ 7) : 8 * (x &&& 3) ||| y < 32 := by
  have high : x &&& 3 ≤ 3 := Nat.and_le_right
  exact Nat.or_lt_two_pow (n := 5) (by omega) (by omega)

theorem lengthCell_le (s : Decoder) (upper : s.v28 ≤ 6) : s.lengthCell p ≤ 223 := by
  unfold lengthCell
  have column := column_lt (((p.buffer + s.v8) % 2 ^ 32) <<< s.v28.toNat % 2 ^ 32) (s.v11 &&& 7)
    Nat.and_le_right
  rw [Nat.or_assoc, or_cells _ _ column]
  omega

theorem distanceCell_row (s : Decoder) : ∃ column,
    s.distanceCell = 32 * (s.slot - 1) + column ∧ column < 32 ∧ (3 ≤ s.slot → column < 8) := by
  unfold distanceCell
  dsimp only
  generalize (if s.v35 ≤ 2 then 0 else 1) = v67
  have low : (s.v28 % 8).toNat ≤ 7 := by omega
  have column := column_lt (v67 <<< (s.slot - 1)) _ low
  refine ⟨8 * (v67 <<< (s.slot - 1) &&& 3) ||| (s.v28 % 8).toNat, ?_, column, ?_⟩
  · rw [Nat.or_comm (8 * _) (32 * _), Nat.or_assoc, or_cells _ _ column]
  · intro far
    have multiple : v67 <<< (s.slot - 1) &&& 3 = 0 := by
      rw [show s.slot - 1 = s.slot - 3 + 2 by omega, Nat.shiftLeft_eq, Nat.pow_add,
        ← Nat.mul_assoc]
      exact (Nat.and_two_pow_sub_one_eq_mod _ 2).trans (Nat.mul_mod_left _ _)
    rw [multiple]
    simpa using Nat.lt_succ_of_le low

theorem distanceCell_inside (s : Decoder) (near : s.slot ≤ 28) : s.distanceCell + 24 ≤ 895 := by
  obtain ⟨column, cell, below, first⟩ := distanceCell_row s
  omega

theorem distanceCell_outside (s : Decoder) (far : 28 < s.slot) : 896 ≤ s.distanceCell := by
  obtain ⟨column, cell, _⟩ := distanceCell_row s
  omega

theorem copyLoop_frame (count v95 : Nat) (s : Decoder) :
    (copyLoop count v95 s).coder = s.coder := by
  induction count generalizing v95 s with
  | zero => rfl
  | succ count ih =>
      dsimp only [copyLoop]
      rw [ih]

theorem step_bounds (s : Decoder) (bounds : Bounds s) : Bounds (s.step p) := by
  obtain ⟨small, located⟩ := bounds
  unfold step
  cases pc : s.pc <;> simp only [pc] at located <;> dsimp only
  case literal =>
    unfold stepLiteral
    split_ifs <;> exact ⟨small, trivial⟩
  case store =>
    have range := Coder.classLoop_range p.input s.v11 7 (-1)
      (s.coder.flagBit p.input (s.v11 + 2920)).2 (by norm_num)
    unfold stepStore
    dsimp only
    split_ifs with flag none
    · exact ⟨small, range.1, range.2, .inl ⟨rfl, rfl⟩⟩
    · refine ⟨small, ?_, range.2, rfl⟩
      dsimp only
      omega
    · exact ⟨le_trans (Nat.sub_le _ _) small, trivial⟩
  case length =>
    obtain ⟨lower, upper, start⟩ := located
    unfold stepLength
    dsimp only
    split_ifs
    · exact ⟨small, trivial⟩
    · exact ⟨small, by dsimp only; omega, upper, .inr ⟨rfl, start, lower⟩⟩
    · exact ⟨small, by dsimp only; omega, upper, .inl ⟨rfl, by dsimp only; omega⟩⟩
  case position =>
    obtain ⟨lower, upper, size⟩ := located
    have leaves := Coder.positionLoop_leaves p.input s.v34 s.v105 5 8 s.coder (by omega)
      (by omega) (by omega)
    unfold stepPosition
    dsimp only
    split_ifs with far
    · refine ⟨small, ?_⟩
      dsimp only [slot]
      rw [Nat.shiftRight_eq_div_pow]
      omega
    · exact ⟨small, trivial⟩
  case distance => exact ⟨small, trivial⟩
  case copy =>
    unfold stepCopy
    dsimp only
    split_ifs
    · exact ⟨small, trivial⟩
    · exact ⟨by norm_num, trivial⟩
    · exact ⟨small, trivial⟩
  case done ret => exact ⟨small, by rw [pc]; trivial⟩

theorem step_touches (s : Decoder) (bounds : Bounds s) :
    Coder.Touches (fun index => InTable index ∨ s.pc = .distance ∧ 28 < s.slot) s.coder
      (s.step p).coder := by
  obtain ⟨small, located⟩ := bounds
  suffices Coder.Touches (fun index => InTable index ∨ s.pc = .distance ∧ 28 < s.slot) s.coder
      (s.step p).coder from this
  unfold step
  cases pc : s.pc <;> simp only [pc] at located <;> dsimp only
  case literal =>
    have tree := literalTree_le p s
    have touches := Coder.literalLoop_touches p.input (s.literalTree p) 8 1 s.coder (le_refl _)
      (by norm_num)
    unfold stepLiteral
    split_ifs
    · exact .refl _ _
    · refine touches.mono fun index within => .inl ?_
      unfold InTable
      omega
  case store =>
    have flag := Coder.decodeBit_touches p.input (fun index => InTable index ∨ False) s.coder
      (s.v11 + 2920) 4 15
      (by unfold InTable; omega)
    have classes := Coder.classLoop_touches p.input s.v11 7 (-1)
      (s.coder.flagBit p.input (s.v11 + 2920)).2 2983 (by omega)
    replace classes := classes.mono (fun index within =>
      (.inl ⟨by omega, by omega⟩ : InTable index ∨ False))
    unfold stepStore
    simp only [reduceCtorEq, false_and]
    split_ifs
    · exact flag.trans classes
    · exact flag.trans classes
    · exact flag
  case length =>
    have cell := lengthCell_le p s located.2.1
    have touches := Coder.codeBits_touches p.input (fun index => InTable index ∨ False)
      (s.lengthCell p + 2984) s.v28.toNat s.coder (.inl ⟨by omega, by omega⟩)
      (fun _ => .inl ⟨by omega, by omega⟩) (fun _ _ => .inl ⟨by omega, by omega⟩)
      (fun _ => .inl ⟨by omega, by omega⟩)
    unfold stepLength
    simp only [reduceCtorEq, false_and]
    split_ifs <;> exact touches
  case position =>
    obtain ⟨lower, upper, size⟩ := located
    have touches := Coder.positionLoop_touches p.input s.v34 s.v105 5 8 s.coder (by omega)
    replace touches := touches.mono (fun index within =>
      (.inl ⟨by omega, by omega⟩ : InTable index ∨ False))
    unfold stepPosition
    simpa only [reduceCtorEq, false_and] using touches
  case distance =>
    have cells : ∀ offset : Int, 0 ≤ offset → offset ≤ 24 →
        InTable (s.distanceCell + 2344 + offset) ∨ 28 < s.slot := by
      intro offset lower upper
      by_cases far : 28 < s.slot
      · exact .inr far
      · have cell := distanceCell_inside s (by omega)
        exact .inl ⟨by omega, by omega⟩
    unfold stepDistance
    simp only [true_and]
    exact Coder.codeBits_touches p.input _ _ _ _ (by simpa using cells 0 (by omega) (by omega))
      (fun _ => cells 8 (by omega) (by omega)) (fun _ _ => cells 16 (by omega) (by omega))
      (fun _ => cells 24 (by omega) (by omega))
  case copy =>
    unfold stepCopy
    dsimp only
    split_ifs
    · exact .refl _ _
    · dsimp only
      rw [copyLoop_frame]
      exact .refl _ _
    · exact .refl _ _
  case done ret => exact .refl _ _

theorem step_outside (s : Decoder) (pc : s.pc = .distance) (far : 28 < s.slot) :
    ∃ touch ∈ (s.step p).coder.touched, 3240 ≤ touch.index := by
  have cell := distanceCell_outside s far
  obtain ⟨touch, member, index⟩ := Coder.codeBits_first p.input (s.distanceCell + 2344)
    (s.slot - 1) s.coder
  refine ⟨touch, ?_, by omega⟩
  unfold step
  rw [pc]
  exact member

theorem run_bounds (n : Nat) (s : Decoder) (bounds : Bounds s) : Bounds (s.run p n) := by
  induction n generalizing s with
  | zero => exact bounds
  | succ n ih => exact ih (s.step p) (step_bounds p s bounds)

theorem run_subset (n : Nat) (s : Decoder) (bounds : Bounds s) {touch : Touch}
    (member : touch ∈ s.coder.touched) : touch ∈ (s.run p n).coder.touched := by
  induction n generalizing s with
  | zero => exact member
  | succ n ih => exact ih _ (step_bounds p s bounds) ((step_touches p s bounds).subset member)

theorem run_succ (n : Nat) (s : Decoder) : s.run p (n + 1) = (s.run p n).step p := by
  rw [run_add]
  rfl

theorem run_inside (n : Nat) (s : Decoder) (bounds : Bounds s)
    (start : ∀ touch ∈ s.coder.touched, InTable touch.index)
    (near : ∀ k < n, (s.run p k).pc = .distance → (s.run p k).slot ≤ 28) :
    ∀ touch ∈ (s.run p n).coder.touched, InTable touch.index := by
  induction n with
  | zero => exact start
  | succ n ih =>
      have earlier := ih fun k below => near k (by omega)
      have touches := step_touches p _ (run_bounds p n s bounds)
      rw [run_succ]
      refine (touches.mono fun index within => ?_).all earlier
      rcases within with inside | ⟨pc, far⟩
      · exact inside
      · exact absurd (near n (by omega) pc) (by omega)

theorem near_of_inside {n : Nat} {s : Decoder} (bounds : Bounds s)
    (inside : ∀ touch ∈ (s.run p n).coder.touched, InTable touch.index) :
    ∀ k < n, (s.run p k).pc = .distance → (s.run p k).slot ≤ 28 := by
  intro k below pc
  by_contra far
  obtain ⟨touch, member, outside⟩ := step_outside p _ pc (by omega)
  rw [← run_succ] at member
  have later := run_subset p (n - (k + 1)) _ (run_bounds p (k + 1) s bounds) member
  rw [← run_add, Nat.add_sub_cancel' below] at later
  have low := (inside touch later).2
  omega

end Decoder

/-- The indices `arzl_decompress` uses stay in the table exactly when no step of its run
decodes a distance above slot 28. -/
theorem arzlDecompress_inTable_iff (p : Args) (out : Memory) :
    (∀ touch ∈ (arzlDecompress p out).coder.touched, 0 ≤ touch.index ∧ touch.index < 3240) ↔
      (p.compressed = true → ∀ n, ((p.start out).run p n).pc = .distance →
        ((p.start out).run p n).slot ≤ 28) := by
  have bounds := Decoder.bounds_start p out
  by_cases mode : p.compressed = true
  · have result : arzlDecompress p out = (p.start out).run p (6 * (p.buflen + 1)) := by
      rw [arzlDecompress, if_pos mode]
    rw [result]
    constructor
    · intro inside _ n pc
      rcases Nat.lt_or_ge n (6 * (p.buflen + 1)) with running | later
      · exact Decoder.near_of_inside p bounds inside n running pc
      · -- The run has returned by then.
        obtain ⟨ret, stopped⟩ := Decoder.start_returns p out
        rw [← Nat.add_sub_cancel' later, Decoder.run_add, Decoder.run_done p stopped,
          stopped] at pc
        cases pc
    · intro near
      exact Decoder.run_inside p _ _ bounds (fun _ member => absurd member List.not_mem_nil)
        fun k _ => near mode k
  · rw [arzlDecompress, if_neg mode]
    constructor
    · intro _ compressed
      exact absurd compressed mode
    · intro _ touch member
      unfold storedMode at member
      split_ifs at member <;> exact absurd member List.not_mem_nil

def farStream : Args :=
  ⟨fun k => [71, 168, 33, 81, 144, 43, 177, 20].getD k 0, 0, 1⟩

theorem farStream_leaves_table :
    ¬ ∀ touch ∈ (arzlDecompress farStream fun _ => 0).coder.touched,
      0 ≤ touch.index ∧ touch.index < 3240 := by
  decide +kernel

end VitaTools.Unarzl
