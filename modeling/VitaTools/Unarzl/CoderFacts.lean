import Mathlib.Tactic.Ring
import VitaTools.Unarzl.RangeCoder

set_option autoImplicit false

namespace VitaTools.Unarzl

open VitaTools.Library

namespace Coder

/-- `after` used the cells `before` used and further ones, all with `inside`. -/
def Touches (inside : Int → Prop) (before after : Coder) : Prop :=
  ∃ new, after.touched = new ++ before.touched ∧ ∀ touch ∈ new, inside touch.index

theorem Touches.refl (inside : Int → Prop) (c : Coder) : Touches inside c c := ⟨[], by simp⟩

theorem Touches.trans {inside : Int → Prop} {a b c : Coder} (first : Touches inside a b)
    (second : Touches inside b c) : Touches inside a c := by
  obtain ⟨old, oldTouched, oldInside⟩ := first
  obtain ⟨new, newTouched, newInside⟩ := second
  refine ⟨new ++ old, by rw [newTouched, oldTouched, List.append_assoc], ?_⟩
  intro touch member
  rcases List.mem_append.mp member with fresh | earlier
  · exact newInside touch fresh
  · exact oldInside touch earlier

theorem Touches.mono {inside wider : Int → Prop} {a b : Coder} (touches : Touches inside a b)
    (implies : ∀ index, inside index → wider index) : Touches wider a b := by
  obtain ⟨new, touched, within⟩ := touches
  exact ⟨new, touched, fun touch member => implies _ (within touch member)⟩

theorem Touches.subset {inside : Int → Prop} {a b : Coder} (touches : Touches inside a b)
    {touch : Touch} (member : touch ∈ a.touched) : touch ∈ b.touched := by
  obtain ⟨new, touched, _⟩ := touches
  rw [touched]
  exact List.mem_append_right new member

theorem Touches.all {inside : Int → Prop} {a b : Coder} (touches : Touches inside a b)
    (before : ∀ touch ∈ a.touched, inside touch.index) :
    ∀ touch ∈ b.touched, inside touch.index := by
  obtain ⟨new, touched, within⟩ := touches
  intro touch member
  rw [touched] at member
  rcases List.mem_append.mp member with fresh | earlier
  · exact within touch fresh
  · exact before touch earlier

variable (input : Memory)

@[simp] theorem renorm_touched (c : Coder) : (c.renorm input).touched = c.touched := by
  unfold renorm
  split <;> rfl

theorem decodeBit_touched (c : Coder) (index : Int) (shift step : Nat) :
    (c.decodeBit input index shift step).2.touched =
      ⟨index, c.v109 index, (c.renorm input).v10⟩ :: c.touched := by
  dsimp only [decodeBit]
  split <;> simp only [renorm_touched]

theorem decodeBit_touches (inside : Int → Prop) (c : Coder) (index : Int) (shift step : Nat)
    (here : inside index) : Touches inside c (c.decodeBit input index shift step).2 :=
  ⟨[⟨index, c.v109 index, (c.renorm input).v10⟩], decodeBit_touched input c index shift step,
    by simpa using here⟩

theorem directBits_touched (count value : Nat) (c : Coder) :
    (directBits count value c).2.touched = c.touched := by
  induction count generalizing value c with
  | zero => rfl
  | succ count ih =>
      dsimp only [directBits]
      split <;> rw [ih]

theorem doubled_enough {limit : Nat} (fuel value : Nat) (bit : Bool) (step : Nat)
    (enough : limit ≤ value * 2 ^ (fuel + 1)) :
    limit ≤ (2 * value + step * bit.toNat) * 2 ^ fuel := by
  calc limit ≤ value * 2 ^ (fuel + 1) := enough
    _ = 2 * value * 2 ^ fuel := by ring
    _ ≤ (2 * value + step * bit.toNat) * 2 ^ fuel :=
      Nat.mul_le_mul_right _ (Nat.le_add_right _ _)

theorem literalLoop_touches (v13 : Int) (fuel v9 : Nat) (c : Coder) (positive : 1 ≤ v9)
    (small : v9 ≤ 255) :
    Touches (fun index => v13 ≤ index ∧ index ≤ v13 + 254) c
      (c.literalLoop input v13 fuel v9).2 := by
  induction fuel generalizing v9 c with
  | zero => exact .refl _ c
  | succ fuel ih =>
      have first := decodeBit_touches input (fun index => v13 ≤ index ∧ index ≤ v13 + 254)
        c (v13 + v9 - 1) 3 31 (by constructor <;> omega)
      dsimp only [literalLoop]
      split
      · rename_i again
        exact first.trans (ih _ _ (by omega) again)
      · exact first

theorem classLoop_range (v19 : Int) (fuel : Nat) (v28 : Int) (c : Coder) (bound : v28 + fuel ≤ 6) :
    v28 ≤ (c.classLoop input v19 fuel v28).1 ∧ (c.classLoop input v19 fuel v28).1 ≤ 6 := by
  induction fuel generalizing v19 v28 c with
  | zero =>
      constructor
      · exact le_refl _
      · dsimp only [classLoop]
        omega
  | succ fuel ih =>
      dsimp only [classLoop]
      split_ifs
      · constructor <;> dsimp only <;> omega
      · have rest := ih (v19 + 8) (v28 + 1) (c.flagBit input (v19 + 2928)).2 (by omega)
        constructor <;> omega
      · constructor <;> dsimp only <;> omega

theorem classLoop_touches (v19 : Int) (fuel : Nat) (v28 : Int) (c : Coder) (high : Int)
    (bound : v19 + 2920 + 8 * fuel ≤ high) :
    Touches (fun index => v19 + 2928 ≤ index ∧ index ≤ high) c
      (c.classLoop input v19 fuel v28).2 := by
  induction fuel generalizing v19 v28 c with
  | zero => exact .refl _ c
  | succ fuel ih =>
      have first := decodeBit_touches input
        (fun index => v19 + 2928 ≤ index ∧ index ≤ high) c (v19 + 2928) 4 15
        (by constructor <;> omega)
      dsimp only [classLoop]
      split_ifs
      · exact first
      · have rest := ih (v19 + 8) (v28 + 1) (c.flagBit input (v19 + 2928)).2 (by omega)
        exact first.trans (rest.mono fun index within => by omega)
      · exact first

theorem positionLoop_leaves (v34 : Int) (v105 fuel v61 : Nat) (c : Coder)
    (enough : v105 ≤ v61 * 2 ^ fuel) (below : v61 < v105) (eighths : 8 ∣ v61) :
    v105 ≤ (c.positionLoop input v34 v105 fuel v61).1 ∧
      8 ∣ (c.positionLoop input v34 v105 fuel v61).1 := by
  induction fuel generalizing v61 c with
  | zero => omega
  | succ fuel ih =>
      dsimp only [positionLoop]
      split
      · rename_i again
        exact ih _ _ (doubled_enough fuel v61 _ 8 enough) again (by omega)
      · constructor
        · dsimp only
          omega
        · dsimp only
          omega

theorem positionLoop_touches (v34 : Int) (v105 fuel v61 : Nat) (c : Coder) (below : v61 < v105) :
    Touches (fun index => v34 + 2033 ≤ index ∧ index < v34 + v105 + 2033) c
      (c.positionLoop input v34 v105 fuel v61).2 := by
  induction fuel generalizing v61 c with
  | zero => exact .refl _ c
  | succ fuel ih =>
      have first := decodeBit_touches input
        (fun index => v34 + 2033 ≤ index ∧ index < v34 + v105 + 2033)
        c (v34 + v61 + 2033) 3 31 (by constructor <;> omega)
      dsimp only [positionLoop]
      split
      · rename_i again
        exact first.trans (ih _ _ again)
      · exact first

theorem append_touches {inside : Int → Prop} (index : Int) (p : Nat × Coder)
    (here : inside index) : Touches inside p.2 (append input index p).2 :=
  decodeBit_touches input inside p.2 index 4 15 here

theorem direct_touches (inside : Int → Prop) (count : Nat) (p : Nat × Coder) :
    Touches inside p.2 (directBits count p.1 (p.2.renorm input)).2 :=
  ⟨[], by rw [directBits_touched, renorm_touched, List.nil_append], by simp⟩

theorem codeBits_rest (inside : Int → Prop) (cell : Int) (n : Nat) (c : Coder)
    (first : inside cell) (second : n ≠ 0 → inside (cell + 8))
    (third : n ≠ 0 → n ≠ 1 → inside (cell + 16)) (fourth : 3 ≤ n → inside (cell + 24)) :
    Touches inside (append input cell (1, c)).2 (c.codeBits input cell n).2 := by
  dsimp only [codeBits]
  set p := append input cell (1, c)
  -- The part with the direct bits, present from four bits on.
  have middle : Touches inside p.2 (if 3 ≤ n then
      append input (cell + 24) (if n ≠ 3 then
          if n ≠ 4 then directBits (n - 4) (append input cell p).1
              ((append input cell p).2.renorm input)
            else append input cell p
        else p)
      else p).2 := by
    split
    · rename_i long
      have repeated := append_touches input cell p first
      have high : Touches inside p.2 (if n ≠ 3 then
          if n ≠ 4 then directBits (n - 4) (append input cell p).1
              ((append input cell p).2.renorm input)
            else append input cell p
        else p).2 := by
        split_ifs
        · exact repeated.trans (direct_touches input inside _ _)
        · exact repeated
        · exact .refl _ _
      exact high.trans (append_touches input _ _ (fourth long))
    · exact .refl _ _
  generalize (if 3 ≤ n then
      append input (cell + 24) (if n ≠ 3 then
          if n ≠ 4 then directBits (n - 4) (append input cell p).1
              ((append input cell p).2.renorm input)
            else append input cell p
        else p)
      else p) = q at middle ⊢
  split_ifs with some more
  · exact (middle.trans (append_touches input _ _ (second some))).trans
      (append_touches input _ _ (third some more))
  · exact middle.trans (append_touches input _ _ (second some))
  · exact middle

theorem codeBits_touches (inside : Int → Prop) (cell : Int) (n : Nat) (c : Coder)
    (first : inside cell) (second : n ≠ 0 → inside (cell + 8))
    (third : n ≠ 0 → n ≠ 1 → inside (cell + 16)) (fourth : 3 ≤ n → inside (cell + 24)) :
    Touches inside c (c.codeBits input cell n).2 :=
  (append_touches input cell (1, c) first).trans
    (codeBits_rest input inside cell n c first second third fourth)

theorem codeBits_first (cell : Int) (n : Nat) (c : Coder) :
    ∃ touch ∈ (c.codeBits input cell n).2.touched, touch.index = cell := by
  have start : ⟨cell, c.v109 cell, (c.renorm input).v10⟩ ∈
      (append input cell (1, c)).2.touched := by
    dsimp only [append, flagBit]
    rw [decodeBit_touched]
    exact List.mem_cons_self
  have rest := codeBits_rest input (fun _ => True) cell n c trivial
    (fun _ => trivial) (fun _ _ => trivial) (fun _ => trivial)
  exact ⟨_, rest.subset start, rfl⟩

end Coder

end VitaTools.Unarzl
