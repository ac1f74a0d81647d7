import VitaTools.Unarzl.TableSafety

set_option autoImplicit false

namespace VitaTools.Unarzl

open VitaTools.Library

/-- A cell of `v109` that neither outcome of a bit shuts out. -/
def Balanced (prob : Nat) : Prop := 7 ≤ prob ∧ prob ≤ 248

def Adapts (shift step : Nat) : Prop :=
  ∀ prob, Balanced prob →
    Balanced (prob - prob / 2 ^ shift) ∧ Balanced (prob - prob / 2 ^ shift + step)

theorem adapts_tree : Adapts 3 31 := by
  intro prob ⟨lower, upper⟩
  unfold Balanced
  omega

theorem adapts_flag : Adapts 4 15 := by
  intro prob ⟨lower, upper⟩
  unfold Balanced
  omega

/-- The bit split a range that was open into two open parts, within 32 bits, and
adapting its cell by either rule fits a byte. -/
structure Splits (touch : Touch) : Prop where
  balanced : Balanced touch.prob
  tree : touch.prob - touch.prob / 2 ^ 3 + 31 < 2 ^ 8
  flag : touch.prob - touch.prob / 2 ^ 4 + 15 < 2 ^ 8
  range : touch.range ≠ 0
  within : touch.prob * (touch.range / 2 ^ 8) < 2 ^ 32
  lower : 0 < touch.prob * (touch.range / 2 ^ 8)
  upper : touch.prob * (touch.range / 2 ^ 8) < touch.range

theorem splits_of_open {touch : Touch} (balanced : Balanced touch.prob)
    (wide : 2 ^ 8 ≤ touch.range) (fits : touch.range < 2 ^ 32) : Splits touch := by
  have tree := (adapts_tree _ balanced).2.2
  have flag := (adapts_flag _ balanced).2.2
  have some : 0 < touch.range / 2 ^ 8 := by omega
  have upper : touch.prob * (touch.range / 2 ^ 8) < touch.range := by
    calc touch.prob * (touch.range / 2 ^ 8)
        ≤ 248 * (touch.range / 2 ^ 8) := Nat.mul_le_mul_right _ balanced.2
      _ < touch.range := by omega
  constructor
  next => exact balanced
  next => omega
  next => omega
  next => omega
  next => omega
  next => exact Nat.mul_pos (by have := balanced.1; omega) some
  next => exact upper

namespace Coder

/-- The range is at least `low`, every cell is balanced and every bit so far has split
its range. -/
structure Healthy (low : Nat) (c : Coder) : Prop where
  cells : ∀ index, Balanced (c.v109 index)
  wide : low ≤ c.v10
  fits : c.v10 < 2 ^ 32
  past : ∀ touch ∈ c.touched, Splits touch

theorem Healthy.weaken {low lower : Nat} {c : Coder} (healthy : Healthy low c)
    (less : lower ≤ low) : Healthy lower c :=
  { healthy with wide := less.trans healthy.wide }

variable (input : Memory)

theorem renorm_v109 (c : Coder) : (c.renorm input).v109 = c.v109 := by
  unfold renorm
  split <;> rfl

theorem renorm_v10 {c : Coder} (fits : c.v10 < 2 ^ 32) :
    (c.renorm input).v10 = if c.v10 < 2 ^ 24 then c.v10 * 2 ^ 8 else c.v10 := by
  unfold renorm
  split_ifs
  · dsimp only
    omega
  · omega
  · omega
  · rfl

theorem renorm_healthy {low : Nat} {c : Coder} (healthy : Healthy low c) :
    Healthy (min (2 ^ 8 * low) (2 ^ 24)) (c.renorm input) := by
  have wide := healthy.wide
  have fits := healthy.fits
  constructor
  next => simpa only [renorm_v109] using healthy.cells
  next =>
    rw [renorm_v10 input fits]
    split <;> omega
  next =>
    rw [renorm_v10 input fits]
    split <;> omega
  next => simpa only [renorm_touched] using healthy.past

-- What a modelled bit leaves of a range of at least `low`.
def widened (low : Nat) : Nat := min (7 * low) (7 * 2 ^ 16)

theorem decodeBit_healthy {shift step : Nat} (adapts : Adapts shift step) {low : Nat}
    (positive : 1 ≤ low) {c : Coder} (healthy : Healthy low c) (index : Int) :
    Healthy (widened low) (c.decodeBit input index shift step).2 := by
  have cell := healthy.cells index
  have renormed := renorm_healthy input healthy
  have wide := renormed.wide
  have fits := renormed.fits
  set r := c.renorm input with rIs
  have splits : Splits ⟨index, c.v109 index, r.v10⟩ :=
    splits_of_open cell (by dsimp only; omega) fits
  obtain ⟨smaller, larger⟩ := adapts _ cell
  have bound := Nat.mod_eq_of_lt splits.within
  have upper := splits.upper
  -- The two parts of the range: p and 256 - p of 256, rounded down.
  have lowerPart : widened low ≤ c.v109 index * (r.v10 / 2 ^ 8) := by
    calc widened low ≤ 7 * (r.v10 / 2 ^ 8) := by unfold widened; omega
      _ ≤ c.v109 index * (r.v10 / 2 ^ 8) := Nat.mul_le_mul_right _ cell.1
  have upperPart : widened low ≤ r.v10 - c.v109 index * (r.v10 / 2 ^ 8) := by
    have most : c.v109 index * (r.v10 / 2 ^ 8) ≤ 248 * (r.v10 / 2 ^ 8) :=
      Nat.mul_le_mul_right _ cell.2
    unfold widened
    omega
  have touched : ∀ touch ∈ (c.decodeBit input index shift step).2.touched, Splits touch := by
    rw [decodeBit_touched, List.forall_mem_cons]
    exact ⟨splits, healthy.past⟩
  dsimp only at bound upper
  have updated (value : Nat) (balanced : Balanced value) (other : Int) :
      Balanced (Function.update r.v109 index value other) := by
    by_cases same : other = index
    · rwa [same, Function.update_self]
    · rw [Function.update_of_ne same]
      exact renormed.cells other
  unfold decodeBit at touched ⊢
  dsimp only at touched ⊢
  rw [← rIs, bound] at touched ⊢
  split_ifs at touched ⊢
  · constructor
    next => exact updated _ smaller
    next => dsimp only; omega
    next => dsimp only; omega
    next => exact touched
  · constructor
    next =>
      apply updated
      rw [Nat.mod_eq_of_lt (by have := larger.2; omega)]
      exact larger
    next => exact lowerPart
    next => dsimp only; omega
    next => exact touched

theorem treeBit_healthy {low : Nat} (positive : 1 ≤ low) {c : Coder} (healthy : Healthy low c)
    (index : Int) : Healthy (widened low) (c.treeBit input index).2 :=
  decodeBit_healthy input adapts_tree positive healthy index

theorem flagBit_healthy {low : Nat} (positive : 1 ≤ low) {c : Coder} (healthy : Healthy low c)
    (index : Int) : Healthy (widened low) (c.flagBit input index).2 :=
  decodeBit_healthy input adapts_flag positive healthy index

theorem append_healthy {low : Nat} (positive : 1 ≤ low) {p : Nat × Coder}
    (healthy : Healthy low p.2) (index : Int) :
    Healthy (widened low) (append input index p).2 :=
  flagBit_healthy input positive healthy index

theorem directBits_healthy {low : Nat} (count value : Nat) {c : Coder}
    (healthy : Healthy (low * 2 ^ count) c) : Healthy low (directBits count value c).2 := by
  induction count generalizing value c with
  | zero => exact healthy.weaken (by omega)
  | succ count ih =>
      have wide := healthy.wide
      rw [Nat.pow_succ] at wide
      have half : low * 2 ^ count ≤ c.v10 / 2 := by
        rw [Nat.le_div_iff_mul_le (by decide), Nat.mul_assoc]
        exact wide
      have fits : c.v10 / 2 < 2 ^ 32 := (Nat.div_le_self _ _).trans_lt healthy.fits
      dsimp only [directBits]
      split
      · exact ih _ ⟨healthy.cells, half, fits, healthy.past⟩
      · exact ih _ ⟨healthy.cells, half, fits, healthy.past⟩

section

variable {low : Nat} (positive : 1 ≤ low) (ceiling : low ≤ 7 * 2 ^ 16)

include positive ceiling

theorem le_widened : low ≤ widened low := by
  unfold widened
  omega

theorem literalLoop_healthy (v13 : Int) (fuel v9 : Nat) {c : Coder} (healthy : Healthy low c) :
    Healthy low (c.literalLoop input v13 fuel v9).2 := by
  induction fuel generalizing v9 c with
  | zero => exact healthy
  | succ fuel ih =>
      have first := (treeBit_healthy input positive healthy (v13 + v9 - 1)).weaken
        (le_widened positive ceiling)
      dsimp only [literalLoop]
      split
      · exact ih _ first
      · exact first

theorem classLoop_healthy (v19 : Int) (fuel : Nat) (v28 : Int) {c : Coder}
    (healthy : Healthy low c) : Healthy low (c.classLoop input v19 fuel v28).2 := by
  induction fuel generalizing v19 v28 c with
  | zero => exact healthy
  | succ fuel ih =>
      have first := (flagBit_healthy input positive healthy (v19 + 2928)).weaken
        (le_widened positive ceiling)
      dsimp only [classLoop]
      split_ifs
      · exact first
      · exact ih _ _ first
      · exact first

theorem positionLoop_healthy (v34 : Int) (v105 fuel v61 : Nat) {c : Coder}
    (healthy : Healthy low c) : Healthy low (c.positionLoop input v34 v105 fuel v61).2 := by
  induction fuel generalizing v61 c with
  | zero => exact healthy
  | succ fuel ih =>
      have first := (treeBit_healthy input positive healthy (v34 + v61 + 2033)).weaken
        (le_widened positive ceiling)
      dsimp only [positionLoop]
      split
      · exact ih _ first
      · exact first

end

theorem classLoop_widens {low : Nat} (positive : 1 ≤ low) (ceiling : widened low ≤ 7 * 2 ^ 16)
    (v19 : Int) (fuel : Nat) (v28 : Int) {c : Coder} (healthy : Healthy low c) :
    Healthy (widened low) (c.classLoop input v19 (fuel + 1) v28).2 := by
  have first := flagBit_healthy input positive healthy (v19 + 2928)
  dsimp only [classLoop]
  split_ifs
  · exact first
  · exact classLoop_healthy input (by unfold widened; omega) ceiling _ _ _ first
  · exact first

theorem positionLoop_widens {low : Nat} (positive : 1 ≤ low) (ceiling : widened low ≤ 7 * 2 ^ 16)
    (v34 : Int) (v105 fuel v61 : Nat) {c : Coder} (healthy : Healthy low c) :
    Healthy (widened low) (c.positionLoop input v34 v105 (fuel + 1) v61).2 := by
  have first := treeBit_healthy input positive healthy (v34 + v61 + 2033)
  dsimp only [positionLoop]
  split
  · exact positionLoop_healthy input (by unfold widened; omega) ceiling _ _ _ _ first
  · exact first

theorem positionLoop_again (v34 : Int) (v105 fuel v61 : Nat) (c : Coder)
    (small : 2 * v61 + 8 < v105) : ∃ longer, longer ≤ 2 * v61 + 8 ∧
      c.positionLoop input v34 v105 (fuel + 1) v61 =
        (c.treeBit input (v34 + v61 + 2033)).2.positionLoop input v34 v105 fuel longer := by
  have bit := Bool.toNat_le (c.treeBit input (v34 + v61 + 2033)).1
  refine ⟨2 * v61 + 8 * (c.treeBit input (v34 + v61 + 2033)).1.toNat, by omega, ?_⟩
  dsimp only [positionLoop]
  rw [if_pos (by omega)]

theorem positionLoop_recovers (v34 : Int) (v105 fuel : Nat) (large : 64 ≤ v105) {c : Coder}
    (healthy : Healthy 343 c) :
    Healthy 16807 (c.positionLoop input v34 v105 (fuel + 3) 8).2 := by
  have first := treeBit_healthy input (by decide) healthy (v34 + (8 : Nat) + 2033)
  obtain ⟨second, least, again⟩ := positionLoop_again input v34 v105 (fuel + 2) 8 c (by omega)
  rw [again]
  have next := treeBit_healthy input (by decide) first (v34 + second + 2033)
  obtain ⟨third, _, onward⟩ := positionLoop_again input v34 v105 (fuel + 1) second
    (c.treeBit input (v34 + (8 : Nat) + 2033)).2 (by omega)
  rw [onward]
  exact (positionLoop_widens input (by decide) (by decide) _ _ _ _ next).weaken (by decide)

-- Before the direct bits the range has at least 2^24; up to 23 of them leave one of at
-- least 2, and three modelled bits follow.
theorem codeBits_healthy (cell : Int) (n : Nat) (near : n ≤ 27) {c : Coder}
    (healthy : Healthy 16807 c) : Healthy 343 (c.codeBits input cell n).2 := by
  have first : Healthy (2 ^ 16) (append input cell (1, c)).2 :=
    (append_healthy input (by decide) (p := (1, c)) healthy cell).weaken (by decide)
  dsimp only [codeBits]
  set p := append input cell (1, c)
  have high : Healthy 2 (if n ≠ 3 then
      if n ≠ 4 then directBits (n - 4) (append input cell p).1
          ((append input cell p).2.renorm input)
        else append input cell p
    else p).2 := by
    have second := append_healthy input (by decide) first cell
    split_ifs
    · have most : 2 * 2 ^ (n - 4) ≤ 2 * 2 ^ 23 :=
        Nat.mul_le_mul_left 2 (Nat.pow_le_pow_right (by decide) (by omega))
      have open_ := renorm_healthy input second
      exact directBits_healthy _ _ (open_.weaken (most.trans (by decide)))
    · exact second.weaken (by decide)
    · exact first.weaken (by decide)
  generalize (if n ≠ 3 then
      if n ≠ 4 then directBits (n - 4) (append input cell p).1
          ((append input cell p).2.renorm input)
        else append input cell p
    else p) = q at high ⊢
  have middle : Healthy (if 3 ≤ n then 7 else 343)
      (if 3 ≤ n then append input (cell + 24) q else p).2 := by
    split_ifs
    · exact (append_healthy input (by decide) high _).weaken (by decide)
    · exact first.weaken (by decide)
  generalize (if 3 ≤ n then append input (cell + 24) q else p) = r at middle ⊢
  split_ifs with some more
  · have third := append_healthy input (by decide)
      (middle.weaken (by split_ifs <;> decide : 7 ≤ _)) (cell + 8)
    exact (append_healthy input (by decide) third (cell + 16)).weaken (by decide)
  · rw [if_neg (by omega)] at middle
    exact (append_healthy input (by decide) middle (cell + 8)).weaken (by decide)
  · rwa [if_neg (by omega)] at middle

end Coder

namespace Decoder

variable (p : Args)

def leastRange : Point → Nat
  | .literal | .store | .position | .copy => 343
  | .length | .distance => 16807
  | .done _ => 0

theorem step_healthy {s : Decoder} (bounds : Bounds s)
    (near : s.pc = .distance → s.slot ≤ 28)
    (healthy : Coder.Healthy (leastRange s.pc) s.coder) :
    Coder.Healthy (leastRange (s.step p).pc) (s.step p).coder := by
  obtain ⟨small, located⟩ := bounds
  unfold step
  cases pc : s.pc <;> simp only [pc] at located healthy near <;> dsimp only
  case literal =>
    have tree := Coder.literalLoop_healthy p.input (by decide) (by decide) (s.literalTree p) 8 1
      healthy
    unfold stepLiteral
    split_ifs
    · exact healthy.weaken (Nat.zero_le _)
    · exact tree
  case store =>
    have flag := Coder.flagBit_healthy p.input (by decide) healthy (s.v11 + 2920)
    have classes := Coder.classLoop_widens p.input (by decide) (by decide) s.v11 6 (-1) flag
    have wide : Coder.Healthy 16807 _ := classes.weaken (by decide)
    have narrow : Coder.Healthy 343 _ := flag.weaken (by decide)
    unfold stepStore
    dsimp only
    split_ifs
    · exact wide.weaken (by decide : 343 ≤ 16807)
    · exact wide
    · exact narrow
  case length =>
    have code := Coder.codeBits_healthy p.input (s.lengthCell p + 2984) s.v28.toNat (by omega)
      healthy
    unfold stepLength
    dsimp only
    split_ifs
    · exact code.weaken (Nat.zero_le _)
    · exact code
    · exact code
  case position =>
    have tree := Coder.positionLoop_recovers p.input s.v34 s.v105 2 (by omega) healthy
    unfold stepPosition
    dsimp only
    split_ifs
    · exact tree
    · exact tree.weaken (by decide : 343 ≤ 16807)
  case distance =>
    have slot := near trivial
    exact Coder.codeBits_healthy p.input (s.distanceCell + 2344) (s.slot - 1) (by omega) healthy
  case copy =>
    unfold stepCopy
    dsimp only
    split_ifs
    · exact healthy.weaken (Nat.zero_le _)
    · dsimp only
      rw [copyLoop_frame]
      exact healthy
    · exact healthy.weaken (Nat.zero_le _)
  case done ret =>
    rw [pc]
    exact healthy

theorem start_healthy (out : Memory) :
    Coder.Healthy (leastRange (p.start out).pc) (p.start out).coder := by
  constructor
  next =>
    intro index
    have rate : ((p.input 0).toNat >>> 3) &&& 3 ≤ 3 := Nat.and_le_right
    show Balanced (16 * (8 - (((p.input 0).toNat >>> 3) &&& 3)) &&& 0xF0)
    generalize ((p.input 0).toNat >>> 3) &&& 3 = n at rate ⊢
    unfold Balanced
    interval_cases n <;> decide
  next => exact (by decide : 343 ≤ 2 ^ 32 - 1)
  next => exact (by decide : 2 ^ 32 - 1 < 2 ^ 32)
  next => exact fun touch member => absurd member List.not_mem_nil

theorem run_healthy (n : Nat) {s : Decoder} (bounds : Bounds s)
    (near : ∀ k < n, (s.run p k).pc = .distance → (s.run p k).slot ≤ 28)
    (healthy : Coder.Healthy (leastRange s.pc) s.coder) :
    Coder.Healthy (leastRange (s.run p n).pc) (s.run p n).coder := by
  induction n with
  | zero => exact healthy
  | succ n ih =>
      rw [run_succ]
      apply step_healthy p (run_bounds p n s bounds) (near n (by omega))
      exact ih fun k below => near k (by omega)

end Decoder

/-- While the indices stay in the table, every cell keeps a value in 7..248 and every
modelled bit splits an open range into two open ones. -/
theorem run_splits (p : Args) (out : Memory) (n : Nat)
    (inside : ∀ touch ∈ ((p.start out).run p n).coder.touched, InTable touch.index) :
    (∀ index, InTable index →
        7 ≤ ((p.start out).run p n).coder.v109 index ∧
          ((p.start out).run p n).coder.v109 index ≤ 248) ∧
      ∀ touch ∈ ((p.start out).run p n).coder.touched, Splits touch := by
  have bounds := Decoder.bounds_start p out
  have healthy := Decoder.run_healthy p n bounds (Decoder.near_of_inside p bounds inside)
    (Decoder.start_healthy p out)
  exact ⟨fun index _ => healthy.cells index, healthy.past⟩

theorem run_splits_zeros :
    (∀ index, InTable index →
        7 ≤ (((zeros 4).start fun _ => 0).run (zeros 4) 2).coder.v109 index ∧
          (((zeros 4).start fun _ => 0).run (zeros 4) 2).coder.v109 index ≤ 248) ∧
      ∀ touch ∈ (((zeros 4).start fun _ => 0).run (zeros 4) 2).coder.touched, Splits touch :=
  run_splits (zeros 4) (fun _ => 0) 2 (by unfold InTable; decide +kernel)

end VitaTools.Unarzl
