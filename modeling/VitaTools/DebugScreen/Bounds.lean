import Mathlib.Data.List.GetD
import VitaTools.DebugScreen.Shows

set_option autoImplicit false

namespace VitaTools.DebugScreen

open VitaTools.Library

/-- No coordinate is negative as an int. -/
structure Screen.Low (s : Screen) : Prop where
  x : s.coordX.toNat < 2 ^ 31
  y : s.coordY.toNat < 2 ^ 31

def limit (scale : Nat) : Nat := screenWidth * (536 + 8 * scale) + 8 * (scale - 1)

section

variable {scale : Nat} {font : Nat → Byte} {s : Screen} {str text : Nat → Byte} {p : Nat}

/-- The screen is `Low`, and no word behind the limit is other than at the start. -/
structure Bounded (scale : Nat) (start : Nat → Color) (s : Screen) : Prop where
  low : s.Low
  behind : ∀ p, limit scale ≤ p → s.frame p = start p

theorem escapeLoop_low {left i q : Nat} {params : Nat → Nat} (few : left ≤ 8)
    (digits : ∀ q, params q < 10 ^ (8 - left)) (low : s.Low) :
    (escapeLoop str left i q params s).2.Low ∧
      (escapeLoop str left i q params s).2.frame = s.frame := by
  induction left generalizing i q params with
  | zero => exact ⟨low, rfl⟩
  | succ left ih =>
      have grow : 10 ^ (8 - left) = 10 ^ (8 - (left + 1)) * 10 := by
        rw [← Nat.pow_succ]
        congr 1
        omega
      have more : ∀ q, params q < 10 ^ (8 - left) := fun q => by
        have := digits q
        omega
      rw [escapeLoop]
      split
      next => exact ⟨low, rfl⟩
      next =>
        split
        next digit =>
          refine ih (by omega) fun other => ?_
          by_cases same : other = q
          · subst same
            rw [Function.update_self]
            have := digits other
            omega
          · rw [Function.update_of_ne same]
            exact more other
        next =>
          split
          next => exact ih (by omega) more
          next =>
            split
            next =>
              have most : 10 ^ (8 - (left + 1)) ≤ 10 ^ 8 :=
                Nat.pow_le_pow_right (by decide) (by omega)
              have first := digits 0
              have second := digits 1
              refine ⟨⟨?_, ?_⟩, rfl⟩ <;> rw [BitVec.toNat_ofNat] <;> omega
            next =>
              split
              next => exact ⟨⟨low.x, low.y⟩, rfl⟩
              next => exact ih (by omega) more

theorem psvDebugScreenEscape_low (low : s.Low) :
    (psvDebugScreenEscape str s).2.Low ∧ (psvDebugScreenEscape str s).2.frame = s.frame :=
  escapeLoop_low le_rfl (fun _ => by decide) low

variable {start : Nat → Color}

/-- There is room for 8 pixels in either direction. -/
structure Roomy (scale : Nat) (start : Nat → Color) (s : Screen) : Prop where
  x : s.coordX.toNat + 8 ≤ 960
  y : s.coordY.toNat + 8 ≤ 544
  behind : ∀ p, limit scale ≤ p → s.frame p = start p

theorem clear_roomy (behind : ∀ p, limit scale ≤ p → s.frame p = start p) (positive : 0 < scale)
    (color : Color) : Roomy scale start (s.psvDebugScreenClear color) where
  x := Nat.le_of_ble_eq_true rfl
  y := Nat.le_of_ble_eq_true rfl
  behind p outside := by
    rw [clear_frame, paint_outside, behind p outside]
    rw [Set.mem_ofPred_eq, screenWidth, screenHeight]
    rw [limit, screenWidth] at outside
    omega

theorem clear_when_roomy (behind : ∀ p, limit scale ≤ p → s.frame p = start p)
    (positive : 0 < scale) (x : s.coordX.toNat + 8 ≤ 960) (y : s.coordY.toNat < 2 ^ 31 + 16) :
    Roomy scale start
      (if screenHeight < (s.coordY + 8).toNat then s.psvDebugScreenClear s.colorBg else s) := by
  split
  next => exact clear_roomy behind positive _
  next fits =>
    have eight : (8 : BitVec 32).toNat = 8 := rfl
    rw [BitVec.toNat_add, eight, screenHeight] at fits
    exact ⟨x, by omega, behind⟩

theorem Bounded.wrap (bounded : Bounded scale start s) (scales : scale = 1 ∨ scale = 2) :
    Roomy scale start (wrap scale s) := by
  have positive : 0 < scale := by omega
  have x := bounded.low.x
  have y := bounded.low.y
  rw [DebugScreen.wrap]
  split
  next =>
    refine clear_when_roomy bounded.behind positive (Nat.le_of_ble_eq_true rfl) ?_
    rw [BitVec.toNat_add, BitVec.toNat_ofNat]
    rcases scales with rfl | rfl <;> omega
  next fits =>
    have eight : (8 : BitVec 32).toNat = 8 := rfl
    rw [BitVec.toNat_add, eight, screenWidth] at fits
    exact clear_when_roomy bounded.behind positive (by omega) (by omega)

theorem Roomy.glyph (roomy : Roomy scale start s) (scales : scale = 1 ∨ scale = 2) (c : Byte) :
    Bounded scale start { drawGlyph scale font s c with
      coordX := (drawGlyph scale font s c).coordX + BitVec.ofNat 32 (8 * scale) } where
  low := by
    have left := roomy.x
    have top := roomy.y
    refine ⟨?_, show s.coordY.toNat < 2 ^ 31 by omega⟩
    rw [drawGlyph_coordX, BitVec.toNat_add, BitVec.toNat_ofNat]
    rcases scales with rfl | rfl <;> omega
  behind p outside := by
    let kept (frame : Nat → Color) : Prop := frame p = s.frame p
    have left := roomy.x
    have top := roomy.y
    have near : s.coordX.toNat ≤ 960 ∧ s.coordY.toNat ≤ 544 ∧ 8 * scale ≤ 544 := by
      rcases scales with rfl | rfl <;> omega
    rw [← roomy.behind p outside]
    change (drawGlyph scale font s c).frame p = s.frame p
    simp only [drawGlyph]
    refine List.foldlRecOn (motive := kept) _ _ rfl fun frame same i i8 => ?_
    refine List.foldlRecOn (motive := kept) _ _ same fun frame same j j8 => ?_
    refine List.foldlRecOn (motive := kept) _ _ same fun frame same y ys => ?_
    refine List.foldlRecOn (motive := kept) _ _ same fun frame same x xs => ?_
    rw [List.mem_range] at i8 j8 ys xs
    change Function.update frame _ _ p = s.frame p
    rw [index_eq near ⟨i8, j8, ys, xs⟩, Function.update_of_ne, same]
    rw [glyphIndex]
    rw [limit, screenWidth] at outside
    rcases scales with rfl | rfl <;> omega

theorem Roomy.low (roomy : Roomy scale start s) : s.Low :=
  ⟨by have := roomy.x; omega, by have := roomy.y; omega⟩

theorem Roomy.newline (roomy : Roomy scale start s) (scales : scale = 1 ∨ scale = 2) :
    Bounded scale start
      { s with coordX := 0, coordY := s.coordY + BitVec.ofNat 32 (8 * scale) } where
  low := by
    have top := roomy.y
    refine ⟨show (0 : BitVec 32).toNat < 2 ^ 31 from Nat.two_pow_pos 31, ?_⟩
    rw [BitVec.toNat_add, BitVec.toNat_ofNat]
    rcases scales with rfl | rfl <;> omega
  behind := roomy.behind

theorem Roomy.home (roomy : Roomy scale start s) : Bounded scale start { s with coordX := 0 } :=
  ⟨⟨show (0 : BitVec 32).toNat < 2 ^ 31 from Nat.two_pow_pos 31, roomy.low.y⟩, roomy.behind⟩

theorem Roomy.escape (roomy : Roomy scale start s) :
    Bounded scale start (psvDebugScreenEscape str s).2 := by
  have ⟨low, same⟩ : (psvDebugScreenEscape str s).2.Low ∧
      (psvDebugScreenEscape str s).2.frame = s.frame := psvDebugScreenEscape_low roomy.low
  exact ⟨low, fun p outside => same ▸ roomy.behind p outside⟩

theorem Bounded.putsLoop (bounded : Bounded scale start s) (scales : scale = 1 ∨ scale = 2)
    {n : Nat} (zeros : ∀ k, n ≤ k → text k = 0) {fuel c : Nat} (enough : n ≤ c + fuel) :
    ∃ r, putsLoop scale font text (fuel + 1) c s = some r ∧ Bounded scale start r.2 := by
  induction fuel using Nat.strong_induction_on generalizing c s with
  | h fuel ih =>
      rw [DebugScreen.putsLoop]
      split
      next => exact ⟨(c, s), rfl, bounded⟩
      next more =>
        have before : c < n := Nat.lt_of_not_le fun behind => more (zeros c behind)
        obtain ⟨fuel, rfl⟩ : ∃ rest, fuel = rest + 1 := ⟨fuel - 1, by omega⟩
        have roomy := bounded.wrap scales
        dsimp only
        split
        next => exact ih fuel (Nat.lt_succ_self fuel) (roomy.newline scales) (by omega)
        next =>
          split
          next => exact ih fuel (Nat.lt_succ_self fuel) roomy.home (by omega)
          next =>
            split
            next => exact ih fuel (Nat.lt_succ_self fuel) roomy.escape (by omega)
            next => exact ih fuel (Nat.lt_succ_self fuel) (roomy.glyph scales _) (by omega)

end

/-- A text with zeros behind it is printed to some end, and nothing from `limit` on is written,
which at scale 1 is where the frame ends. -/
theorem psvDebugScreenPuts_below (scale : Nat) (scales : scale = 1 ∨ scale = 2) (font : Nat → Byte)
    (text : Nat → Byte) (n : Nat) (zeros : ∀ k, n ≤ k → text k = 0) (s : Screen) (low : s.Low) :
    ∃ c s', psvDebugScreenPuts scale font text (n + 1) s = some (c, s') ∧ s'.Low ∧
      ∀ p, limit scale ≤ p → s'.frame p = s.frame p := by
  have bounded : Bounded scale s.frame s := ⟨low, fun _ _ => rfl⟩
  obtain ⟨⟨c, s'⟩, printed, low, behind⟩ := bounded.putsLoop scales zeros (Nat.le_add_left n 0)
  exact ⟨c, s', printed, low, behind⟩

example : limit 1 = screenWidth * screenHeight := rfl

-- A glyph at the last column of the last line, where scale 2 has none.
def cornerText (k : Nat) : Byte :=
  [0x1B, 0x5B, 0x31, 0x31, 0x39, 0x3B, 0x36, 0x37, 0x48, 0x41].getD k 0

theorem psvDebugScreenPuts_below_corner :
    ∃ c s', psvDebugScreenPuts 2 fontOfA cornerText (10 + 1)
        ⟨0, 0, colorWhite, colorBlack, fun _ => 0⟩ = some (c, s') ∧ s'.Low ∧
      ∀ p, limit 2 ≤ p → s'.frame p = 0 :=
  psvDebugScreenPuts_below 2 (Or.inr rfl) fontOfA cornerText 10
    (fun _ behind => List.getD_eq_default _ _ behind) ⟨0, 0, colorWhite, colorBlack, fun _ => 0⟩
    ⟨by decide, by decide⟩

end VitaTools.DebugScreen
