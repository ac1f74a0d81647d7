import VitaTools.DebugScreen.Model
import VitaTools.Library.Paint
import VitaTools.Library.Terminal

set_option autoImplicit false

namespace VitaTools.DebugScreen

open VitaTools.Library

structure Cell where
  glyph : Option Byte
  pen : Pen

def blank (color : Color) : Cell := ⟨none, color, color⟩

-- The pixel in line `i` and column `j` of a glyph.
def Cell.color (font : Nat → Byte) (cell : Cell) (i j : Nat) : Color :=
  match cell.glyph with
  | none => cell.pen.bg
  | some c => if (font (c.toNat * 8 + i)).getLsbD (7 - j) then cell.pen.fg else cell.pen.bg

def columns (scale : Nat) : Nat := screenWidth / (8 * scale)

def lines (scale : Nat) : Nat := screenHeight / (8 * scale)

section

variable (scale : Nat) (font : Nat → Byte)

def pixel (t : Terminal Cell) (x y : Nat) : Color :=
  (t.cells (y / (8 * scale)) (x / (8 * scale))).color font (y % (8 * scale) / scale)
    (x % (8 * scale) / scale)

structure Shows (s : Screen) (t : Terminal Cell) : Prop where
  x : s.coordX.toNat = 8 * scale * t.col
  y : s.coordY.toNat = 8 * scale * t.row
  inside : t.Inside (columns scale) (lines scale)
  pixels : ∀ x < 960, ∀ y < 544, s.frame (x + y * 960) = pixel scale font t x y

end

section

variable {scale : Nat} {font : Nat → Byte} {s : Screen} {c : Byte}

theorem fill_frame (count : Nat) (color : Color) (frame : Nat → Color) :
    (List.range count).foldl (fun frame i => Function.update frame i color) frame =
      paint {p | p < count} (fun _ => color) frame := by
  rw [foldl_paint (fun _ => color) (List.range count) _ (fun i => {i})
    (fun i _ old => update_eq_paint) frame]
  congr 1
  ext p
  simp

theorem clear_frame (bgColor : Color) : (s.psvDebugScreenClear bgColor).frame =
    paint {p | p < screenWidth * screenHeight} (fun _ => bgColor) s.frame := by
  simp only [Screen.psvDebugScreenClear, fill_frame]

@[simp] theorem drawGlyph_coordX : (drawGlyph scale font s c).coordX = s.coordX := rfl

@[simp] theorem pen_coordX (x : BitVec 32) : ({ s with coordX := x } : Screen).pen = s.pen := rfl

@[simp] theorem drawGlyph_pen : (drawGlyph scale font s c).pen = s.pen := rfl

def glyphIndex (scale : Nat) (s : Screen) (i j y x : Nat) : Nat :=
  s.coordX.toNat + (x + j * scale) + (s.coordY.toNat + (y + i * scale)) * 960

def glyphPlaces (scale : Nat) (s : Screen) : Set Nat :=
  {p | ∃ i ∈ List.range 8, ∃ j ∈ List.range 8, ∃ y ∈ List.range scale, ∃ x ∈ List.range scale,
    p = glyphIndex scale s i j y x}

def glyphPicture (scale : Nat) (font : Nat → Byte) (s : Screen) (c : Byte) (p : Nat) : Color :=
  Cell.color font ⟨some c, s.pen⟩ ((p / 960 - s.coordY.toNat) / scale)
    ((p % 960 - s.coordX.toNat) / scale)

theorem index_eq (near : s.coordX.toNat ≤ 960 ∧ s.coordY.toNat ≤ 544 ∧ 8 * scale ≤ 544)
    {i j y x : Nat} (bounds : i < 8 ∧ j < 8 ∧ y < scale ∧ x < scale) :
    (s.coordX + BitVec.ofNat 32 (x + j * scale) +
      (s.coordY + BitVec.ofNat 32 (y + i * scale)) * screenFbWidth).toNat =
        glyphIndex scale s i j y x := by
  obtain ⟨i8, j8, ys, xs⟩ := bounds
  have across : x + j * scale < 8 * scale := by
    have := Nat.mul_le_mul_right scale (Nat.le_of_lt_succ j8)
    omega
  have down : y + i * scale < 8 * scale := by
    have := Nat.mul_le_mul_right scale (Nat.le_of_lt_succ i8)
    omega
  have width : screenFbWidth.toNat = 960 := rfl
  have first : (s.coordX + BitVec.ofNat 32 (x + j * scale)).toNat =
      s.coordX.toNat + (x + j * scale) := by
    rw [BitVec.toNat_add, BitVec.toNat_ofNat]
    omega
  have second : (s.coordY + BitVec.ofNat 32 (y + i * scale)).toNat =
      s.coordY.toNat + (y + i * scale) := by
    rw [BitVec.toNat_add, BitVec.toNat_ofNat]
    omega
  rw [BitVec.toNat_add, BitVec.toNat_mul, first, second, width, glyphIndex]
  omega

theorem picture_eq (fits : s.coordX.toNat + 8 * scale ≤ 960)
    {i j y x : Nat} (bounds : j < 8 ∧ y < scale ∧ x < scale) :
    glyphPicture scale font s c (glyphIndex scale s i j y x) =
      if (font (c.toNat * 8 + i)).getLsbD (7 - j) then s.colorFg else s.colorBg := by
  obtain ⟨j8, ys, xs⟩ := bounds
  have across : x + j * scale < 8 * scale := by
    have := Nat.mul_le_mul_right scale (Nat.le_of_lt_succ j8)
    omega
  have row : glyphIndex scale s i j y x / 960 = s.coordY.toNat + (y + i * scale) := by
    rw [glyphIndex]
    omega
  have column : glyphIndex scale s i j y x % 960 = s.coordX.toNat + (x + j * scale) := by
    rw [glyphIndex]
    omega
  have line : (s.coordY.toNat + (y + i * scale) - s.coordY.toNat) / scale = i := by
    rw [Nat.add_sub_cancel_left, Nat.add_mul_div_right _ _ (by omega), Nat.div_eq_of_lt ys,
      Nat.zero_add]
  have place : (s.coordX.toNat + (x + j * scale) - s.coordX.toNat) / scale = j := by
    rw [Nat.add_sub_cancel_left, Nat.add_mul_div_right _ _ (by omega), Nat.div_eq_of_lt xs,
      Nat.zero_add]
  rw [glyphPicture, row, column, line, place]
  rfl

theorem drawGlyph_frame
    (fits : s.coordX.toNat + 8 * scale ≤ 960 ∧ s.coordY.toNat + 8 * scale ≤ 544) :
    (drawGlyph scale font s c).frame =
      paint (glyphPlaces scale s) (glyphPicture scale font s c) s.frame := by
  let picture := glyphPicture scale font s c
  simp only [drawGlyph]
  refine foldl_paint picture (List.range 8) _ (fun i => {p | ∃ j ∈ List.range 8,
    ∃ y ∈ List.range scale, ∃ x ∈ List.range scale, p = glyphIndex scale s i j y x})
    (fun i i8 old => ?_) s.frame
  refine foldl_paint picture (List.range 8) _ (fun j => {p | ∃ y ∈ List.range scale,
    ∃ x ∈ List.range scale, p = glyphIndex scale s i j y x}) (fun j j8 old => ?_) old
  refine foldl_paint picture (List.range scale) _ (fun y => {p | ∃ x ∈ List.range scale,
    p = glyphIndex scale s i j y x}) (fun y ys old => ?_) old
  refine foldl_paint picture (List.range scale) _ (fun x => {p | p = glyphIndex scale s i j y x})
    (fun x xs old => ?_) old
  rw [List.mem_range] at i8 j8 ys xs
  change Function.update old _ _ = _
  rw [index_eq (by omega) ⟨i8, j8, ys, xs⟩, ← picture_eq fits.1 ⟨j8, ys, xs⟩]
  exact update_eq_paint

theorem glyphPlaces_below (fits : s.coordX.toNat + 8 * scale ≤ 960 ∧
    s.coordY.toNat + 8 * scale ≤ 544) {p : Nat} (drawn : p ∈ glyphPlaces scale s) :
    p < screenWidth * screenHeight := by
  obtain ⟨i, i8, j, j8, y, ys, x, xs, rfl⟩ := drawn
  rw [List.mem_range] at i8 j8 ys xs
  have across := Nat.mul_le_mul_right scale (Nat.le_of_lt_succ j8)
  have down := Nat.mul_le_mul_right scale (Nat.le_of_lt_succ i8)
  rw [glyphIndex, screenWidth, screenHeight]
  omega

variable {t : Terminal Cell}

theorem cells_fit (scales : scale = 1 ∨ scale = 2) :
    8 * scale * columns scale = 960 ∧ 8 * scale * lines scale = 544 := by
  rcases scales with rfl | rfl <;> exact ⟨rfl, rfl⟩

theorem clear_shows (bgColor : Color) (positive : 0 < lines scale) :
    Shows scale font (s.psvDebugScreenClear bgColor) (Terminal.wipe (blank bgColor)) where
  x := rfl
  y := rfl
  inside := ⟨Nat.zero_le _, Or.inl positive⟩
  pixels x xs y ys := by
    have drawn : x + y * 960 ∈ {p | p < screenWidth * screenHeight} := by
      rw [Set.mem_ofPred_eq, screenWidth, screenHeight]
      omega
    rw [clear_frame, paint_inside drawn]
    rfl

theorem Shows.newline (shows : Shows scale font s t) (low : t.row < lines scale)
    (scales : scale = 1 ∨ scale = 2) :
    Shows scale font { s with coordX := 0, coordY := s.coordY + BitVec.ofNat 32 (8 * scale) }
      t.newline where
  x := rfl
  y := by
    have fits := (cells_fit scales).2
    have y := shows.y
    rcases scales with rfl | rfl
    all_goals
      simp only [BitVec.toNat_add, BitVec.toNat_ofNat, Terminal.newline]
      omega
  inside := Terminal.newline_inside low
  pixels := shows.pixels

theorem Shows.home (shows : Shows scale font s t)
    (ready : t.Ready (columns scale) (lines scale)) :
    Shows scale font { s with coordX := 0 } t.home where
  x := rfl
  y := shows.y
  inside := ready.home_inside
  pixels := shows.pixels

theorem Shows.glyph_fits (shows : Shows scale font s t)
    (ready : t.Ready (columns scale) (lines scale)) (scales : scale = 1 ∨ scale = 2) :
    s.coordX.toNat + 8 * scale ≤ 960 ∧ s.coordY.toNat + 8 * scale ≤ 544 := by
  obtain ⟨low, left⟩ := ready
  obtain ⟨across, down⟩ := cells_fit scales
  have x := shows.x
  have y := shows.y
  rcases scales with rfl | rfl <;> omega

theorem Shows.drawn_iff (shows : Shows scale font s t) (scales : scale = 1 ∨ scale = 2)
    {x y : Nat} (fits : s.coordX.toNat + 8 * scale ≤ 960 ∧ s.coordY.toNat + 8 * scale ≤ 544)
    (xs : x < 960) :
    x + y * 960 ∈ glyphPlaces scale s ↔ y / (8 * scale) = t.row ∧ x / (8 * scale) = t.col := by
  have left := shows.x
  have top := shows.y
  constructor
  · rintro ⟨i, i8, j, j8, y', ys', x', xs', place⟩
    rw [List.mem_range] at i8 j8 ys' xs'
    rw [glyphIndex] at place
    rcases scales with rfl | rfl <;> omega
  · rintro ⟨row, col⟩
    refine ⟨y % (8 * scale) / scale, ?_, x % (8 * scale) / scale, ?_, y % scale, ?_, x % scale, ?_,
      ?_⟩
    all_goals
      simp only [List.mem_range, glyphIndex]
      rcases scales with rfl | rfl <;> omega

theorem Shows.glyph (shows : Shows scale font s t) (ready : t.Ready (columns scale) (lines scale))
    (scales : scale = 1 ∨ scale = 2) :
    Shows scale font
      { drawGlyph scale font s c with
        coordX := (drawGlyph scale font s c).coordX + BitVec.ofNat 32 (8 * scale) }
      (t.put ⟨some c, s.pen⟩) where
  x := by
    have fits := (shows.glyph_fits ready scales).1
    have left := shows.x
    rw [drawGlyph_coordX]
    rcases scales with rfl | rfl
    all_goals
      simp only [BitVec.toNat_add, BitVec.toNat_ofNat, Terminal.put]
      omega
  y := shows.y
  inside := ready.put_inside
  pixels x xs y ys := by
    have fits := shows.glyph_fits ready scales
    have drawn := shows.drawn_iff scales (y := y) fits xs
    have left := shows.x
    have top := shows.y
    rw [pixel, Terminal.put_cells]
    change (drawGlyph scale font s c).frame _ = _
    rw [drawGlyph_frame fits]
    split
    next here =>
      rw [paint_inside (drawn.2 here), glyphPicture]
      obtain ⟨row, col⟩ := here
      have line : ((x + y * 960) / 960 - s.coordY.toNat) / scale = y % (8 * scale) / scale := by
        rcases scales with rfl | rfl <;> omega
      have place : ((x + y * 960) % 960 - s.coordX.toNat) / scale = x % (8 * scale) / scale := by
        rcases scales with rfl | rfl <;> omega
      rw [line, place]
    next elsewhere => rw [paint_outside (mt drawn.1 elsewhere), shows.pixels x xs y ys, pixel]

theorem Shows.clear_when (shows : Shows scale font s t) (scales : scale = 1 ∨ scale = 2)
    (positive : 0 < lines scale) :
    let cleared := if screenHeight < (s.coordY + 8).toNat then s.psvDebugScreenClear s.colorBg
      else s
    Shows scale font cleared
        (if t.row = lines scale then Terminal.wipe (blank s.colorBg) else t) ∧
      cleared.pen = s.pen := by
  have full : screenHeight < (s.coordY + 8).toNat ↔ t.row = lines scale := by
    have down := (cells_fit scales).2
    have low := shows.inside.2
    have y := shows.y
    have eight : (8 : BitVec 32).toNat = 8 := rfl
    rw [BitVec.toNat_add, eight, screenHeight]
    rcases scales with rfl | rfl <;> omega
  by_cases below : t.row = lines scale
  · rw [if_pos below, if_pos (full.2 below)]
    exact ⟨clear_shows s.colorBg positive, rfl⟩
  · rw [if_neg below, if_neg (mt full.1 below)]
    exact ⟨shows, rfl⟩

theorem Shows.wrap (shows : Shows scale font s t) (scales : scale = 1 ∨ scale = 2) :
    Shows scale font (wrap scale s) (t.settle (columns scale) (lines scale) (blank s.colorBg)) ∧
      (wrap scale s).pen = s.pen := by
  obtain ⟨across, down⟩ := cells_fit scales
  obtain ⟨left, low⟩ := shows.inside
  have wraps : screenWidth < (s.coordX + 8).toNat ↔ t.col = columns scale := by
    have x := shows.x
    have eight : (8 : BitVec 32).toNat = 8 := rfl
    rw [BitVec.toNat_add, eight, screenWidth]
    rcases scales with rfl | rfl <;> omega
  have positive : 0 < columns scale ∧ 0 < lines scale := by
    rcases scales with rfl | rfl <;> omega
  rw [DebugScreen.wrap, Terminal.settle]
  by_cases last : t.col = columns scale
  · have above : t.row < lines scale := by omega
    rw [if_pos last, if_pos (wraps.2 last)]
    exact (shows.newline above scales).clear_when scales positive.2
  · rw [if_neg last, if_neg (mt wraps.1 last)]
    exact shows.clear_when scales positive.2

end

end VitaTools.DebugScreen
