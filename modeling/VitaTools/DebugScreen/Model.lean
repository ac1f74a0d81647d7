import Mathlib.Logic.Function.Basic
import VitaTools.Library.Memory

set_option autoImplicit false

namespace VitaTools.DebugScreen

open VitaTools.Library

abbrev Color := BitVec 32

def screenWidth : Nat := 960
def screenHeight : Nat := 544
def screenFbWidth : BitVec 32 := 960

def colorWhite : Color := 0xFFFFFFFF
def colorBlack : Color := 0xFF000000
def colorDefaultFg : Color := colorWhite
def colorDefaultBg : Color := colorBlack

-- The rows of the letter A in `psvDebugScreenFont`, and nothing else of it.
def fontOfA (k : Nat) : Byte :=
  if 0x41 * 8 ≤ k then
    [0x20, 0x50, 0x88, 0x88, 0xF8, 0x88, 0x88, 0x00].getD (k - 0x41 * 8) 0
  else 0

structure Screen where
  coordX : BitVec 32
  coordY : BitVec 32
  colorFg : Color
  colorBg : Color
  frame : Nat → Color

namespace Screen

def psvDebugScreenSetFgColor (s : Screen) (color : Color) : Screen := { s with colorFg := color }

def psvDebugScreenSetBgColor (s : Screen) (color : Color) : Screen := { s with colorBg := color }

def psvDebugScreenClear (s : Screen) (bgColor : Color) : Screen :=
  { s with
    coordX := 0
    coordY := 0
    frame := (List.range (screenWidth * screenHeight)).foldl
      (fun frame i => Function.update frame i bgColor) s.frame }

end Screen

-- `BIT2BYTE`
def bit2Byte (bit : Nat) : Color :=
  (if bit.testBit 2 then 1 <<< 23 else 0) ||| (if bit.testBit 1 then 1 <<< 15 else 0) |||
    (if bit.testBit 0 then 1 <<< 7 else 0)

structure Pen where
  fg : Color
  bg : Color
deriving DecidableEq

-- One parameter of an escape code that ends in `m`.
def Pen.select (pen : Pen) (param : Nat) : Pen :=
  match param / 10 with
  | 0 => ⟨colorDefaultFg, colorDefaultBg⟩
  | 3 => { pen with fg := bit2Byte (param % 10) }
  | 9 => { pen with fg := bit2Byte (param % 10) ||| 0x7F7F7F7F }
  | 4 => { pen with bg := bit2Byte (param % 10) }
  | 10 => { pen with bg := bit2Byte (param % 10) ||| 0x7F7F7F7F }
  | _ => pen

def Screen.pen (s : Screen) : Pen := ⟨s.colorFg, s.colorBg⟩

def Screen.withPen (s : Screen) (pen : Pen) : Screen :=
  { s with colorFg := pen.fg, colorBg := pen.bg }

-- The loop of `psvDebugScreenEscape` from `i` on, with as many of its eight passes left. Its
-- result is `i` where it ends.
def escapeLoop (str : Nat → Byte) : Nat → Nat → Nat → (Nat → Nat) → Screen → Nat × Screen
  | 0, i, _, _, s => (i, s)
  | left + 1, i, p, params, s =>
      if str i = 0 then (i, s)
      else if 0x30 ≤ (str i).toNat ∧ (str i).toNat ≤ 0x39 then
        escapeLoop str left (i + 1) p
          (Function.update params p (params p * 10 + ((str i).toNat - 0x30))) s
      else if str i = 0x3B then escapeLoop str left (i + 1) (p + 1) params s
      else if str i = 0x66 ∨ str i = 0x48 then
        (i, { s with coordX := BitVec.ofNat 32 (params 0 * 8)
                     coordY := BitVec.ofNat 32 (params 1 * 8) })
      else if str i = 0x6D then
        (i, s.withPen (((List.range (p + 1)).map params).foldl Pen.select s.pen))
      else escapeLoop str left (i + 1) p params s

def psvDebugScreenEscape (str : Nat → Byte) (s : Screen) : Nat × Screen :=
  escapeLoop str 8 0 0 (fun _ => 0) s

section

-- `PSV_DEBUG_SCALE`, 1 where the source has none, and `psvDebugScreenFont`.
variable (scale : Nat) (font : Nat → Byte)

-- The loops over `i`, `j`, `y` and `x`. The index is an unsigned int.
def drawGlyph (s : Screen) (c : Byte) : Screen :=
  { s with
    frame := (List.range 8).foldl (fun frame i =>
      (List.range 8).foldl (fun frame j =>
        (List.range scale).foldl (fun frame y =>
          (List.range scale).foldl (fun frame x =>
            let index := s.coordX + BitVec.ofNat 32 (x + j * scale) +
              (s.coordY + BitVec.ofNat 32 (y + i * scale)) * screenFbWidth
            Function.update frame index.toNat
              (if (font (c.toNat * 8 + i)).getLsbD (7 - j) then s.colorFg else s.colorBg))
            frame) frame) frame) s.frame }

-- A glyph counts as 8 pixels wide and high, at either scale.
def wrap (s : Screen) : Screen :=
  let s := if screenWidth < (s.coordX + 8).toNat then
    { s with coordX := 0, coordY := s.coordY + BitVec.ofNat 32 (8 * scale) } else s
  if screenHeight < (s.coordY + 8).toNat then s.psvDebugScreenClear s.colorBg else s

-- The loop of `psvDebugScreenPuts`. The escape code is looked for at `text + 2`, wherever its
-- start is.
def putsLoop (text : Nat → Byte) : Nat → Nat → Screen → Option (Nat × Screen)
  | 0, _, _ => none
  | fuel + 1, c, s =>
      if text c = 0 then some (c, s)
      else
        let s := wrap scale s
        if text c = 0x0A then
          putsLoop text fuel (c + 1)
            { s with coordX := 0, coordY := s.coordY + BitVec.ofNat 32 (8 * scale) }
        else if text c = 0x0D then putsLoop text fuel (c + 1) { s with coordX := 0 }
        else if text c = 0x1B ∧ text (c + 1) = 0x5B then
          let escaped := psvDebugScreenEscape (fun k => text (k + 2)) s
          putsLoop text fuel (c + (escaped.1 + 2) + 1) escaped.2
        else
          let s := drawGlyph scale font s (text c)
          putsLoop text fuel (c + 1) { s with coordX := s.coordX + BitVec.ofNat 32 (8 * scale) }

def psvDebugScreenPuts (text : Nat → Byte) (fuel : Nat) (s : Screen) : Option (Nat × Screen) :=
  putsLoop scale font text fuel 0 s

end

end VitaTools.DebugScreen
