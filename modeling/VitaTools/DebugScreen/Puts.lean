import VitaTools.DebugScreen.Shows
import VitaTools.Library.Numerals
import VitaTools.Library.Strings

set_option autoImplicit false

namespace VitaTools.DebugScreen

open VitaTools.Library

def decimal (n : Nat) : List Byte := (Nat.toDigits 10 n).map fun c => BitVec.ofNat 8 c.toNat

-- Codes apart by `;`, then `m`.
def escapeCode : Nat → List Nat → List Byte
  | code, [] => decimal code ++ [0x6D]
  | code, next :: codes => decimal code ++ 0x3B :: escapeCode next codes

structure Plain (body : List Byte) : Prop where
  nonzero : ∀ c ∈ body, c ≠ 0
  unescaped : ∀ front back, body ≠ front ++ 0x1B :: 0x5B :: back

structure Message where
  colors : Option (Nat × List Nat)
  body : List Byte

namespace Message

def code (m : Message) : List Byte :=
  match m.colors with
  | none => []
  | some (code, codes) => 0x1B :: 0x5B :: escapeCode code codes

def bytes (m : Message) : List Byte := m.code ++ m.body

-- The loop over an escape code stops after 8 characters.
structure Good (m : Message) (text : Nat → Byte) : Prop where
  lies : Lies text 0 m.bytes
  ends : text m.bytes.length = 0
  short : m.code.length ≤ 10
  plain : Plain m.body

end Message

def printChar (scale : Nat) (pen : Pen) (t : Terminal Cell) (c : Byte) : Terminal Cell :=
  let t := t.settle (columns scale) (lines scale) (blank pen.bg)
  if c = 0x0A then t.newline else if c = 0x0D then t.home else t.put ⟨some c, pen⟩

/-- The terminal and its colours are shown, and no word behind the screen is other than at the
start. -/
structure Displays (scale : Nat) (font : Nat → Byte) (start : Nat → Color) (s : Screen)
    (t : Terminal Cell) (pen : Pen) : Prop where
  shows : Shows scale font s t
  pen : s.pen = pen
  outside : ∀ p, screenWidth * screenHeight ≤ p → s.frame p = start p

section

variable {scale : Nat} {font : Nat → Byte} {start : Nat → Color} {s : Screen} {t : Terminal Cell}
  {pen : Pen} {text : Nat → Byte} {c : Nat}

theorem clear_outside {color : Color} {p : Nat} (below : screenWidth * screenHeight ≤ p) :
    (s.psvDebugScreenClear color).frame p = s.frame p := by
  rw [clear_frame]
  exact paint_outside (Nat.not_lt.2 below)

theorem wrap_outside {p : Nat} (below : screenWidth * screenHeight ≤ p) :
    (wrap scale s).frame p = s.frame p := by
  rw [wrap]
  split
  next =>
    split
    next => exact clear_outside below
    next => rfl
  next =>
    split
    next => exact clear_outside below
    next => rfl

theorem positive_lines (scales : scale = 1 ∨ scale = 2) : 0 < columns scale ∧ 0 < lines scale := by
  rcases scales with rfl | rfl <;> decide

theorem Displays.wrap (displays : Displays scale font start s t pen)
    (scales : scale = 1 ∨ scale = 2) :
    Displays scale font start (wrap scale s)
      (t.settle (columns scale) (lines scale) (blank pen.bg)) pen := by
  obtain ⟨shows, rfl, outside⟩ := displays
  obtain ⟨settled, same⟩ := shows.wrap scales
  exact ⟨settled, same, fun p below => (wrap_outside below).trans (outside p below)⟩

theorem Displays.char (displays : Displays scale font start s t pen)
    (scales : scale = 1 ∨ scale = 2) (more : text c ≠ 0)
    (plain : ¬(text c = 0x1B ∧ text (c + 1) = 0x5B)) (fuel : Nat) :
    ∃ s', putsLoop scale font text (fuel + 1) c s = putsLoop scale font text fuel (c + 1) s' ∧
      Displays scale font start s' (printChar scale pen t (text c)) pen := by
  have ready : (t.settle (columns scale) (lines scale) (blank pen.bg)).Ready (columns scale)
      (lines scale) := displays.shows.inside.settle_ready (positive_lines scales)
  obtain ⟨settled, same, outside⟩ := displays.wrap scales
  rw [putsLoop, if_neg more, printChar]
  dsimp only
  rw [if_neg plain]
  split
  next => exact ⟨_, rfl, settled.newline ready.1 scales, same, outside⟩
  next =>
    split
    next => exact ⟨_, rfl, settled.home ready, same, outside⟩
    next =>
      have fits := settled.glyph_fits ready scales
      have glyph := settled.glyph (c := text c) ready scales
      rw [same] at glyph
      refine ⟨_, rfl, glyph, by rw [pen_coordX, drawGlyph_pen, same], fun p below => ?_⟩
      change (drawGlyph scale font _ _).frame p = _
      rw [drawGlyph_frame fits, paint_outside, outside p below]
      exact fun drawn => absurd (glyphPlaces_below fits drawn) (Nat.not_lt.2 below)

theorem Displays.body (displays : Displays scale font start s t pen)
    (scales : scale = 1 ∨ scale = 2) {body : List Byte} (plain : Plain body)
    (lies : Lies text c body) (ends : text (c + body.length) = 0) {fuel : Nat}
    (enough : body.length < fuel) :
    ∃ s', putsLoop scale font text fuel c s = some (c + body.length, s') ∧
      Displays scale font start s' (body.foldl (printChar scale pen) t) pen := by
  induction body generalizing c s t fuel with
  | nil =>
      obtain ⟨fuel, rfl⟩ := Nat.exists_eq_succ_of_ne_zero (Nat.ne_of_gt enough)
      have last : text c = 0 := ends
      exact ⟨s, by rw [Nat.succ_eq_add_one, putsLoop, if_pos last]; rfl, displays⟩
  | cons b body ih =>
      obtain ⟨fuel, rfl⟩ := Nat.exists_eq_succ_of_ne_zero (Nat.ne_of_gt (Nat.zero_lt_of_lt enough))
      obtain ⟨rfl, lies⟩ := lies
      have unescaped : ¬(text c = 0x1B ∧ text (c + 1) = 0x5B) := by
        rintro ⟨escape, bracket⟩
        cases body with
        | nil =>
            rw [List.length_cons, List.length_nil, bracket] at ends
            exact absurd ends (by decide)
        | cons next body =>
            exact plain.unescaped [] body (by rw [← lies.1, escape, bracket]; rfl)
      have rest : Plain body := ⟨fun b member => plain.nonzero b (List.mem_cons_of_mem _ member),
        fun front back same => plain.unescaped (text c :: front) back (by rw [same]; rfl)⟩
      obtain ⟨s', step, shown⟩ := displays.char scales
        (plain.nonzero _ List.mem_cons_self) unescaped fuel
      have place : c + 1 + body.length = c + (text c :: body).length := by
        rw [List.length_cons]
        omega
      obtain ⟨s'', loop, shown⟩ := ih shown rest lies (place ▸ ends)
        (Nat.lt_of_succ_lt_succ enough)
      exact ⟨s'', by rw [Nat.succ_eq_add_one, step, loop, place], shown⟩

end

section

variable {str : Nat → Byte} {i p left : Nat} {params : Nat → Nat} {s : Screen}

theorem escapeLoop_digits {digits : List Byte}
    (all : ∀ b ∈ digits, 0x30 ≤ b.toNat ∧ b.toNat ≤ 0x39)
    (lies : Lies str i digits) :
    escapeLoop str (digits.length + left) i p params s =
      escapeLoop str left (i + digits.length) p
        (Function.update params p
          (digits.foldl (fun v b => v * 10 + (b.toNat - 0x30)) (params p))) s := by
  induction digits generalizing i params with
  | nil => simp
  | cons b digits ih =>
      obtain ⟨rfl, lies⟩ := lies
      have digit := all _ List.mem_cons_self
      have nonzero : str i ≠ 0 := by
        intro zero
        rw [zero] at digit
        exact absurd digit.1 (by decide)
      rw [List.length_cons, Nat.add_right_comm, escapeLoop, if_neg nonzero, if_pos digit,
        ih (fun b member => all b (List.mem_cons_of_mem _ member)) lies, Function.update_self,
        Function.update_idem, List.foldl_cons, Nat.add_assoc, Nat.add_comm 1]

theorem digit_range {n : Nat} {c : Char} (member : c ∈ Nat.toDigits 10 n) :
    48 ≤ c.toNat ∧ c.toNat ≤ 57 :=
  Char.isDigit_iff_toNat.1 (Nat.isDigit_of_mem_toDigits (by decide) (by decide) member)

theorem decimal_digits (n : Nat) : ∀ b ∈ decimal n, 0x30 ≤ b.toNat ∧ b.toNat ≤ 0x39 := by
  intro b member
  obtain ⟨c, digit, rfl⟩ := List.mem_map.1 member
  have range := digit_range digit
  rw [BitVec.toNat_ofNat]
  omega

theorem decimal_value (n : Nat) :
    (decimal n).foldl (fun v b => v * 10 + (b.toNat - 0x30)) 0 = n := by
  rw [decimal, List.foldl_map]
  conv_rhs => rw [← numeral_toDigits (b := 10) (by decide) (by decide) n, numeral]
  refine List.foldl_ext _ _ _ fun v c member => ?_
  have range := digit_range member
  rw [BitVec.toNat_ofNat, digitValue, if_pos (by omega)]
  omega

theorem escapeLoop_separator (separator : str i = 0x3B) :
    escapeLoop str (left + 1) i p params s = escapeLoop str left (i + 1) (p + 1) params s := by
  rw [escapeLoop, separator]
  rfl

theorem params_update {code : Nat} : (List.range (p + 1)).map (Function.update params p code) =
    (List.range p).map params ++ [code] := by
  rw [List.range_succ, List.map_append, List.map_singleton, Function.update_self]
  congr 1
  refine List.map_congr_left fun q member => Function.update_of_ne ?_ _ _
  exact Nat.ne_of_lt (List.mem_range.1 member)

theorem escapeLoop_decimal {code : Nat} (lies : Lies str i (decimal code)) (fresh : params p = 0) :
    escapeLoop str ((decimal code).length + left) i p params s =
      escapeLoop str left (i + (decimal code).length) p (Function.update params p code) s := by
  rw [escapeLoop_digits (decimal_digits code) lies, fresh, decimal_value]

theorem escapeLoop_codes {code : Nat} {codes : List Nat} (lies : Lies str i (escapeCode code codes))
    (fits : (escapeCode code codes).length ≤ left) (fresh : ∀ q, p ≤ q → params q = 0) :
    escapeLoop str left i p params s = (i + (escapeCode code codes).length - 1,
      s.withPen (((List.range p).map params ++ code :: codes).foldl Pen.select s.pen)) := by
  induction codes generalizing code i p params left with
  | nil =>
      obtain ⟨digits, letter, -⟩ := lies_append.1 lies
      rw [escapeCode, List.length_append, List.length_singleton] at fits ⊢
      obtain ⟨left, rfl⟩ := Nat.exists_eq_add_of_le fits
      rw [Nat.add_assoc, escapeLoop_decimal digits (fresh p le_rfl), Nat.add_comm 1, escapeLoop,
        letter, params_update]
      rfl
  | cons next codes ih =>
      obtain ⟨digits, separator, lies⟩ := lies_append.1 lies
      rw [escapeCode, List.length_append, List.length_cons] at fits ⊢
      obtain ⟨left, rfl⟩ := Nat.exists_eq_add_of_le fits
      have behind : ∀ q, p + 1 ≤ q → Function.update params p code q = 0 := fun q after =>
        (Function.update_of_ne (Nat.ne_of_gt after) _ _).trans (fresh q (Nat.le_of_succ_le after))
      have enough : (escapeCode next codes).length ≤ (escapeCode next codes).length + left :=
        Nat.le_add_right _ _
      have rest := ih lies enough behind
      have place : i + (decimal code).length + 1 + (escapeCode next codes).length =
          i + ((decimal code).length + ((escapeCode next codes).length + 1)) := by omega
      rw [Nat.add_assoc, escapeLoop_decimal digits (fresh p le_rfl), Nat.add_right_comm,
        escapeLoop_separator separator, rest, place, params_update, List.append_assoc]
      rfl

end

inductive Command
  | clear (bgColor : Color)
  | setFgColor (color : Color)
  | setBgColor (color : Color)
  | puts (text : Nat → Byte) (message : Message)

section

variable (scale : Nat) (font : Nat → Byte)

def Message.apply (m : Message) (view : Terminal Cell × Pen) : Terminal Cell × Pen :=
  let view := match m.colors with
    | none => view
    | some (code, codes) => (view.1.settle (columns scale) (lines scale) (blank view.2.bg),
        (code :: codes).foldl Pen.select view.2)
  (m.body.foldl (printChar scale view.2) view.1, view.2)

def Command.apply (view : Terminal Cell × Pen) : Command → Terminal Cell × Pen
  | clear bgColor => (Terminal.wipe (blank bgColor), view.2)
  | setFgColor color => (view.1, { view.2 with fg := color })
  | setBgColor color => (view.1, { view.2 with bg := color })
  | puts _ message => message.apply scale view

-- The screen, and what the calls of `psvDebugScreenPuts` so far have returned.
def Command.run (st : Screen × List Nat) : Command → Option (Screen × List Nat)
  | clear bgColor => some (st.1.psvDebugScreenClear bgColor, st.2)
  | setFgColor color => some (st.1.psvDebugScreenSetFgColor color, st.2)
  | setBgColor color => some (st.1.psvDebugScreenSetBgColor color, st.2)
  | puts text message =>
      (psvDebugScreenPuts scale font text (message.bytes.length + 1) st.1).map
        fun printed => (printed.2, st.2 ++ [printed.1])

def Command.length : Command → Option Nat
  | puts _ message => some message.bytes.length
  | _ => none

def Command.Good : Command → Prop
  | puts text message => message.Good text
  | _ => True

end

section

variable {scale : Nat} {font : Nat → Byte} {start : Nat → Color} {s : Screen} {t : Terminal Cell}
  {pen : Pen} {text : Nat → Byte}

theorem Displays.escape (displays : Displays scale font start s t pen)
    (scales : scale = 1 ∨ scale = 2) {code : Nat} {codes : List Nat}
    (lies : Lies text 0 (0x1B :: 0x5B :: escapeCode code codes))
    (short : (escapeCode code codes).length ≤ 8) (fuel : Nat) :
    ∃ s', putsLoop scale font text (fuel + 1) 0 s =
        putsLoop scale font text fuel ((escapeCode code codes).length + 2) s' ∧
      Displays scale font start s' (t.settle (columns scale) (lines scale) (blank pen.bg))
        ((code :: codes).foldl Pen.select pen) := by
  obtain ⟨escape, bracket, parameters⟩ := lies
  obtain ⟨settled, same, outside⟩ := displays.wrap scales
  have positive : 0 < (escapeCode code codes).length := by
    cases codes <;> rw [escapeCode, List.length_append, List.length_cons] <;> omega
  have behind : Lies (fun k => text (k + 2)) 0 (escapeCode code codes) := lies_shift.2 parameters
  have parsed : psvDebugScreenEscape (fun k => text (k + 2)) (DebugScreen.wrap scale s) =
      ((escapeCode code codes).length - 1,
        (DebugScreen.wrap scale s).withPen ((code :: codes).foldl Pen.select pen)) := by
    rw [psvDebugScreenEscape, escapeLoop_codes behind short fun _ _ => rfl, same,
      Nat.zero_add]
    rfl
  refine ⟨(DebugScreen.wrap scale s).withPen ((code :: codes).foldl Pen.select pen), ?_,
    ⟨settled.x, settled.y, settled.inside, settled.pixels⟩, rfl, outside⟩
  have place : 0 + ((escapeCode code codes).length - 1 + 2) + 1 =
      (escapeCode code codes).length + 2 := by omega
  rw [putsLoop, escape, if_neg (by decide), if_neg (by decide), if_neg (by decide),
    if_pos ⟨rfl, bracket⟩]
  dsimp only
  rw [parsed, place]

theorem Displays.puts (displays : Displays scale font start s t pen)
    (scales : scale = 1 ∨ scale = 2) {message : Message} (good : message.Good text) :
    ∃ s', psvDebugScreenPuts scale font text (message.bytes.length + 1) s =
        some (message.bytes.length, s') ∧
      Displays scale font start s' (message.apply scale (t, pen)).1
        (message.apply scale (t, pen)).2 := by
  obtain ⟨colors, body⟩ := message
  obtain ⟨lies, ends, short, plain⟩ := good
  obtain ⟨escape, lies⟩ := lies_append.1 lies
  rw [Message.bytes, List.length_append] at ends ⊢
  cases colors with
  | none =>
      have length : (Message.code ⟨none, body⟩).length = 0 := rfl
      rw [length, Nat.zero_add] at lies ends
      rw [length, Nat.zero_add]
      obtain ⟨s', loop, shown⟩ := displays.body scales plain lies (by rwa [Nat.zero_add])
        (Nat.lt_succ_self _)
      exact ⟨s', by rw [psvDebugScreenPuts, loop, Nat.zero_add], shown⟩
  | some codes =>
      obtain ⟨code, codes⟩ := codes
      have length : (Message.code ⟨some (code, codes), body⟩).length =
          (escapeCode code codes).length + 2 := rfl
      rw [length, Nat.zero_add] at lies
      rw [length] at ends short ⊢
      obtain ⟨between, step, shown⟩ := displays.escape scales escape (by omega)
        ((escapeCode code codes).length + 2 + body.length)
      obtain ⟨s', loop, shown⟩ := shown.body scales plain lies ends
        (Nat.lt_add_of_pos_left (Nat.succ_pos _))
      exact ⟨s', by rw [psvDebugScreenPuts, step, loop], shown⟩

theorem Displays.command (displays : Displays scale font start s t pen)
    (scales : scale = 1 ∨ scale = 2) {command : Command} (good : command.Good) (counts : List Nat) :
    ∃ s', command.run scale font (s, counts) = some (s', counts ++ command.length.toList) ∧
      Displays scale font start s' (command.apply scale (t, pen)).1
        (command.apply scale (t, pen)).2 := by
  obtain ⟨shows, rfl, outside⟩ := displays
  cases command with
  | clear bgColor =>
      refine ⟨s.psvDebugScreenClear bgColor, ?_, clear_shows bgColor (positive_lines scales).2, rfl,
        fun p below => (clear_outside below).trans (outside p below)⟩
      exact congrArg (fun later => some (s.psvDebugScreenClear bgColor, later))
        (List.append_nil counts).symm
  | setFgColor color =>
      refine ⟨s.psvDebugScreenSetFgColor color, ?_,
        ⟨shows.x, shows.y, shows.inside, shows.pixels⟩, rfl, outside⟩
      exact congrArg (fun later => some (s.psvDebugScreenSetFgColor color, later))
        (List.append_nil counts).symm
  | setBgColor color =>
      refine ⟨s.psvDebugScreenSetBgColor color, ?_,
        ⟨shows.x, shows.y, shows.inside, shows.pixels⟩, rfl, outside⟩
      exact congrArg (fun later => some (s.psvDebugScreenSetBgColor color, later))
        (List.append_nil counts).symm
  | puts text message =>
      obtain ⟨s', printed, shown⟩ := Displays.puts ⟨shows, rfl, outside⟩ scales good
      exact ⟨s', by rw [Command.run, printed]; rfl, shown⟩

theorem Displays.commands (displays : Displays scale font start s t pen)
    (scales : scale = 1 ∨ scale = 2) {commands : List Command}
    (good : ∀ command ∈ commands, command.Good) (counts : List Nat) :
    ∃ s', commands.foldlM (Command.run scale font) (s, counts) =
        some (s', counts ++ commands.filterMap Command.length) ∧
      Displays scale font start s' (commands.foldl (Command.apply scale) (t, pen)).1
        (commands.foldl (Command.apply scale) (t, pen)).2 := by
  induction commands generalizing s t pen counts with
  | nil =>
      exact ⟨s, congrArg (fun later => some (s, later)) (List.append_nil counts).symm, displays⟩
  | cons command commands ih =>
      obtain ⟨between, step, shown⟩ := displays.command scales (good _ List.mem_cons_self) counts
      obtain ⟨s', rest, shown⟩ := ih shown
        (fun later member => good later (List.mem_cons_of_mem _ member))
        (counts ++ command.length.toList)
      have all : command.length.toList ++ commands.filterMap Command.length =
          (command :: commands).filterMap Command.length := by
        rw [List.filterMap_cons]
        cases command.length <;> rfl
      rw [List.append_assoc, all] at rest
      exact ⟨s', by rw [List.foldlM_cons, step]; exact rest, shown⟩

end

/-- After the screen is cleared, any messages and changes of colour leave on it what they leave on
a terminal, each message returns its length, and nothing behind the frame is written. -/
theorem screen_shows_terminal (scale : Nat) (scales : scale = 1 ∨ scale = 2) (font : Nat → Byte)
    (s : Screen) (bgColor : Color) (commands : List Command)
    (good : ∀ command ∈ commands, command.Good) :
    ∃ s', (Command.clear bgColor :: commands).foldlM (Command.run scale font) (s, []) =
        some (s', commands.filterMap Command.length) ∧
      Displays scale font s.frame s'
        (commands.foldl (Command.apply scale) (Terminal.wipe (blank bgColor), s.pen)).1
        (commands.foldl (Command.apply scale) (Terminal.wipe (blank bgColor), s.pen)).2 :=
  Displays.commands ⟨clear_shows bgColor (positive_lines scales).2, rfl, fun _ => clear_outside⟩
    scales good []

def redMessage : Message := ⟨some (31, []), [0x41]⟩

def redText (k : Nat) : Byte := redMessage.bytes.getD k 0

theorem redMessage_good : redMessage.Good redText where
  lies := ⟨rfl, rfl, rfl, rfl, rfl, rfl, trivial⟩
  ends := rfl
  short := by decide
  plain := {
    nonzero := by decide
    unescaped := by
      intro front back same
      have long := congrArg List.length same
      have one : redMessage.body.length = 1 := rfl
      rw [List.length_append, List.length_cons, List.length_cons] at long
      omega }

theorem screen_shows_red_letter :
    ∃ s', [Command.clear colorBlack, Command.puts redText redMessage].foldlM
        (Command.run 2 fontOfA) (⟨3, 5, colorWhite, colorBlack, fun _ => 0⟩, []) =
          some (s', [6]) ∧
      Displays 2 fontOfA (fun _ => 0) s'
        ([Command.puts redText redMessage].foldl (Command.apply 2)
          (Terminal.wipe (blank colorBlack), ⟨colorWhite, colorBlack⟩)).1
        ([Command.puts redText redMessage].foldl (Command.apply 2)
          (Terminal.wipe (blank colorBlack), ⟨colorWhite, colorBlack⟩)).2 :=
  screen_shows_terminal 2 (Or.inr rfl) fontOfA ⟨3, 5, colorWhite, colorBlack, fun _ => 0⟩
    colorBlack [Command.puts redText redMessage]
    (fun _ member => List.mem_singleton.1 member ▸ redMessage_good)

end VitaTools.DebugScreen
