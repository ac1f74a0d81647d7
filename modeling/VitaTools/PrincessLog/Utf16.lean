import VitaTools.Library.Cycle
import VitaTools.Library.Utf16

set_option autoImplicit false

namespace VitaTools.PrincessLog

open VitaTools.Library

-- `dst` holds what has been written so far.
structure Transcoding where
  i : Nat
  dst : List Byte

-- What a pass writes, and how far it moves in `src`.
def transcodeUnit (src : Nat → BitVec 16) (i : Nat) : List Nat × Nat :=
  let unit := (src i).toNat
  let next := (src (i + 1)).toNat
  if unit &&& 0xFF80 = 0 then ([unit &&& 0xFF], 1)
  else if unit &&& 0xF800 = 0 then
    ([((unit >>> 6) &&& 0xFF) ||| 0xC0, (unit &&& 0x3F) ||| 0x80], 1)
  else if unit &&& 0xFC00 = 0xD800 ∧ next &&& 0xFC00 = 0xDC00 then
    ([(((unit + 64) >>> 8) &&& 0x3) ||| 0xF0,
      (((unit >>> 2) + 16) &&& 0x3F) ||| 0x80,
      ((unit >>> 4) &&& 0x30) ||| 0x80 ||| ((next <<< 2) &&& 0xF),
      (next &&& 0x3F) ||| 0x80], 2)
  else
    ([((unit >>> 12) &&& 0xF) ||| 0xE0, ((unit >>> 6) &&& 0x3F) ||| 0x80,
      (unit &&& 0x3F) ||| 0x80], 1)

def utf16ToUtf8Loop (src : Nat → BitVec 16) : Loop Transcoding where
  more s := src s.i != 0
  pass s :=
    let (written, units) := transcodeUnit src s.i
    ⟨s.i + units, s.dst ++ written.map (BitVec.ofNat 8)⟩

/-- What is written to `dst`; `none` when the passes do not suffice. -/
def utf16ToUtf8 (fuel : Nat) (src : Nat → BitVec 16) : Option (List Byte) :=
  ((utf16ToUtf8Loop src).run fuel ⟨0, []⟩).map fun s => s.dst ++ [0]

-- The string from `i` up to its terminator.
def Stored (src : Nat → BitVec 16) : Nat → List (BitVec 16) → Prop
  | i, [] => src i = 0
  | i, unit :: rest => src i = unit ∧ Stored src (i + 1) rest

def transcoded (c : Char) : List Byte :=
  if c.toNat < 0x10000 then utf8EncodeChar c
  else
    [BitVec.ofNat 8 (c.toNat / 262144 % 4 + 0xF0), BitVec.ofNat 8 (c.toNat / 4096 % 64 + 0x80),
      BitVec.ofNat 8 ((c.toNat - 0x10000) / 262144 % 4 * 16 + c.toNat % 4 * 4 + 0x80),
      BitVec.ofNat 8 (c.toNat % 64 + 0x80)]

theorem and_mask (n width shift : Nat) :
    n &&& ((2 ^ width - 1) <<< shift) = n / 2 ^ shift % 2 ^ width * 2 ^ shift := by
  rw [← Nat.and_two_pow_sub_one_eq_mod, ← Nat.shiftRight_eq_div_pow, ← Nat.shiftLeft_eq]
  apply Nat.eq_of_testBit_eq
  intro i
  by_cases inside : shift ≤ i
  next => simp [inside, Bool.and_comm]
  next => simp [inside]

theorem and_zero_iff {n width shift : Nat} (small : n < 2 ^ (shift + width)) :
    n &&& ((2 ^ width - 1) <<< shift) = 0 ↔ n < 2 ^ shift := by
  have positive : 0 < 2 ^ shift := Nat.two_pow_pos shift
  have quotient : n / 2 ^ shift < 2 ^ width := by
    rw [Nat.div_lt_iff_lt_mul positive, ← Nat.pow_add, Nat.add_comm]
    exact small
  rw [and_mask, Nat.mod_eq_of_lt quotient, Nat.mul_eq_zero, Nat.div_eq_zero_iff]
  omega

theorem low_masks (n : Nat) :
    n &&& 0x3 = n % 4 ∧ n &&& 0xF = n % 16 ∧ n &&& 0x3F = n % 64 ∧ n &&& 0xFF = n % 256 :=
  ⟨Nat.and_two_pow_sub_one_eq_mod n 2, Nat.and_two_pow_sub_one_eq_mod n 4,
    Nat.and_two_pow_sub_one_eq_mod n 6, Nat.and_two_pow_sub_one_eq_mod n 8⟩

theorem or_marks :
    (∀ a < 64, a ||| 0x80 = a + 0x80) ∧ (∀ a < 32, a ||| 0xC0 = a + 0xC0) ∧
      (∀ a < 16, a ||| 0xE0 = a + 0xE0) ∧ (∀ a < 4, a ||| 0xF0 = a + 0xF0) ∧
      ∀ a < 4, ∀ b < 4, a * 16 ||| 0x80 ||| b * 4 = a * 16 + b * 4 + 0x80 := by
  decide

theorem masks :
    0xFF80 = (2 ^ 9 - 1) <<< 7 ∧ 0xF800 = (2 ^ 5 - 1) <<< 11 ∧ 0xFC00 = (2 ^ 6 - 1) <<< 10 ∧
      0x30 = (2 ^ 2 - 1) <<< 4 := by
  decide

theorem unit_zero_iff {unit : BitVec 16} :
    (unit.toNat &&& 0xFF80 = 0 ↔ unit.toNat < 0x80) ∧
      (unit.toNat &&& 0xF800 = 0 ↔ unit.toNat < 0x800) := by
  rw [masks.1, masks.2.1]
  exact ⟨and_zero_iff unit.isLt, and_zero_iff unit.isLt⟩

theorem unit_high (unit : BitVec 16) :
    unit.toNat &&& 0xFC00 = unit.toNat / 1024 * 1024 := by
  have below := unit.isLt
  rw [masks.2.2.1, and_mask]
  omega

theorem transcodeUnit_basic {src : Nat → BitVec 16} {i : Nat} {c : Char}
    (basic : c.toNat < 0x10000) (unit : src i = BitVec.ofNat 16 c.toNat) :
    ((transcodeUnit src i).1.map (BitVec.ofNat 8), (transcodeUnit src i).2) =
      (utf8EncodeChar c, 1) := by
  have value : (src i).toNat = c.toNat := by
    rw [unit, BitVec.toNat_ofNat, Nat.mod_eq_of_lt basic]
  have noSurrogate : ¬ ((src i).toNat &&& 0xFC00 = 0xD800 ∧
      (src (i + 1)).toNat &&& 0xFC00 = 0xDC00) := by
    rintro ⟨high, -⟩
    have range := char_range c
    rw [unit_high, value] at high
    omega
  obtain ⟨ascii, two⟩ : _ ∧ ((src i).toNat &&& 0xF800 = 0 ↔ _) := unit_zero_iff
  rw [value] at ascii two
  obtain ⟨mark, mark2, mark3, -, -⟩ := or_marks
  rw [utf8EncodeChar_basic basic, transcodeUnit, if_neg noSurrogate]
  simp only [value, ascii, two]
  have second : (c.toNat >>> 6) &&& 0xFF = c.toNat / 64 % 256 := by
    rw [Nat.shiftRight_eq_div_pow]
    exact (low_masks _).2.2.2
  have middle : (c.toNat >>> 6) &&& 0x3F = c.toNat / 64 % 64 := by
    rw [Nat.shiftRight_eq_div_pow]
    exact (low_masks _).2.2.1
  have top : (c.toNat >>> 12) &&& 0xF = c.toNat / 4096 % 16 := by
    rw [Nat.shiftRight_eq_div_pow]
    exact (low_masks _).2.1
  rw [(low_masks _).2.2.1, (low_masks _).2.2.2, second, middle, top, mark _ (by omega),
    mark _ (by omega), mark3 _ (by omega)]
  by_cases one : c.toNat < 0x80
  next =>
    rw [if_pos one, if_pos (Nat.le_of_lt_succ one), Nat.mod_eq_of_lt (by omega)]
    rfl
  next =>
    rw [if_neg one, if_neg fun le => one (Nat.lt_succ_of_le le)]
    by_cases pair : c.toNat < 0x800
    next =>
      have same : c.toNat / 64 % 256 = c.toNat / 64 % 32 := by omega
      rw [if_pos pair, if_pos (Nat.le_of_lt_succ pair), same, mark2 _ (by omega)]
      rfl
    next =>
      rw [if_neg pair, if_neg fun le => pair (Nat.lt_succ_of_le le)]
      rfl

theorem transcodeUnit_pair {src : Nat → BitVec 16} {i : Nat} {c : Char} {high low : BitVec 16}
    (wide : ¬ c.toNat < 0x10000) (units : utf16EncodeChar c = [high, low])
    (first : src i = high) (second : src (i + 1) = low) :
    ((transcodeUnit src i).1.map (BitVec.ofNat 8), (transcodeUnit src i).2) =
      (transcoded c, 2) := by
  have range := char_range c
  rw [utf16EncodeChar, if_neg wide] at units
  simp only [List.cons.injEq, and_true] at units
  have hi : (src i).toNat = 0xD800 + (c.toNat - 0x10000) / 0x400 := by
    rw [first, ← units.1, BitVec.toNat_ofNat]
    omega
  have lo : (src (i + 1)).toNat = 0xDC00 + (c.toNat - 0x10000) % 0x400 := by
    rw [second, ← units.2, BitVec.toNat_ofNat]
    omega
  obtain ⟨ascii, two⟩ : _ ∧ ((src i).toNat &&& 0xF800 = 0 ↔ _) := unit_zero_iff
  obtain ⟨mark, -, -, mark4, both⟩ := or_marks
  have surrogates : (src i).toNat &&& 0xFC00 = 0xD800 ∧
      (src (i + 1)).toNat &&& 0xFC00 = 0xDC00 := by
    rw [unit_high, unit_high, hi, lo]
    omega
  rw [transcoded, if_neg wide, transcodeUnit, if_neg (by rw [ascii]; omega),
    if_neg (by rw [two]; omega), if_pos surrogates]
  have plane : ((src i).toNat + 64) >>> 8 &&& 0x3 = c.toNat / 262144 % 4 := by
    rw [Nat.shiftRight_eq_div_pow, (low_masks _).1, hi]
    omega
  have top : ((src i).toNat >>> 2) + 16 &&& 0x3F = c.toNat / 4096 % 64 := by
    rw [Nat.shiftRight_eq_div_pow, (low_masks _).2.2.1, hi]
    omega
  have bits : (src i).toNat >>> 4 &&& 0x30 = (c.toNat - 0x10000) / 262144 % 4 * 16 := by
    rw [masks.2.2.2, and_mask, Nat.shiftRight_eq_div_pow, hi]
    omega
  have shifted : (src (i + 1)).toNat <<< 2 &&& 0xF = c.toNat % 4 * 4 := by
    rw [Nat.shiftLeft_eq, (low_masks _).2.1, lo]
    omega
  have last : (src (i + 1)).toNat &&& 0x3F = c.toNat % 64 := by
    rw [(low_masks _).2.2.1, lo]
    omega
  rw [plane, top, bits, shifted, last, mark4 _ (by omega), both _ (by omega) _ (by omega),
    mark _ (by omega), mark _ (by omega)]
  rfl

theorem transcodeUnit_char {src : Nat → BitVec 16} {i : Nat} {c : Char} {rest : List (BitVec 16)}
    (stored : Stored src i (utf16EncodeChar c ++ rest)) :
    ((transcodeUnit src i).1.map (BitVec.ofNat 8), (transcodeUnit src i).2) =
      (transcoded c, (utf16EncodeChar c).length) := by
  by_cases basic : c.toNat < 0x10000
  next =>
    rw [transcoded, if_pos basic]
    rw [utf16EncodeChar, if_pos basic] at stored ⊢
    exact transcodeUnit_basic basic stored.1
  next =>
    rw [utf16EncodeChar, if_neg basic] at stored ⊢
    exact transcodeUnit_pair basic (if_neg basic) stored.1 stored.2.1

theorem stored_append {src : Nat → BitVec 16} {i : Nat} {front rest : List (BitVec 16)}
    (stored : Stored src i (front ++ rest)) : Stored src (i + front.length) rest := by
  induction front generalizing i with
  | nil => exact stored
  | cons unit front ih =>
      rw [List.length_cons, Nat.add_comm front.length, ← Nat.add_assoc]
      exact ih stored.2

theorem stored_first {src : Nat → BitVec 16} {i : Nat} {c : Char} {rest : List (BitVec 16)}
    (clean : c ≠ '\x00') (stored : Stored src i (utf16EncodeChar c ++ rest)) : src i ≠ 0 := by
  have range := char_range c
  have some : c.toNat ≠ 0 := by
    intro zero
    exact clean (Char.toNat_inj.mp zero)
  intro ended
  have value : (src i).toNat = 0 := congrArg BitVec.toNat ended
  by_cases basic : c.toNat < 0x10000
  next =>
    rw [utf16EncodeChar, if_pos basic] at stored
    rw [stored.1, BitVec.toNat_ofNat] at value
    omega
  next =>
    rw [utf16EncodeChar, if_neg basic] at stored
    rw [stored.1, BitVec.toNat_ofNat] at value
    omega

theorem loop_stored {src : Nat → BitVec 16} (text : List Char) (clean : '\x00' ∉ text) (i : Nat)
    (dst : List Byte) (stored : Stored src i (utf16Encode text)) :
    (utf16ToUtf8Loop src).run (text.length + 1) ⟨i, dst⟩ =
      some ⟨i + (utf16Encode text).length, dst ++ text.flatMap transcoded⟩ := by
  induction text generalizing i dst with
  | nil =>
      have ended : (utf16ToUtf8Loop src).more ⟨i, dst⟩ = false := bne_eq_false_iff_eq.mpr stored
      rw [Loop.run, if_neg (by rw [ended]; exact Bool.false_ne_true)]
      simp [utf16Encode]
  | cons c rest ih =>
      rw [List.mem_cons, not_or] at clean
      have split : utf16Encode (c :: rest) = utf16EncodeChar c ++ utf16Encode rest := rfl
      rw [split] at stored ⊢
      have goes : (utf16ToUtf8Loop src).more ⟨i, dst⟩ = true :=
        bne_iff_ne.mpr (stored_first (Ne.symm clean.1) stored)
      have pass : (utf16ToUtf8Loop src).pass ⟨i, dst⟩ =
          ⟨i + (utf16EncodeChar c).length, dst ++ transcoded c⟩ := by
        have unit := transcodeUnit_char stored
        rw [Prod.mk.injEq] at unit
        rw [← unit.1, ← unit.2]
        rfl
      rw [List.length_cons, Loop.run, if_pos goes, pass,
        ih clean.2 _ _ (stored_append stored), List.flatMap_cons, List.length_append,
        List.append_assoc, Nat.add_assoc]

structure Utf16Text where
  chars : List Char
  clean : '\x00' ∉ chars

namespace Utf16Text

variable (text : Utf16Text)

-- The loop ends with these bytes in front of the terminator.
def Gives (bytes : List Byte) : Prop :=
  ∀ src, Stored src 0 (utf16Encode text.chars) →
    ∃ fuel, utf16ToUtf8 fuel src = some (bytes ++ [0])

def Encoded : Prop := text.Gives (utf8Encode text.chars)

/-- The bytes are the encoding, decoding them gives the text back, and no other text has them. -/
structure Transcoded : Prop where
  encoded : text.Encoded
  decoded : ∀ bytes, text.Gives bytes → utf8Decode? bytes = some text.chars
  unique : ∀ (other : Utf16Text) bytes, text.Gives bytes → other.Gives bytes →
    other.chars = text.chars

/-- A supplementary character that is encoded as it should be. -/
def Survives (c : Char) : Prop :=
  c.toNat < 0x100000 ∧ c.toNat / 64 % 64 = (c.toNat - 0x10000) / 0x40000 * 16 + c.toNat % 4 * 4

theorem gives : text.Gives (text.chars.flatMap transcoded) := by
  intro src stored
  refine ⟨text.chars.length + 1, ?_⟩
  rw [utf16ToUtf8, loop_stored text.chars text.clean 0 [] stored]
  rfl

end Utf16Text

theorem stored_of_getD {src : Nat → BitVec 16} {units : List (BitVec 16)} (i : Nat)
    (same : ∀ k, src (i + k) = units.getD k 0) : Stored src i units := by
  induction units generalizing i with
  | nil => exact same 0
  | cons unit rest ih =>
      refine ⟨same 0, ih (i + 1) fun k => ?_⟩
      rw [Nat.add_assoc, Nat.add_comm 1]
      exact same (k + 1)

namespace Utf16Text

variable {text : Utf16Text}

theorem gives_iff {bytes : List Byte} :
    text.Gives bytes ↔ bytes = text.chars.flatMap transcoded := by
  constructor
  next =>
    intro given
    have stored : Stored (fun k => (utf16Encode text.chars).getD k 0) 0
        (utf16Encode text.chars) := stored_of_getD 0 fun k => by rw [Nat.zero_add]
    obtain ⟨fuel, result⟩ := given _ stored
    obtain ⟨enough, expected⟩ := text.gives _ stored
    rw [utf16ToUtf8, Option.map_eq_some_iff] at result expected
    obtain ⟨s, ran, first⟩ := result
    obtain ⟨t, other, second⟩ := expected
    have same : s = t := by
      rcases Nat.le_total fuel enough with less | less
      · exact Option.some.inj ((Loop.run_more less ran).symm.trans other)
      · exact Option.some.inj (ran.symm.trans (Loop.run_more less other))
    rw [same, second] at first
    exact (List.append_left_injective [0] first).symm
  next =>
    rintro rfl
    exact text.gives

theorem transcoded_basic {c : Char} (basic : c.toNat < 0x10000) :
    PrincessLog.transcoded c = utf8EncodeChar c := by
  rw [PrincessLog.transcoded, if_pos basic]

theorem transcoded_length (c : Char) :
    (PrincessLog.transcoded c).length = (utf8EncodeChar c).length := by
  by_cases basic : c.toNat < 0x10000
  next => rw [transcoded_basic basic]
  next =>
    rw [PrincessLog.transcoded, if_neg basic, utf8EncodeChar_supplementary (Nat.not_lt.mp basic)]
    rfl

theorem byte_inj {a b : Nat} (first : a < 256) (second : b < 256) :
    BitVec.ofNat 8 a = BitVec.ofNat 8 b ↔ a = b := by
  rw [← BitVec.toNat_inj, BitVec.toNat_ofNat, BitVec.toNat_ofNat]
  omega

theorem transcoded_iff_char {c : Char} : PrincessLog.transcoded c = utf8EncodeChar c ↔
    c.toNat < 0x10000 ∨ Survives c := by
  by_cases basic : c.toNat < 0x10000
  next => exact iff_of_true (transcoded_basic basic) (.inl basic)
  next =>
    have range := char_range c
    rw [PrincessLog.transcoded, if_neg basic,
      utf8EncodeChar_supplementary (Nat.not_lt.mp basic), or_iff_right basic, Survives]
    have plane : c.toNat / 262144 % 4 = c.toNat / 262144 % 8 ↔ c.toNat < 0x100000 := by omega
    have high : (c.toNat - 0x10000) / 262144 % 4 = (c.toNat - 0x10000) / 0x40000 := by omega
    simp only [List.cons.injEq, and_true, true_and]
    rw [byte_inj (by omega) (by omega), byte_inj (by omega) (by omega), Nat.add_right_cancel_iff,
      Nat.add_right_cancel_iff, plane, high, eq_comm (b := c.toNat / 64 % 64)]

theorem flatMap_eq_iff {α β : Type} {f g : α → List β}
    (alike : ∀ a, (f a).length = (g a).length) (l : List α) :
    l.flatMap f = l.flatMap g ↔ ∀ a ∈ l, f a = g a := by
  induction l with
  | nil => simp
  | cons a rest ih =>
      rw [List.flatMap_cons, List.flatMap_cons, List.forall_mem_cons, ← ih]
      exact ⟨fun same => List.append_inj same (alike a), fun same => by rw [same.1, same.2]⟩

theorem encoded_iff : text.Encoded ↔ ∀ c ∈ text.chars, c.toNat < 0x10000 ∨ Survives c := by
  rw [Encoded, gives_iff, eq_comm, utf8Encode, flatMap_eq_iff transcoded_length]
  exact forall₂_congr fun c _ => transcoded_iff_char

theorem twin {c : Char} (wide : 0x10000 ≤ c.toNat) :
    ∃ d : Char, d ≠ c ∧ d ≠ '\x00' ∧ PrincessLog.transcoded d = PrincessLog.transcoded c := by
  have range := char_range c
  let n := if c.toNat % 128 < 64 then c.toNat + 64 else c.toNat - 64
  have inside : 0x10000 ≤ n ∧ n < 0x110000 := by
    dsimp only [n]
    split <;> omega
  have valid : n.isValidChar := .inr ⟨by omega, by omega⟩
  let d := Char.ofNat n
  have value : d.toNat = n := by
    change (Char.ofNat n).toNat = n
    rw [Char.ofNat, dif_pos valid]
    rfl
  refine ⟨d, ?_, ?_, ?_⟩
  · intro same
    rw [same] at value
    dsimp only [n] at value
    split at value <;> omega
  · intro same
    rw [same] at value
    have zero : '\x00'.toNat = 0 := rfl
    omega
  · rw [PrincessLog.transcoded, PrincessLog.transcoded, if_neg (by omega), if_neg (by omega), value]
    simp only [List.cons.injEq, and_true, ← BitVec.toNat_inj, BitVec.toNat_ofNat]
    dsimp only [n]
    split <;> omega

theorem other_basic {other : Utf16Text} (basic : ∀ c ∈ text.chars, c.toNat < 0x10000)
    (same : other.chars.flatMap PrincessLog.transcoded = utf8Encode text.chars) :
    ∀ c ∈ other.chars, c.toNat < 0x10000 := by
  intro c member
  by_contra wide
  have lead : BitVec.ofNat 8 (c.toNat / 262144 % 4 + 0xF0) ∈ PrincessLog.transcoded c := by
    rw [PrincessLog.transcoded, if_neg wide]
    exact List.mem_cons_self
  have inside := List.mem_flatMap.mpr ⟨c, member, lead⟩
  rw [same] at inside
  obtain ⟨d, later, byte⟩ := List.mem_flatMap.mp inside
  have below := utf8EncodeChar_below (basic d later) _ byte
  rw [BitVec.toNat_ofNat] at below
  omega

/-- The code is right on a text exactly when all its characters are of the basic plane; the bytes
alone are right a little more often. -/
theorem transcoded_iff :
    (text.Encoded ↔ ∀ c ∈ text.chars, c.toNat < 0x10000 ∨ Survives c) ∧
      (text.Transcoded ↔ ∀ c ∈ text.chars, c.toNat < 0x10000) := by
  refine ⟨encoded_iff, ?_, ?_⟩
  next =>
    intro right c member
    by_contra wide
    obtain ⟨d, differs, clean, same⟩ := twin (Nat.not_lt.mp wide)
    obtain ⟨front, back, chars⟩ := List.append_of_mem member
    have cleanText := text.clean
    rw [chars, List.mem_append, List.mem_cons, not_or, not_or] at cleanText
    let other : Utf16Text := ⟨front ++ d :: back, by
      rw [List.mem_append, List.mem_cons, not_or, not_or]
      exact ⟨cleanText.1, Ne.symm clean, cleanText.2.2⟩⟩
    have bytes : other.chars.flatMap PrincessLog.transcoded =
        text.chars.flatMap PrincessLog.transcoded := by
      rw [chars]
      simp only [other, List.flatMap_append, List.flatMap_cons, same]
    have equal : front ++ d :: back = front ++ c :: back :=
      (right.unique other _ text.gives (gives_iff.mpr bytes.symm)).trans chars
    exact differs (List.cons.inj (List.append_cancel_left equal)).1
  next =>
    intro basic
    have encoded : text.Encoded := encoded_iff.mpr fun c member => .inl (basic c member)
    have whole : text.chars.flatMap PrincessLog.transcoded = utf8Encode text.chars :=
      (gives_iff.mp encoded).symm
    refine ⟨encoded, fun bytes given => ?_, fun other bytes given also => ?_⟩
    · rw [gives_iff.mp given, whole]
      exact utf8Decode?_utf8Encode _
    · have same := (gives_iff.mp also).symm.trans (gives_iff.mp given)
      have plain := other_basic basic (same.trans whole)
      have encoding : other.chars.flatMap PrincessLog.transcoded = utf8Encode other.chars :=
        (flatMap_eq_iff transcoded_length _).mpr fun c member => transcoded_basic (plain c member)
      exact utf8Encode_injective (encoding.symm.trans (same.trans whole))

-- U+1F600.
def face : Utf16Text := ⟨[Char.ofNat 0x1F600], by decide⟩

-- The third byte loses its bits.
theorem face_mangled :
    utf16ToUtf8 2 (fun k => (utf16Encode face.chars).getD k 0) = some [0xF0, 0x9F, 0x80, 0x80, 0] ∧
      utf8Encode face.chars = [0xF0, 0x9F, 0x98, 0x80] ∧ ¬ face.Encoded := by
  refine ⟨by decide, by decide, fun encoded => ?_⟩
  exact absurd (gives_iff.mp encoded) (by decide)

end Utf16Text

end VitaTools.PrincessLog
