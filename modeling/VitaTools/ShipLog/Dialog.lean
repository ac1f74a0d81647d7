import VitaTools.Library.Strings
import VitaTools.PrincessLog.Utf16

set_option autoImplicit false

namespace VitaTools.ShipLog

open VitaTools.Library VitaTools.PrincessLog

-- `dst` holds what has been written so far.
structure Widening where
  i : Nat
  dst : List (BitVec 16)

-- What a pass writes, and how far it moves in `src`.
def widenByte (src : Memory) (i : Nat) : Nat × Nat :=
  let byte := (src i).toNat
  let next := (src (i + 1)).toNat
  let third := (src (i + 2)).toNat
  if byte &&& 0xE0 = 0xE0 then
    (((byte &&& 0x0F) <<< 12) ||| ((next &&& 0x3F) <<< 6) ||| (third &&& 0x3F), 3)
  else if byte &&& 0xC0 = 0xC0 then (((byte &&& 0x1F) <<< 6) ||| (next &&& 0x3F), 2)
  else (byte, 1)

def utf8ToUtf16Loop (src : Memory) : Loop Widening where
  more s := src s.i != 0
  pass s :=
    let (written, bytes) := widenByte src s.i
    ⟨s.i + bytes, s.dst ++ [BitVec.ofNat 16 written]⟩

/-- What is written to `dst`; `none` when the passes do not suffice. -/
def utf8ToUtf16 (fuel : Nat) (src : Memory) : Option (List (BitVec 16)) :=
  ((utf8ToUtf16Loop src).run fuel ⟨0, []⟩).map fun s => s.dst ++ [0]

-- A lead byte of four is taken for one of three, and the byte that is left for a character.
def narrow (c : Char) : List Char :=
  if c.toNat < 0x10000 then [c] else [Char.ofNat (c.toNat / 64), Char.ofNat (c.toNat % 64 + 0x80)]

theorem lead_masks :
    (∀ k < 128, k &&& 0xE0 ≠ 0xE0 ∧ k &&& 0xC0 ≠ 0xC0) ∧
      (∀ k < 32, (k + 0xC0) &&& 0xE0 ≠ 0xE0 ∧ (k + 0xC0) &&& 0xC0 = 0xC0 ∧
        (k + 0xC0) &&& 0x1F = k) ∧
      (∀ k < 16, (k + 0xE0) &&& 0xE0 = 0xE0 ∧ (k + 0xE0) &&& 0x0F = k) ∧
      ∀ k < 64, (k + 0x80) &&& 0x3F = k ∧ (k + 0x80) &&& 0xE0 ≠ 0xE0 ∧
        (k + 0x80) &&& 0xC0 ≠ 0xC0 := by
  decide

theorem or_low {high low k : Nat} (small : low < 2 ^ k) :
    high <<< k ||| low = high * 2 ^ k + low := by
  rw [← Nat.shiftLeft_add_eq_or_of_lt small, Nat.shiftLeft_eq]

theorem or_three {a b c : Nat} (second : b < 64) (third : c < 64) :
    a <<< 12 ||| b <<< 6 ||| c = (a * 64 + b) * 64 + c := by
  have shifted : b <<< 6 < 2 ^ 12 := by
    rw [Nat.shiftLeft_eq]
    omega
  have joined : a * 2 ^ 12 + b * 2 ^ 6 = (a * 64 + b) <<< 6 := by
    rw [Nat.shiftLeft_eq]
    omega
  rw [or_low shifted, Nat.shiftLeft_eq b, joined, or_low (show c < 2 ^ 6 from third)]
  norm_num

section

variable {src : Memory} {i : Nat} {c : Char}

theorem widenByte_one {k : Nat} (small : k < 128) (first : src i = BitVec.ofNat 8 k) :
    widenByte src i = (k, 1) := by
  have value : (src i).toNat = k := by
    rw [first, BitVec.toNat_ofNat]
    omega
  obtain ⟨three, two⟩ := lead_masks.1 k small
  simp [widenByte, value, three, two]

theorem widenByte_tail {k : Nat} (small : k < 64) (first : src i = BitVec.ofNat 8 (k + 0x80)) :
    widenByte src i = (k + 0x80, 1) := by
  have value : (src i).toNat = k + 0x80 := by
    rw [first, BitVec.toNat_ofNat]
    omega
  obtain ⟨-, three, two⟩ := lead_masks.2.2.2 k small
  simp [widenByte, value, three, two]

theorem widenByte_two {a b : Nat} (lead : a < 32) (tail : b < 64)
    (first : src i = BitVec.ofNat 8 (a + 0xC0)) (second : src (i + 1) = BitVec.ofNat 8 (b + 0x80)) :
    widenByte src i = (a * 64 + b, 2) := by
  have value : (src i).toNat = a + 0xC0 := by
    rw [first, BitVec.toNat_ofNat]
    omega
  have next : (src (i + 1)).toNat = b + 0x80 := by
    rw [second, BitVec.toNat_ofNat]
    omega
  obtain ⟨three, two, low⟩ := lead_masks.2.1 a lead
  simp [widenByte, value, next, three, two, low, (lead_masks.2.2.2 b tail).1,
    or_low (show b < 2 ^ 6 from tail)]

theorem widenByte_three {lead a b c : Nat} (high : lead &&& 0xE0 = 0xE0)
    (low : lead &&& 0x0F = a) (byte : lead < 256) (tail : b < 64) (last : c < 64)
    (first : src i = BitVec.ofNat 8 lead) (second : src (i + 1) = BitVec.ofNat 8 (b + 0x80))
    (third : src (i + 2) = BitVec.ofNat 8 (c + 0x80)) :
    widenByte src i = ((a * 64 + b) * 64 + c, 3) := by
  have value : (src i).toNat = lead := by
    rw [first, BitVec.toNat_ofNat]
    omega
  have next : (src (i + 1)).toNat = b + 0x80 := by
    rw [second, BitVec.toNat_ofNat]
    omega
  have following : (src (i + 2)).toNat = c + 0x80 := by
    rw [third, BitVec.toNat_ofNat]
    omega
  simp [widenByte, value, next, following, high, low, (lead_masks.2.2.2 b tail).1,
    (lead_masks.2.2.2 c last).1, or_three tail last]

theorem widenByte_basic (basic : c.toNat < 0x10000) (lies : Lies src i (utf8EncodeChar c)) :
    widenByte src i = (c.toNat, (utf8EncodeChar c).length) := by
  rw [utf8EncodeChar_basic basic] at lies ⊢
  split
  next one =>
    rw [if_pos one] at lies
    exact widenByte_one (Nat.lt_succ_of_le one) lies.1
  next more =>
    rw [if_neg more] at lies
    split
    next two =>
      rw [if_pos two] at lies
      have joined : c.toNat / 64 % 32 * 64 + c.toNat % 64 = c.toNat := by omega
      have widened := widenByte_two (Nat.mod_lt _ (by decide)) (Nat.mod_lt _ (by decide)) lies.1
        lies.2.1
      rwa [joined] at widened
    next three =>
      rw [if_neg three] at lies
      have joined : (c.toNat / 4096 % 16 * 64 + c.toNat / 64 % 64) * 64 + c.toNat % 64 =
          c.toNat := by omega
      obtain ⟨high, low⟩ := lead_masks.2.2.1 (c.toNat / 4096 % 16) (Nat.mod_lt _ (by decide))
      have widened := widenByte_three high low (by omega) (Nat.mod_lt _ (by decide))
        (Nat.mod_lt _ (by decide)) lies.1 lies.2.1 lies.2.2.1
      rwa [joined] at widened

theorem widenByte_supplementary (wide : 0x10000 ≤ c.toNat)
    (lies : Lies src i (utf8EncodeChar c)) :
    widenByte src i = (c.toNat / 64, 3) ∧ widenByte src (i + 3) = (c.toNat % 64 + 0x80, 1) := by
  have range := char_range c
  rw [utf8EncodeChar_supplementary wide] at lies
  have leads : ∀ k < 8, (k + 0xF0) &&& 0xE0 = 0xE0 ∧ (k + 0xF0) &&& 0x0F = k := by decide
  obtain ⟨high, low⟩ := leads (c.toNat / 262144 % 8) (Nat.mod_lt _ (by decide))
  have joined : (c.toNat / 262144 % 8 * 64 + c.toNat / 4096 % 64) * 64 + c.toNat / 64 % 64 =
      c.toNat / 64 := by omega
  have widened := widenByte_three high low (by omega) (Nat.mod_lt _ (by decide))
    (Nat.mod_lt _ (by decide)) lies.1 lies.2.1 lies.2.2.1
  rw [joined] at widened
  exact ⟨widened, widenByte_tail (Nat.mod_lt _ (by decide)) lies.2.2.2.1⟩

theorem lies_first (clean : c ≠ '\x00') (lies : Lies src i (utf8EncodeChar c)) : src i ≠ 0 := by
  have range := char_range c
  have some : c.toNat ≠ 0 := fun zero => clean (Char.toNat_inj.mp zero)
  intro ended
  have value : (src i).toNat = 0 := congrArg BitVec.toNat ended
  by_cases basic : c.toNat < 0x10000
  next =>
    have widened := widenByte_basic basic lies
    simp only [widenByte, value, Nat.zero_and] at widened
    exact some (Prod.mk.inj widened).1.symm
  next =>
    rw [utf8EncodeChar_supplementary (Nat.le_of_not_lt basic)] at lies
    rw [lies.1, BitVec.toNat_ofNat] at value
    omega

end

theorem toNat_ofNat {n : Nat} (valid : n < 0xD800) : (Char.ofNat n).toNat = n := by
  rw [Char.ofNat, dif_pos (Or.inl valid)]
  rfl

theorem narrow_basic (c : Char) : ∀ d ∈ narrow c, d.toNat < 0x10000 := by
  have range := char_range c
  rw [narrow]
  split
  next basic => simpa using basic
  next =>
    have first := toNat_ofNat (show c.toNat / 64 < 0xD800 by omega)
    have second := toNat_ofNat (show c.toNat % 64 + 0x80 < 0xD800 by omega)
    simp only [List.mem_cons, List.not_mem_nil, or_false, forall_eq_or_imp, forall_eq, first,
      second]
    omega

theorem utf16Encode_narrow (c : Char) : utf16Encode (narrow c) =
    if c.toNat < 0x10000 then [BitVec.ofNat 16 c.toNat]
    else [BitVec.ofNat 16 (c.toNat / 64), BitVec.ofNat 16 (c.toNat % 64 + 0x80)] := by
  have range := char_range c
  rw [narrow]
  split
  next basic => simp [utf16Encode, utf16EncodeChar, basic]
  next =>
    have first := toNat_ofNat (show c.toNat / 64 < 0xD800 by omega)
    have second := toNat_ofNat (show c.toNat % 64 + 0x80 < 0xD800 by omega)
    simp [utf16Encode, utf16EncodeChar, first, second, show c.toNat / 64 < 0x10000 by omega,
      show c.toNat % 64 + 0x80 < 0x10000 by omega]

section

variable {src : Memory} {i : Nat}

theorem loop_pass {dst : List (BitVec 16)} {unit bytes : Nat} (more : src i ≠ 0)
    (pass : widenByte src i = (unit, bytes)) (fuel : Nat) :
    (utf8ToUtf16Loop src).run (fuel + 1) ⟨i, dst⟩ =
      (utf8ToUtf16Loop src).run fuel ⟨i + bytes, dst ++ [BitVec.ofNat 16 unit]⟩ := by
  have goes : (utf8ToUtf16Loop src).more ⟨i, dst⟩ = true := bne_iff_ne.mpr more
  have passed : (utf8ToUtf16Loop src).pass ⟨i, dst⟩ =
      ⟨i + bytes, dst ++ [BitVec.ofNat 16 unit]⟩ := by simp [utf8ToUtf16Loop, pass]
  rw [Loop.run, if_pos goes, passed]

theorem loop_char {c : Char} (clean : c ≠ '\x00') (lies : Lies src i (utf8EncodeChar c))
    (dst : List (BitVec 16)) (fuel : Nat) :
    (utf8ToUtf16Loop src).run (fuel + (narrow c).length) ⟨i, dst⟩ =
      (utf8ToUtf16Loop src).run fuel
        ⟨i + (utf8EncodeChar c).length, dst ++ utf16Encode (narrow c)⟩ := by
  have first := lies_first clean lies
  rw [utf16Encode_narrow, narrow]
  by_cases basic : c.toNat < 0x10000
  next => simp [basic, loop_pass first (widenByte_basic basic lies)]
  next =>
    obtain ⟨pass, rest⟩ := widenByte_supplementary (Nat.le_of_not_lt basic) lies
    have left : src (i + 3) ≠ 0 := by
      intro ended
      simp [widenByte, ended] at rest
    simp [basic, loop_pass first pass, loop_pass left rest,
      utf8EncodeChar_supplementary (Nat.le_of_not_lt basic)]

theorem loop_lies {text : List Char} (clean : '\x00' ∉ text) (lies : Lies src i (utf8Encode text))
    (ends : src (i + (utf8Encode text).length) = 0) (dst : List (BitVec 16)) :
    (utf8ToUtf16Loop src).run ((text.flatMap narrow).length + 1) ⟨i, dst⟩ =
      some ⟨i + (utf8Encode text).length, dst ++ utf16Encode (text.flatMap narrow)⟩ := by
  induction text generalizing i dst with
  | nil =>
      have ended : (utf8ToUtf16Loop src).more ⟨i, dst⟩ = false := bne_eq_false_iff_eq.mpr ends
      simp [Loop.run, ended, utf8Encode, utf16Encode]
  | cons c text ih =>
      rw [List.mem_cons, not_or] at clean
      have bytes : utf8Encode (c :: text) = utf8EncodeChar c ++ utf8Encode text := rfl
      have units : utf16Encode (narrow c ++ text.flatMap narrow) =
          utf16Encode (narrow c) ++ utf16Encode (text.flatMap narrow) := List.flatMap_append
      rw [bytes] at lies ends ⊢
      obtain ⟨here, later⟩ := lies_append.1 lies
      rw [List.length_append, ← Nat.add_assoc] at ends ⊢
      have passes : (narrow c).length + (text.flatMap narrow).length + 1 =
          (text.flatMap narrow).length + 1 + (narrow c).length := by omega
      rw [List.flatMap_cons, List.length_append, passes, loop_char (Ne.symm clean.1) here,
        ih clean.2 later ends, units, List.append_assoc]

end

theorem stored_of_lies {dialog : Nat → BitVec 16} {i : Nat} {units : List (BitVec 16)}
    (lies : Lies dialog i (units ++ [0])) : Stored dialog i units := by
  induction units generalizing i with
  | nil => exact lies.1
  | cons unit units ih => exact ⟨lies.1, ih lies.2⟩

section

variable {text : List Char}

theorem narrow_clean (clean : '\x00' ∉ text) : '\x00' ∉ text.flatMap narrow := by
  intro member
  obtain ⟨c, inside, narrowed⟩ := List.mem_flatMap.1 member
  have range := char_range c
  rw [narrow] at narrowed
  split at narrowed
  next =>
    rw [List.mem_singleton.1 narrowed] at clean
    exact clean inside
  next =>
    have first := toNat_ofNat (show c.toNat / 64 < 0xD800 by omega)
    have second := toNat_ofNat (show c.toNat % 64 + 0x80 < 0xD800 by omega)
    have nul : '\x00'.toNat = 0 := rfl
    simp only [List.mem_cons, List.not_mem_nil, or_false] at narrowed
    rcases narrowed with same | same
    · rw [same, first] at nul
      omega
    · rw [same, second] at nul
      omega

theorem narrow_eq (basic : ∀ c ∈ text, c.toNat < 0x10000) : text.flatMap narrow = text := by
  induction text with
  | nil => rfl
  | cons c text ih =>
      rw [List.forall_mem_cons] at basic
      simp [narrow, basic.1, ih basic.2]

theorem narrowed_basic : ∀ d ∈ text.flatMap narrow, d.toNat < 0x10000 := by
  intro d member
  obtain ⟨c, -, narrowed⟩ := List.mem_flatMap.1 member
  exact narrow_basic c d narrowed

theorem transcoded_narrow :
    (text.flatMap narrow).flatMap transcoded = utf8Encode (text.flatMap narrow) :=
  List.flatMap_congr fun d member => Utf16Text.transcoded_basic (narrowed_basic d member)

theorem units_iff : utf16Encode (text.flatMap narrow) = utf16Encode text ↔
    ∀ c ∈ text, c.toNat < 0x10000 := by
  constructor
  next =>
    intro same c inside
    by_contra wide
    have range := char_range c
    have member : BitVec.ofNat 16 (0xD800 + (c.toNat - 0x10000) / 0x400) ∈ utf16Encode text :=
      List.mem_flatMap.2 ⟨c, inside, by simp [utf16EncodeChar, wide]⟩
    rw [← same] at member
    obtain ⟨d, narrowed, unit⟩ := List.mem_flatMap.1 member
    have basic := narrowed_basic d narrowed
    rw [utf16EncodeChar, if_pos basic, List.mem_singleton] at unit
    have value := congrArg BitVec.toNat unit
    rw [BitVec.toNat_ofNat, BitVec.toNat_ofNat] at value
    have surrogate := char_range d
    omega
  next =>
    intro basic
    rw [narrow_eq basic]

end

/-- A text of basic characters is in UTF-16 when the dialog starts, and comes back as it was when it
is confirmed. Any other text is mangled on either way. -/
theorem dialog_round_trip (text : List Char) (clean : '\x00' ∉ text) (src : Memory)
    (lies : Lies src 0 (utf8Encode text)) (ends : src (utf8Encode text).length = 0) :
    ∃ units back, (∃ fuel, utf8ToUtf16 fuel src = some (units ++ [0])) ∧
      (∀ dialog, Lies dialog 0 (units ++ [0]) →
        ∃ fuel, utf16ToUtf8 fuel dialog = some (back ++ [0])) ∧
      (units = utf16Encode text ↔ ∀ c ∈ text, c.toNat < 0x10000) ∧
      (back = utf8Encode text ↔ ∀ c ∈ text, c.toNat < 0x10000) := by
  refine ⟨utf16Encode (text.flatMap narrow), utf8Encode (text.flatMap narrow), ?_, ?_, units_iff,
    ?_⟩
  next =>
    refine ⟨(text.flatMap narrow).length + 1, ?_⟩
    rw [utf8ToUtf16, loop_lies clean lies (by rwa [Nat.zero_add])]
    rfl
  next =>
    intro dialog shown
    have given := Utf16Text.gives ⟨text.flatMap narrow, narrow_clean clean⟩
    rw [Utf16Text.Gives, transcoded_narrow] at given
    exact given dialog (stored_of_lies shown)
  next =>
    rw [utf8Encode_injective.eq_iff]
    constructor
    · intro same c inside
      rw [← same] at inside
      exact narrowed_basic c inside
    · exact narrow_eq

-- `é` and a face: the face makes it two other characters.
def caption : List Char := [Char.ofNat 0xE9, Char.ofNat 0x1F600]

theorem dialog_round_trip_caption :
    ∃ units back, (∃ fuel, utf8ToUtf16 fuel (fun k => (utf8Encode caption).getD k 0) =
        some (units ++ [0])) ∧
      (∀ dialog, Lies dialog 0 (units ++ [0]) →
        ∃ fuel, utf16ToUtf8 fuel dialog = some (back ++ [0])) ∧
      (units = utf16Encode caption ↔ ∀ c ∈ caption, c.toNat < 0x10000) ∧
      (back = utf8Encode caption ↔ ∀ c ∈ caption, c.toNat < 0x10000) :=
  dialog_round_trip caption (by decide) _
    (lies_of_getD fun k _ => by rw [Nat.zero_add]) (by decide +kernel)

end VitaTools.ShipLog
