import VitaTools.Library.Memory

set_option autoImplicit false

namespace VitaTools.Library

def utf16EncodeChar (c : Char) : List (BitVec 16) :=
  if c.toNat < 0x10000 then [BitVec.ofNat 16 c.toNat]
  else
    [BitVec.ofNat 16 (0xD800 + (c.toNat - 0x10000) / 0x400),
      BitVec.ofNat 16 (0xDC00 + (c.toNat - 0x10000) % 0x400)]

def utf16Encode (text : List Char) : List (BitVec 16) := text.flatMap utf16EncodeChar

def utf8EncodeChar (c : Char) : List Byte := (String.utf8EncodeChar c).map UInt8.toBitVec

def utf8Encode (text : List Char) : List Byte := text.flatMap utf8EncodeChar

def utf8Decode? (bytes : List Byte) : Option (List Char) :=
  (bytes.map UInt8.ofBitVec).toByteArray.utf8Decode?.map Array.toList

theorem utf8Decode?_utf8Encode (text : List Char) : utf8Decode? (utf8Encode text) = some text := by
  have same (c : Char) : (utf8EncodeChar c).map UInt8.ofBitVec = String.utf8EncodeChar c := by
    rw [utf8EncodeChar, List.map_map]
    exact List.map_id _
  have bytes : (utf8Encode text).map UInt8.ofBitVec = text.flatMap String.utf8EncodeChar := by
    rw [utf8Encode, List.map_flatMap]
    exact congrArg (text.flatMap ·) (funext same)
  have decoded := List.utf8Decode?_utf8Encode (l := text)
  rw [List.utf8Encode] at decoded
  rw [utf8Decode?, bytes, decoded]
  rfl

theorem utf8Encode_injective : Function.Injective utf8Encode := by
  intro first second same
  have decoded := utf8Decode?_utf8Encode first
  rw [same, utf8Decode?_utf8Encode] at decoded
  exact (Option.some.inj decoded).symm

theorem char_range (c : Char) :
    c.toNat < 0xD800 ∨ 0xE000 ≤ c.toNat ∧ c.toNat < 0x110000 := by
  rcases c.valid with low | ⟨high, last⟩
  · exact .inl low
  · exact .inr ⟨high, last⟩

theorem utf8EncodeChar_supplementary {c : Char} (wide : 0x10000 ≤ c.toNat) :
    utf8EncodeChar c =
      [BitVec.ofNat 8 (c.toNat / 262144 % 8 + 0xF0), BitVec.ofNat 8 (c.toNat / 4096 % 64 + 0x80),
        BitVec.ofNat 8 (c.toNat / 64 % 64 + 0x80), BitVec.ofNat 8 (c.toNat % 64 + 0x80)] := by
  have value : c.val.toNat = c.toNat := rfl
  rw [utf8EncodeChar, String.utf8EncodeChar]
  rw [value, if_neg (by omega), if_neg (by omega), if_neg (by omega)]
  rfl

theorem utf8EncodeChar_basic {c : Char} (basic : c.toNat < 0x10000) :
    utf8EncodeChar c =
      if c.toNat ≤ 0x7F then [BitVec.ofNat 8 c.toNat]
      else if c.toNat ≤ 0x7FF then
        [BitVec.ofNat 8 (c.toNat / 64 % 32 + 0xC0), BitVec.ofNat 8 (c.toNat % 64 + 0x80)]
      else
        [BitVec.ofNat 8 (c.toNat / 4096 % 16 + 0xE0), BitVec.ofNat 8 (c.toNat / 64 % 64 + 0x80),
          BitVec.ofNat 8 (c.toNat % 64 + 0x80)] := by
  have value : c.val.toNat = c.toNat := rfl
  have last : c.toNat ≤ 0xFFFF := by omega
  rw [utf8EncodeChar, String.utf8EncodeChar]
  rw [value, if_pos last]
  split
  next => rfl
  next => split <;> rfl

theorem utf8EncodeChar_below {c : Char} (basic : c.toNat < 0x10000) :
    ∀ byte ∈ utf8EncodeChar c, byte.toNat < 0xF0 := by
  intro byte member
  rw [utf8EncodeChar_basic basic] at member
  split at member
  next =>
    rw [List.mem_singleton.mp member, BitVec.toNat_ofNat]
    omega
  next =>
    split at member
    all_goals
      simp only [List.mem_cons, List.not_mem_nil, or_false] at member
    case isTrue =>
      rcases member with rfl | rfl <;> rw [BitVec.toNat_ofNat] <;> omega
    case isFalse =>
      rcases member with rfl | rfl | rfl <;> rw [BitVec.toNat_ofNat] <;> omega

end VitaTools.Library
