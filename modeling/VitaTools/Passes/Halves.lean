import VitaTools.Passes.Record
import VitaTools.Decompiler.CSyntax

set_option autoImplicit false

namespace VitaTools.Passes

open VitaTools.Library VitaTools.Library.Traced
open VitaTools.Decompiler (Text Word getImmString hexDigits hexChar)
open VitaTools.Decompiler.Globals (opName)

def digitsValue (digits : List (BitVec 4)) : Nat :=
  digits.foldl (fun value digit => value * 16 + digit.toNat) 0

theorem hexDigitOf_hexChar (digit : BitVec 4) : hexDigitOf (hexChar digit) = some digit.toNat := by
  revert digit
  decide

theorem hexNumber_digits (digits : List (BitVec 4)) (value : Nat) :
    hexNumber value (digits.map hexChar) =
      digits.foldl (fun value digit => value * 16 + digit.toNat) value := by
  induction digits generalizing value with
  | nil => rfl
  | cons digit rest ih =>
      rw [List.map_cons, hexNumber, hexDigitOf_hexChar]
      exact ih _

theorem digitsValue_hexDigits (word : Word) : digitsValue (hexDigits word) = word.toNat := by
  have nibbles : digitsValue
      ([7, 6, 5, 4, 3, 2, 1, 0].map fun k => word.extractLsb' (4 * k) 4) = word.toNat := by
    simp only [digitsValue, List.map, List.foldl, BitVec.extractLsb'_toNat,
      Nat.shiftRight_eq_div_pow]
    have := word.isLt
    omega
  have trimmed (digits : List (BitVec 4)) :
      digitsValue (digits.dropWhile (· == 0)) = digitsValue digits := by
    induction digits with
    | nil => rfl
    | cons digit rest ih =>
        by_cases zero : digit = 0
        next =>
          subst zero
          exact ih
        next => rw [List.dropWhile_cons_of_neg (by simpa using zero)]
  rw [← trimmed] at nibbles
  rw [hexDigits]
  split
  next empty =>
    rw [empty] at nibbles
    rw [← nibbles]
    rfl
  next => exact nibbles

theorem hexDigits_ne_nil (word : Word) : hexDigits word ≠ [] := by
  rw [hexDigits]
  split
  next => exact List.cons_ne_nil _ _
  next digits => exact digits

-- Hexadecimal digits, with or without `0x`.
def numeralText (prefixed : Bool) (digits : List (BitVec 4)) : Text :=
  (if prefixed then "0x".toList else []) ++ digits.map hexChar

theorem hexChar_plain (digit : BitVec 4) : (hexChar digit).isWhitespace = false ∧
    hexChar digit ≠ '-' ∧ hexChar digit ≠ '+' ∧ hexChar digit ≠ 'x' ∧ hexChar digit ≠ 'X' := by
  revert digit
  decide

theorem strToHex_unsigned {c : Char} {rest : Text} (blank : c.isWhitespace = false)
    (minus : c ≠ '-') (plus : c ≠ '+') :
    strToHex (c :: rest) =
      (BitVec.ofNat 64 (min (hexNumber 0 (skipHexPrefix (c :: rest))) (2 ^ 64 - 1))).setWidth
        32 := by
  have kept : (c :: rest).dropWhile (fun c => c.isWhitespace) = c :: rest :=
    List.dropWhile_cons_of_neg (by simp [blank])
  rw [strToHex, kept]
  dsimp only
  split
  next first => exact absurd (List.cons.inj first).1 minus
  next first => exact absurd (List.cons.inj first).1 plus
  next => rfl

theorem skipHexPrefix_numeralText (prefixed : Bool) {digits : List (BitVec 4)}
    (some : digits ≠ []) : skipHexPrefix (numeralText prefixed digits) = digits.map hexChar := by
  obtain ⟨digit, rest, rfl⟩ := List.exists_cons_of_ne_nil some
  cases prefixed with
  | true =>
      change skipHexPrefix ('0' :: 'x' :: hexChar digit :: rest.map hexChar) = _
      rw [skipHexPrefix, if_pos ⟨.inl rfl, by simp [hexDigitOf_hexChar]⟩]
      rfl
  | false =>
      change skipHexPrefix (hexChar digit :: rest.map hexChar) = _
      unfold skipHexPrefix
      split
      next x third later whole =>
        have second : x ∈ rest.map hexChar := by
          rw [(List.cons.inj whole).2]
          exact List.mem_cons_self
        obtain ⟨other, -, rfl⟩ := List.mem_map.mp second
        obtain ⟨-, -, -, lower, upper⟩ := hexChar_plain other
        rw [if_neg fun both => both.1.elim lower upper]
        rfl
      next => rfl

theorem strToHex_numeralText (prefixed : Bool) {digits : List (BitVec 4)} (some : digits ≠ [])
    (small : digitsValue digits < 2 ^ 32) :
    strToHex (numeralText prefixed digits) = BitVec.ofNat 32 (digitsValue digits) := by
  have value : hexNumber 0 (skipHexPrefix (numeralText prefixed digits)) = digitsValue digits := by
    rw [skipHexPrefix_numeralText prefixed some]
    exact hexNumber_digits digits 0
  obtain ⟨c, rest, whole, blank, minus, plus⟩ : ∃ c rest, numeralText prefixed digits = c :: rest ∧
      c.isWhitespace = false ∧ c ≠ '-' ∧ c ≠ '+' := by
    obtain ⟨digit, rest, rfl⟩ := List.exists_cons_of_ne_nil some
    obtain ⟨blank, minus, plus, -⟩ := hexChar_plain digit
    cases prefixed with
    | true => exact ⟨'0', _, rfl, by decide⟩
    | false => exact ⟨_, _, rfl, blank, minus, plus⟩
  rw [whole] at value ⊢
  rw [strToHex_unsigned blank minus plus, value, Nat.min_eq_left (by omega)]
  exact BitVec.setWidth_ofNat_of_le (by decide) _

theorem isHex_numeralText {digits : List (BitVec 4)} (some : digits ≠ []) :
    isHex (numeralText true digits) = true := by
  have length := List.length_pos_iff.mpr some
  simp [isHex, numeralText, hexDigitOf_hexChar]
  omega

theorem getImmString_half {imm : Word} (half : imm.toNat < 2 ^ 16) :
    ∃ prefixed digits, getImmString imm false = numeralText prefixed digits ∧ digits ≠ [] ∧
      digitsValue digits = imm.toNat ∧
        (isHex (numeralText prefixed digits) || isDec (numeralText prefixed digits)) = true := by
  have positive : imm.toInt = imm.toNat := BitVec.toInt_eq_toNat_of_lt (by omega)
  rw [getImmString]
  rw [positive]
  split
  next small =>
    have single : ∀ n ≤ 9, (toString (Int.ofNat n)).toList = numeralText false [BitVec.ofNat 4 n] ∧
        digitsValue [BitVec.ofNat 4 n] = n ∧ isDec (numeralText false [BitVec.ofNat 4 n]) := by
      decide
    simp only [Bool.false_eq_true, false_and, or_false] at small
    obtain ⟨text, value, dec⟩ := single imm.toNat (by omega)
    exact ⟨false, _, text, List.cons_ne_nil _ _, value, by rw [dec, Bool.or_true]⟩
  next =>
    have some := hexDigits_ne_nil imm
    refine ⟨true, hexDigits imm, rfl, some, digitsValue_hexDigits imm, ?_⟩
    rw [isHex_numeralText some, Bool.true_or]

theorem strToHex_half {imm : Word} (half : imm.toNat < 2 ^ 16) :
    strToHex (getImmString imm false) = imm := by
  obtain ⟨prefixed, digits, text, some, value, -⟩ := getImmString_half half
  rw [text, strToHex_numeralText prefixed some (by omega), value]
  simp

theorem strToHex_shifted {imm : Word} (half : imm.toNat < 2 ^ 16) :
    strToHex (getImmString imm false ++ "0000".toList) = imm <<< 16 := by
  obtain ⟨prefixed, digits, text, some, value, -⟩ := getImmString_half half
  have zeros : numeralText prefixed digits ++ "0000".toList =
      numeralText prefixed (digits ++ [0, 0, 0, 0]) := by
    rw [numeralText, numeralText, List.map_append, List.append_assoc]
    rfl
  have shifted : digitsValue (digits ++ [0, 0, 0, 0]) = imm.toNat * 2 ^ 16 := by
    simp only [digitsValue, List.foldl_append, List.foldl] at value ⊢
    rw [value]
    change (((imm.toNat * 16 + 0) * 16 + 0) * 16 + 0) * 16 + 0 = imm.toNat * 2 ^ 16
    omega
  rw [text, zeros, strToHex_numeralText prefixed (by simp) (by omega), shifted]
  apply BitVec.eq_of_toNat_eq
  rw [BitVec.toNat_ofNat, BitVec.toNat_shiftLeft, Nat.shiftLeft_eq]

theorem numeralText_letters (prefixed : Bool) (digits : List (BitVec 4)) :
    ∀ c ∈ numeralText prefixed digits, c.isAlphanum = true ∧ c ≠ 'o' ∧ c ≠ 's' := by
  intro c member
  rcases List.mem_append.mp member with zero | digit
  · cases prefixed with
    | true =>
        obtain rfl | rfl : c = '0' ∨ c = 'x' := by simpa using zero
        · decide
        · decide
    | false => cases zero
  · obtain ⟨digit, -, rfl⟩ := List.mem_map.mp digit
    have all : ∀ digit, (hexChar digit).isAlphanum = true ∧ hexChar digit ≠ 'o' ∧
        hexChar digit ≠ 's' := by decide
    exact all _

theorem getImmString_letters {imm : Word} (half : imm.toNat < 2 ^ 16) :
    ∀ c ∈ getImmString imm false, c.isAlphanum = true ∧ c ≠ 'o' ∧ c ≠ 's' := by
  obtain ⟨prefixed, digits, text, -, -, -⟩ := getImmString_half half
  rw [text]
  exact numeralText_letters prefixed digits

theorem cutAt_front {c : Char} {front : Text} (absent : c ∉ front) (back : Text) :
    cutAt [c] (front ++ c :: back) = front := by
  induction front with
  | nil => simp [cutAt, List.isPrefixOf]
  | cons d rest ih =>
      have other : c ≠ d := fun same => absent (same ▸ List.mem_cons_self)
      rw [List.cons_append, cutAt, ih fun member => absent (List.mem_cons_of_mem d member)]
      simp [List.isPrefixOf, other]

theorem replaceAll_text (subject search replacement : Text) :
    Traced.replaceAll subject search replacement =
      Library.replaceAll subject search replacement := by
  have same := spell_replaceAll subject search replacement
  rwa [spell_char, spell_char, spell_char] at same

structure Immediate (insn : CsInsn) (reg imm : Word) : Prop where
  two : insn.opCount = 2
  first : (insn.operands 0).type = .reg
  reg : (insn.operands 0).base = reg
  second : (insn.operands 1).type = .imm
  imm : (insn.operands 1).base = imm

theorem parsed_immediate {insn : CsInsn} {reg imm : Word} (immediate : Immediate insn reg imm)
    {code : Text} (assigns : assignsFirst code = true) (g : Globals Char) :
    Globals.parsed insn code g =
      Traced.replaceAll (Traced.replaceAll code "op0".toList (getRegName reg)) "op1".toList
        (getImmString imm false) := by
  have target : occurs ("op0".toList ++ " = ".toList) code = true :=
    occurs_iff_infix.mpr (List.isPrefixOf_iff_prefix.mp assigns).isInfix
  have name0 : opName 0 = "op0".toList := by decide
  have name1 : opName 1 = "op1".toList := by decide
  have kept (g : Globals Char) : g.registerText 0 code reg false = (getRegName reg, g) := by
    rw [Globals.registerText, name0, spell_char, if_pos target]
  simp only [Globals.parsed, Globals.parseOperations, immediate.two, Globals.parseFrom,
    Globals.parseOperand, Globals.operandText, immediate.first, immediate.reg, immediate.second,
    immediate.imm, name0, name1, kept, plain_char]
  rfl

theorem variableOf_length {reg : Word} (known : (regNames.lookup reg).isSome = true) :
    (variableOf reg).toList.length = 2 := by
  obtain ⟨name, found⟩ := Option.isSome_iff_exists.mp known
  have two : ∀ row ∈ regNames, row.2.toList.length = 2 := by decide
  rw [variableOf, found]
  exact two _ (mem_of_lookup found)

/-- An assignment of the value to the register's variable, with or without more statements. -/
structure Assigns (reg : Word) (value code : Text) : Prop where
  whole : ∃ rest, code = (variableOf reg).toList ++ " = ".toList ++ value ++ ';' :: rest
  single : ';' ∉ value

variable {reg : Word} {value code : Text}

theorem Assigns.assignedText (assigns : Assigns reg value code)
    (known : (regNames.lookup reg).isSome = true) : Globals.assignedText code = value := by
  obtain ⟨rest, rfl⟩ := assigns.whole
  have two := variableOf_length known
  have letters := variableOf_letters reg
  have front : ';' ∉ (variableOf reg).toList ++ " = ".toList ++ value := by
    intro member
    rcases List.mem_append.mp member with before | inside
    · rcases List.mem_append.mp before with name | blank
      · exact absurd (letters ';' name).1 (by decide)
      · exact absurd blank (by decide)
    · exact assigns.single inside
  have length : ((variableOf reg).toList ++ " = ".toList).length = 5 := by
    rw [List.length_append, two]
    rfl
  rw [Globals.assignedText, spell_char, List.idxOf_append_of_notMem front, List.idxOf_cons_self,
    List.append_assoc _ value, ← length, List.drop_left, Nat.add_zero, List.length_append,
    Nat.add_sub_cancel_left, List.take_left]

theorem Assigns.isAssignment (assigns : Assigns reg value code)
    (known : (regNames.lookup reg).isSome = true)
    (other : ∃ c rest, value = c :: rest ∧ c ≠ 's') : Globals.isAssignment code = true := by
  obtain ⟨rest, rfl⟩ := assigns.whole
  obtain ⟨c, later, rfl, notS⟩ := other
  obtain ⟨x, y, name⟩ := List.length_eq_two.mp (variableOf_length known)
  rw [Globals.isAssignment, spell_char, name]
  have word : (c :: (later ++ ';' :: rest)).take 6 ≠ "symbol".toList := fun same =>
    notS (List.cons.inj same).1
  exact Bool.and_eq_true_iff.mpr ⟨rfl, bne_iff_ne.mpr word⟩

theorem assigns_low (reg : Word) {imm : Text} (letters : ∀ c ∈ imm, c.isAlphanum = true)
    (rest : Text) :
    Assigns reg imm (Traced.replaceAll
      (Traced.replaceAll ("op0 = op1".toList ++ ';' :: rest) "op0".toList (getRegName reg))
      "op1".toList imm) := by
  have hidden : 'o' ∉ (variableOf reg).toList :=
    fun member => (variableOf_letters reg _ member).2 rfl
  have first (name : Text) : Traced.replaceAll "op0 = op1".toList "op0".toList name =
      name ++ " = op1".toList := rfl
  have second : Traced.replaceAll ((variableOf reg).toList ++ " = op1".toList) "op1".toList imm =
      (variableOf reg).toList ++ " = ".toList ++ imm := by
    have tail : Library.replaceAll " = op1".toList "op1".toList imm =
        " = ".toList ++ (imm ++ []) := rfl
    rw [List.append_nil] at tail
    rw [replaceAll_text, List.append_assoc, ← tail]
    exact replaceAll_append _ _ hidden
  rw [replaceAll_cut (by decide) (by decide), first, replaceAll_cut (by decide) (by decide),
    getRegName, named_char, second]
  exact ⟨⟨_, rfl⟩, fun member => absurd (letters _ member) (by decide)⟩

theorem assigns_high (reg : Word) {imm : Text} (letters : ∀ c ∈ imm, c.isAlphanum = true)
    (rest : Text) :
    Assigns reg (imm ++ "0000 | ".toList ++ (variableOf reg).toList) (Traced.replaceAll
      (Traced.replaceAll ("op0 = op10000 | op0".toList ++ ';' :: rest) "op0".toList
        (getRegName reg)) "op1".toList imm) := by
  have names := variableOf_letters reg
  have hidden : 'o' ∉ (variableOf reg).toList := fun member => (names _ member).2 rfl
  have first (name : Text) : Traced.replaceAll "op0 = op10000 | op0".toList "op0".toList name =
      name ++ " = op10000 | ".toList ++ (name ++ []) := by
    rw [List.append_assoc]
    rfl
  have tail (name : Text) : Library.replaceAll (" = op10000 | ".toList ++ name) "op1".toList imm =
      " = ".toList ++ (imm ++ ("0000 | ".toList ++ Library.replaceAll name "op1".toList imm)) := rfl
  have second : Traced.replaceAll ((variableOf reg).toList ++ " = op10000 | ".toList ++
        (variableOf reg).toList) "op1".toList imm =
      (variableOf reg).toList ++ " = ".toList ++
        (imm ++ "0000 | ".toList ++ (variableOf reg).toList) := by
    have skipped (back : Text) : Library.replaceAll ((variableOf reg).toList ++ back)
        "op1".toList imm = (variableOf reg).toList ++ Library.replaceAll back "op1".toList imm :=
      replaceAll_append _ back hidden
    have last : Library.replaceAll (variableOf reg).toList "op1".toList imm =
        (variableOf reg).toList := replaceAll_absent List.mem_cons_self hidden
    rw [replaceAll_text, List.append_assoc, List.append_assoc, List.append_assoc imm, skipped,
      tail, last]
  rw [replaceAll_cut (by decide) (by decide), first, List.append_nil,
    replaceAll_cut (by decide) (by decide), getRegName, named_char, second]
  refine ⟨⟨_, rfl⟩, fun member => ?_⟩
  rcases List.mem_append.mp member with before | name
  · rcases List.mem_append.mp before with digit | zeros
    · exact absurd (letters _ digit) (by decide)
    · exact absurd zeros (by decide)
  · exact absurd (names _ name).1 (by decide)

end VitaTools.Passes
