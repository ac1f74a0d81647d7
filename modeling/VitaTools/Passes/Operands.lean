import VitaTools.Library.Evaluation
import VitaTools.Passes.Capture
import VitaTools.Passes.Halves

set_option autoImplicit false

namespace VitaTools.Passes

open VitaTools.Library VitaTools.Library.Traced
open VitaTools.Decompiler (Text Word getImmString hexDigits hexChar)
open VitaTools.Decompiler.Globals (opName)

def searches : List Text := slotNames ++ [['\\'], [')', 'n']]

def Quiet (text : Text) : Prop := ∀ search ∈ searches, occurs search text = false

def calm (c : Char) : Bool := !(['o', '.', '\\', ')'].contains c)

theorem searches_loud : ∀ search ∈ searches, ∃ c ∈ search, calm c = false := by
  have loud : searches.all (fun search => search.any fun c => !calm c) = true := by decide
  intro search member
  obtain ⟨c, inside, noisy⟩ := List.any_eq_true.mp (List.all_eq_true.mp loud search member)
  exact ⟨c, inside, by simpa using noisy⟩

theorem searches_letters : ∀ search ∈ searches, ' ' ∉ search ∧ '(' ∉ search := by
  have letters : searches.all (fun search => search.all fun c => c != ' ' && c != '(') = true := by
    decide
  intro search member
  have all := List.all_eq_true.mp (List.all_eq_true.mp letters search member)
  exact ⟨fun inside => by simpa using all ' ' inside, fun inside => by simpa using all '(' inside⟩

theorem quiet_of_calm {text : Text} (letters : ∀ c ∈ text, calm c = true) : Quiet text := by
  intro search member
  by_contra found
  obtain ⟨c, inside, noisy⟩ := searches_loud search member
  have letter := ( occurs_iff_infix.mp (Bool.of_not_eq_false found)).subset inside
  rw [letters c letter] at noisy
  contradiction

theorem Quiet.append {front back : Text} (first : Quiet front) (second : Quiet (' ' :: back)) :
    Quiet (front ++ ' ' :: back) := by
  intro search member
  have apart : occurs (search ++ []) (front ++ ' ' :: back) =
      occurs (search ++ []) (' ' :: back) := by
    refine occurs_behind (first search member) fun c rest whole => ?_
    rw [← (List.cons.inj whole).1]
    exact (searches_letters search member).1
  rw [List.append_nil] at apart
  rw [apart]
  exact second search member

theorem Quiet.bracket {text : Text} (quiet : Quiet text) : Quiet ('(' :: text ++ [')']) := by
  intro search member
  have closed : occurs search (text ++ [')']) = false := by
    by_contra found
    obtain ⟨front, back, whole⟩ := occurs_iff_infix.mp (Bool.of_not_eq_false found)
    rcases List.eq_nil_or_concat back with rfl | ⟨back, c, rfl⟩
    · rw [List.append_nil] at whole
      have last : searches.all (fun search => search.getLast? != some ')') = true := by decide
      have other := List.all_eq_true.mp last search member
      have nonempty : search ≠ [] := by
        rintro rfl
        exact absurd member (by decide)
      have same := congrArg List.getLast? whole
      rw [List.getLast?_append_of_ne_nil _ nonempty, List.getLast?_append_of_ne_nil _ (by simp)]
        at same
      rw [same] at other
      contradiction
    · rw [List.concat_eq_append, ← List.append_assoc] at whole
      have inner := List.append_inj_left' whole rfl
      have hit := occurs_iff_infix.mpr ⟨front, back, inner⟩
      rw [quiet search member] at hit
      contradiction
  rw [List.cons_append, occurs, closed, Bool.or_false]
  cases search with
  | nil => exact absurd member (by decide)
  | cons c search =>
      have other : c ≠ '(' := fun same =>
        (searches_letters _ member).2 (same ▸ List.mem_cons_self)
      simp [List.isPrefixOf, other]

/-- The text is left alone and is an operand of C that has the value, if it has one. -/
structure Reads (s : C.State) (text : Text) (v : Option Word) : Prop where
  quiet : Quiet text
  reads : ∃ e, C.Phrase (lex text) e ∧ s.value e = v

abbrev Stands (s : C.State) (text : Text) (v : Word) : Prop := Reads s text (some v)

structure Variable (text : Text) : Prop where
  letters : ∀ c ∈ text, isWordChar c = true
  noFunction : C.swaps.lookup text = none
  noType : C.types.lookup text = none
  name : C.isName text = true
  some : text ≠ []

theorem variableOf_mem (reg : Word) : variableOf reg ∈ "unk" :: regNames.map Prod.snd := by
  rw [variableOf]
  cases found : regNames.lookup reg with
  | none => exact List.mem_cons_self
  | some name => exact List.mem_cons_of_mem _ (List.mem_map_of_mem (mem_of_lookup found))

theorem variableOf_variable (reg : Word) : Variable (variableOf reg).toList := by
  have table : ("unk" :: regNames.map Prod.snd).all (fun name =>
      (C.swaps.lookup name.toList).isNone && (C.types.lookup name.toList).isNone &&
        C.isName name.toList && !name.toList.isEmpty) = true := by decide
  have row := List.all_eq_true.mp table _ (variableOf_mem reg)
  simp only [Bool.and_eq_true, Option.isNone_iff_eq_none, Bool.not_eq_true',
    List.isEmpty_eq_false_iff] at row
  obtain ⟨⟨⟨noFunction, noType⟩, name⟩, some⟩ := row
  refine ⟨fun c member => ?_, noFunction, noType, name, some⟩
  rw [isWordChar, (variableOf_letters reg c member).1, Bool.true_or]

theorem variableOf_short (reg : Word) : (variableOf reg).toList.length < 5 := by
  have table : ("unk" :: regNames.map Prod.snd).all (fun name =>
      decide (name.toList.length < 5)) = true := by decide
  exact of_decide_eq_true (List.all_eq_true.mp table _ (variableOf_mem reg))

theorem variableOf_flags (reg : Word) : (variableOf reg).toList ≠ "FLAGS".toList := by
  intro same
  have short := variableOf_short reg
  rw [same] at short
  exact absurd short (by decide)

theorem calm_of_alphanum {c : Char} (letter : c.isAlphanum = true) (other : c ≠ 'o') :
    calm c = true := by
  rw [calm, Bool.not_eq_true']
  by_contra found
  rcases List.mem_cons.mp (List.contains_iff_mem.mp (Bool.of_not_eq_false found)) with same | mark
  · exact other same
  · have marks : ['.', '\\', ')'].all (fun c => !c.isAlphanum) = true := by decide
    have apart := List.all_eq_true.mp marks c mark
    rw [letter] at apart
    contradiction

theorem Variable.phrase {text : Text} (variable' : Variable text) :
    C.Phrase (lex text) (.word text) := by
  rw [lex_word variable'.letters variable'.some]
  exact C.Phrase.word variable'.noFunction variable'.noType

theorem quiet_variableOf (reg : Word) : Quiet (variableOf reg).toList :=
  quiet_of_calm fun c member =>
    calm_of_alphanum (variableOf_letters reg c member).1 (variableOf_letters reg c member).2

variable {s : C.State}

theorem stands_register (reg : Word) :
    Stands s (variableOf reg).toList (s.vars (variableOf reg).toList) := by
  have word := variableOf_variable reg
  refine ⟨quiet_variableOf reg, _, word.phrase, ?_⟩
  rw [C.State.value, if_pos word.name]

theorem value_literal {text : Text} {v : Word} (first : C.isName text = false)
    (value : C.literal text = some v) : s.value (.word text) = some v := by
  rw [C.State.value, first, if_neg Bool.false_ne_true, value]

theorem numeral_hexChars (digits : List (BitVec 4)) :
    numeral 16 ((digits.map hexChar).map Char.toLower) = digitsValue digits := by
  have digit : ∀ digit, digitValue (hexChar digit).toLower = digit.toNat := by decide
  have joined (value : Nat) :
      ((digits.map hexChar).map Char.toLower).foldl (fun v c => 16 * v + digitValue c) value =
        digits.foldl (fun value digit => value * 16 + digit.toNat) value := by
    induction digits generalizing value with
    | nil => rfl
    | cons first rest ih =>
        rw [List.map_cons, List.map_cons, List.foldl_cons, List.foldl_cons, ih, digit,
          Nat.mul_comm]
  exact joined 0

theorem phrase_literal {s : C.State} {text : Text} {v : Word}
    (letters : ∀ c ∈ text, c.isAlphanum = true) (first : C.isName text = false)
    (value : C.literal text = some v) : ∃ e, C.Phrase (lex text) e ∧ s.value e = some v := by
  have apart : (C.swaps.map Prod.fst ++ C.types.map Prod.fst).all C.isName = true := by decide
  have unlisted {β : Type} {table : List (List Char × β)}
      (names : ∀ name ∈ table.map Prod.fst, C.isName name = true) : table.lookup text = none := by
    cases found : table.lookup text with
    | none => rfl
    | some entry =>
        have named := names text (List.mem_map_of_mem (mem_of_lookup found))
        rw [first] at named
        contradiction
  have nonempty : text ≠ [] := by
    rintro rfl
    exact absurd first (by decide)
  have words : ∀ c ∈ text, isWordChar c = true := by
    intro c member
    rw [isWordChar, letters c member, Bool.true_or]
  refine ⟨.word text, ?_, ?_⟩
  · rw [lex_word words nonempty]
    exact C.Phrase.word
      (unlisted fun name member => List.all_eq_true.mp apart name (List.mem_append_left _ member))
      (unlisted fun name member => List.all_eq_true.mp apart name (List.mem_append_right _ member))
  · rw [C.State.value, first, if_neg Bool.false_ne_true, value]

theorem isName_digits {text : Text} (some : text ≠ [])
    (digits : ∀ c ∈ text, c.isDigit = true) : C.isName text = false := by
  obtain ⟨c, rest, rfl⟩ := List.exists_cons_of_ne_nil some
  have first := digits c List.mem_cons_self
  simp [C.isName, first]

theorem alphanum_digit {c : Char} (digit : c.isDigit = true) : c.isAlphanum = true := by
  rw [Char.isAlphanum, digit, Bool.or_true]

theorem digit_other {c : Char} (digit : c.isDigit = true) : c ≠ 'o' := by
  rintro rfl
  contradiction

theorem stands_hex (imm : Word) : Stands s (hexText imm) imm := by
  have letters := numeralText_letters true (hexDigits imm)
  have text : hexText imm = '0' :: 'x' :: (hexDigits imm).map hexChar := rfl
  have some : ((hexDigits imm).map hexChar).isEmpty = false := by
    simpa using hexDigits_ne_nil imm
  have digits : ((hexDigits imm).map hexChar).all C.isHexDigit = true := by
    have all : ∀ digit, C.isHexDigit (hexChar digit) = true := by decide
    rw [List.all_map, List.all_eq_true]
    exact fun digit _ => all digit
  refine ⟨quiet_of_calm fun c member => ?_, phrase_literal (fun c member => ?_) rfl ?_⟩
  · exact calm_of_alphanum (letters c member).1 (letters c member).2.1
  · exact (letters c member).1
  · rw [text, C.literal, some, digits]
    simp only [Bool.not_false, Bool.and_self, if_true]
    rw [numeral_hexChars, digitsValue_hexDigits, BitVec.ofNat_toNat, BitVec.setWidth_eq]

theorem digits_toDigits (n : Nat) : ∀ c ∈ Nat.toDigits 10 n, c.isDigit = true :=
  fun _ member => Nat.isDigit_of_mem_toDigits (by decide) (by decide) member

theorem phrase_decimal (n : Nat) :
    ∃ e, C.Phrase (lex (Nat.toDigits 10 n)) e ∧ s.value e = some (BitVec.ofNat 32 n) :=
  phrase_literal (fun c member => alphanum_digit (digits_toDigits n c member))
    (isName_digits (List.ne_nil_of_length_pos Nat.length_toDigits_pos) (digits_toDigits n))
    (C.literal_toDigits n)

theorem calm_decimal (n : Nat) : ∀ c ∈ Nat.toDigits 10 n, calm c = true := fun c member =>
  calm_of_alphanum (alphanum_digit (digits_toDigits n c member))
    (digit_other (digits_toDigits n c member))

theorem toString_negSucc (n : Nat) :
    (toString (Int.negSucc n)).toList = '-' :: Nat.toDigits 10 (n + 1) := by
  change ("-" ++ (n + 1).repr).toList = _
  rw [String.toList_append, Nat.toList_repr]
  rfl

theorem stands_decimal (z : Int) : Stands s (toString z).toList (BitVec.ofInt 32 z) := by
  cases z with
  | ofNat n =>
      have text : (toString (Int.ofNat n)).toList = Nat.toDigits 10 n := Nat.toList_repr
      rw [text]
      exact ⟨quiet_of_calm (calm_decimal n), phrase_decimal n⟩
  | negSucc n =>
      obtain ⟨e, phrase, value⟩ := phrase_decimal (s := s) (n + 1)
      rw [toString_negSucc]
      refine ⟨quiet_of_calm fun c member => ?_, .negate e, phrase.negate, ?_⟩
      · rcases List.mem_cons.mp member with rfl | later
        · decide
        · exact calm_decimal (n + 1) c later
      · have negated : BitVec.ofInt 32 (Int.negSucc n) = -BitVec.ofNat 32 (n + 1) := by
          rw [Int.negSucc_eq, BitVec.ofInt_neg, ← BitVec.ofInt_natCast]
          rfl
        rw [C.State.value, value, negated]
        rfl

theorem stands_immediate (imm : Word) (isMem : Bool) : Stands s (getImmString imm isMem) imm := by
  rw [getImmString]
  split
  next =>
    have decimal := stands_decimal (s := s) imm.toInt
    rwa [BitVec.ofInt_toInt] at decimal
  next => exact stands_hex imm

theorem hexText_length (word : Word) : (hexText word).length ≤ 10 := by
  have digits : (hexDigits word).length ≤ 8 := by
    rw [hexDigits]
    split
    next => decide
    next => exact (List.dropWhile_sublist _).length_le
  rw [hexText, List.length_append, List.length_map]
  exact Nat.add_le_add (Nat.le_refl 2) digits

def shiftAmount (s : C.State) (op : CsArmOp) : Word :=
  if op.shiftType.byValue then op.shiftValue else s.vars (variableOf op.shiftValue).toList

/-- The shifted register of the architecture; `rrx` shifts the carry flag in. -/
def ShiftType.shifted (carry : Bool) (amount : Nat) (v : Word) : ShiftType → Word
  | .invalid => v
  | .lsl | .lslReg => v <<< amount
  | .lsr | .lsrReg => v >>> amount
  | .asr | .asrReg => v.sshiftRight amount
  | .ror | .rorReg => v.rotateRight amount
  | .rrx | .rrxReg => (v >>> 1) ||| if carry then 0x80000000 else 0

/-- What the instruction reads for a register that holds `v`. A shift by a register uses its low
byte. -/
def shiftedRegister (s : C.State) (carry : Bool) (op : CsArmOp) (v : Word) : Word :=
  op.shiftType.shifted carry
    (if op.shiftType.byValue then op.shiftValue.toNat else (shiftAmount s op).toNat % 256) v

def ShiftType.sign : ShiftType → Option C.Op
  | .lsl | .lslReg => some .shl
  | .asr | .lsr | .asrReg | .lsrReg => some .shr
  | _ => none

def printedShift (s : C.State) (op : CsArmOp) (v : Word) : Option Word :=
  if op.shiftType ≠ .invalid ∧ op.shiftValue ≠ 0 then
    op.shiftType.sign.bind fun sign => sign.apply v (shiftAmount s op)
  else some v

/-- A shift that C reads as the architecture does. -/
def ExactShift (s : C.State) (op : CsArmOp) (v : Word) : Prop :=
  op.shiftType = .invalid ∨ op.shiftValue ≠ 0 ∧ (shiftAmount s op).toNat < 32 ∧
    (op.shiftType ∈ [.lsl, .lslReg, .lsr, .lsrReg] ∨
      op.shiftType ∈ [.asr, .asrReg] ∧ v.msb = false)

theorem printedShift_exact {s : C.State} {op : CsArmOp} {v : Word} (exact' : ExactShift s op v)
    (carry : Bool) : printedShift s op v = some (shiftedRegister s carry op v) := by
  rw [printedShift, shiftedRegister]
  rcases exact' with none | ⟨some, small, kind⟩
  next => rw [none, if_neg fun both => both.1 rfl, ShiftType.shifted]
  next =>
    have low : (shiftAmount s op).toNat % 256 = (shiftAmount s op).toNat :=
      Nat.mod_eq_of_lt (small.trans (by decide))
    have distance : (if op.shiftType.byValue then op.shiftValue.toNat
        else (shiftAmount s op).toNat % 256) = (shiftAmount s op).toNat := by
      rw [low, shiftAmount]
      split <;> rfl
    rw [distance]
    generalize shiftAmount s op = amount at small
    simp only [List.mem_cons, List.not_mem_nil, or_false] at kind
    obtain ((type | type | type | type) | ⟨type | type, clear⟩) := kind <;> rw [type] <;>
      simp only [ShiftType.sign, ShiftType.shifted, C.Op.apply, small, some, ne_eq, reduceCtorEq,
        not_false_eq_true, and_self, if_true, Option.bind_some]
    all_goals rw [BitVec.sshiftRight_eq_of_msb_false clear]

def amountText (op : CsArmOp) : Text :=
  if op.shiftType.byValue then hexText op.shiftValue else (variableOf op.shiftValue).toList

theorem amountText_calm (op : CsArmOp) : ∀ c ∈ amountText op, calm c = true := by
  intro c member
  rw [amountText] at member
  split at member
  next =>
    obtain ⟨letter, other, -⟩ := numeralText_letters true (hexDigits op.shiftValue) c member
    exact calm_of_alphanum letter other
  next =>
    obtain ⟨letter, other⟩ := variableOf_letters op.shiftValue c member
    exact calm_of_alphanum letter other

theorem lex_amountText (op : CsArmOp) : lex (amountText op) = [.word (amountText op)] := by
  rw [amountText]
  split
  next =>
    refine lex_word (fun c member => ?_) (List.cons_ne_nil _ _)
    rw [isWordChar, (numeralText_letters true (hexDigits op.shiftValue) c member).1, Bool.true_or]
  next =>
    exact lex_word (variableOf_variable op.shiftValue).letters (variableOf_variable _).some

theorem stands_amount (op : CsArmOp) : Stands s (amountText op) (shiftAmount s op) := by
  rw [amountText, shiftAmount]
  split
  next => exact stands_hex _
  next => exact stands_register _

theorem handleShift_text {text : Text} {op : CsArmOp} (short : text.length ≤ 239)
    (shifted : op.shiftType ≠ .invalid ∧ op.shiftValue ≠ 0) :
    handleShift text op = '(' :: (text ++ ' ' :: ((shifts op.shiftType).toList ++
      ' ' :: amountText op)) ++ [')'] := by
  have printed : (if op.shiftType.byValue then plain (hexText op.shiftValue)
      else getRegName op.shiftValue : Text) = amountText op := by
    rw [amountText, plain_char, getRegName, named_char]
  have brief : (amountText op).length ≤ 10 := by
    rw [amountText]
    split
    next => exact hexText_length _
    next => exact (variableOf_short _).le.trans (by decide)
  have sign : (shifts op.shiftType).toList.length ≤ 2 := by
    cases op.shiftType <;> decide
  rw [handleShift, if_pos shifted, printed]
  simp only [plain_char]
  rw [List.take_of_length_le]
  · simp
  · simp only [List.length_append, List.length_cons, List.length_nil]
    omega

theorem quiet_handleShift {text : Text} {op : CsArmOp} (quiet : Quiet text)
    (short : text.length ≤ 239) : Quiet (handleShift text op) := by
  by_cases shifted : op.shiftType ≠ .invalid ∧ op.shiftValue ≠ 0
  next =>
    have still : (shifts op.shiftType).toList.all calm = true := by
      cases op.shiftType <;> decide
    have letters := List.all_eq_true.mp still
    rw [handleShift_text short shifted]
    refine (quiet.append (quiet_of_calm fun c member => ?_)).bracket
    simp only [List.mem_cons, List.mem_append] at member
    rcases member with rfl | sign | rfl | amount
    · decide
    · exact letters c sign
    · decide
    · exact amountText_calm op c amount
  next => rwa [handleShift, if_neg shifted]

theorem reads_shift {text : Text} {u : Word} {op : CsArmOp} (stands : Stands s text u)
    (short : text.length ≤ 239)
    (signed : op.shiftType ≠ .invalid ∧ op.shiftValue ≠ 0 → op.shiftType.sign ≠ none) :
    Reads s (handleShift text op) (printedShift s op u) := by
  by_cases shifted : op.shiftType ≠ .invalid ∧ op.shiftValue ≠ 0
  next =>
    refine ⟨quiet_handleShift stands.quiet short, ?_⟩
    obtain ⟨sign, known⟩ := Option.ne_none_iff_exists'.mp (signed shifted)
    have marks : ∃ c, (shifts op.shiftType).toList = [c, c] ∧ isWordChar c = false ∧
        c.isWhitespace = false ∧ (c = '<' ∧ sign = .shl ∨ c = '>' ∧ sign = .shr) := by
      cases kind : op.shiftType <;> rw [kind] at known <;> cases known
      case asr | lsr | asrReg | lsrReg => exact ⟨'>', by decide⟩
      case lsl | lslReg => exact ⟨'<', by decide⟩
    obtain ⟨c, shown, apart, visible, which⟩ := marks
    obtain ⟨e, first, left⟩ := stands.reads
    obtain ⟨d, second, right⟩ := (stands_amount (s := s) op).reads
    have words : lex (handleShift text op) =
        .mark '(' :: lex text ++ .mark c :: .mark c :: lex (amountText op) ++ [.mark ')'] := by
      have inner : '(' :: (text ++ ' ' :: ([c, c] ++ ' ' :: amountText op)) ++ [')'] =
          '(' :: (text ++ (' ' :: c :: c :: ' ' :: (amountText op ++ [')']))) := by simp
      rw [handleShift_text short shifted, shown, inner, lex_mark (by decide) (by decide),
        lex_append rfl, lex_blank (by decide) (by decide), lex_mark apart visible,
        lex_mark apart visible, lex_blank (by decide) (by decide), lex_append (by decide),
        lex_mark (by decide) (by decide)]
      simp [lex, lexFrom, flush]
    refine ⟨.binary sign e d, ?_, ?_⟩
    · rw [words]
      exact C.Phrase.shift which first second
    · rw [C.State.value, left, right, printedShift, if_pos shifted, known]
      rfl
  next =>
    rw [handleShift, if_neg shifted, printedShift, if_neg shifted]
    exact stands

theorem stuck_shift {text : Text} {u : Word} {op : CsArmOp} (stands : Stands s text u)
    (short : text.length ≤ 239) (shifted : op.shiftType ≠ .invalid ∧ op.shiftValue ≠ 0)
    (unsigned : op.shiftType.sign = none) : C.Stuck (lex (handleShift text op)) := by
  have shown : (shifts op.shiftType).toList = [] := by
    cases kind : op.shiftType <;> rw [kind] at unsigned <;> first | rfl | cases unsigned
  obtain ⟨e, phrase, -⟩ := stands.reads
  have words : lex (handleShift text op) =
      .mark '(' :: lex text ++ .word (amountText op) :: [.mark ')'] := by
    have inner : '(' :: (text ++ ' ' :: ([] ++ ' ' :: amountText op)) ++ [')'] =
        '(' :: (text ++ (' ' :: ' ' :: (amountText op ++ [')']))) := by simp
    rw [handleShift_text short shifted, shown, inner, lex_mark (by decide) (by decide),
      lex_append rfl, lex_blank (by decide) (by decide), lex_blank (by decide) (by decide),
      lex_append (by decide), lex_amountText, lex_mark (by decide) (by decide)]
    simp [lex, lexFrom, flush]
  rw [words]
  exact C.Stuck.pair phrase _

def operandSlot (i : Nat) : C.Expr := .slot (opName i)

def slotIndex (name : Text) : Nat := numeral 10 (name.drop 2)

theorem slotIndex_opName (i : Nat) : slotIndex (opName i) = i := by
  have digits : (opName i).drop 2 = Nat.toDigits 10 i := by
    rw [opName, show (toString i).toList = Nat.toDigits 10 i from Nat.toList_repr]
    rfl
  rw [slotIndex, digits, numeral_toDigits (by decide) (by decide)]

theorem opName_injective : Function.Injective opName :=
  Function.LeftInverse.injective slotIndex_opName

theorem slot_of_all {pieces : List Piece} {operands : List Nat} {name : Text}
    (names : (slots pieces).all (fun name => operands.any (opName · == name)) = true)
    (member : name ∈ slots pieces) : ∃ i ∈ operands, name = opName i := by
  obtain ⟨i, inside, same⟩ := List.any_eq_true.mp (List.all_eq_true.mp names name member)
  exact ⟨i, inside, (beq_iff_eq.mp same).symm⟩

namespace Globals

variable {session : Session} {insn : CsInsn} {addr : Word} {g : Globals Char}

variable (session insn addr g) in
/-- What `pseudoCode` prints for the instruction behind the indent. -/
def statementText : Text :=
  breakLines (indentOf insn)
    (translateCode session insn (mnemonicOf insn) addr (codeOf insn) false g).1

theorem mem_operandPlan {i : Nat} (inside : i < insn.opCount)
    (kind : (insn.operands i).type ≠ .other) :
    (⟨.operand i, opName i⟩ : Step Source) ∈ operandPlan insn :=
  List.mem_filterMap.mpr ⟨i, List.mem_range.mpr inside, if_neg kind⟩

theorem operandPlan_search {step : Step Source} (member : step ∈ operandPlan insn) :
    ∃ k < insn.opCount, step = ⟨.operand k, opName k⟩ := by
  rw [operandPlan_from] at member
  obtain ⟨k, -, inside, same⟩ := mem_operandsFrom member
  exact ⟨k, by omega, same⟩

theorem operandFilling_at {i : Nat} (inside : i < insn.opCount)
    (kind : (insn.operands i).type ≠ .other) :
    operandFilling session insn g (opName i) =
      some (Source.operand i, valueOf session insn g (.operand i)) := by
  refine puts_at (mem_operandPlan inside kind) rfl ?_
  intro other member same
  obtain ⟨k, below, rfl⟩ := operandPlan_search member
  rw [opName_injective same]

theorem opName_apart (i : Nat) :
    opName i ≠ "symbol".toList ∧ opName i ≠ "...".toList ∧ opName i ≠ ['\\'] := by
  have head : (opName i).head? = some 'o' := rfl
  refine ⟨?_, ?_, ?_⟩ <;> intro same <;> rw [same] at head <;> exact absurd head (by decide)

theorem indent_blank (letter : Char) (member : letter ∈ '\n' :: indentOf insn) :
    letter.isWhitespace = true ∧ isWordChar letter = false := by
  have letters : letter = '\n' ∨ letter = '\t' := by
    rcases List.mem_cons.mp member with rfl | indent
    · exact .inl rfl
    · rw [indentOf] at indent
      cases condition : (trimMnemonic insn).2 <;> rw [condition] at indent
      · exact .inr (by simpa [heading] using indent)
      · exact .inr (by simpa [heading] using indent)
  rcases letters with rfl | rfl <;> decide

/-- The operands are put into their slots, and each text stays as it is. -/
structure Filled (session : Session) (insn : CsInsn) (g : Globals Char) : Prop where
  known : (codeOf insn).isEmpty = false
  few : insn.opCount ≤ 10
  noConstant : mnemonicOf insn ≠ "movt".toList
  operands : ∀ name ∈ slots (templateOf (codeOf insn)), ∃ i < insn.opCount, name = opName i ∧
    (insn.operands i).type ≠ .other ∧ Quiet (valueOf session insn g (.operand i))

namespace Filled

variable (filled : Filled session insn g)

include filled

theorem unjoined (code : Text) : joined insn g code = none := by
  rw [joined, if_neg fun movt => filled.noConstant movt.1]

theorem at_slot {name : Text} (member : name ∈ slots (templateOf (codeOf insn))) :
    ∃ source text, Quiet text ∧ operandFilling session insn g name = some (source, text) ∧
      brokenFilling session insn g name = some (source, text) := by
  obtain ⟨i, inside, rfl, kind, quiet⟩ := filled.operands name member
  have entry : operandFilling session insn g (opName i) = _ := operandFilling_at inside kind
  exact ⟨_, _, quiet, entry, puts_filled (puts_filled entry)⟩

theorem spelled {name : Text} (member : name ∈ slots (lines (templateOf (codeOf insn)))) :
    ∃ text, spell ((brokenFilling session insn g).fill name) = text ∧
      occurs [')', 'n'] text = false := by
  rcases mem_slots_letterSlots member with rfl | inside
  · refine ⟨_, rfl, ?_⟩
    rw [brokenFilling_break, spell_stamp]
    by_contra found
    have letter := ( occurs_iff_infix.mp (Bool.of_not_eq_false found)).subset List.mem_cons_self
    exact absurd (indent_blank ')' letter).1 (by decide)
  · obtain ⟨source, text, quiet, -, entry⟩ := filled.at_slot inside
    refine ⟨text, ?_, quiet _ (by decide)⟩
    rw [Filling.fill, entry, spell_stamp]

theorem clear : Clear session insn g := by
  have plain (name : Text) (member : name ∈ slots (templateOf (codeOf insn))) :
      name ≠ "symbol".toList ∧ name ≠ "...".toList ∧ name ≠ ['\\'] := by
    obtain ⟨i, -, rfl, -⟩ := filled.operands name member
    exact opName_apart i
  have searched : ∀ step ∈ symbolsPlan session insn, step.search ∈ searches ∧
      step.search ∉ slots (templateOf (codeOf insn)) := by
    have both : "symbol".toList ∈ searches ∧ "...".toList ∈ searches := by decide
    intro step member
    obtain ⟨i, rfl | rfl⟩ := mem_symbolsPlan member
    · exact ⟨both.1, fun inside => (plain _ inside).1 rfl⟩
    · exact ⟨both.2, fun inside => (plain _ inside).2.1 rfl⟩
  constructor
  case operands =>
    refine safe_of_absent (fun _ _ _ _ none => by cases none)
      fun step member inside later inPlan => ?_
    obtain ⟨k, low, rfl⟩ := operandPlan_search member
    obtain ⟨i, below, same, -, quiet⟩ := filled.operands _ inside
    obtain ⟨j, second, rfl⟩ := operandPlan_search inPlan
    have few := filled.few
    obtain rfl := opName_injective same
    exact quiet _ (List.mem_append_left _ (opName_mem (by omega)))
  case unjoined => exact filled.unjoined _
  case symbols =>
    refine safe_of_absent ?_ fun step member inside => absurd inside (searched step member).2
    intro name member source text holds step inPlan
    obtain ⟨other, quietText, quiet, entry, -⟩ := filled.at_slot member
    obtain ⟨-, rfl⟩ := Prod.mk.inj (Option.some.inj (entry.symm.trans holds))
    exact quiet _ (searched step inPlan).1
  case lineBreaks =>
    intro name member source text holds
    rcases mem_slots_letterSlots member with rfl | inside
    · rw [statementFilling_break] at holds
      cases holds
    · obtain ⟨other, quietText, quiet, entry, -⟩ := filled.at_slot inside
      have kept : statementFilling session insn g name = some (other, quietText) :=
        puts_filled entry
      obtain ⟨-, rfl⟩ := Prod.mk.inj (Option.some.inj (kept.symm.trans holds))
      exact quiet _ (by decide)
  case escapes =>
    intro name member
    obtain ⟨text, spelled, absent⟩ := filled.spelled member
    rw [spelled]
    by_contra found
    have inner : [')', 'n'] <:+: text := by
      have whole := occurs_iff_infix.mp (Bool.of_not_eq_false found)
      rw [escape_letters] at whole
      exact (List.suffix_cons '(' [')', 'n']).isInfix.trans whole
    rw [ occurs_iff_infix.mpr inner] at absent
    contradiction
  case brackets =>
    intro front name back whole
    have member : name ∈ slots (lines (templateOf (codeOf insn))) := by
      rw [show lines (templateOf (codeOf insn)) = _ from whole, slots_append]
      exact List.mem_append_right _ List.mem_cons_self
    obtain ⟨text, spelled, absent⟩ := filled.spelled member
    rw [spelled]
    by_contra found
    have begins := List.isPrefixOf_iff_prefix.mp (Bool.of_not_eq_false found)
    rw [ occurs_iff_infix.mpr begins.isInfix] at absent
    contradiction

end Filled

def slotTokens (session : Session) (insn : CsInsn) (g : Globals Char) (name : Text) : List Token :=
  lex (spell ((operandFilling session insn g).fill name))

theorem lex_statementText (filled : Filled session insn g)
    (alone : aloneIn (templateOf (codeOf insn)) = true) :
    lex (statementText session insn addr g) = fillTokens (slotTokens session insn g)
      (tokensOf (inPlace '\\' [' '] (templateOf (codeOf insn)))) := by
  have free : CaptureFree session insn addr g :=
    captureFree_of_clear filled.known filled.few filled.clear
  let fill (name : Text) : Text := spell ((brokenFilling session insn g).fill name)
  have broken : fill ['\\'] = '\n' :: indentOf insn := by
    change spell ((brokenFilling session insn g).fill ['\\']) = _
    rw [brokenFilling_break, spell_stamp]
  have printed : statementText session insn addr g =
      render fill (inPlace '\\' ('\n' :: indentOf insn) (templateOf (codeOf insn))) := by
    rw [statementText, ← spell_printedSources, free.escapes, substitution, spell_render,
      ← render_inPlace broken]
    rfl
  have blanks : tokensOf (inPlace '\\' ('\n' :: indentOf insn) (templateOf (codeOf insn))) =
      tokensOf (inPlace '\\' [' '] (templateOf (codeOf insn))) := by
    refine lexPieces_inPlace _ indent_blank (fun e member => ?_) [] _
    rw [List.mem_singleton.mp member]
    decide
  have parted : aloneIn (inPlace '\\' ('\n' :: indentOf insn) (templateOf (codeOf insn))) = true :=
    flanked_inPlace (fun d member => by rw [(indent_blank d member).2]; rfl) alone
  have read : lex (spell (render fill _)) = _ := lex_render parted
  simp only [spell_char] at read
  rw [printed, read, blanks]
  apply fillTokens_congr
  intro name member
  have inside := mem_slots_inPlace (mem_tokensOf member)
  obtain ⟨source, text, quiet, first, entry⟩ := filled.at_slot inside
  have still : fill name = text := by
    change spell ((brokenFilling session insn g).fill name) = _
    rw [Filling.fill, entry, spell_stamp]
  rw [still, slotTokens, Filling.fill, first, spell_stamp]

theorem slotTokens_operand (filled : Filled session insn g) {i : Nat}
    (member : opName i ∈ slots (templateOf (codeOf insn))) :
    slotTokens session insn g (opName i) = lex (valueOf session insn g (.operand i)) := by
  obtain ⟨k, below, same, kind, -⟩ := filled.operands _ member
  obtain rfl := opName_injective same
  rw [slotTokens, Filling.fill, operandFilling_at below kind, spell_stamp]

theorem parse_statementText (filled : Filled session insn g)
    (alone : aloneIn (templateOf (codeOf insn)) = true) {statements : List C.Assignment}
    (read : C.parse (tokensOf (inPlace '\\' [' '] (templateOf (codeOf insn)))) = some statements)
    {expr : Text → C.Expr}
    (phrases : ∀ name ∈ slots (templateOf (codeOf insn)),
      C.Phrase (slotTokens session insn g name) (expr name)) :
    C.parse (lex (statementText session insn addr g)) =
      some (statements.map (C.Assignment.fill expr)) := by
  rw [lex_statementText filled alone]
  exact C.parse_fill (fun name member => phrases name (mem_slots_inPlace (mem_tokensOf member)))
    read

def registerOf (insn : CsInsn) (g : Globals Char) (i : Nat) : Text :=
  (registerText (useFlagsOf insn g) i (codeOf insn) (insn.operands i).base false).1

theorem registerOf_named {i : Nat} (unknown : g.regAssignMap (insn.operands i).base = none) :
    registerOf insn g i = (variableOf (insn.operands i).base).toList := by
  have known : (useFlagsOf insn g).regAssignMap = g.regAssignMap := rfl
  have name : (useFlagsOf insn g).composed (getRegName (insn.operands i).base)
      (insn.operands i).base = (getRegName (insn.operands i).base, false) := by
    rw [composed, known, unknown]
    split <;> rfl
  rw [registerOf, registerText, composeRegister, name]
  split <;> exact named_char _

theorem valueOf_register {i : Nat} (kind : (insn.operands i).type = .reg) :
    valueOf session insn g (.operand i) =
      if i + 1 = insn.opCount then handleShift (registerOf insn g i) (insn.operands i)
      else registerOf insn g i := by
  rw [valueOf, textsOf, operandText, kind]
  rfl

theorem valueOf_target {i : Nat} (kind : (insn.operands i).type = .reg)
    (assigned : occurs (opName i ++ " = ".toList) (codeOf insn) = true)
    (inner : i + 1 ≠ insn.opCount) :
    valueOf session insn g (.operand i) = (variableOf (insn.operands i).base).toList := by
  rw [valueOf_register kind, if_neg inner, registerOf, registerText, spell_char, assigned,
    if_pos rfl]
  exact named_char _

theorem composed_short {name : Text} (short : name.length ≤ 239) (reg : Word) :
    (g.composed name reg).1.length ≤ 239 := by
  rw [composed]
  split
  next => exact short
  next =>
    split
    next => exact short
    next entry _ =>
      split
      next limit =>
        rw [bracket]
        split
        · simp only [plain_char, List.length_append, List.length_cons, List.length_nil]
          omega
        · exact limit.le.trans (by decide)
      next => exact short

theorem registerOf_short (i : Nat) : (registerOf insn g i).length ≤ 239 := by
  have name (reg : Word) : (getRegName reg : Text).length ≤ 239 := by
    rw [getRegName, named_char]
    exact (variableOf_short reg).le.trans (by decide)
  rw [registerOf, registerText]
  split
  next => exact name _
  next => exact composed_short (name _) _

section

variable {s : C.State} {i : Nat} {u : Word}

/-- What an operand holds before it is shifted. -/
inductive OperandHolds (s : C.State) (insn : CsInsn) (g : Globals Char) (i : Nat) : Word → Prop
  | immediate (kind : (insn.operands i).type = .imm) :
      OperandHolds s insn g i (insn.operands i).base
  | register {u : Word} (kind : (insn.operands i).type = .reg)
      (stands : Stands s (registerOf insn g i) u) : OperandHolds s insn g i u

def operandValue (s : C.State) (carry : Bool) (insn : CsInsn) (i : Nat) (u : Word) : Word :=
  if (insn.operands i).type = .reg then shiftedRegister s carry (insn.operands i) u else u

def printedValue (s : C.State) (insn : CsInsn) (i : Nat) (u : Word) : Option Word :=
  if (insn.operands i).type = .reg ∧ i + 1 = insn.opCount then printedShift s (insn.operands i) u
  else some u

theorem OperandHolds.kind (holds : OperandHolds s insn g i u) :
    (insn.operands i).type ≠ .other := by
  cases holds with
  | immediate kind => rw [kind]; decide
  | register kind => rw [kind]; decide

theorem valueOf_immediate (kind : (insn.operands i).type = .imm) :
    valueOf session insn g (.operand i) = getImmString (insn.operands i).base false := by
  rw [valueOf, textsOf, operandText, kind]
  exact plain_char _

theorem OperandHolds.quiet (holds : OperandHolds s insn g i u) :
    Quiet (valueOf session insn g (.operand i)) := by
  cases holds with
  | immediate kind =>
      rw [valueOf_immediate kind]
      exact (stands_immediate (s := s) _ false).quiet
  | register kind stands =>
      rw [valueOf_register kind]
      split
      next => exact quiet_handleShift stands.quiet (registerOf_short i)
      next => exact stands.quiet

theorem OperandHolds.reads (holds : OperandHolds s insn g i u)
    (signed : (insn.operands i).type = .reg → i + 1 = insn.opCount →
      (insn.operands i).shiftType ≠ .invalid ∧ (insn.operands i).shiftValue ≠ 0 →
        (insn.operands i).shiftType.sign ≠ none) :
    Reads s (valueOf session insn g (.operand i)) (printedValue s insn i u) := by
  rw [printedValue]
  cases holds with
  | immediate kind =>
      rw [valueOf_immediate kind, if_neg fun both => by rw [kind] at both; cases both.1]
      exact stands_immediate _ false
  | register kind stands =>
      rw [valueOf_register kind]
      by_cases last : i + 1 = insn.opCount
      next =>
        rw [if_pos last, if_pos ⟨kind, last⟩]
        exact reads_shift stands (registerOf_short i) (signed kind last)
      next =>
        rw [if_neg last, if_neg fun both => last both.2]
        exact stands

theorem OperandHolds.stuck (holds : OperandHolds s insn g i u)
    (kind : (insn.operands i).type = .reg) (last : i + 1 = insn.opCount)
    (shifted : (insn.operands i).shiftType ≠ .invalid ∧ (insn.operands i).shiftValue ≠ 0)
    (unsigned : (insn.operands i).shiftType.sign = none) :
    C.Stuck (lex (valueOf session insn g (.operand i))) := by
  cases holds with
  | immediate other => rw [kind] at other; cases other
  | register _ stands =>
      rw [valueOf_register kind, if_pos last]
      exact stuck_shift stands (registerOf_short i) shifted unsigned

end

theorem pseudoCode_statementText (known : (codeOf insn).isEmpty = false)
    (printed : g.ignoreMap addr = false) :
    (pseudoCode session insn addr g).1 = (heading (trimMnemonic insn).2).2 ++ indentOf insn ++
      statementText session insn addr g ++ ['\n'] := by
  rw [pseudoCode_sources known printed, spell_printedSources, statementText]

end Globals

end VitaTools.Passes
