import VitaTools.Passes.Operands

set_option autoImplicit false

namespace VitaTools.Passes

open VitaTools.Library VitaTools.Library.Traced
open VitaTools.Decompiler (Text Word getImmString)
open VitaTools.Decompiler.Globals (opName)

/-- What is added to the base: the index with its shift, or the displacement. The shift is in the
operand itself. -/
def offsetOf (s : C.State) (carry : Bool) (op : CsArmOp) : Word :=
  if op.index ≠ ArmReg.invalid then
    shiftedRegister s carry op (s.vars (variableOf op.index).toList)
  else op.disp

def printedOffset (s : C.State) (op : CsArmOp) : Word :=
  if op.index ≠ ArmReg.invalid then s.vars (variableOf op.index).toList else op.disp

theorem zero_disp {disp : Word} (zero : getImmString disp true = ['0']) : disp = 0 := by
  have s : C.State := ⟨fun _ => 0, fun _ => 0⟩
  obtain ⟨e, first, value⟩ := (stands_immediate (s := s) disp true).reads
  obtain ⟨d, second, none⟩ := (stands_immediate (s := s) 0 true).reads
  have text : getImmString 0 true = ['0'] := by decide
  rw [zero] at first
  rw [text] at second
  rw [first.unique second] at value
  exact Option.some.inj (value.symm.trans none)

theorem blank_free {text : Text} (letters : ∀ c ∈ text, c.isAlphanum = true ∨ c = '-') :
    ' ' ∉ text := by
  intro member
  exact absurd (letters ' ' member) (by decide)

theorem getImmString_printed (imm : Word) (isMem : Bool) :
    ∀ c ∈ getImmString imm isMem, (c.isAlphanum = true ∨ c = '-') ∧ c ≠ 'o' := by
  intro c member
  rw [getImmString] at member
  split at member
  next =>
    cases decimal : imm.toInt with
    | ofNat n =>
        rw [decimal] at member
        have text : (toString (Int.ofNat n)).toList = Nat.toDigits 10 n := Nat.toList_repr
        rw [text] at member
        have digit := digits_toDigits n c member
        exact ⟨.inl (alphanum_digit digit), digit_other digit⟩
    | negSucc n =>
        rw [decimal, toString_negSucc] at member
        rcases List.mem_cons.mp member with rfl | later
        · exact ⟨.inr rfl, by decide⟩
        · have digit := digits_toDigits _ c later
          exact ⟨.inl (alphanum_digit digit), digit_other digit⟩
  next =>
    obtain ⟨letter, other, -⟩ := numeralText_letters true _ c member
    exact ⟨.inl letter, other⟩

theorem simplify_sum {base offset : Text} (blank : ' ' ∉ offset) :
    simplify (base ++ " + ".toList ++ offset) =
      if offset = ['0'] then base else base ++ " + ".toList ++ offset := by
  rw [simplify, spell_char]
  split
  next last =>
    obtain ⟨front, whole⟩ := List.isSuffixOf_iff_suffix.mp last
    have plus : " + 0".toList = [' ', '+', ' ', '0'] ∧ " + ".toList = [' ', '+', ' '] := by decide
    rw [plus.1, plus.2] at whole
    have both : (front ++ [' ', '+']) ++ ' ' :: ['0'] = (base ++ [' ', '+']) ++ ' ' :: offset := by
      simpa using whole
    obtain ⟨before, behind⟩ := append_separator (by decide) blank both
    rw [← behind, if_pos rfl]
    simp
  next other =>
    rw [if_neg]
    rintro rfl
    refine other (List.isSuffixOf_iff_suffix.mpr ⟨base, ?_⟩)
    rw [List.append_assoc]
    congr 1

structure Offset (op : CsArmOp) (text : Text) (e : C.Expr) : Prop where
  calm : ∀ c ∈ text, calm c = true
  phrase : C.Phrase (lex text) e
  value : ∀ s : C.State, s.value e = some (printedOffset s op)

theorem offset_of_stands {op : CsArmOp} {text : Text} (letters : ∀ c ∈ text, calm c = true)
    (stands : ∀ s : C.State, Stands s text (printedOffset s op)) : ∃ e, Offset op text e := by
  obtain ⟨e, phrase, -⟩ := (stands ⟨fun _ => 0, fun _ => 0⟩).reads
  refine ⟨e, letters, phrase, fun s => ?_⟩
  obtain ⟨d, other, value⟩ := (stands s).reads
  rwa [phrase.unique other]

theorem calm_of_printed {text : Text}
    (letters : ∀ c ∈ text, (c.isAlphanum = true ∨ c = '-') ∧ c ≠ 'o') :
    ∀ c ∈ text, calm c = true := by
  intro c member
  obtain ⟨letter | rfl, other⟩ := letters c member
  · exact calm_of_alphanum letter other
  · decide

theorem memoryText_cases {insn : CsInsn} (op : CsArmOp) (base : Text)
    (unshifted : (insn.operands 0).shiftType = .invalid ∨ (insn.operands 0).shiftValue = 0) :
    (Globals.memoryText insn op base = base ∧ ∀ s, printedOffset s op = 0) ∨
      ∃ text e, Globals.memoryText insn op base = base ++ " + ".toList ++ text ∧
        Offset op text e := by
  have still (text : Text) : handleShift text (insn.operands 0) = text := by
    rw [handleShift, if_neg fun both => unshifted.elim both.1 both.2]
  rw [Globals.memoryText]
  by_cases index : op.index ≠ ArmReg.invalid
  next =>
    have letters := variableOf_letters op.index
    have blank : ' ' ∉ (variableOf op.index).toList :=
      blank_free fun c member => .inl (letters c member).1
    have named : (variableOf op.index).toList ≠ ['0'] := by
      intro zero
      have name := (variableOf_variable op.index).name
      rw [zero] at name
      exact absurd name (by decide)
    have stands (s : C.State) : Stands s (variableOf op.index).toList (printedOffset s op) := by
      rw [printedOffset, if_pos index]
      exact stands_register _
    obtain ⟨e, offset⟩ := offset_of_stands
      (calm_of_printed fun c member => ⟨.inl (letters c member).1, (letters c member).2⟩) stands
    refine .inr ⟨_, e, ?_, offset⟩
    rw [if_pos index, getRegName, named_char, still, plain_char, simplify_sum blank,
      if_neg named]
  next =>
    have letters := getImmString_printed op.disp true
    have printed (s : C.State) : printedOffset s op = op.disp := by
      rw [printedOffset, if_neg index]
    rw [if_neg index, plain_char, plain_char,
      simplify_sum (blank_free fun c member => (letters c member).1)]
    split
    next zero => exact .inl ⟨rfl, fun s => (printed s).trans (zero_disp zero)⟩
    next =>
      have stands (s : C.State) :
          Stands s (getImmString op.disp true) (printedOffset s op) := by
        rw [printed]
        exact stands_immediate _ true
      obtain ⟨e, offset⟩ := offset_of_stands (calm_of_printed letters) stands
      exact .inr ⟨_, e, rfl, offset⟩

inductive Access
  | ldr | ldrb | ldrh | ldrsb | ldrsh | ldrd | str | strb | strh | strd
deriving DecidableEq

namespace Access

def name : Access → String
  | .ldr => "ldr"
  | .ldrb => "ldrb"
  | .ldrh => "ldrh"
  | .ldrsb => "ldrsb"
  | .ldrsh => "ldrsh"
  | .ldrd => "ldrd"
  | .str => "str"
  | .strb => "strb"
  | .strh => "strh"
  | .strd => "strd"

def loads : Access → Bool
  | .ldr | .ldrb | .ldrh | .ldrsb | .ldrsh | .ldrd => true
  | .str | .strb | .strh | .strd => false

-- The memory operand stands behind one register or two.
def memory : Access → Nat
  | .ldrd | .strd => 2
  | _ => 1

def ty : Access → C.Ty
  | .ldr | .ldrd | .str | .strd => .uint32
  | .ldrb | .strb => .uint8
  | .ldrh | .strh => .uint16
  | .ldrsb => .int8
  | .ldrsh => .int16

/-- A load relative to `pc` without an index. -/
def literal (a : Access) (op : CsArmOp) : Bool :=
  a.loads && op.base == ArmReg.pc && op.index == ArmReg.invalid

/-- The base of the effective address: a literal is addressed from the word that `pc` lies in. -/
def baseOf (a : Access) (op : CsArmOp) (base : Word) : Word :=
  if a.literal op then base - base % 4 else base

def addresses (a : Access) (effective : Word) : List Word :=
  (List.range a.memory).map fun i => effective + 4 * BitVec.ofNat 32 i

def statements (a : Access) (register : Nat → C.Expr) (address : C.Expr) : List C.Assignment :=
  (List.range a.memory).map fun i =>
    let place := C.Expr.load a.ty
      (if i = 0 then address else .binary .add address (.word "0x4".toList))
    if a.loads then ⟨register i, place⟩ else ⟨place, register i⟩

def baseName : Text := "base".toList

def offsetName : Text := "offset".toList

def sumTokens (a : Access) (name : Text) : List Token :=
  if name = opName a.memory then [.slot baseName, .mark '+', .slot offsetName] else [.slot name]

-- The code assigns what it loads, has no slots but its operands, and is read as the statements,
-- whether its memory operand is a sum or not.
def readsAs (a : Access) (code : Text) : Bool :=
  let tokens := tokensOf (inPlace '\\' [' '] (templateOf code))
  !code.isEmpty &&
    (!a.loads || (List.range a.memory).all fun i => occurs (opName i ++ " = ".toList) code) &&
    (slots (templateOf code)).all (fun name =>
      (List.range (a.memory + 1)).any (opName · == name)) &&
    aloneIn (templateOf code) &&
      C.parse tokens == some (a.statements operandSlot (operandSlot a.memory)) &&
        C.parse (fillTokens a.sumTokens tokens) ==
          some (a.statements operandSlot (.binary .add (.slot baseName) (.slot offsetName)))

theorem templates_read (a : Access) :
    ∃ letters, templateText a.name (a.memory + 1) = some (String.ofList letters) ∧
      a.readsAs letters = true := by
  cases a
  all_goals
    apply Exists.intro
    apply And.intro
    · simp [templateText, instructions, instructions2, name, memory, List.lookup_cons]
      rfl
    · decide +kernel

theorem statements_fill (a : Access) (g : Text → C.Expr) (address : C.Expr) :
    (a.statements operandSlot address).map (C.Assignment.fill g) =
      a.statements (fun i => g (opName i)) (address.fill g) := by
  rw [statements, statements, List.map_map]
  congr 1
  funext i
  cases a.loads <;> by_cases first : i = 0 <;> simp [C.Assignment.fill, C.Expr.fill, first] <;> rfl

theorem statements_congr (a : Access) {register other : Nat → C.Expr} (address : C.Expr)
    (same : ∀ i < a.memory, register i = other i) :
    a.statements register address = a.statements other address := by
  refine List.map_congr_left fun i member => ?_
  rw [same i (List.mem_range.mp member)]

theorem opName_other (i : Nat) : opName i ≠ baseName ∧ opName i ≠ offsetName := by
  have start : (opName i).take 2 = "op".toList := rfl
  refine ⟨?_, ?_⟩ <;> intro same <;> rw [same] at start <;> exact absurd start (by decide)

/-- A load or store without write-back. Its memory operand is the last, and no other operand has
a shift; loads and stores set no flags. -/
structure Is (a : Access) (insn : CsInsn) : Prop where
  name : mnemonicOf insn = a.name.toList
  count : insn.opCount = a.memory + 1
  flags : insn.updateFlags = false
  registers : ∀ i < a.memory, (insn.operands i).type = .reg
  memory : (insn.operands a.memory).type = .mem
  unshifted : (insn.operands 0).shiftType = .invalid ∨ (insn.operands 0).shiftValue = 0

section

variable {session : Session} {insn : CsInsn} {addr : Word} {g : Globals Char} {a : Access}
variable {s : C.State} {e : C.Expr} {stored : Nat → Word}

theorem memory_bounds (a : Access) : 1 ≤ a.memory ∧ a.memory ≤ 2 := by
  cases a <;> decide

theorem Is.reads (is : a.Is insn) : a.readsAs (codeOf insn) = true := by
  obtain ⟨letters, found, reads⟩ := templates_read a
  have named : String.ofList (mnemonicOf insn) = a.name := by rw [is.name, String.ofList_toList]
  rw [← named, ← is.count] at found
  have still : setsFlags insn = false := by rw [setsFlags, is.flags, Bool.false_and]
  rwa [codeOf_template found, String.toList_ofList, still, if_neg Bool.false_ne_true,
    List.append_nil]

theorem Is.valueOf_memory (is : a.Is insn) :
    Globals.valueOf session insn g (.operand a.memory) =
      Globals.memoryText insn (insn.operands a.memory) (Globals.registerOf insn g a.memory) := by
  rw [Globals.valueOf, Globals.textsOf, Globals.operandText, is.memory]
  rfl

theorem Is.registers_read (is : a.Is insn)
    (stands : a.loads = false → ∀ i < a.memory,
      Stands s (Globals.valueOf session insn g (.operand i)) (stored i)) :
    ∃ register : Nat → C.Expr, ∀ i < a.memory,
      Quiet (Globals.valueOf session insn g (.operand i)) ∧
        C.Phrase (lex (Globals.valueOf session insn g (.operand i))) (register i) ∧
        if a.loads then register i = .word (variableOf (insn.operands i).base).toList
        else s.value (register i) = some (stored i) := by
  have each (i : Nat) : ∃ register, i < a.memory →
      Quiet (Globals.valueOf session insn g (.operand i)) ∧
        C.Phrase (lex (Globals.valueOf session insn g (.operand i))) register ∧
        if a.loads then register = .word (variableOf (insn.operands i).base).toList
        else s.value register = some (stored i) := by
    by_cases inside : i < a.memory
    next =>
      cases kind : a.loads with
      | true =>
          have reads := is.reads
          simp only [readsAs, kind, Bool.not_true, Bool.false_or, Bool.and_eq_true,
            List.all_eq_true] at reads
          have assigned := reads.1.1.1.1.2 i (List.mem_range.mpr inside)
          have text : Globals.valueOf session insn g (.operand i) =
              (variableOf (insn.operands i).base).toList :=
            Globals.valueOf_target (is.registers i inside) assigned (by have := is.count; omega)
          rw [text]
          exact ⟨_, fun _ => ⟨quiet_variableOf _, (variableOf_variable _).phrase, rfl⟩⟩
      | false =>
          obtain ⟨quiet, register, phrase, value⟩ := stands kind i inside
          exact ⟨register, fun _ => ⟨quiet, phrase, value⟩⟩
    next => exact ⟨.word [], fun other => absurd other inside⟩
  choose register holds using each
  exact ⟨register, holds⟩

theorem Is.slot (is : a.Is insn) {name : Text}
    (member : name ∈ slots (templateOf (codeOf insn))) : ∃ i ≤ a.memory, name = opName i := by
  have reads := is.reads
  simp only [readsAs, Bool.and_eq_true] at reads
  obtain ⟨⟨⟨⟨-, names⟩, -⟩, -⟩, -⟩ := reads
  obtain ⟨i, inside, same⟩ := slot_of_all names member
  exact ⟨i, Nat.le_of_lt_succ (List.mem_range.mp inside), same⟩

theorem Is.template (is : a.Is insn) :
    aloneIn (templateOf (codeOf insn)) = true ∧
      C.parse (tokensOf (inPlace '\\' [' '] (templateOf (codeOf insn)))) =
        some (a.statements operandSlot (operandSlot a.memory)) ∧
      C.parse (fillTokens a.sumTokens
          (tokensOf (inPlace '\\' [' '] (templateOf (codeOf insn))))) =
        some (a.statements operandSlot (.binary .add (.slot baseName) (.slot offsetName))) := by
  have reads := is.reads
  simp only [readsAs, Bool.and_eq_true, beq_iff_eq] at reads
  obtain ⟨⟨⟨-, alone⟩, bare⟩, sum⟩ := reads
  exact ⟨alone, bare, sum⟩

theorem Is.filled (is : a.Is insn) (quiet : Quiet (Globals.registerOf insn g a.memory))
    (registers : ∀ i < a.memory, Quiet (Globals.valueOf session insn g (.operand i))) :
    Globals.Filled session insn g := by
  have reads := is.reads
  have bounds := memory_bounds a
  simp only [readsAs, Bool.and_eq_true, List.all_eq_true] at reads
  obtain ⟨⟨⟨⟨⟨some, -⟩, -⟩, -⟩, -⟩, -⟩ := reads
  constructor
  case known => simpa using some
  case few => rw [is.count]; omega
  case noConstant =>
    rw [is.name]
    cases a <;> decide
  case operands =>
    intro name member
    obtain ⟨i, below, rfl⟩ := is.slot member
    by_cases last : i = a.memory
    next =>
      subst last
      refine ⟨a.memory, by rw [is.count]; omega, rfl, by rw [is.memory]; decide, ?_⟩
      rw [is.valueOf_memory]
      rcases memoryText_cases (insn.operands a.memory) (Globals.registerOf insn g a.memory)
          is.unshifted with ⟨text, -⟩ | ⟨offset, d, text, rest⟩
      · rw [text]
        exact quiet
      · have blank : Globals.registerOf insn g a.memory ++ " + ".toList ++ offset =
            Globals.registerOf insn g a.memory ++ ' ' :: ('+' :: ' ' :: offset) := by simp
        rw [text, blank]
        refine quiet.append (quiet_of_calm fun c inside => ?_)
        simp only [List.mem_cons] at inside
        rcases inside with rfl | rfl | rfl | letter
        · decide
        · decide
        · decide
        · exact rest.calm c letter
    next =>
      have first : i < a.memory := by omega
      refine ⟨i, by rw [is.count]; omega, rfl, ?_, registers i first⟩
      rw [is.registers i first]
      decide

theorem Is.parsed_base (is : a.Is insn) (filled : Globals.Filled session insn g)
    (text : Globals.memoryText insn (insn.operands a.memory)
      (Globals.registerOf insn g a.memory) = Globals.registerOf insn g a.memory)
    (base : C.Phrase (lex (Globals.registerOf insn g a.memory)) e) {register : Nat → C.Expr}
    (registers : ∀ i < a.memory,
      C.Phrase (lex (Globals.valueOf session insn g (.operand i))) (register i)) :
    C.parse (lex (Globals.statementText session insn addr g)) =
      some (a.statements register e) := by
  obtain ⟨alone, bare, -⟩ := is.template
  let expr (name : Text) : C.Expr :=
    if slotIndex name = a.memory then e else register (slotIndex name)
  have phrases : ∀ name ∈ slots (templateOf (codeOf insn)),
      C.Phrase (Globals.slotTokens session insn g name) (expr name) := by
    intro name member
    obtain ⟨i, below, rfl⟩ := is.slot member
    rw [Globals.slotTokens_operand filled member]
    dsimp only [expr]
    rw [slotIndex_opName]
    split
    next last =>
      rw [last, is.valueOf_memory, text]
      exact base
    next other => exact registers i (by omega)
  have whole : (operandSlot a.memory).fill expr = e := by
    change expr (opName a.memory) = e
    dsimp only [expr]
    rw [slotIndex_opName, if_pos rfl]
  rw [Globals.parse_statementText filled alone bare phrases, statements_fill, whole]
  refine congrArg some (statements_congr a e fun i below => ?_)
  dsimp only [expr]
  rw [slotIndex_opName, if_neg (by omega)]

theorem Is.parsed_sum (is : a.Is insn) (filled : Globals.Filled session insn g) {offset : Text}
    (text : Globals.memoryText insn (insn.operands a.memory)
      (Globals.registerOf insn g a.memory) =
        Globals.registerOf insn g a.memory ++ " + ".toList ++ offset)
    (base : C.Phrase (lex (Globals.registerOf insn g a.memory)) e) {d : C.Expr}
    (rest : C.Phrase (lex offset) d) {register : Nat → C.Expr}
    (registers : ∀ i < a.memory,
      C.Phrase (lex (Globals.valueOf session insn g (.operand i))) (register i)) :
    C.parse (lex (Globals.statementText session insn addr g)) =
      some (a.statements register (.binary .add e d)) := by
  obtain ⟨alone, -, sum⟩ := is.template
  let expr (name : Text) : C.Expr :=
    if name = baseName then e else if name = offsetName then d else register (slotIndex name)
  let fill (name : Text) : List Token :=
    if name = baseName then lex (Globals.registerOf insn g a.memory)
    else if name = offsetName then lex offset else Globals.slotTokens session insn g name
  have apart : offsetName ≠ baseName := by decide
  have operand (i : Nat) : fill (opName i) = Globals.slotTokens session insn g (opName i) ∧
      expr (opName i) = register i := by
    dsimp only [fill, expr]
    rw [if_neg (opName_other i).1, if_neg (opName_other i).2, if_neg (opName_other i).1,
      if_neg (opName_other i).2, slotIndex_opName]
    exact ⟨rfl, rfl⟩
  have words : lex (Globals.valueOf session insn g (.operand a.memory)) =
      lex (Globals.registerOf insn g a.memory) ++ .mark '+' :: lex offset := by
    have blanks : Globals.registerOf insn g a.memory ++ " + ".toList ++ offset =
        Globals.registerOf insn g a.memory ++ ' ' :: '+' :: ' ' :: offset := by simp
    rw [is.valueOf_memory, text, blanks, lex_append rfl, lex_blank (by decide) (by decide),
      lex_mark (by decide) (by decide), lex_blank (by decide) (by decide)]
  -- The operand is filled in two steps, first by a sum of two slots.
  have tokens : lex (Globals.statementText session insn addr g) = fillTokens fill
      (fillTokens a.sumTokens (tokensOf (inPlace '\\' [' '] (templateOf (codeOf insn))))) := by
    rw [Globals.lex_statementText filled alone, fillTokens_fillTokens]
    refine fillTokens_congr fun name member => ?_
    have inSlots := mem_slots_inPlace (mem_tokensOf member)
    obtain ⟨i, below, rfl⟩ := is.slot inSlots
    rw [sumTokens]
    split
    next here =>
      obtain rfl := opName_injective here
      rw [Globals.slotTokens_operand filled inSlots, words, fillTokens_slot,
        fillTokens_mark, fillTokens_slot, fillTokens_nil, List.append_nil]
      dsimp only [fill]
      rw [if_pos rfl, if_neg apart, if_pos rfl]
    next => rw [fillTokens_slot, fillTokens_nil, List.append_nil, (operand i).1]
  have phrases : ∀ name,
      .slot name ∈ fillTokens a.sumTokens
        (tokensOf (inPlace '\\' [' '] (templateOf (codeOf insn)))) →
      C.Phrase (fill name) (expr name) := by
    intro name member
    obtain ⟨other, inTokens, here⟩ := mem_fillTokens member
    have inSlots := mem_slots_inPlace (mem_tokensOf inTokens)
    obtain ⟨i, below, rfl⟩ := is.slot inSlots
    rw [sumTokens] at here
    split at here
    next =>
      simp only [List.mem_cons, Token.slot.injEq, List.not_mem_nil, or_false, reduceCtorEq,
        false_or] at here
      dsimp only [fill, expr]
      rcases here with rfl | rfl
      · rw [if_pos rfl, if_pos rfl]
        exact base
      · rw [if_neg apart, if_pos rfl, if_neg apart, if_pos rfl]
        exact rest
    next other =>
      obtain rfl := Token.slot.inj (List.mem_singleton.mp here)
      have first : i ≠ a.memory := fun last => other (by rw [last])
      rw [(operand i).1, (operand i).2, Globals.slotTokens_operand filled inSlots]
      exact registers i (by omega)
  have whole : (C.Expr.binary .add (.slot baseName) (.slot offsetName)).fill expr =
      .binary .add e d := by
    change C.Expr.binary .add (expr baseName) (expr offsetName) = _
    dsimp only [expr]
    rw [if_pos rfl, if_neg apart, if_pos rfl]
  rw [tokens, C.parse_fill phrases sum, statements_fill, whole]
  exact congrArg some (statements_congr a _ fun i _ => (operand i).2)

theorem Is.parsed (is : a.Is insn) (quiet : Quiet (Globals.registerOf insn g a.memory))
    (base : C.Phrase (lex (Globals.registerOf insn g a.memory)) e) {register : Nat → C.Expr}
    (registers : ∀ i < a.memory, Quiet (Globals.valueOf session insn g (.operand i)) ∧
      C.Phrase (lex (Globals.valueOf session insn g (.operand i))) (register i)) :
    ∃ address, C.parse (lex (Globals.statementText session insn addr g)) =
        some (a.statements register address) ∧
      ∀ s : C.State, s.value address =
        (s.value e).map (· + printedOffset s (insn.operands a.memory)) := by
  have filled := is.filled quiet fun i inside => (registers i inside).1
  have phrases (i : Nat) (inside : i < a.memory) := (registers i inside).2
  rcases memoryText_cases (insn.operands a.memory) (Globals.registerOf insn g a.memory)
      is.unshifted with ⟨text, zero⟩ | ⟨offset, d, text, rest⟩
  · refine ⟨e, is.parsed_base filled text base phrases, fun s => ?_⟩
    rw [zero]
    cases s.value e <;> simp
  · refine ⟨.binary .add e d, is.parsed_sum filled text base rest.phrase phrases, fun s => ?_⟩
    rw [C.State.value, rest.value]
    cases s.value e <;> rfl

/-- The printed statements use these addresses, one after the other. -/
def Uses (s : C.State) (text : Text) (places : List Word) : Prop :=
  ∃ statements, C.parse (lex text) = some statements ∧
    s.addresses statements = places.map Option.some

/-- The index does not change by its shift. -/
def IndexKept (s : C.State) (carry : Bool) (op : CsArmOp) : Prop :=
  op.index ≠ ArmReg.invalid →
    shiftedRegister s carry op (s.vars (variableOf op.index).toList) =
      s.vars (variableOf op.index).toList

/-- The `pc` of a literal is aligned. -/
def LiteralAligned (a : Access) (op : CsArmOp) (base : Word) : Prop :=
  a.literal op = true → base % 4 = 0

def afterFirst (a : Access) (insn : CsInsn) (s : C.State) (stored place : Word) : C.State :=
  if a.loads then
    { s with
      vars := Function.update s.vars (variableOf (insn.operands 0).base).toList
        (C.Ty.read s.mem place.toNat a.ty) }
  else { s with mem := C.Ty.write s.mem place.toNat stored a.ty }

/-- Between these states, what is printed for the address keeps its value. -/
def AddressKept (s after : C.State) (e : C.Expr) (op : CsArmOp) : Prop :=
  (after.value e).map (· + printedOffset after op) = (s.value e).map (· + printedOffset s op)

theorem printedOffset_eq {carry : Bool} {op : CsArmOp} :
    printedOffset s op = offsetOf s carry op ↔ IndexKept s carry op := by
  rw [printedOffset, offsetOf, IndexKept]
  by_cases index : op.index ≠ ArmReg.invalid
  next =>
    rw [if_pos index, if_pos index]
    exact ⟨fun same _ => same.symm, fun kept => (kept index).symm⟩
  next =>
    rw [if_neg index, if_neg index]
    exact ⟨fun _ other => absurd other index, fun _ => rfl⟩

theorem effective_eq {carry : Bool} {op : CsArmOp} {base : Word} :
    base + printedOffset s op = a.baseOf op base + offsetOf s carry op ↔
      a.LiteralAligned op base ∧ IndexKept s carry op := by
  rw [baseOf, LiteralAligned]
  split
  next isLiteral =>
    have bare : ¬ op.index ≠ ArmReg.invalid := by
      rw [literal, Bool.and_eq_true, beq_iff_eq] at isLiteral
      exact not_not.mpr isLiteral.2
    have same : printedOffset s op = offsetOf s carry op :=
      printedOffset_eq.mpr fun index => absurd index bare
    have aligned : base = base - base % 4 ↔ base % 4 = 0 := by
      rw [eq_comm, BitVec.sub_eq_iff_eq_add, left_eq_add]
    rw [same, BitVec.add_left_inj, aligned]
    exact ⟨fun zero => ⟨fun _ => zero, printedOffset_eq.mp same⟩, fun both => both.1 isLiteral⟩
  next other =>
    rw [BitVec.add_right_inj, printedOffset_eq]
    exact (and_iff_right fun isLiteral => absurd isLiteral other).symm

theorem exec_first {address register : C.Expr} {place v : Word}
    (valued : s.value address = some place)
    (read : if a.loads then register = .word (variableOf (insn.operands 0).base).toList
      else s.value register = some v) :
    s.exec (if a.loads then ⟨register, .load a.ty address⟩ else ⟨.load a.ty address, register⟩) =
      some (a.afterFirst insn s v place) := by
  have word := variableOf_variable (insn.operands 0).base
  rw [afterFirst]
  cases kind : a.loads with
  | true =>
      rw [kind, if_pos rfl] at read
      subst read
      simp only [if_true]
      rw [C.State.exec, C.State.value, valued, Option.map_some, Option.bind_some, C.State.assign,
        if_pos word.name]
  | false =>
      rw [kind, if_neg Bool.false_ne_true] at read
      simp only [Bool.false_eq_true, if_false]
      rw [C.State.exec, read, Option.bind_some, C.State.assign, valued, Option.map_some]

theorem address_of {place register : C.Expr} {target : Text}
    (read : a.loads = true → register = .word target) :
    s.address (if a.loads then ⟨register, .load a.ty place⟩ else ⟨.load a.ty place, register⟩) =
      s.value place := by
  cases kind : a.loads with
  | true =>
      rw [read kind]
      rfl
  | false => rfl

theorem addresses_single (x : C.Assignment) : s.addresses [x] = [s.address x] := by
  rw [C.State.addresses]
  cases s.exec x <;> rfl

theorem addresses_pair {after : C.State} {x : C.Assignment} (y : C.Assignment)
    (executed : s.exec x = some after) : s.addresses [x, y] = [s.address x, after.address y] := by
  rw [C.State.addresses, executed, Option.elim_some, addresses_single]

theorem value_four : s.value (.word "0x4".toList) = some 4 := value_literal (by decide) (by decide)

theorem value_add_four (place : C.Expr) :
    s.value (.binary .add place (.word "0x4".toList)) = (s.value place).map (· + 4) := by
  rw [C.State.value, value_four]
  cases s.value place <;> rfl

theorem addressKept_register {op : CsArmOp} {v place : Word}
    (apart : a.loads = true → ∀ reg, reg = op.base ∨ reg = op.index ∧ op.index ≠ ArmReg.invalid →
      variableOf reg ≠ variableOf (insn.operands 0).base) :
    AddressKept s (a.afterFirst insn s v place) (.word (variableOf op.base).toList) op := by
  have kept (reg : Word) (used : reg = op.base ∨ reg = op.index ∧ op.index ≠ ArmReg.invalid) :
      (a.afterFirst insn s v place).vars (variableOf reg).toList =
        s.vars (variableOf reg).toList := by
    rw [afterFirst]
    cases kind : a.loads with
    | false => rfl
    | true =>
        refine Function.update_of_ne (fun same => apart kind reg used ?_) _ _
        exact String.toList_inj.mp same
  have offset : printedOffset (a.afterFirst insn s v place) op = printedOffset s op := by
    rw [printedOffset, printedOffset]
    split
    next index => exact kept op.index (.inr ⟨rfl, index⟩)
    next => rfl
  have name := (variableOf_variable op.base).name
  rw [AddressKept, offset, C.State.value, C.State.value, if_pos name, if_pos name,
    kept op.base (.inl rfl)]

/-- The printed addresses are those of the instruction exactly when a literal's `pc` is aligned,
the index has no shift that changes it, and a first statement leaves the address that the second
uses again; so it does where the address is that of registers other than its destination. -/
theorem uses_iff (is : a.Is insn) (carry : Bool) {base : Word}
    (quiet : Quiet (Globals.registerOf insn g a.memory))
    (phrase : C.Phrase (lex (Globals.registerOf insn g a.memory)) e)
    (holds : s.value e = some base)
    (stands : a.loads = false → ∀ i < a.memory,
      Stands s (Globals.valueOf session insn g (.operand i)) (stored i)) :
    (Uses s (Globals.statementText session insn addr g)
        (a.addresses (a.baseOf (insn.operands a.memory) base +
          offsetOf s carry (insn.operands a.memory))) ↔
      (a.LiteralAligned (insn.operands a.memory) base ∧
        IndexKept s carry (insn.operands a.memory)) ∧
        (a.memory = 2 → AddressKept s
          (a.afterFirst insn s (stored 0) (base + printedOffset s (insn.operands a.memory))) e
          (insn.operands a.memory))) ∧
    ((a.loads = true → ∀ reg, reg = (insn.operands a.memory).base ∨
        reg = (insn.operands a.memory).index ∧ (insn.operands a.memory).index ≠ ArmReg.invalid →
          variableOf reg ≠ variableOf (insn.operands 0).base) →
      AddressKept s
        (a.afterFirst insn s (stored 0) (base + printedOffset s (insn.operands a.memory)))
        (.word (variableOf (insn.operands a.memory).base).toList) (insn.operands a.memory)) := by
  refine ⟨?_, addressKept_register⟩
  obtain ⟨register, registers⟩ := is.registers_read stands
  obtain ⟨place, parsed, value⟩ : ∃ place,
      C.parse (lex (Globals.statementText session insn addr g)) =
        some (a.statements register place) ∧
      ∀ s : C.State, s.value place =
        (s.value e).map (· + printedOffset s (insn.operands a.memory)) :=
    is.parsed quiet phrase fun i inside => ⟨(registers i inside).1, (registers i inside).2.1⟩
  have target (i : Nat) (inside : i < a.memory) (kind : a.loads = true) :
      register i = .word (variableOf (insn.operands i).base).toList := by
    have read := (registers i inside).2.2
    rwa [kind, if_pos rfl] at read
  have first : s.value place = some (base + printedOffset s (insn.operands a.memory)) := by
    rw [value, holds, Option.map_some]
  have uses : Uses s (Globals.statementText session insn addr g)
        (a.addresses (a.baseOf (insn.operands a.memory) base +
          offsetOf s carry (insn.operands a.memory))) ↔
      s.addresses (a.statements register place) =
        (a.addresses (a.baseOf (insn.operands a.memory) base +
          offsetOf s carry (insn.operands a.memory))).map Option.some := by
    constructor
    next =>
      rintro ⟨statements, read, same⟩
      rw [parsed] at read
      rwa [Option.some.inj read]
    next => exact fun same => ⟨_, parsed, same⟩
  have bounds := memory_bounds a
  have executed := exec_first first (registers 0 bounds.1).2.2
  rw [uses, ← effective_eq, statements, addresses]
  rcases Nat.lt_or_eq_of_le bounds.2 with single | double
  next =>
    have one : a.memory = 1 := by omega
    have never : ¬ a.memory = 2 := by omega
    rw [one] at first ⊢
    simp only [List.range_one, List.map_cons, List.map_nil, if_true, addresses_single,
      address_of (target 0 bounds.1), first, BitVec.mul_zero, BitVec.add_zero, List.cons.injEq,
      and_true, Option.some.injEq, OfNat.one_ne_ofNat, false_implies]
  next =>
    rw [double] at first executed ⊢
    generalize a.afterFirst insn s (stored 0) (base + printedOffset s (insn.operands 2)) = after
      at executed
    have range : List.range 2 = [0, 1] := rfl
    simp only [range, List.map_cons, List.map_nil, if_true, if_neg Nat.one_ne_zero]
    rw [addresses_pair _ executed, address_of (target 0 bounds.1), address_of (target 1 (by omega)),
      value_add_four, first, AddressKept, ← double, ← value, ← value, double, first]
    simp only [BitVec.mul_zero, BitVec.mul_one, BitVec.add_zero, List.cons.injEq,
      Option.some.injEq, and_true, true_implies]
    refine and_congr_right fun same => ?_
    rw [same]
    cases after.value place <;> simp

end

-- `ldrd a1, a2, [a3, #8]`
def ldrdInsn : CsInsn where
  mnemonic := "ldrd".toList
  opStr := "r0, r1, [r2, #8]".toList
  size := 4
  conditional := false
  updateFlags := false
  opCount := 3
  operands i :=
    ⟨if i = 2 then .mem else .reg, ArmReg.r0 + BitVec.ofNat 32 i, 0, if i = 2 then 8 else 0,
      .invalid, 0⟩

-- `ldr a1, [a2, a3, lsl #2]`
def ldrInsn : CsInsn where
  mnemonic := "ldr".toList
  opStr := "r0, [r1, r2, lsl #2]".toList
  size := 4
  conditional := false
  updateFlags := false
  opCount := 2
  operands i :=
    if i = 1 then ⟨.mem, ArmReg.r1, ArmReg.r2, 0, .lsl, 2⟩ else ⟨.reg, ArmReg.r0, 0, 0, .invalid, 0⟩

def allOnes : C.State := ⟨fun _ => 1, fun _ => 0⟩

theorem uses_ldrd :
    Uses allOnes (Globals.statementText Globals.bareSession ldrdInsn 0x81000000 Globals.initial)
        (addresses .ldrd (baseOf .ldrd (ldrdInsn.operands 2) 1 +
          offsetOf allOnes false (ldrdInsn.operands 2))) ↔
      (LiteralAligned .ldrd (ldrdInsn.operands 2) 1 ∧
        IndexKept allOnes false (ldrdInsn.operands 2)) ∧
        (memory .ldrd = 2 → AddressKept allOnes
          (afterFirst .ldrd ldrdInsn allOnes 0 (1 + printedOffset allOnes (ldrdInsn.operands 2)))
          (.word (variableOf ArmReg.r2).toList) (ldrdInsn.operands 2)) := by
  have named : Globals.registerOf ldrdInsn Globals.initial 2 = (variableOf ArmReg.r2).toList :=
    Globals.registerOf_named rfl
  have reads : Is .ldrd ldrdInsn :=
    ⟨by decide, rfl, rfl, by decide, rfl, .inl rfl⟩
  have quiet : Quiet (Globals.registerOf ldrdInsn Globals.initial 2) := by
    rw [named]
    exact quiet_variableOf _
  have phrase : C.Phrase (lex (Globals.registerOf ldrdInsn Globals.initial 2))
      (.word (variableOf ArmReg.r2).toList) := by
    rw [named]
    exact (variableOf_variable _).phrase
  have holds : allOnes.value (.word (variableOf ArmReg.r2).toList) = some 1 := by decide
  exact (uses_iff reads false quiet phrase holds fun store => by cases store).1

-- The index is printed without its shift.
theorem index_unshifted :
    Globals.statementText Globals.bareSession ldrInsn 0x81000000 Globals.initial =
        "a1 = *(uint32_t *)(a2 + a3);".toList ∧
      addresses .ldr (baseOf .ldr (ldrInsn.operands 1) (allOnes.vars "a2".toList) +
        offsetOf allOnes false (ldrInsn.operands 1)) = [5] ∧
      ¬ Uses allOnes
        (Globals.statementText Globals.bareSession ldrInsn 0x81000000 Globals.initial) [5] := by
  have text : Globals.statementText Globals.bareSession ldrInsn 0x81000000 Globals.initial =
      "a1 = *(uint32_t *)(a2 + a3);".toList := by decide +kernel
  have read : C.parse (lex "a1 = *(uint32_t *)(a2 + a3);".toList) =
      some [⟨.word "a1".toList, .load .uint32
        (.binary .add (.word "a2".toList) (.word "a3".toList))⟩] := by decide +kernel
  refine ⟨text, by decide, ?_⟩
  rintro ⟨statements, parsed, used⟩
  rw [text, read] at parsed
  obtain rfl := Option.some.inj parsed
  have place : allOnes.value (.binary .add (.word "a2".toList) (.word "a3".toList)) = some 2 := by
    decide +kernel
  rw [addresses_single] at used
  exact absurd (place.symm.trans (List.cons.inj used).1) (by decide)

end Access

end VitaTools.Passes
