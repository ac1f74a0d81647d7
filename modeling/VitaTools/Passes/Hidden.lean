import VitaTools.Passes.Translate
import VitaTools.Library.Statements

set_option autoImplicit false

namespace VitaTools.Passes

open VitaTools.Library VitaTools.Library.Traced
open VitaTools.Decompiler (Text Word getImmString)
open VitaTools.Decompiler.Globals (opName isString)

section

variable (name : String)

namespace Globals

-- The entry that `composeRegister` puts in.
def substitute (g : Globals Glyph) (reg : Word) : Option (RegisterAssignmentEntry Glyph) :=
  if reg = ArmReg.sp then none
  else (g.regAssignMap reg).filter fun entry => entry.assign.length < 128

def ReadsOther (g : Globals Glyph) (reg : Word) : Prop :=
  match g.substitute reg with
  | some entry => mentions name entry.assign = false
  | none => variableOf reg ≠ name

end Globals

def ShiftsByOther (op : CsArmOp) : Prop :=
  op.shiftType ≠ .invalid → op.shiftValue ≠ 0 → op.shiftType.byValue = false →
    variableOf op.shiftValue ≠ name

def isTarget (i : Nat) (code : List Glyph) : Bool :=
  occurs (opName i ++ " = ".toList) (spell code)

/-- Operand `i`, if it stands in the code, is put in without reading the variable. `sure` is the
unconditional statement. -/
def OperandHidden (sure : Bool) (insn : CsInsn) (i : Nat) (code : List Glyph)
    (g : Globals Glyph) : Prop :=
  let op := insn.operands i
  occurs (opName i) (spell code) = true →
    match op.type with
    | .reg =>
        (i + 1 = insn.opCount → ShiftsByOther name op) ∧
          if isTarget i code then
            variableOf op.base ≠ name ∨
              assignsOnly sure (opName i) (divide '\\' code) = true ∧
                (i + 1 = insn.opCount → op.shiftType = .invalid ∨ op.shiftValue = 0)
          else g.ReadsOther name op.base
    | .mem =>
        (op.index ≠ ArmReg.invalid →
          variableOf op.index ≠ name ∧ ShiftsByOther name (insn.operands 0)) ∧
          if isTarget i code then variableOf op.base ≠ name else g.ReadsOther name op.base
    | _ => True

def OperandsHidden (sure : Bool) (insn : CsInsn) : Nat → Nat → List Glyph → Globals Glyph → Prop
  | 0, _, _, _ => True
  | left + 1, i, code, g =>
      OperandHidden name sure insn i code g ∧
        OperandsHidden sure insn left (i + 1) (Globals.parseOperand insn false i code g).1
          (Globals.parseOperand insn false i code g).2

def ArgHidden (g : Globals Glyph) (i : Nat) : Prop :=
  if i < 4 then
    match g.regAssignMap (ArmReg.r0 + BitVec.ofNat 32 i) with
    | some entry => mentions name entry.assign = false
    | none => "a" ++ toString (i + 1) ≠ name
  else "sp" ≠ name

-- The arguments that the symbol of operand `i` has put in.
def ArgsHidden (session : Session) (insn : CsInsn) (i : Nat) (code : List Glyph)
    (g : Globals Glyph) : Prop :=
  ∀ symbol, session.symbolMap (insn.operands i).base = some symbol →
    symbol.is (symbolSubroutine ||| symbolLabel) = true → symbol.is symbolSubroutine = true →
      occurs "...".toList (spell (replaceAll code "symbol".toList (plain symbol.name))) = true →
        ∀ k < min symbol.nArgs 11, ArgHidden name g k

-- A `movt` completes a constant.
def Completes (insn : CsInsn) (mnemonic : Text) (code : List Glyph) (g : Globals Glyph) : Prop :=
  mnemonic = "movt".toList ∧ insn.conditional = false ∧ Globals.isAssignment code = true ∧
    (g.lowHalf (insn.operands 0).base).isSome = true

def Returns (insn : CsInsn) (mnemonic : Text) : Prop :=
  mnemonic = "bx".toList ∧ insn.opStr = "lr".toList ∨ mnemonic = "pop".toList

def Hidden (session : Session) (insn : CsInsn) (addr : Word) (g : Globals Glyph) : Prop :=
  let mnemonic := (trimMnemonic insn).1
  let sure := (trimMnemonic insn).2.isNone
  let code : List Glyph := getInstructionCode insn mnemonic
  if code.isEmpty then Returns insn mnemonic → "a1" ≠ name
  else
    g.ignoreMap addr = false →
      let g := Globals.useFlagsOf insn g
      let parsed := Globals.parseOperations insn false code g
      let recorded :=
        Globals.recordAssignment session insn mnemonic addr false parsed.1 parsed.2
      let first := Globals.replaceSymbol session insn false 0 recorded.1 recorded.2
      (Completes insn mnemonic parsed.1 parsed.2 ∨
        OperandsHidden name sure insn insn.opCount 0 code g) ∧
        ArgsHidden name session insn 0 recorded.1 recorded.2 ∧
          ArgsHidden name session insn 1 first.1 first.2

end

theorem mem_of_lookup {α β : Type} [BEq α] [LawfulBEq α] {key : α} {value : β}
    {table : List (α × β)} (found : table.lookup key = some value) : (key, value) ∈ table := by
  obtain ⟨front, back, rfl, -⟩ := List.lookup_eq_some_iff.mp found
  exact List.mem_append_right front List.mem_cons_self

theorem variableOf_letters (reg : Word) :
    ∀ c ∈ (variableOf reg).toList, c.isAlphanum = true ∧ c ≠ 'o' := by
  have letters : ("unk" :: regNames.map Prod.snd).all (fun name =>
      name.toList.all fun c => c.isAlphanum && c != 'o') = true := by decide
  have all : ∀ name ∈ "unk" :: regNames.map Prod.snd,
      ∀ c ∈ name.toList, c.isAlphanum = true ∧ c ≠ 'o' := by
    intro name inTable c inName
    have both := List.all_eq_true.mp (List.all_eq_true.mp letters name inTable) c inName
    rwa [Bool.and_eq_true, bne_iff_ne] at both
  rw [variableOf]
  cases found : regNames.lookup reg with
  | none => exact all "unk" List.mem_cons_self
  | some name =>
      exact all name (List.mem_cons_of_mem _ (List.mem_map_of_mem (mem_of_lookup found)))

theorem opName_letters (i : Nat) : ∀ c ∈ opName i, c.isAlphanum = true := by
  intro c member
  rcases List.mem_append.mp member with letter | digit
  · have both : "op".toList.all Char.isAlphanum = true := by decide
    exact List.all_eq_true.mp both c letter
  · have decimal : (toString i).toList = Nat.toDigits 10 i := Nat.toList_repr
    rw [decimal] at digit
    have isDigit := Nat.isDigit_of_mem_toDigits (by decide) (by decide) digit
    simp [Char.isAlphanum, isDigit]

theorem whole_opName (i : Nat) : '\\' ∉ opName i := fun member =>
  absurd (opName_letters i '\\' member) (by decide)

section

variable {name : String} (letters : ∀ c ∈ name.toList, c.isAlphanum = true ∧ c ≠ 'o')
include letters

theorem separator_of_letters {separator : Char} (other : separator.isAlphanum = false)
    (tab : separator ≠ '\t') (blank : separator ≠ ' ') (equals : separator ≠ '=') :
    Separator name separator :=
  ⟨tab, blank, equals, fun member => by simp [(letters _ member).1] at other⟩

theorem apart_opName (i : Nat) : Apart name (opName i) where
  hidden := ⟨'o', List.mem_cons_self, fun member => (letters _ member).2 rfl, by decide⟩
  blank member := absurd (opName_letters i ' ' member) (by decide)
  equals member := absurd (opName_letters i '=' member) (by decide)

theorem separator_backslash : Separator name '\\' :=
  separator_of_letters letters (by decide) (by decide) (by decide) (by decide)

theorem separator_newline : Separator name '\n' :=
  separator_of_letters letters (by decide) (by decide) (by decide) (by decide)

end

section

variable {name : String} {g : Globals Glyph}

theorem bracket_quiet {assign : List Glyph} (quiet : mentions name assign = false) :
    mentions name (bracket assign) = false := by
  rw [bracket]
  split
  · rw [mentions_append, mentions_append, mentions_plain, mentions_plain, quiet]
    rfl
  · exact quiet

theorem composed_quiet {reg : Word} (other : g.ReadsOther name reg) :
    mentions name (g.composed (getRegName reg) reg).1 = false := by
  rw [Globals.ReadsOther, Globals.substitute] at other
  rw [Globals.composed]
  split
  next same =>
    rw [if_pos same] at other
    exact mentions_named other
  next different =>
    rw [if_neg different] at other
    cases found : g.regAssignMap reg with
    | none =>
        rw [found] at other
        exact mentions_named other
    | some entry =>
        rw [found, Option.filter_some] at other
        dsimp only
        split
        next short =>
          rw [if_pos (decide_eq_true short)] at other
          exact bracket_quiet other
        next long =>
          rw [if_neg (by simpa using long)] at other
          exact mentions_named other

theorem registerText_quiet {i : Nat} {code : List Glyph} {reg : Word}
    (other : if isTarget i code then variableOf reg ≠ name else g.ReadsOther name reg) :
    mentions name (g.registerText i code reg false).1 = false := by
  rw [isTarget] at other
  rw [Globals.registerText]
  split
  next target =>
    rw [if_pos target] at other
    exact mentions_named other
  next source =>
    rw [if_neg source] at other
    exact composed_quiet other

theorem handleShift_quiet {reg : List Glyph} {op : CsArmOp} (quiet : mentions name reg = false)
    (other : ShiftsByOther name op) : mentions name (handleShift reg op) = false := by
  rw [handleShift]
  split
  next shifted =>
    have amount : mentions name (if op.shiftType.byValue then plain (hexText op.shiftValue)
        else getRegName op.shiftValue) = false := by
      split
      next => exact mentions_plain _
      next register =>
        exact mentions_named (other shifted.1 shifted.2 (Bool.eq_false_of_not_eq_true register))
    refine mentions_of_subset (fun x member => List.mem_of_mem_take member) ?_
    simp only [mentions_append, mentions_plain, quiet, amount, Bool.or_false]
  next => exact quiet

theorem simplify_quiet {str : List Glyph} (quiet : mentions name str = false) :
    mentions name (simplify str) = false := by
  rw [simplify]
  split
  · exact mentions_of_subset (fun x member => List.mem_of_mem_take member) quiet
  · exact quiet

theorem memoryText_quiet {insn : CsInsn} {op : CsArmOp} {reg : List Glyph}
    (quiet : mentions name reg = false)
    (other : op.index ≠ ArmReg.invalid →
      variableOf op.index ≠ name ∧ ShiftsByOther name (insn.operands 0)) :
    mentions name (Globals.memoryText insn op reg) = false := by
  apply simplify_quiet
  split
  next index =>
    have shifted := handleShift_quiet (mentions_named (other index).1) (other index).2
    simp only [mentions_append, mentions_plain, quiet, Bool.false_or]
    exact shifted
  next => simp only [mentions_append, mentions_plain, quiet, Bool.or_false]

end

namespace Globals

variable {α : Type} [Alphabet α]

theorem registerText_globals (g : Globals α) (i : Nat) (code : List α) (reg : Word) :
    (g.registerText i code reg false).2 = g := by
  rw [registerText]
  split
  · rfl
  · exact ite_self g

theorem parseOperand_globals (insn : CsInsn) (i : Nat) (code : List α) (g : Globals α) :
    (parseOperand insn false i code g).2 = g := by
  cases type : (insn.operands i).type <;>
    simp only [parseOperand, operandText, type, registerText_globals]

theorem parseFrom_globals (insn : CsInsn) (left i : Nat) (code : List α) (g : Globals α) :
    (parseFrom insn false left i code g).2 = g := by
  induction left generalizing i code g with
  | zero => rfl
  | succ left ih => exact (ih (i + 1) _ _).trans (parseOperand_globals insn i code g)

theorem recordAssignment_ignoreMap (session : Session) (insn : CsInsn) (mnemonic : Text)
    (addr : Word) (code : List α) (g : Globals α) :
    (recordAssignment session insn mnemonic addr false code g).2.ignoreMap = g.ignoreMap := by
  rw [recordAssignment]
  split
  · rw [assignRegister]
    dsimp only
    split
    · rfl
    · split <;> rfl
  · rfl

theorem argText_globals (i : Nat) (g : Globals α) : (argText false i g).2 = g := by
  rw [argText]
  split
  · cases g.regAssignMap (ArmReg.r0 + BitVec.ofNat 32 i) <;> rfl
  · rfl

theorem argsFrom_globals (count i : Nat) (g : Globals α) : (argsFrom false count i g).2 = g := by
  induction count generalizing i g with
  | zero => rfl
  | succ count ih => exact (ih (i + 1) _).trans (argText_globals i g)

theorem replaceSymbol_globals (session : Session) (insn : CsInsn) (i : Nat) (code : List α)
    (g : Globals α) : (replaceSymbol session insn false i code g).2 = g := by
  rw [replaceSymbol]
  split
  · split
    · dsimp only
      split
      · exact argsFrom_globals _ 0 g
      · rfl
    · rfl
  · rfl

theorem translateCode_ignoreMap (session : Session) (insn : CsInsn) (mnemonic : Text)
    (addr : Word) (code : List α) (g : Globals α) :
    (translateCode session insn mnemonic addr code false g).2.ignoreMap = g.ignoreMap := by
  have parsed : (parseOperations insn false code (useFlagsOf insn g)).2.ignoreMap =
      g.ignoreMap := by
    rw [parseOperations, parseFrom_globals]
    rfl
  have recorded := recordAssignment_ignoreMap session insn mnemonic addr
    (parseOperations insn false code (useFlagsOf insn g)).1
    (parseOperations insn false code (useFlagsOf insn g)).2
  rw [translateCode]
  simp only [replaceSymbols, replaceSymbol_globals]
  split
  · exact recorded.trans parsed
  · exact recorded.trans parsed

end Globals

section

variable {name : String} (letters : ∀ c ∈ name.toList, c.isAlphanum = true ∧ c ≠ 'o')
variable {sure : Bool}

def Kept (name : String) (sure : Bool) (code : List Glyph) : Prop :=
  readsFirst name sure (divide '\\' code) = false

include letters

theorem kept_replaceAll {search : List Char} (apart : Apart name search) (whole : '\\' ∉ search)
    {code text : List Glyph} (inserted : mentions name text = false) (kept : Kept name sure code) :
    Kept name sure (replaceAll code search text) :=
  readsFirst_replaceAll (fun c member => (letters c member).1) (separator_backslash letters) apart
    whole inserted kept

theorem kept_of_valueOf {code : List Glyph} (quiet : mentions name (valueOf name code) = false) :
    Kept name sure code :=
  readsFirst_divide (fun c member => (letters c member).1) (separator_backslash letters) quiet

variable {insn : CsInsn} {i : Nat} {code : List Glyph} {g : Globals Glyph}

theorem parseOperand_reg (type : (insn.operands i).type = .reg)
    (hidden : OperandHidden name sure insn i code g)
    (present : occurs (opName i) (spell code) = true) (kept : Kept name sure code) :
    Kept name sure (Globals.parseOperand insn false i code g).1 := by
  have parts := hidden present
  simp only [type] at parts
  obtain ⟨shifts, other⟩ := parts
  simp only [Globals.parseOperand, Globals.operandText, type]
  by_cases assigned : isTarget i code = true ∧ variableOf (insn.operands i).base = name
  next =>
    obtain ⟨target, same⟩ := assigned
    rw [if_pos target] at other
    rcases other with different | ⟨only, unshifted⟩
    · exact absurd same different
    have text : (g.registerText i code (insn.operands i).base false).1 = named name := by
      rw [Globals.registerText, if_pos (show occurs _ _ = true from target), ← same]
      rfl
    have unchanged : (if i + 1 = insn.opCount then
        handleShift (g.registerText i code (insn.operands i).base false).1 (insn.operands i)
      else (g.registerText i code (insn.operands i).base false).1) = named name := by
      split
      next last =>
        rw [handleShift, if_neg, text]
        rintro ⟨shifted, amount⟩
        exact (unshifted last).elim shifted amount
      next => exact text
    rw [unchanged]
    exact readsFirst_named (fun c member => (letters c member).1) (separator_backslash letters)
      (apart_opName letters i) (whole_opName i) kept only
  next =>
    have quiet : mentions name (g.registerText i code (insn.operands i).base false).1 = false := by
      apply registerText_quiet
      split
      next target =>
        exact fun same => assigned ⟨target, same⟩
      next source =>
        rwa [if_neg source] at other
    refine kept_replaceAll letters (apart_opName letters i) (whole_opName i) ?_ kept
    split
    next last => exact handleShift_quiet quiet (shifts last)
    next => exact quiet

theorem parseOperand_kept (hidden : OperandHidden name sure insn i code g)
    (kept : Kept name sure code) :
    Kept name sure (Globals.parseOperand insn false i code g).1 := by
  by_cases present : occurs (opName i) (spell code) = true
  next =>
    cases type : (insn.operands i).type with
    | reg => exact parseOperand_reg letters type hidden present kept
    | imm =>
        simp only [Globals.parseOperand, Globals.operandText, type]
        exact kept_replaceAll letters (apart_opName letters i) (whole_opName i)
          (mentions_plain _) kept
    | mem =>
        have parts := hidden present
        simp only [type] at parts
        simp only [Globals.parseOperand, Globals.operandText, type]
        exact kept_replaceAll letters (apart_opName letters i) (whole_opName i)
          (memoryText_quiet (registerText_quiet parts.2) parts.1) kept
    | other =>
        simp only [Globals.parseOperand, Globals.operandText, type]
        exact kept
  next =>
    rw [Globals.parseOperand]
    dsimp only
    split
    next => rwa [replaceAll_of_not_occurs (Bool.eq_false_of_not_eq_true present)]
    next => exact kept

theorem parseFrom_kept (left : Nat) (hidden : OperandsHidden name sure insn left i code g)
    (kept : Kept name sure code) :
    Kept name sure (Globals.parseFrom insn false left i code g).1 := by
  induction left generalizing i code g with
  | zero => exact kept
  | succ left ih => exact ih hidden.2 (parseOperand_kept letters hidden.1 kept)

end

end VitaTools.Passes
