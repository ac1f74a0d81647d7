import VitaTools.Passes.Sweeps

set_option autoImplicit false

namespace VitaTools.Passes

open VitaTools.Library VitaTools.Library.Traced
open VitaTools.Decompiler (Text Word getImmString)
open VitaTools.Decompiler.Globals (opName isString)

variable {α : Type} [Alphabet α]

def RegisterAssignmentEntry.spelled (entry : RegisterAssignmentEntry α) :
    RegisterAssignmentEntry Char :=
  ⟨spell entry.assign, entry.addr, entry.updateFlags⟩

def Globals.spelled (g : Globals α) : Globals Char :=
  ⟨fun reg => (g.regAssignMap reg).map RegisterAssignmentEntry.spelled, g.ignoreMap, g.useFlags⟩

def spelledBoth (x : List α × Globals α) : List Char × Globals Char := (spell x.1, x.2.spelled)

@[simp] theorem spell_template (text : Text) : spell (template text : List α) = template text := by
  rw [template, template]
  split <;> simp

@[simp] theorem spell_getInstructionCode (insn : CsInsn) (mnemonic : Text) :
    spell (getInstructionCode insn mnemonic : List α) = getInstructionCode insn mnemonic := by
  rw [getInstructionCode, getInstructionCode]
  cases instructions.lookup (String.ofList mnemonic) with
  | none => rfl
  | some text => simp

theorem isEmpty_getInstructionCode (insn : CsInsn) (mnemonic : Text) :
    (getInstructionCode insn mnemonic : List α).isEmpty =
      (getInstructionCode insn mnemonic : List Char).isEmpty := by
  rw [← spell_getInstructionCode (α := α), spell, List.isEmpty_map]

@[simp] theorem spell_getRegName (reg : Word) :
    spell (getRegName reg : List α) = getRegName reg := by
  simp [getRegName]

@[simp] theorem spell_handleShift (reg : List α) (op : CsArmOp) :
    spell (handleShift reg op) = handleShift (spell reg) op := by
  rw [handleShift, handleShift]
  split
  · split <;> simp
  · rfl

@[simp] theorem spell_bracket (assign : List α) :
    spell (bracket assign) = bracket (spell assign) := by
  rw [bracket, bracket, spell_char]
  split <;> simp

@[simp] theorem spell_simplify (str : List α) : spell (simplify str) = simplify (spell str) := by
  rw [simplify, simplify, spell_char, spell_length]
  split <;> simp

namespace Globals

theorem spelled_entry (g : Globals α) (reg : Word) :
    g.spelled.regAssignMap reg = (g.regAssignMap reg).map RegisterAssignmentEntry.spelled := rfl

theorem spelled_assign (g : Globals α) (reg : Word) (entry : Option (RegisterAssignmentEntry α)) :
    (g.assign reg entry).spelled =
      g.spelled.assign reg (entry.map RegisterAssignmentEntry.spelled) := by
  rw [assign, assign, spelled, spelled, Globals.mk.injEq]
  refine ⟨?_, rfl, rfl⟩
  funext other
  dsimp only
  rw [Function.update_apply, Function.update_apply]
  split <;> rfl

theorem spelled_clear (g : Globals α) :
    g.clearRegAssignMapAfterBranch.spelled = g.spelled.clearRegAssignMapAfterBranch := by
  simp only [clearRegAssignMapAfterBranch, spelled_assign, Option.map_none]

theorem spelled_ignoreAddr (g : Globals α) (reg : Word) :
    (g.ignoreAddr reg).spelled = g.spelled.ignoreAddr reg := by
  rw [ignoreAddr, ignoreAddr, spelled_entry]
  cases g.regAssignMap reg with
  | none => rfl
  | some entry =>
      by_cases kept : (entry.updateFlags && g.useFlags) = true
      next => exact (congrArg Globals.spelled (if_pos kept)).trans (if_pos kept).symm
      next => exact (congrArg Globals.spelled (if_neg kept)).trans (if_neg kept).symm

theorem spelled_absorb (g : Globals α) (analyse : Bool) (reg : Word) :
    (g.absorb analyse reg).spelled = g.spelled.absorb analyse reg := by
  cases analyse
  · rfl
  · exact spelled_ignoreAddr g reg

theorem spelled_composed (g : Globals α) (regStr : List α) (reg : Word) :
    (spell (g.composed regStr reg).1, (g.composed regStr reg).2) =
      g.spelled.composed (spell regStr) reg := by
  simp only [composed, spelled]
  split
  · rfl
  · cases g.regAssignMap reg with
    | none => rfl
    | some entry =>
        simp only [Option.map_some, RegisterAssignmentEntry.spelled, spell_length]
        split <;> simp

theorem composeRegister_spelled (g : Globals α) (regStr : List α) (reg : Word) (analyse : Bool) :
    spelledBoth (g.composeRegister regStr reg analyse) =
      g.spelled.composeRegister (spell regStr) reg analyse := by
  rw [composeRegister, composeRegister, ← spelled_composed]
  rcases g.composed regStr reg with ⟨text, _ | _⟩
  · rfl
  · exact congrArg (Prod.mk (spell text)) (spelled_absorb g analyse reg)

theorem registerText_spelled (g : Globals α) (i : Nat) (code : List α) (reg : Word)
    (analyse : Bool) :
    spelledBoth (g.registerText i code reg analyse) =
      g.spelled.registerText i (spell code) reg analyse := by
  rw [registerText, registerText, spell_char]
  split
  · exact congrArg (Prod.mk · g.spelled) (spell_getRegName reg)
  · rw [composeRegister_spelled, spell_getRegName]

theorem spell_memoryText (insn : CsInsn) (op : CsArmOp) (reg : List α) :
    spell (memoryText insn op reg) = memoryText insn op (spell reg) := by
  rw [memoryText, memoryText, spell_simplify]
  split <;> simp

theorem operandText_spelled (g : Globals α) (insn : CsInsn) (analyse : Bool) (i : Nat)
    (code : List α) :
    ((g.operandText insn analyse i code).1.map spell,
        (g.operandText insn analyse i code).2.spelled) =
      g.spelled.operandText insn analyse i (spell code) := by
  have register := registerText_spelled g i code (insn.operands i).base analyse
  cases type : (insn.operands i).type with
  | reg =>
      simp only [operandText, type, ← register, spelledBoth, Option.map_some]
      split <;> simp
  | imm => simp [operandText, type]
  | mem => simp only [operandText, type, ← register, spelledBoth, Option.map_some, spell_memoryText]
  | other => simp [operandText, type]

theorem parseOperand_spelled (insn : CsInsn) (analyse : Bool) (i : Nat) (code : List α)
    (g : Globals α) :
    spelledBoth (parseOperand insn analyse i code g) =
      parseOperand insn analyse i (spell code) g.spelled := by
  rw [parseOperand, parseOperand, ← operandText_spelled]
  rcases g.operandText insn analyse i code with ⟨_ | text, after⟩
  · rfl
  · exact congrArg (Prod.mk · after.spelled) (spell_replaced code text (opName i))

theorem parseFrom_spelled (insn : CsInsn) (analyse : Bool) (left i : Nat) (code : List α)
    (g : Globals α) :
    spelledBoth (parseFrom insn analyse left i code g) =
      parseFrom insn analyse left i (spell code) g.spelled := by
  induction left generalizing i code g with
  | zero => rfl
  | succ left ih =>
      rw [parseFrom, parseFrom, ← parseOperand_spelled]
      exact ih (i + 1) _ _

theorem spell_assignedText (code : List α) :
    spell (assignedText code) = assignedText (spell code) := by
  rw [assignedText, assignedText, spell_take, spell_drop, spell_char]

theorem lowHalf_spelled (g : Globals α) (reg : Word) :
    (g.lowHalf reg).map RegisterAssignmentEntry.spelled = g.spelled.lowHalf reg := by
  rw [lowHalf, lowHalf, spelled_entry]
  cases g.regAssignMap reg with
  | none => rfl
  | some entry =>
      simp only [Option.map_some, Option.filter_some, RegisterAssignmentEntry.spelled, spell_char]
      split <;> rfl

theorem assignRegister_spelled (session : Session) (insn : CsInsn) (mnemonic : Text) (addr : Word)
    (code : List α) (analyse : Bool) (g : Globals α) :
    spelledBoth (assignRegister session insn mnemonic addr code analyse g) =
      assignRegister session insn mnemonic addr (spell code) analyse g.spelled := by
  rw [assignRegister, assignRegister]
  dsimp only
  split
  · exact congrArg (Prod.mk (spell code)) (spelled_assign g _ none)
  · have half :
        (if mnemonic = "movt".toList then g.spelled.lowHalf (insn.operands 0).base else none) =
        (if mnemonic = "movt".toList then g.lowHalf (insn.operands 0).base else none).map
          RegisterAssignmentEntry.spelled := by
      split
      · exact (lowHalf_spelled g _).symm
      · rfl
    rw [half]
    cases (if mnemonic = "movt".toList then g.lowHalf (insn.operands 0).base else none) with
    | none =>
        simp only [Option.map_none, spelledBoth, spelled_assign, Option.map_some,
          RegisterAssignmentEntry.spelled, spell_assignedText]
    | some entry =>
        simp only [Option.map_some, spelledBoth, spelled_assign, spelled_absorb,
          RegisterAssignmentEntry.spelled, spell_assignedText, spell_append, spell_plain,
          spell_char, spell_getRegName, plain_char]

theorem argText_spelled (analyse : Bool) (i : Nat) (g : Globals α) :
    spelledBoth (argText analyse i g) = argText analyse i g.spelled := by
  rw [argText, argText, spelled_entry]
  split
  · cases g.regAssignMap (ArmReg.r0 + BitVec.ofNat 32 i) with
    | none => simp [spelledBoth]
    | some entry => exact congrArg (Prod.mk (spell entry.assign)) (spelled_absorb g analyse _)
  · simp [spelledBoth]

theorem argsFrom_spelled (analyse : Bool) (count i : Nat) (g : Globals α) :
    spelledBoth (argsFrom analyse count i g) = argsFrom analyse count i g.spelled := by
  induction count generalizing i g with
  | zero => rfl
  | succ count ih =>
      have later := ih (i + 1) (argText analyse i g).2
      rw [argsFrom, argsFrom, ← argText_spelled]
      simp only [spelledBoth] at later ⊢
      rw [← later]
      simp

theorem getArgsString_spelled (nArgs : Nat) (analyse : Bool) (g : Globals α) :
    spelledBoth (getArgsString nArgs analyse g) = getArgsString nArgs analyse g.spelled := by
  rw [getArgsString, getArgsString, ← argsFrom_spelled]
  simp [spelledBoth]

theorem replaceSymbol_spelled (session : Session) (insn : CsInsn) (analyse : Bool) (i : Nat)
    (code : List α) (g : Globals α) :
    spelledBoth (replaceSymbol session insn analyse i code g) =
      replaceSymbol session insn analyse i (spell code) g.spelled := by
  rw [replaceSymbol, replaceSymbol]
  cases session.symbolMap (insn.operands i).base with
  | none =>
      dsimp only
      split <;> simp [spelledBoth]
  | some symbol =>
      dsimp only
      split
      · split
        · rw [← getArgsString_spelled]
          simp [spelledBoth]
        · simp [spelledBoth]
      · rfl

theorem recordAssignment_spelled (session : Session) (insn : CsInsn) (mnemonic : Text)
    (addr : Word) (analyse : Bool) (code : List α) (g : Globals α) :
    spelledBoth (recordAssignment session insn mnemonic addr analyse code g) =
      recordAssignment session insn mnemonic addr analyse (spell code) g.spelled := by
  have same : isAssignment (spell code) = isAssignment code := by
    rw [isAssignment, isAssignment, spell_char]
  rw [recordAssignment, recordAssignment, same]
  split
  · exact assignRegister_spelled session insn mnemonic addr code analyse g
  · rfl

theorem translateCode_spelled (session : Session) (insn : CsInsn) (mnemonic : Text) (addr : Word)
    (code : List α) (analyse : Bool) (g : Globals α) :
    spelledBoth (translateCode session insn mnemonic addr code analyse g) =
      translateCode session insn mnemonic addr (spell code) analyse g.spelled := by
  have parsed := parseFrom_spelled insn analyse insn.opCount 0 code (useFlagsOf insn g)
  have recorded (code : List α) (g : Globals α) :=
    recordAssignment_spelled session insn mnemonic addr analyse code g
  have replaced (i : Nat) (code : List α) (g : Globals α) :=
    replaceSymbol_spelled session insn analyse i code g
  rw [translateCode, translateCode, parseOperations, parseOperations,
    show useFlagsOf insn g.spelled = (useFlagsOf insn g).spelled from rfl, ← parsed]
  simp only [spelledBoth] at recorded replaced ⊢
  simp only [replaceSymbols, ← recorded, ← replaced]
  split
  · exact congrArg (Prod.mk _)
      (congrArg (fun g : Globals Char => { g with useFlags := false }) (spelled_clear _))
  · rfl

theorem spell_untranslated (insn : CsInsn) (mnemonic : Text) :
    spell (untranslated insn mnemonic : List α) = untranslated insn mnemonic := by
  rw [untranslated, untranslated]
  split
  · simp
  · split
    · simp
    · split
      · simp
      · split
        · rfl
        · simp

theorem spell_breakLines (indent : Text) (code : List α) :
    spell (breakLines indent code) = breakLines indent (spell code) := by
  simp [breakLines]

theorem pseudoCode_spelled (session : Session) (insn : CsInsn) (addr : Word) (g : Globals α) :
    spelledBoth (g.pseudoCode session insn addr) = g.spelled.pseudoCode session insn addr := by
  have translated := translateCode_spelled session insn (trimMnemonic insn).1 addr
    (getInstructionCode insn (trimMnemonic insn).1) false g
  rw [spell_getInstructionCode] at translated
  rw [pseudoCode, pseudoCode]
  dsimp only
  rw [isEmpty_getInstructionCode, ← translated]
  split
  · exact congrArg (Prod.mk · g.spelled) (spell_untranslated insn _)
  · generalize translateCode session insn (trimMnemonic insn).1 addr
      (getInstructionCode insn (trimMnemonic insn).1) false g = after
    by_cases ignored : after.2.ignoreMap addr = true
    next =>
      have same : after.2.spelled.ignoreMap addr = true := ignored
      simp only [spelledBoth, ignored, same, if_true, spell_plain, plain_char]
    next =>
      have same : ¬ after.2.spelled.ignoreMap addr = true := ignored
      simp only [spelledBoth, ignored, same, if_false, spell_append, spell_plain, plain_char,
        spell_breakLines, Bool.false_eq_true]

theorem resetAt_spelled (session : Session) (address : Word) (g : Globals α) :
    (g.resetAt session address).spelled = g.spelled.resetAt session address := by
  rw [resetAt, resetAt]
  split <;> rfl

end Globals

def Output.spelled (out : Output α) : Output Char := ⟨out.globals.spelled, spell out.fout⟩

def spelledAnalysis (s : Globals α × Cursor) : Globals Char × Cursor := (s.1.spelled, s.2)

def spelledOutput (s : Output α × Cursor) : Output Char × Cursor := (s.1.spelled, s.2)

variable {m : Module} {session : Session}

theorem analyseCodePass_spelled (s : Globals α × Cursor) :
    (analyseCodeLoop m session).pass (spelledAnalysis s) =
      spelledAnalysis ((analyseCodeLoop m session).pass s) := by
  change analyseCodePass m session s.1.spelled s.2 =
    spelledAnalysis (analyseCodePass m session s.1 s.2)
  rw [analyseCodePass, analyseCodePass, ← Globals.resetAt_spelled]
  rcases m.disassemble s.2 with ⟨_ | insn, after⟩
  · rfl
  · dsimp only
    rw [isEmpty_getInstructionCode (α := α), ← spell_getInstructionCode (α := α),
      ← Globals.translateCode_spelled]
    split <;> rfl

theorem decompilePass_spelled (s : Output α × Cursor) :
    (decompileLoop m session).pass (spelledOutput s) =
      spelledOutput ((decompileLoop m session).pass s) := by
  change decompilePass m session s.1.spelled s.2 =
    spelledOutput (decompilePass m session s.1 s.2)
  rw [decompilePass, decompilePass]
  dsimp only
  rw [show s.1.spelled.globals = s.1.globals.spelled from rfl, ← Globals.resetAt_spelled]
  split
  · rfl
  · rcases m.disassemble s.2 with ⟨_ | insn, after⟩
    · rfl
    · dsimp only
      rw [← Globals.pseudoCode_spelled]
      simp [spelledOutput, Output.spelled, spelledBoth]

end VitaTools.Passes
