import VitaTools.Passes.Record
import VitaTools.Library.Template

set_option autoImplicit false

namespace VitaTools.Passes

open VitaTools.Library VitaTools.Library.Traced
open VitaTools.Decompiler (Text Word)
open VitaTools.Decompiler.Globals (opName)

def slotNames : List Text := (List.range 10).map opName ++ ["symbol".toList, "...".toList]

def templateOf (code : Text) : List Piece := piecesOf slotNames code

inductive Source
  | operand (i : Nat)
  | symbol (i : Nat)
  | arguments (i : Nat)
  | constant
  | lineBreak
  | escape
deriving DecidableEq

def indentOf (insn : CsInsn) : Text := (Globals.heading (trimMnemonic insn).2).1

namespace Globals

variable (session : Session) (insn : CsInsn) (addr : Word) (g : Globals Char)

def operandPlan : List (Step Source) :=
  (List.range insn.opCount).filterMap fun i =>
    if (insn.operands i).type = .other then none else some ⟨.operand i, opName i⟩

def symbolPlan (i : Nat) : List (Step Source) :=
  match session.symbolMap (insn.operands i).base with
  | some symbol =>
      if symbol.is (symbolSubroutine ||| symbolLabel) then
        ⟨.symbol i, "symbol".toList⟩ ::
          if symbol.is symbolSubroutine then [⟨.arguments i, "...".toList⟩] else []
      else []
  | none => if i = 1 then [⟨.symbol i, "symbol".toList⟩] else []

def symbolsPlan : List (Step Source) := symbolPlan session insn 0 ++ symbolPlan session insn 1

def breakPlan : List (Step Source) := [⟨.lineBreak, ['\\']⟩]

def symbolText (i : Nat) : Text :=
  match session.symbolMap (insn.operands i).base with
  | some symbol => symbol.name
  | none => insn.opStr

def argumentsText (i : Nat) (g : Globals Char) : Text :=
  match session.symbolMap (insn.operands i).base with
  | some symbol => (getArgsString symbol.nArgs false g).1
  | none => []

/-- The texts of the sources, with the operands from `g` and the arguments from `behind`. -/
def textsOf (behind : Globals Char) : Texts Source
  | .operand i, code => ((operandText g insn false i code).1).getD []
  | .symbol i, _ => symbolText session insn i
  | .arguments i, _ => argumentsText session insn i behind
  | .lineBreak, _ => '\n' :: indentOf insn
  | .escape, _ => "\\n".toList
  | .constant, _ => []

-- The constant that a `movt` completes whose operands have been put in.
def joined (code : Text) : Option Word :=
  if mnemonicOf insn = "movt".toList ∧ insn.conditional = false ∧ isAssignment code = true then
    (g.lowHalf (insn.operands 0).base).map fun entry =>
      strToHex (cutAt [' '] (assignedText code)) ||| strToHex entry.assign
  else none

-- The statement that takes the place of such a `movt`.
def constantTemplate : List Piece :=
  [.slot (opName 0), .own ' ', .own '=', .own ' ', .slot "constant".toList, .own ';']

def constantFilling (value : Word) : Filling Source :=
  Filling.put
    (Filling.put (fun _ => none) (.operand 0) (opName 0) (variableOf (insn.operands 0).base).toList)
    .constant "constant".toList (session.constantText value)

-- Behind `parseOperations`.
def parsedSources : List (Stamped Source) :=
  run (textsOf session insn (useFlagsOf insn g) g) (operandPlan insn) (plain (codeOf insn))

def recordedSources : List (Stamped Source) :=
  match joined insn g (spell (parsedSources session insn g)) with
  | some value => render (constantFilling session insn value).fill constantTemplate
  | none => parsedSources session insn g

def recordedGlobals : Globals Char :=
  (recordAssignment session insn (mnemonicOf insn) addr false (parsed insn (codeOf insn) g)
    (useFlagsOf insn g)).2

-- Behind `translateCode`.
def statementSources : List (Stamped Source) :=
  run (textsOf session insn g (recordedGlobals session insn addr g)) (symbolsPlan session insn)
    (recordedSources session insn g)

def brokenSources : List (Stamped Source) :=
  run (textsOf session insn g g) breakPlan (statementSources session insn addr g)

-- A newline of a string stands in it as `()n`.
def unescaped (text : List (Stamped Source)) : List (Stamped Source) :=
  Traced.replaceAll text "()n".toList (stamp .escape "\\n".toList)

-- As `pseudoCode` prints it.
def printedSources : List (Stamped Source) := unescaped (brokenSources session insn addr g)

variable {session insn addr g}

theorem spell_apply {step : Step Source} {texts : Texts Source} {code : List (Stamped Source)} :
    spell (step.apply texts code) =
      Traced.replaceAll (spell code) step.search (texts step.source (spell code)) := by
  rw [Step.apply, spell_replaced, spell_stamp]

theorem parseOperand_text (i : Nat) (code : Text) :
    (parseOperand insn false i code g).1 =
      ((g.operandText insn false i code).1.map (Traced.replaceAll code (opName i))).getD code := by
  rw [parseOperand]
  rcases g.operandText insn false i code with ⟨_ | text, after⟩ <;> rfl

variable (session insn g) in
theorem spell_operands (behind : Globals Char) (left i : Nat) (code : List (Stamped Source)) :
    spell (run (textsOf session insn g behind) ((List.range' i left).filterMap fun i =>
        if (insn.operands i).type = .other then none
        else some ⟨.operand i, opName i⟩) code) =
      (parseFrom insn false left i (spell code) g).1 := by
  induction left generalizing i code with
  | zero => rfl
  | succ left ih =>
      have kept := parseOperand_globals insn i (spell code) g
      rw [List.range'_succ, List.filterMap_cons, parseFrom]
      dsimp only
      rw [kept]
      by_cases other : (insn.operands i).type = .other
      next =>
        have unread : (parseOperand insn false i (spell code) g).1 = spell code := by
          rw [parseOperand_text, operandText, other]
          rfl
        simp only [other, if_true]
        rw [ih, unread]
      next =>
        have filled : (parseOperand insn false i (spell code) g).1 =
            spell (Step.apply (textsOf session insn g behind) code ⟨.operand i, opName i⟩) := by
          have text : ∃ text, (operandText g insn false i (spell code)).1 = some text := by
            cases type : (insn.operands i).type with
            | other => exact absurd type other
            | reg | imm | mem => exact ⟨_, by rw [operandText, type]⟩
          obtain ⟨text, found⟩ := text
          rw [spell_apply, textsOf, parseOperand_text, found]
          rfl
        simp only [other, if_false]
        rw [filled, ← ih]
        rfl

theorem spell_parsedSources :
    spell (parsedSources session insn g) = parsed insn (codeOf insn) g := by
  have spelled := spell_operands session insn (useFlagsOf insn g) g insn.opCount 0
    (plain (codeOf insn))
  rw [spell_plain, ← List.range_eq_range'] at spelled
  exact spelled

theorem constantFilling_first (value : Word) : constantFilling session insn value (opName 0) =
    some (.operand 0, (variableOf (insn.operands 0).base).toList) := by
  rw [constantFilling, put_other (by decide), Filling.put, Function.update_self]
  rfl

theorem constantFilling_second (value : Word) :
    constantFilling session insn value "constant".toList =
      some (.constant, session.constantText value) := by
  have fresh : Filling.put (fun _ => none) (Source.operand 0) (opName 0)
      (variableOf (insn.operands 0).base).toList "constant".toList = none := by
    rw [put_other (by decide)]
  rw [constantFilling, Filling.put, Function.update_self, fresh]
  rfl

theorem spell_constant (value : Word) :
    spell (render (constantFilling session insn value).fill constantTemplate) =
      (variableOf (insn.operands 0).base).toList ++ " = ".toList ++ session.constantText value ++
        [';'] := by
  have first : spell ((constantFilling session insn value).fill (opName 0)) =
      (variableOf (insn.operands 0).base).toList := by
    rw [Filling.fill, constantFilling_first, spell_stamp]
  have second : spell ((constantFilling session insn value).fill "constant".toList) =
      session.constantText value := by
    rw [Filling.fill, constantFilling_second, spell_stamp]
  rw [constantTemplate, render_slot, spell_append, spell_own, spell_own, spell_own, render_slot,
    spell_append, spell_own, first, second]
  simp [spell]

theorem spell_recordedSources :
    spell (recordedSources session insn g) =
      (recordAssignment session insn (mnemonicOf insn) addr false (parsed insn (codeOf insn) g)
        (useFlagsOf insn g)).1 := by
  rw [recordedSources, joined, spell_parsedSources, recordAssignment]
  by_cases assigns : isAssignment (parsed insn (codeOf insn) g) = true
  next =>
    rw [if_pos assigns, assignRegister]
    cases conditional : insn.conditional with
    | true =>
        simp only [Bool.true_eq_false, false_and, and_false, if_false, if_true]
        exact spell_parsedSources
    | false =>
        have half : (useFlagsOf insn g).lowHalf (insn.operands 0).base =
            g.lowHalf (insn.operands 0).base := rfl
        by_cases movt : mnemonicOf insn = "movt".toList
        next =>
          simp only [movt, assigns, and_self, if_true, half, Bool.false_eq_true, if_false]
          cases g.lowHalf (insn.operands 0).base with
          | none => exact spell_parsedSources
          | some entry =>
              simp only [Option.map_some, spell_constant, spell_char, plain_char, getRegName,
                named_char]
        next =>
          simp only [movt, false_and, if_false, Bool.false_eq_true]
          exact spell_parsedSources
  next =>
    simp only [assigns, and_false, if_false, Bool.false_eq_true]
    exact spell_parsedSources

theorem spell_symbolPlan (i : Nat) (behind : Globals Char) (code : List (Stamped Source)) :
    spell (run (textsOf session insn g behind) (symbolPlan session insn i) code) =
      (replaceSymbol session insn false i (spell code) behind).1 := by
  have step (source : Source) (search : Text) (code : List (Stamped Source)) :
      spell (run (textsOf session insn g behind) [⟨source, search⟩] code) =
        Traced.replaceAll (spell code) search
          (textsOf session insn g behind source (spell code)) := spell_apply
  rw [symbolPlan, replaceSymbol]
  cases found : session.symbolMap (insn.operands i).base with
  | none =>
      have text : symbolText session insn i = insn.opStr := by rw [symbolText, found]
      dsimp only
      split
      · rw [step, textsOf, text, plain_char]
      · rfl
  | some symbol =>
      have text : symbolText session insn i = symbol.name := by rw [symbolText, found]
      have arguments : argumentsText session insn i behind =
          (getArgsString symbol.nArgs false behind).1 := by rw [argumentsText, found]
      dsimp only
      split
      · split
        · change spell (run _ [⟨.arguments i, _⟩] (run _ [⟨.symbol i, _⟩] code)) = _
          rw [step, step, textsOf, textsOf, text, arguments, plain_char]
        · rw [step, textsOf, text, plain_char]
      · rfl

theorem spell_statementSources :
    spell (statementSources session insn addr g) =
      (translateCode session insn (mnemonicOf insn) addr (codeOf insn) false g).1 := by
  have quiet : (parseOperations insn false (codeOf insn) (useFlagsOf insn g)).2 =
      useFlagsOf insn g := parseFrom_globals insn _ 0 _ _
  rw [statementSources, symbolsPlan, run, List.foldl_append, ← run, ← run, spell_symbolPlan,
    spell_symbolPlan, spell_recordedSources, translateCode]
  simp only [replaceSymbols, replaceSymbol_globals, quiet]
  rfl

theorem spell_printedSources :
    spell (printedSources session insn addr g) = breakLines (indentOf insn)
      (translateCode session insn (mnemonicOf insn) addr (codeOf insn) false g).1 := by
  rw [← spell_statementSources, printedSources, unescaped, spell_replaced, spell_stamp,
    brokenSources]
  rw [show spell (run _ breakPlan _) = _ from spell_apply, breakLines, plain_char, plain_char]
  rfl

theorem pseudoCode_sources (known : (codeOf insn).isEmpty = false)
    (printed : g.ignoreMap addr = false) :
    (pseudoCode session insn addr g).1 =
      (heading (trimMnemonic insn).2).2 ++ indentOf insn ++
        spell (printedSources session insn addr g) ++ ['\n'] := by
  have kept := congrFun
    (translateCode_ignoreMap session insn (mnemonicOf insn) addr (codeOf insn) g) addr
  have template : (getInstructionCode insn (trimMnemonic insn).1 : Text).isEmpty = false := known
  rw [printed] at kept
  rw [spell_printedSources, pseudoCode]
  dsimp only
  rw [template, if_neg Bool.false_ne_true]
  simp only [codeOf, mnemonicOf] at kept
  rw [kept, if_neg Bool.false_ne_true, plain_char, plain_char, plain_char]
  rfl

end Globals

end VitaTools.Passes
