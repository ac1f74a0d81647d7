import VitaTools.Decompiler.CSyntax

set_option autoImplicit false

namespace VitaTools.Decompiler

open VitaTools.Library

def special : Text := ['o', '.', 'y', '\\', 'n', '"', ';']

theorem plain_of_all {text : Text} (all : special.all (fun c => !text.contains c) = true) :
    ∀ c ∈ special, c ∉ text := by
  intro c member inside
  have apart := List.all_eq_true.mp all c member
  simp [inside] at apart

theorem getRegName_plain (reg : Reg) : ∀ c ∈ special, c ∉ getRegName reg := by
  cases reg <;> exact plain_of_all rfl

theorem getImmString_plain (word : Word) : ∀ c ∈ special, c ∉ getImmString word false := by
  unfold getImmString
  split
  next small =>
    obtain ⟨low, high⟩ := small_bounds small
    generalize word.toInt = n at low high
    interval_cases n <;> exact plain_of_all rfl
  next =>
    intro c member inside
    have digit : ∀ d : BitVec 4, hexChar d ∉ special := by decide
    rcases List.mem_append.mp inside with zero | number
    · exact plain_of_all rfl c member zero
    · obtain ⟨d, -, rfl⟩ := List.mem_map.mp number
      exact digit d member

theorem sign_plain (op : Binary) : ∀ c ∈ special, c ∉ op.sign := by
  cases op <;> exact plain_of_all rfl

theorem special_ne {c : Char} (member : c ∈ special) :
    c ≠ ' ' ∧ c ≠ '(' ∧ c ≠ ')' ∧ c ≠ '=' := by
  have apart : c ∉ [' ', '(', ')', '='] := by
    intro inside
    have other : [' ', '(', ')', '='].all (fun d => !special.contains d) = true := rfl
    have absent := List.all_eq_true.mp other c inside
    simp [member] at absent
  simpa using apart

theorem Term.render_plain (term : Term) {c : Char} (member : c ∈ special) : c ∉ term.render := by
  obtain ⟨blank, opening, closing, -⟩ := special_ne member
  induction term with
  | var reg => exact getRegName_plain reg c member
  | imm word => exact getImmString_plain word c member
  | same body ih => simp [Term.render, ih, opening, closing]
  | bin op left right ihLeft ihRight =>
      simp [Term.render, ihLeft, ihRight, opening, closing, blank, sign_plain op c member]

theorem Expr.render_plain (expr : Expr) {c : Char} (member : c ∈ special) :
    c ∉ expr.render := by
  cases expr with
  | term body => exact body.render_plain member
  | bin op left right =>
      simp [Expr.render, left.render_plain member, right.render_plain member,
        sign_plain op c member, (special_ne member).1]

theorem statement_plain (reg : Reg) (expr : Expr) {c : Char} (member : c ∈ special)
    (inner : c ≠ ';') : c ∉ statement reg expr := by
  obtain ⟨blank, -, -, equals⟩ := special_ne member
  have text : statement reg expr =
      getRegName reg ++ ' ' :: '=' :: ' ' :: (expr.render ++ [';']) := by
    simp [statement]
  simp [text, getRegName_plain reg c member, expr.render_plain member, inner, blank, equals]

def Expr.operand : Expr → Term
  | .term body => if body.render.contains ' ' then .same body else body
  | .bin op left right => .bin op left right

theorem bracket_render (expr : Expr) : Globals.bracket expr.render = expr.operand.render := by
  have not_string : Globals.isString expr.render = false := by
    by_contra quoted
    have head : expr.render.head? = some '"' := by
      simp [Globals.isString] at quoted
      exact quoted.1
    exact expr.render_plain (c := '"') (by decide) (List.mem_of_mem_head? head)
  cases expr with
  | term body =>
      by_cases blank : body.render.contains ' ' <;>
        simp_all [Globals.bracket, Expr.operand, Expr.render, Term.render]
  | bin op left right =>
      simp_all [Globals.bracket, Expr.operand, Expr.render, Term.render]

theorem operand_eval (expr : Expr) (vars : Reg → Word) :
    expr.operand.eval vars = expr.eval vars := by
  cases expr with
  | term body =>
      rw [Expr.operand]
      split <;> rfl
  | bin op left right => rfl

namespace Globals

def byName (g : Globals) (reg : Reg) : Bool :=
  match g.regAssignMap reg with
  | none => true
  | some entry => reg = .sp || 128 ≤ entry.assign.length

def operandText (g : Globals) : Operand → Text
  | .reg reg => (g.composeRegister (getRegName reg) reg false).1
  | .imm imm => getImmString imm false

theorem composeRegister_globals (g : Globals) (regStr : Text) (reg : Reg) :
    (g.composeRegister regStr reg false).2 = g := by
  unfold composeRegister
  split
  next => rfl
  next =>
    split
    next => rfl
    next => split <;> rfl

theorem operandText_byName (g : Globals) {reg : Reg} (named : g.byName reg = true) :
    g.operandText (.reg reg) = getRegName reg := by
  unfold byName at named
  simp only [operandText, composeRegister]
  split
  next => rfl
  next other =>
    split
    next => rfl
    next entry found =>
      simp only [found, other, decide_false, Bool.false_or, decide_eq_true_eq] at named
      rw [if_neg (by omega)]

theorem operandText_composed (g : Globals) {reg : Reg} (composed : g.byName reg = false)
    {entry : RegisterAssignmentEntry} (found : g.regAssignMap reg = some entry) :
    g.operandText (.reg reg) = bracket entry.assign := by
  simp only [byName, found, Bool.or_eq_false_iff, decide_eq_false_iff_not] at composed
  obtain ⟨other, short⟩ := composed
  simp [operandText, composeRegister, other, found, Nat.lt_of_not_le short]

theorem parseOperand_print (i : Nat) (op : Operand) (code : Text) (g : Globals) :
    parseOperand false i op code g =
      (replaceAll code (opName i)
        (match op with
        | .reg reg =>
            if occurs (opName i ++ " = ".toList) code then getRegName reg
            else g.operandText (.reg reg)
        | .imm imm => g.operandText (.imm imm)), g) := by
  cases op with
  | imm => rfl
  | reg reg =>
      simp only [parseOperand, operandText]
      split
      next => rfl
      next => rw [composeRegister_globals]

theorem parseOperations_globals (i : Nat) (ops : List Operand) (code : Text) (g : Globals) :
    (parseOperations false i ops code g).2 = g := by
  induction ops generalizing i code with
  | nil => rfl
  | cons op rest ih =>
      rw [parseOperations, parseOperand_print]
      exact ih (i + 1) _

theorem argsFrom_globals (count i : Nat) (g : Globals) : (argsFrom false count i g).2 = g := by
  induction count generalizing i with
  | zero => rfl
  | succ count ih =>
      rw [argsFrom]
      split
      next arg g' step =>
        have same : g' = g := by
          split at step
          next =>
            split at step <;> cases step <;> rfl
          next =>
            cases step
            rfl
        rw [same]
        exact ih (i + 1)

theorem replaceSymbol_globals (session : Session) (opStr : Text) (i : Nat) (op : Operand)
    (code : Text) (g : Globals) : (replaceSymbol session false opStr i op code g).2 = g := by
  unfold replaceSymbol
  split
  next =>
    split
    next =>
      split
      next => exact argsFrom_globals _ _ g
      next => rfl
    next => rfl
  next => rfl

theorem replaceSymbols_globals (session : Session) (opStr : Text) (i : Nat) (ops : List Operand)
    (code : Text) (g : Globals) : (replaceSymbols session false opStr i ops code g).2 = g := by
  induction ops generalizing i code with
  | nil => rfl
  | cons op rest ih =>
      rw [replaceSymbols]
      split
      next code' g' step =>
        have same := replaceSymbol_globals session opStr i op code g
        rw [step] at same
        change g' = g at same
        rw [same]
        exact ih (i + 1) code'

theorem replaceSymbol_absent (session : Session) (opStr : Text) (i : Nat) (op : Operand)
    {code : Text} (noSymbol : 'y' ∉ code) (noArgs : '.' ∉ code) (g : Globals) :
    replaceSymbol session false opStr i op code g = (code, g) := by
  have symbol : ∀ name, replaceAll code "symbol".toList name = code := fun name =>
    replaceAll_absent (x := 'y') (by decide) noSymbol
  have dots : ∀ args, replaceAll code "...".toList args = code := fun args =>
    replaceAll_absent (x := '.') (by decide) noArgs
  have globals := replaceSymbol_globals session opStr i op code g
  unfold replaceSymbol at globals ⊢
  split
  next entry found =>
    simp only [symbol, dots]
    split
    next =>
      split
      next => exact congrArg (code, ·) (argsFrom_globals _ _ g)
      next => rfl
    next => rfl
  next => simp only [symbol, ite_self]

theorem replaceSymbols_absent (session : Session) (opStr : Text) (i : Nat) (ops : List Operand)
    {code : Text} (noSymbol : 'y' ∉ code) (noArgs : '.' ∉ code) (g : Globals) :
    replaceSymbols session false opStr i ops code g = (code, g) := by
  induction ops generalizing i with
  | nil => rfl
  | cons op rest ih =>
      rw [replaceSymbols, replaceSymbol_absent session opStr i op noSymbol noArgs]
      exact ih (i + 1)

end Globals

namespace Insn

/-- The operands whose text comes from `operandText`. -/
def sources : Insn → List Operand
  | .mov _ op1 => [op1]
  | .three _ _ rn op2 => [.reg rn, op2]
  | .two _ _ op1 => [op1]

/-- The right-hand side, when `read` gives each of `sources`. -/
def expr (read : Operand → Term) : Insn → Expr
  | .mov _ op1 => .term (read op1)
  | .three op _ rn op2 => .bin op (read (.reg rn)) (read op2)
  | .two op rd op1 => .bin op (.var rd) (read op1)

end Insn

namespace Globals

theorem getInstructionCode_mov (rd : Reg) (op1 : Operand) :
    getInstructionCode (.mov rd op1) = "op0 = op1;".toList := rfl

theorem getInstructionCode_three (op : Binary) (rd rn : Reg) (op2 : Operand) :
    getInstructionCode (.three op rd rn op2) =
      "op0 = op1 ".toList ++ op.sign ++ " op2;".toList := by
  cases op <;> rfl

theorem getInstructionCode_two (op : Binary) (rd : Reg) (op1 : Operand) :
    getInstructionCode (.two op rd op1) =
      "op0 = op0 ".toList ++ op.sign ++ " op1;".toList := by
  cases op <;>
    simp [getInstructionCode, Insn.mnemonic, Binary.mnemonic, Insn.operands, instructions,
      instructions2, List.lookup_cons, Binary.sign]

theorem parseOperand_target (rd : Reg) (back : Text) (g : Globals) :
    parseOperand false 0 (.reg rd) ("op0 = ".toList ++ back) g =
      (getRegName rd ++ " = ".toList ++ replaceAll back (opName 0) (getRegName rd), g) := by
  have target : occurs (opName 0 ++ " = ".toList) ("op0 = ".toList ++ back) = true := rfl
  have split : "op0 = ".toList ++ back = opName 0 ++ (" = ".toList ++ back) := rfl
  rw [parseOperand_print, target, split]
  have name : opName 0 = 'o' :: ['p', '0'] := rfl
  rw [name, replaceAll_hit, replaceAll_append " = ".toList _ (by decide)]
  simp

theorem parseOperand_source (i : Nat) (op : Operand) {front : Text} (back : Text) (g : Globals)
    (noFront : 'o' ∉ front)
    (noTarget : occurs (opName i ++ " = ".toList) (opName i ++ back) = false)
    (once : ∀ text, replaceAll back (opName i) text = back) :
    parseOperand false i op (front ++ opName i ++ back) g =
      (front ++ g.operandText op ++ back, g) := by
  have name : opName i = 'o' :: 'p' :: (toString i).toList := rfl
  have source : occurs (opName i ++ " = ".toList) (front ++ opName i ++ back) = false := by
    rw [name, List.cons_append] at noTarget ⊢
    rw [List.append_assoc, occurs_append front _ noFront, noTarget]
  have replaced : ∀ text, replaceAll (front ++ opName i ++ back) (opName i) text =
      front ++ text ++ back := by
    intro text
    rw [List.append_assoc, name, replaceAll_append front _ noFront, replaceAll_hit, ← name,
      once text, List.append_assoc]
  rw [parseOperand_print, replaced, source]
  cases op <;> rfl

theorem target_clear (rd : Reg) : 'o' ∉ getRegName rd ++ " = ".toList := by
  cases rd <;> decide

theorem parseOperations_cons {i : Nat} {op : Operand} {code code' : Text} {g : Globals}
    (rest : List Operand) (pass : parseOperand false i op code g = (code', g)) :
    parseOperations false i (op :: rest) code g = parseOperations false (i + 1) rest code' g := by
  rw [parseOperations, pass]

theorem parseOperations_statement (g : Globals) (insn : Insn) (read : Operand → Term)
    (reads : ∀ op ∈ insn.sources, g.operandText op = (read op).render) :
    (parseOperations false 0 insn.operands (getInstructionCode insn) g).1 =
      statement insn.rd (insn.expr read) := by
  cases insn with
  | mov rd op1 =>
      have source := reads op1 (by simp [Insn.sources])
      have code : getInstructionCode (.mov rd op1) = "op0 = ".toList ++ (opName 1 ++ [';']) :=
        (getInstructionCode_mov rd op1).trans (by decide)
      have first := parseOperand_target rd (opName 1 ++ [';']) g
      have other : replaceAll (opName 1 ++ [';']) (opName 0) (getRegName rd) =
          opName 1 ++ [';'] := by rfl
      have second := parseOperand_source 1 op1 [';'] g (target_clear rd) (by rfl)
        fun _ => by rfl
      rw [other, ← List.append_assoc (getRegName rd ++ _)] at first
      rw [Insn.operands, code, parseOperations_cons _ first, parseOperations_cons _ second, source]
      simp [parseOperations, statement, Insn.rd, Insn.expr, Expr.render]
  | three op rd rn op2 =>
      have left := reads (.reg rn) (by simp [Insn.sources])
      have right := reads op2 (by simp [Insn.sources])
      have code : getInstructionCode (.three op rd rn op2) = "op0 = ".toList ++
          (opName 1 ++ (' ' :: op.sign ++ ' ' :: (opName 2 ++ [';']))) := by
        rw [getInstructionCode_three]
        cases op <;> decide
      have first := parseOperand_target rd
        (opName 1 ++ (' ' :: op.sign ++ ' ' :: (opName 2 ++ [';']))) g
      have other : replaceAll (opName 1 ++ (' ' :: op.sign ++ ' ' :: (opName 2 ++ [';'])))
          (opName 0) (getRegName rd) =
            opName 1 ++ (' ' :: op.sign ++ ' ' :: (opName 2 ++ [';'])) := by
        cases op <;> rfl
      have second := parseOperand_source 1 (.reg rn)
        (' ' :: op.sign ++ ' ' :: (opName 2 ++ [';'])) g (target_clear rd)
        (by cases op <;> rfl) fun _ => by cases op <;> rfl
      have clear : 'o' ∉ getRegName rd ++ " = ".toList ++ (read (.reg rn)).render ++
          (' ' :: op.sign ++ [' ']) := by
        have name := target_clear rd
        have inner := (read (.reg rn)).render_plain (c := 'o') (by decide)
        simp_all [sign_plain op 'o' (by decide)]
      have third := parseOperand_source 2 op2 [';'] g clear (by rfl) fun _ => by rfl
      have shape : getRegName rd ++ " = ".toList ++ (read (.reg rn)).render ++
          (' ' :: op.sign ++ ' ' :: (opName 2 ++ [';'])) = getRegName rd ++ " = ".toList ++
            (read (.reg rn)).render ++ (' ' :: op.sign ++ [' ']) ++ opName 2 ++ [';'] := by
        simp
      rw [other, ← List.append_assoc (getRegName rd ++ _)] at first
      rw [left, shape] at second
      rw [Insn.operands, code, parseOperations_cons _ first, parseOperations_cons _ second,
        parseOperations_cons _ third, right]
      simp [parseOperations, statement, Insn.rd, Insn.expr, Expr.render]
  | two op rd op1 =>
      have source := reads op1 (by simp [Insn.sources])
      have code : getInstructionCode (.two op rd op1) = "op0 = ".toList ++
          (opName 0 ++ (' ' :: op.sign ++ ' ' :: (opName 1 ++ [';']))) := by
        rw [getInstructionCode_two]
        cases op <;> decide
      have first := parseOperand_target rd
        (opName 0 ++ (' ' :: op.sign ++ ' ' :: (opName 1 ++ [';']))) g
      have target : replaceAll (opName 0 ++ (' ' :: op.sign ++ ' ' :: (opName 1 ++ [';'])))
          (opName 0) (getRegName rd) =
            getRegName rd ++ (' ' :: op.sign ++ ' ' :: (opName 1 ++ [';'])) := by
        cases op <;> rfl
      have clear : 'o' ∉ getRegName rd ++ " = ".toList ++ getRegName rd ++
          (' ' :: op.sign ++ [' ']) := by
        have name := target_clear rd
        simp_all [sign_plain op 'o' (by decide)]
      have second := parseOperand_source 1 op1 [';'] g clear (by rfl) fun _ => by rfl
      have shape : getRegName rd ++ " = ".toList ++
          (getRegName rd ++ (' ' :: op.sign ++ ' ' :: (opName 1 ++ [';']))) =
            getRegName rd ++ " = ".toList ++ getRegName rd ++ (' ' :: op.sign ++ [' ']) ++
              opName 1 ++ [';'] := by
        simp
      rw [target, shape] at first
      rw [Insn.operands, code, parseOperations_cons _ first, parseOperations_cons _ second, source]
      simp [parseOperations, statement, Insn.rd, Insn.expr, Expr.render, Term.render]

end Globals

namespace Globals

def record (g : Globals) (reg : Reg) (addr : Nat) (assign : Text) : Globals :=
  { g with regAssignMap := Function.update g.regAssignMap reg (some ⟨assign, addr, false⟩) }

theorem assignRegister_statement (g : Globals) (reg : Reg) (addr : Nat) (expr : Expr) :
    g.assignRegister reg addr (statement reg expr) = g.record reg addr expr.render := by
  have front : (statement reg expr).drop 5 = expr.render ++ [';'] := by
    cases reg <;> rfl
  have stop : (statement reg expr).idxOf ';' = 5 + expr.render.length := by
    have plain : ';' ∉ getRegName reg ++ " = ".toList ++ expr.render := by
      have name := getRegName_plain reg ';' (by decide)
      simp [name, expr.render_plain (c := ';') (by decide)]
    have length : (getRegName reg).length = 2 := by cases reg <;> rfl
    rw [statement, List.idxOf_append_of_notMem plain]
    simp [length]
    omega
  rw [assignRegister, front, stop]
  simp [record]

theorem translateCode_statement (session : Session) (g : Globals) (insn : Insn) (addr : Nat)
    (read : Operand → Term) (reads : ∀ op ∈ insn.sources, g.operandText op = (read op).render) :
    translateCode session insn addr (getInstructionCode insn) false g =
      (statement insn.rd (insn.expr read), g.record insn.rd addr (insn.expr read).render) := by
  have parsed : parseOperations false 0 insn.operands (getInstructionCode insn) g =
      (statement insn.rd (insn.expr read), g) :=
    Prod.ext (parseOperations_statement g insn read reads) (parseOperations_globals _ _ _ g)
  generalize insn.expr read = expr at parsed ⊢
  have equals : (statement insn.rd expr)[3]? = some '=' := by
    cases insn.rd <;> rfl
  have notSymbol : ((statement insn.rd expr).drop 5).take 6 ≠ "symbol".toList := by
    intro symbol
    have member : 'y' ∈ ((statement insn.rd expr).drop 5).take 6 := by
      rw [symbol]
      decide
    exact statement_plain insn.rd expr (c := 'y') (by decide) (by decide)
      (List.mem_of_mem_drop (List.mem_of_mem_take member))
  rw [translateCode, parsed]
  simp only [equals, notSymbol, ne_eq, not_false_eq_true, and_self, if_true,
    assignRegister_statement]
  exact replaceSymbols_absent session _ 0 _ (statement_plain _ expr (by decide) (by decide))
    (statement_plain _ expr (by decide) (by decide)) _

theorem pseudoCode_statement (session : Session) (g : Globals) (insn : Insn) (addr : Nat)
    (read : Operand → Term) (reads : ∀ op ∈ insn.sources, g.operandText op = (read op).render) :
    pseudoCode session insn addr g =
      (if g.ignoreMap addr then none else some (statement insn.rd (insn.expr read)),
        g.record insn.rd addr (insn.expr read).render) := by
  have backslash : ∀ text, replaceAll (statement insn.rd (insn.expr read)) "\\".toList text =
      statement insn.rd (insn.expr read) := fun text =>
    replaceAll_absent (x := '\\') (by decide) (statement_plain _ _ (by decide) (by decide))
  have newline : ∀ text, replaceAll (statement insn.rd (insn.expr read)) "()n".toList text =
      statement insn.rd (insn.expr read) := fun text =>
    replaceAll_absent (x := 'n') (by decide) (statement_plain _ _ (by decide) (by decide))
  rw [pseudoCode, translateCode_statement session g insn addr read reads]
  simp only [backslash, newline, record]

theorem pseudoCode_globals (session : Session) (g : Globals) (insn : Insn) (addr : Nat) :
    (pseudoCode session insn addr g).2.ignoreMap = g.ignoreMap ∧
      ∀ reg ≠ insn.rd,
        (pseudoCode session insn addr g).2.regAssignMap reg = g.regAssignMap reg := by
  have globals := parseOperations_globals 0 insn.operands (getInstructionCode insn) g
  simp only [pseudoCode, translateCode, replaceSymbols_globals, globals]
  split
  next => exact ⟨rfl, fun reg other => by simp [assignRegister, Function.update_of_ne other]⟩
  next => exact ⟨rfl, fun _ _ => rfl⟩

theorem pseudoCode_ignored (session : Session) (g : Globals) (insn : Insn) (addr : Nat) :
    (pseudoCode session insn addr g).1 = none ↔ g.ignoreMap addr = true := by
  have globals := parseOperations_globals 0 insn.operands (getInstructionCode insn) g
  have same : (translateCode session insn addr (getInstructionCode insn) false g).2.ignoreMap =
      g.ignoreMap := (pseudoCode_globals session g insn addr).1
  simp only [pseudoCode, same]
  split <;> simp_all

end Globals

end VitaTools.Decompiler
