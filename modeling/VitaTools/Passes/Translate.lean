import VitaTools.Passes.Instruction

set_option autoImplicit false

namespace VitaTools.Passes

open VitaTools.Library VitaTools.Library.Traced
open VitaTools.Decompiler (Text Word getImmString hexDigits hexChar)
open VitaTools.Decompiler.Globals (opName isString)

variable {α : Type} [Alphabet α]

def symbolSubroutine : Word := 0x1
def symbolLabel : Word := 0x2
def symbolString : Word := 0x4
def symbolImport : Word := 0x10

structure SymbolEntry where
  type : Word
  name : Text
  nArgs : Nat
  argsStats : Nat → Nat

def SymbolEntry.is (entry : SymbolEntry) (types : Word) : Bool := entry.type &&& types != 0

abbrev SymbolMap := Word → Option SymbolEntry

structure RegisterAssignmentEntry (α : Type) where
  assign : List α
  addr : Word
  updateFlags : Bool

-- `g_reg_assign_map`, `g_ignore_map` and `g_use_flags`.
structure Globals (α : Type) where
  regAssignMap : Word → Option (RegisterAssignmentEntry α)
  ignoreMap : Word → Bool
  useFlags : Bool

/-- What the translation reads and never writes. `constantText` is the text for a constant put
together from its halves: a symbol's name, a string or a word of the segments. -/
structure Session where
  symbolMap : SymbolMap
  constantText : Word → Text

def hexDigitOf (c : Char) : Option Nat :=
  if '0' ≤ c ∧ c ≤ '9' then some (c.toNat - '0'.toNat)
  else if 'a' ≤ c ∧ c ≤ 'f' then some (c.toNat - 'a'.toNat + 10)
  else if 'A' ≤ c ∧ c ≤ 'F' then some (c.toNat - 'A'.toNat + 10)
  else none

def isHex (s : Text) : Bool :=
  2 < s.length && "0x".toList.isPrefixOf s && (s.drop 2).all fun c => (hexDigitOf c).isSome

def isDec (s : Text) : Bool := !s.isEmpty && s.all fun c => "-0123456789".toList.contains c

def hexNumber : Nat → Text → Nat
  | value, [] => value
  | value, c :: rest =>
      match hexDigitOf c with
      | some digit => hexNumber (value * 16 + digit) rest
      | none => value

-- A `0x` counts as a prefix only with a digit behind it.
def skipHexPrefix (s : Text) : Text :=
  match s with
  | '0' :: x :: digit :: rest =>
      if (x = 'x' ∨ x = 'X') ∧ (hexDigitOf digit).isSome then digit :: rest else s
  | _ => s

-- `strtoul(s, NULL, 16)`, which stops at 2^64 - 1, as a word.
def strToHex (s : Text) : Word :=
  let s := s.dropWhile fun c => c.isWhitespace
  let (negative, s) :=
    match s with
    | '-' :: rest => (true, rest)
    | '+' :: rest => (false, rest)
    | _ => (false, s)
  let value := BitVec.ofNat 64 (min (hexNumber 0 (skipHexPrefix s)) (2 ^ 64 - 1))
  (if negative then -value else value).setWidth 32

def getRegName (reg : Word) : List α := named (variableOf reg)

def hexText (value : Word) : Text := "0x".toList ++ (hexDigits value).map hexChar

-- The buffer holds 255 characters.
def handleShift (reg : List α) (op : CsArmOp) : List α :=
  if op.shiftType ≠ .invalid ∧ op.shiftValue ≠ 0 then
    let amount := if op.shiftType.byValue then plain (hexText op.shiftValue)
      else getRegName op.shiftValue
    (plain ['('] ++ reg ++ plain (' ' :: (shifts op.shiftType).toList ++ [' ']) ++ amount ++
      plain [')']).take 255
  else reg

def bracket (assign : List α) : List α :=
  if !isString (spell assign) && (spell assign).contains ' ' then
    plain ['('] ++ assign ++ plain [')']
  else assign

-- Without a last " + 0".
def simplify (str : List α) : List α :=
  if " + 0".toList.isSuffixOf (spell str) then str.take (str.length - 4) else str

namespace Globals

def assign (g : Globals α) (reg : Word) (entry : Option (RegisterAssignmentEntry α)) :
    Globals α :=
  { g with regAssignMap := Function.update g.regAssignMap reg entry }

def freeRegAssignMap (g : Globals α) : Globals α := { g with regAssignMap := fun _ => none }

def clearRegAssignMapAfterBranch (g : Globals α) : Globals α :=
  (((g.assign ArmReg.r0 none).assign ArmReg.r1 none).assign ArmReg.r2 none).assign ArmReg.r3 none

def ignoreAddr (g : Globals α) (reg : Word) : Globals α :=
  match g.regAssignMap reg with
  | none => g
  | some entry =>
      if entry.updateFlags && g.useFlags then g
      else { g with ignoreMap := Function.update g.ignoreMap entry.addr true }

def absorb (g : Globals α) (analyse : Bool) (reg : Word) : Globals α :=
  if analyse then g.ignoreAddr reg else g

-- The text that takes the place of `reg_str`, and whether the entry was used.
def composed (g : Globals α) (regStr : List α) (reg : Word) : List α × Bool :=
  if reg = ArmReg.sp then (regStr, false)
  else
    match g.regAssignMap reg with
    | none => (regStr, false)
    | some entry =>
        if entry.assign.length < 128 then (bracket entry.assign, true) else (regStr, false)

def composeRegister (g : Globals α) (regStr : List α) (reg : Word) (analyse : Bool) :
    List α × Globals α :=
  let (text, used) := g.composed regStr reg
  (text, if used then g.absorb analyse reg else g)

def registerText (g : Globals α) (i : Nat) (code : List α) (reg : Word) (analyse : Bool) :
    List α × Globals α :=
  if occurs (opName i ++ " = ".toList) (spell code) then (getRegName reg, g)
  else g.composeRegister (getRegName reg) reg analyse

-- `handleShift` is given the first operand for the index.
def memoryText (insn : CsInsn) (op : CsArmOp) (reg : List α) : List α :=
  simplify <|
    if op.index ≠ ArmReg.invalid then
      reg ++ plain " + ".toList ++ handleShift (getRegName op.index) (insn.operands 0)
    else reg ++ plain " + ".toList ++ plain (getImmString op.disp true)

-- What takes the place of operand `i`.
def operandText (g : Globals α) (insn : CsInsn) (analyse : Bool) (i : Nat) (code : List α) :
    Option (List α) × Globals α :=
  let op := insn.operands i
  match op.type with
  | .reg =>
      let (reg, g) := g.registerText i code op.base analyse
      (some (if i + 1 = insn.opCount then handleShift reg op else reg), g)
  | .imm => (some (plain (getImmString op.base false)), g)
  | .mem =>
      let (reg, g) := g.registerText i code op.base analyse
      (some (memoryText insn op reg), g)
  | .other => (none, g)

-- The pass of `parseOperations` for operand `i`.
def parseOperand (insn : CsInsn) (analyse : Bool) (i : Nat) (code : List α) (g : Globals α) :
    List α × Globals α :=
  let (text, g) := g.operandText insn analyse i code
  (match text with
    | some text => replaceAll code (opName i) text
    | none => code, g)

def parseFrom (insn : CsInsn) (analyse : Bool) : Nat → Nat → List α → Globals α →
    List α × Globals α
  | 0, _, code, g => (code, g)
  | left + 1, i, code, g =>
      let (code, g) := parseOperand insn analyse i code g
      parseFrom insn analyse left (i + 1) code g

def parseOperations (insn : CsInsn) (analyse : Bool) (code : List α) (g : Globals α) :
    List α × Globals α :=
  parseFrom insn analyse insn.opCount 0 code g

-- What stands between "x = " and the first semicolon.
def assignedText (code : List α) : List α :=
  (code.drop 5).take ((spell code).idxOf ';' - 5)

def lowHalf (g : Globals α) (reg : Word) : Option (RegisterAssignmentEntry α) :=
  (g.regAssignMap reg).filter fun entry => isHex (spell entry.assign) || isDec (spell entry.assign)

def assignRegister (session : Session) (insn : CsInsn) (mnemonic : Text) (addr : Word)
    (code : List α) (analyse : Bool) (g : Globals α) : List α × Globals α :=
  let base := (insn.operands 0).base
  if insn.conditional then (code, g.assign base none)
  else
    let assign := assignedText code
    match if mnemonic = "movt".toList then g.lowHalf base else none with
    | some entry =>
        let value := strToHex (cutAt [' '] (spell assign)) ||| strToHex (spell entry.assign)
        let buf := plain (session.constantText value)
        (getRegName base ++ plain " = ".toList ++ buf ++ plain [';'],
          (g.absorb analyse base).assign base (some ⟨buf, addr, insn.updateFlags⟩))
    | none => (code, g.assign base (some ⟨assign, addr, insn.updateFlags⟩))

-- Argument `i`; the fifth is the first on the stack.
def argText (analyse : Bool) (i : Nat) (g : Globals α) : List α × Globals α :=
  let reg := ArmReg.r0 + BitVec.ofNat 32 i
  if i < 4 then
    match g.regAssignMap reg with
    | some entry => (entry.assign, g.absorb analyse reg)
    | none => (named ("a" ++ toString (i + 1)), g)
  else
    (plain "*(".toList ++ named "sp" ++ plain ('+' :: (toString ((i - 4) * 4)).toList ++ [')']), g)

-- The arguments from argument `i` on.
def argsFrom (analyse : Bool) : Nat → Nat → Globals α → List α × Globals α
  | 0, _, g => ([], g)
  | count + 1, i, g =>
      let (arg, g) := argText analyse i g
      let (args, g) := argsFrom analyse count (i + 1) g
      (arg ++ plain ", ".toList ++ args, g)

-- At most `MAX_ARGS` arguments, without the last comma.
def getArgsString (nArgs : Nat) (analyse : Bool) (g : Globals α) : List α × Globals α :=
  let (args, g) := argsFrom analyse (min nArgs 11) 0 g
  (args.take (args.length - 2), g)

-- The pass of the symbol loop for operand `i`.
def replaceSymbol (session : Session) (insn : CsInsn) (analyse : Bool) (i : Nat)
    (code : List α) (g : Globals α) : List α × Globals α :=
  match session.symbolMap (insn.operands i).base with
  | some symbol =>
      if symbol.is (symbolSubroutine ||| symbolLabel) then
        let code := replaceAll code "symbol".toList (plain symbol.name)
        if symbol.is symbolSubroutine then
          let (args, g) := getArgsString symbol.nArgs analyse g
          (replaceAll code "...".toList args, g)
        else (code, g)
      else (code, g)
  | none =>
      (if i = 1 then replaceAll code "symbol".toList (plain insn.opStr) else code, g)

def replaceSymbols (session : Session) (insn : CsInsn) (analyse : Bool) (code : List α)
    (g : Globals α) : List α × Globals α :=
  let (code, g) := replaceSymbol session insn analyse 0 code g
  replaceSymbol session insn analyse 1 code g

def useFlagsOf (insn : CsInsn) (g : Globals α) : Globals α :=
  { g with useFlags := !insn.updateFlags && (insn.conditional || g.useFlags) }

def isAssignment (code : List α) : Bool :=
  (spell code)[3]? == some '=' && ((spell code).drop 5).take 6 != "symbol".toList

-- The step "Register assignment" of `translateCode`.
def recordAssignment (session : Session) (insn : CsInsn) (mnemonic : Text) (addr : Word)
    (analyse : Bool) (code : List α) (g : Globals α) : List α × Globals α :=
  if isAssignment code then assignRegister session insn mnemonic addr code analyse g else (code, g)

def isCall (mnemonic : Text) : Bool := mnemonic = "bl".toList || mnemonic = "blx".toList

def translateCode (session : Session) (insn : CsInsn) (mnemonic : Text) (addr : Word)
    (code : List α) (analyse : Bool) (g : Globals α) : List α × Globals α :=
  let (code, g) := parseOperations insn analyse code (useFlagsOf insn g)
  let (code, g) := recordAssignment session insn mnemonic addr analyse code g
  let (code, g) := replaceSymbols session insn analyse code g
  (code,
    if isCall mnemonic then { g.clearRegAssignMapAfterBranch with useFlags := false } else g)

def untranslated (insn : CsInsn) (mnemonic : Text) : List α :=
  if mnemonic = "bx".toList ∧ insn.opStr = "lr".toList then
    plain "\treturn ".toList ++ named "a1" ++ plain ";\n".toList
  else if mnemonic = "pop".toList then
    plain "\treturn ".toList ++ named "a1" ++
      plain ("; // ".toList ++ mnemonic ++ ' ' :: insn.opStr ++ ['\n'])
  else if mnemonic = "push".toList then
    plain ("\t// ".toList ++ mnemonic ++ ' ' :: insn.opStr ++ ['\n'])
  else if mnemonic = "nop".toList ∨ "it".toList.isPrefixOf mnemonic then []
  else plain ("\tasm(\"".toList ++ mnemonic ++ ' ' :: insn.opStr ++ "\\n\");\n".toList)

def heading (condition : Option Condition) : Text × Text :=
  match condition with
  | some condition => ("\t\t".toList, '\t' :: condition.condFlags.toList ++ ['\n'])
  | none => (['\t'], [])

def breakLines (indent : Text) (code : List α) : List α :=
  replaceAll (replaceAll code ['\\'] (plain ('\n' :: indent))) "()n".toList (plain "\\n".toList)

-- `pseudoCode(insn, addr)`: what it appends to the output.
def pseudoCode (session : Session) (insn : CsInsn) (addr : Word) (g : Globals α) :
    List α × Globals α :=
  let (mnemonic, condition) := trimMnemonic insn
  let code : List α := getInstructionCode insn mnemonic
  if code.isEmpty then (untranslated insn mnemonic, g)
  else
    let (code, g) := translateCode session insn mnemonic addr code false g
    let (indent, line) := heading condition
    if g.ignoreMap addr then (plain line, g)
    else (plain line ++ plain indent ++ breakLines indent code ++ plain ['\n'], g)

end Globals

end VitaTools.Passes
