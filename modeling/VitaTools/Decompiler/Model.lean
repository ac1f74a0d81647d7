import Mathlib.Data.BitVec
import Mathlib.Logic.Function.Basic
import VitaTools.Library.Replace

set_option autoImplicit false

/-!
`main.cpp` of the decompiler, for unconditional instructions that do not set the
flags. `movt`, memory operands and shifted operands are left out.
-/

namespace VitaTools.Decompiler

open VitaTools.Library

abbrev Text := List Char

abbrev Word := BitVec 32

inductive Reg
  | r0 | r1 | r2 | r3 | r4 | r5 | r6 | r7 | r8 | r9 | r10 | r11 | r12 | sp | lr
deriving DecidableEq, Repr

def getRegName : Reg → Text
  | .r0 => "a1".toList
  | .r1 => "a2".toList
  | .r2 => "a3".toList
  | .r3 => "a4".toList
  | .r4 => "v1".toList
  | .r5 => "v2".toList
  | .r6 => "v3".toList
  | .r7 => "v4".toList
  | .r8 => "v5".toList
  | .r9 => "sb".toList
  | .r10 => "sl".toList
  | .r11 => "fp".toList
  | .r12 => "ip".toList
  | .sp => "sp".toList
  | .lr => "lr".toList

inductive Operand
  | reg (reg : Reg)
  | imm (imm : Word)
deriving DecidableEq

-- The mnemonics with two sources, behind `trimMnemonic`.
inductive Binary
  | add | sub | and | orr | eor | lsl | lsr
deriving DecidableEq, Repr

-- A decoded instruction by its form. In the form `two` the first operand is both
-- destination and source.
inductive Insn
  | mov (rd : Reg) (op1 : Operand)
  | three (op : Binary) (rd rn : Reg) (op2 : Operand)
  | two (op : Binary) (rd : Reg) (op1 : Operand)
deriving DecidableEq

def Binary.mnemonic : Binary → String
  | .add => "add"
  | .sub => "sub"
  | .and => "and"
  | .orr => "orr"
  | .eor => "eor"
  | .lsl => "lsl"
  | .lsr => "lsr"

namespace Insn

def mnemonic : Insn → String
  | .mov _ _ => "mov"
  | .three op _ _ _ => op.mnemonic
  | .two op _ _ => op.mnemonic

def operands : Insn → List Operand
  | .mov rd op1 => [.reg rd, op1]
  | .three _ rd rn op2 => [.reg rd, .reg rn, op2]
  | .two _ rd op1 => [.reg rd, op1]

-- `op0->mem.base`.
def rd : Insn → Reg
  | .mov rd _ => rd
  | .three _ rd _ _ => rd
  | .two _ rd _ => rd

end Insn

-- The rows of `instructions` for the modelled mnemonics.
def instructions : List (String × String) :=
  [("add", "op0 = op1 + op2;"), ("sub", "op0 = op1 - op2;"), ("and", "op0 = op1 & op2;"),
    ("eor", "op0 = op1 ^ op2;"), ("orr", "op0 = op1 | op2;"), ("lsr", "op0 = op1 >> op2;"),
    ("lsl", "op0 = op1 << op2;"), ("mov", "op0 = op1;")]

def instructions2 : List (String × String) :=
  [("add", "op0 = op0 + op1;"), ("sub", "op0 = op0 - op1;"), ("and", "op0 = op0 & op1;"),
    ("eor", "op0 = op0 ^ op1;"), ("orr", "op0 = op0 | op1;"), ("lsr", "op0 = op0 >> op1;"),
    ("lsl", "op0 = op0 << op1;")]

def getInstructionCode (insn : Insn) : Text :=
  match instructions.lookup insn.mnemonic with
  | none => []
  | some code =>
      if insn.operands.length = 2 then
        ((instructions2.lookup insn.mnemonic).getD code).toList
      else code.toList

def hexChar (digit : BitVec 4) : Char := "0123456789ABCDEF".toList.getD digit.toNat '0'

-- The digits of `%X`.
def hexDigits (imm : Word) : List (BitVec 4) :=
  match ([7, 6, 5, 4, 3, 2, 1, 0].map fun k => imm.extractLsb' (4 * k) 4).dropWhile (· == 0) with
  | [] => [0]
  | digits => digits

def getImmString (imm : Word) (isMem : Bool) : Text :=
  if (-9 ≤ imm.toInt ∧ imm.toInt < 0) ∨ (0 ≤ imm.toInt ∧ imm.toInt ≤ 9) ∨
      (isMem = true ∧ imm.msb = true) then
    (toString imm.toInt).toList
  else "0x".toList ++ (hexDigits imm).map hexChar

structure RegisterAssignmentEntry where
  assign : Text
  addr : Nat
  updateFlags : Bool

-- The globals `g_reg_assign_map`, `g_ignore_map` and `g_use_flags`.
structure Globals where
  regAssignMap : Reg → Option RegisterAssignmentEntry
  ignoreMap : Nat → Bool
  useFlags : Bool

structure SymbolEntry where
  name : Text
  subroutine : Bool
  label : Bool
  nArgs : Nat

-- What the translation of an instruction also looks at: the symbols, the disassembler's
-- register numbers and the instruction's operand text.
structure Session where
  symbolMap : Word → Option SymbolEntry
  regId : Reg → Word
  opStr : Insn → Text

namespace Globals

def ignoreAddr (g : Globals) (reg : Reg) : Globals :=
  match g.regAssignMap reg with
  | none => g
  | some entry =>
      if entry.updateFlags && g.useFlags then g
      else { g with ignoreMap := Function.update g.ignoreMap entry.addr true }

def isString (s : Text) : Bool := s.head? == some '"' && s.getLast? == some '"'

def bracket (assign : Text) : Text :=
  if !isString assign && assign.contains ' ' then "(".toList ++ assign ++ ")".toList else assign

-- `composeRegister(reg_str, reg, analyse)`: the new `reg_str`.
def composeRegister (g : Globals) (regStr : Text) (reg : Reg) (analyse : Bool) : Text × Globals :=
  if reg = .sp then (regStr, g)
  else
    match g.regAssignMap reg with
    | none => (regStr, g)
    | some entry =>
        if entry.assign.length < 128 then
          (bracket entry.assign, if analyse then g.ignoreAddr reg else g)
        else (regStr, g)

def opName (i : Nat) : Text := "op".toList ++ (toString i).toList

-- The pass of `parseOperations` for operand `i`.
def parseOperand (analyse : Bool) (i : Nat) (op : Operand) (code : Text) (g : Globals) :
    Text × Globals :=
  match op with
  | .reg reg =>
      let (regStr, g) :=
        if occurs (opName i ++ " = ".toList) code then (getRegName reg, g)
        else g.composeRegister (getRegName reg) reg analyse
      (replaceAll code (opName i) regStr, g)
  | .imm imm => (replaceAll code (opName i) (getImmString imm false), g)

def parseOperations (analyse : Bool) : Nat → List Operand → Text → Globals → Text × Globals
  | _, [], code, g => (code, g)
  | i, op :: rest, code, g =>
      let (code, g) := parseOperand analyse i op code g
      parseOperations analyse (i + 1) rest code g

-- `assignRegister`, past its branches for conditional instructions and `movt`.
def assignRegister (g : Globals) (reg : Reg) (addr : Nat) (code : Text) : Globals :=
  let assign := (code.drop 5).take (code.idxOf ';' - 5)
  { g with regAssignMap := Function.update g.regAssignMap reg (some ⟨assign, addr, false⟩) }

-- `ARM_REG_R0+i`.
def argReg : Nat → Reg
  | 0 => .r0
  | 1 => .r1
  | 2 => .r2
  | _ => .r3

-- The arguments `getArgsString(n_args, true, analyse)` writes from argument `i` on.
def argsFrom (analyse : Bool) : Nat → Nat → Globals → Text × Globals
  | 0, _, g => ([], g)
  | count + 1, i, g =>
      let (arg, g) :=
        if i < 4 then
          match g.regAssignMap (argReg i) with
          | some entry => (entry.assign, if analyse then g.ignoreAddr (argReg i) else g)
          | none => ("a".toList ++ (toString (i + 1)).toList, g)
        else ("*(sp+".toList ++ (toString ((i - 4) * 4)).toList ++ ")".toList, g)
      let (args, g) := argsFrom analyse count (i + 1) g
      (arg ++ ", ".toList ++ args, g)

-- At most `MAX_ARGS` arguments, without the last comma.
def getArgsString (nArgs : Nat) (analyse : Bool) (g : Globals) : Text × Globals :=
  let (args, g) := argsFrom analyse (min nArgs 11) 0 g
  (args.take (args.length - 2), g)

-- `op->imm`, whatever the operand's type: it shares its place with the register number.
def unionImm (session : Session) : Operand → Word
  | .reg reg => session.regId reg
  | .imm imm => imm

-- The pass of the symbol loop for operand `i`.
def replaceSymbol (session : Session) (analyse : Bool) (opStr : Text) (i : Nat) (op : Operand)
    (code : Text) (g : Globals) : Text × Globals :=
  match session.symbolMap (unionImm session op) with
  | some symbol =>
      if symbol.subroutine || symbol.label then
        let code := replaceAll code "symbol".toList symbol.name
        if symbol.subroutine then
          let (args, g) := getArgsString symbol.nArgs analyse g
          (replaceAll code "...".toList args, g)
        else (code, g)
      else (code, g)
  | none => (if i = 1 then replaceAll code "symbol".toList opStr else code, g)

def replaceSymbols (session : Session) (analyse : Bool) (opStr : Text) :
    Nat → List Operand → Text → Globals → Text × Globals
  | _, [], code, g => (code, g)
  | i, op :: rest, code, g =>
      let (code, g) := replaceSymbol session analyse opStr i op code g
      replaceSymbols session analyse opStr (i + 1) rest code g

def translateCode (session : Session) (insn : Insn) (addr : Nat) (code : Text) (analyse : Bool)
    (g : Globals) : Text × Globals :=
  let (code, g) := parseOperations analyse 0 insn.operands code g
  let g :=
    if code[3]? = some '=' ∧ (code.drop 5).take 6 ≠ "symbol".toList then
      g.assignRegister insn.rd addr code
    else g
  replaceSymbols session analyse (session.opStr insn) 0 (insn.operands.take 2) code g

-- `pseudoCode(insn, addr)`: the statement printed behind the indent, if one is.
def pseudoCode (session : Session) (insn : Insn) (addr : Nat) (g : Globals) :
    Option Text × Globals :=
  let (code, g) := translateCode session insn addr (getInstructionCode insn) false g
  let code := replaceAll code "\\".toList "\n\t".toList
  let code := replaceAll code "()n".toList "\\n".toList
  (if g.ignoreMap addr then none else some code, g)

-- The pass of `analyseCode` for an instruction.
def analyse (session : Session) (insn : Insn) (addr : Nat) (g : Globals) : Globals :=
  (translateCode session insn addr (getInstructionCode insn) true g).2

end Globals

end VitaTools.Decompiler
