import VitaTools.Decompiler.Model
import VitaTools.Library.Traced

set_option autoImplicit false

/-!
What the passes of the decompiler read of an instruction of the disassembler, and
the tables of `instructions.h`. Texts are over any alphabet.
-/

namespace VitaTools.Passes

open VitaTools.Library VitaTools.Library.Traced
open VitaTools.Decompiler (Text Word hexDigits hexChar)

-- The disassembler's numbers.
namespace ArmReg

def invalid : Word := 0
def lr : Word := 10
def pc : Word := 11
def sp : Word := 12
def r0 : Word := 66
def r1 : Word := 67
def r2 : Word := 68
def r3 : Word := 69
def r4 : Word := 70

end ArmReg

def regNames : List (Word × String) :=
  [(66, "a1"), (67, "a2"), (68, "a3"), (69, "a4"), (70, "v1"), (71, "v2"), (72, "v3"),
    (73, "v4"), (74, "v5"), (75, "sb"), (76, "sl"), (77, "fp"), (78, "ip"), (12, "sp"),
    (10, "lr"), (11, "pc")]

def variableOf (reg : Word) : String := (regNames.lookup reg).getD "unk"

inductive OpType
  | reg | imm | mem | other
deriving DecidableEq, Repr

inductive ShiftType
  | invalid | asr | lsl | lsr | ror | rrx | asrReg | lslReg | lsrReg | rorReg | rrxReg
deriving DecidableEq, Repr

-- `cs_arm_op`. `reg`, `imm` and `mem.base` are members of a union and share `base`.
structure CsArmOp where
  type : OpType
  base : Word
  index : Word
  disp : Word
  shiftType : ShiftType
  shiftValue : Word
deriving DecidableEq

/-- `cs_insn` with its `cs_arm`. `conditional` says that `cc` is neither `AL` nor invalid. -/
structure CsInsn where
  mnemonic : Text
  opStr : Text
  size : Nat
  conditional : Bool
  updateFlags : Bool
  opCount : Nat
  operands : Nat → CsArmOp

def shifts : ShiftType → String
  | .asr | .lsr | .asrReg | .lsrReg => ">>"
  | .lsl | .lslReg => "<<"
  | _ => ""

-- `type < ARM_SFT_ASR_REG`.
def ShiftType.byValue : ShiftType → Bool
  | .asrReg | .lslReg | .lsrReg | .rorReg | .rrxReg => false
  | _ => true

def cutAt (search : Text) : Text → Text
  | [] => []
  | c :: rest => if search.isPrefixOf (c :: rest) then [] else c :: cutAt search rest

structure Condition where
  condFlags : String
  condRegs : String
deriving DecidableEq

def conditions : List (String × Condition) :=
  [("eq", ⟨"if (Z == 1) // ==", "if (COND_X == COND_Y)"⟩),
    ("ne", ⟨"if (Z == 0) // !=", "if (COND_X != COND_Y)"⟩),
    ("hs", ⟨"if (C == 1) // unsigned >=", "if ((unsigned)(COND_X) >= (unsigned)(COND_Y))"⟩),
    ("lo", ⟨"if (C == 0) // unsigned <", "if ((unsigned)(COND_X) < (unsigned)(COND_Y))"⟩),
    ("hi", ⟨"if (C == 1 && Z == 0) // unsigned >",
      "if ((unsigned)(COND_X) > (unsigned)(COND_Y))"⟩),
    ("ls", ⟨"if (C == 0 || Z == 1) // unsigned <=",
      "if ((unsigned)(COND_X) <= (unsigned)(COND_Y))"⟩),
    ("ge", ⟨"if (N == V) // signed >=", "if ((signed)(COND_X) >= (signed)(COND_Y))"⟩),
    ("lt", ⟨"if (N != V) // signed <", "if ((signed)(COND_X) < (signed)(COND_Y))"⟩),
    ("gt", ⟨"if (Z == 0 && N == V) // signed >", "if ((signed)(COND_X) > (signed)(COND_Y))"⟩),
    ("le", ⟨"if (Z == 1 || N != V) // signed <=", "if ((signed)(COND_X) <= (signed)(COND_Y))"⟩),
    ("mi", ⟨"if (N == 1) // signed < 0", ""⟩),
    ("pl", ⟨"if (N == 0) // signed > 0", ""⟩),
    ("vs", ⟨"if (V == 1) // Signed overflow", ""⟩),
    ("vc", ⟨"if (V == 0) // No signed overflow", ""⟩),
    ("al", ⟨"if (1) // Always", ""⟩)]

def conditionOf (insn : CsInsn) (mnemonic : Text) : Option Condition :=
  if insn.conditional then
    conditions.lookup (String.ofList (mnemonic.drop (mnemonic.length - 2)))
  else none

-- The mnemonic without `.w`, condition and `s`, and the condition.
def trimMnemonic (insn : CsInsn) : Text × Option Condition :=
  let mnemonic := cutAt ".w".toList insn.mnemonic
  let condition := conditionOf insn mnemonic
  let mnemonic := if condition.isSome then mnemonic.take (mnemonic.length - 2) else mnemonic
  if insn.updateFlags && mnemonic.getLast? == some 's' then (mnemonic.dropLast, condition)
  else (mnemonic, condition)

def instructions : List (String × String) :=
  [("cmp", "FLAGS = op0 - op1;"), ("cmn", "FLAGS = op0 + op1;"), ("tst", "FLAGS = op0 & op1;"),
    ("cbz", "if (op0 == 0)\\\tgoto symbol;"), ("cbnz", "if (op0 != 0)\\\tgoto symbol;"),
    ("b", "goto symbol;"), ("bl", "a1 = symbol(...);"), ("blx", "a1 = symbol(...);"),
    ("add", "op0 = op1 + op2;"), ("addw", "op0 = op1 + op2;"), ("adc", "op0 = op1 + op2;"),
    ("sub", "op0 = op1 - op2;"), ("subw", "op0 = op1 - op2;"), ("rsb", "op0 = op2 - op1;"),
    ("sbc", "op0 = op1 - op2;"), ("asr", "op0 = op1 >> op2;"), ("asl", "op0 = op1 << op2;"),
    ("mul", "op0 = op1 * op2;"), ("mla", "op0 = op1 * op2 + op3;"),
    ("mls", "op0 = op1 * op2 - op3;"),
    ("umull", "op0 = (op2 * op3) << 32;\\op1 = (op2 * op3) & 0xFFFFFFFF;"),
    ("and", "op0 = op1 & op2;"), ("bic", "op0 = op1 & ~op2;"), ("eor", "op0 = op1 ^ op2;"),
    ("orr", "op0 = op1 | op2;"), ("lsr", "op0 = op1 >> op2;"), ("lsl", "op0 = op1 << op2;"),
    ("ubfx", "op0 = (op1 >> op2) & ((1 << op3) - 1);"),
    ("rev", "op0 = __builtin_bswap32(op1);"), ("rev16", "op0 = __builtin_bswap16(op1);"),
    ("mov", "op0 = op1;"), ("mvn", "op0 = ~op1;"), ("movt", "op0 = op10000 | op0;"),
    ("movw", "op0 = op1;"), ("uxtb", "op0 = (uint8_t)op1;"), ("uxth", "op0 = (uint16_t)op1;"),
    ("sxtb", "op0 = (int8_t)op1;"), ("sxth", "op0 = (int16_t)op1;"),
    ("ldr", "op0 = *(uint32_t *)(op1);"), ("ldrb", "op0 = *(uint8_t *)(op1);"),
    ("ldrsb", "op0 = *(int8_t *)(op1);"), ("ldrh", "op0 = *(uint16_t *)(op1);"),
    ("ldrsh", "op0 = *(int16_t *)(op1);"),
    ("ldrd", "op0 = *(uint32_t *)(op2);\\op1 = *(uint32_t *)(op2 + 0x4);"),
    ("str", "*(uint32_t *)(op1) = op0;"), ("strb", "*(uint8_t *)(op1) = op0;"),
    ("strsb", "*(int8_t *)(op1) = op0;"), ("strh", "*(uint16_t *)(op1) = op0;"),
    ("strsh", "*(int16_t *)(op1) = op0;"),
    ("strd", "*(uint32_t *)(op2) = op0;\\*(uint32_t *)(op2 + 0x4) = op1;")]

def instructions2 : List (String × String) :=
  [("add", "op0 = op0 + op1;"), ("sub", "op0 = op0 - op1;"), ("mul", "op0 = op0 * op1;"),
    ("asr", "op0 = op0 >> op1;"), ("asl", "op0 = op0 << op1;"), ("and", "op0 = op0 & op1;"),
    ("bic", "op0 = op0 & ~op1;"), ("eor", "op0 = op0 ^ op1;"), ("orr", "op0 = op0 | op1;"),
    ("lsr", "op0 = op0 >> op1;"), ("lsl", "op0 = op0 << op1;")]

-- The templates name no variable but the `a1` that a call assigns.
variable {α : Type} [Alphabet α]

def template (code : Text) : List α :=
  if "a1".toList.isPrefixOf code then named "a1" ++ plain (code.drop 2) else plain code

def getInstructionCode (insn : CsInsn) (mnemonic : Text) : List α :=
  match instructions.lookup (String.ofList mnemonic) with
  | none => []
  | some code =>
      let code :=
        if insn.opCount = 2 then (instructions2.lookup (String.ofList mnemonic)).getD code
        else code
      let flags :=
        if insn.updateFlags && !(["cmp", "cmn", "tst"].contains (String.ofList mnemonic)) then
          "\\FLAGS = op0;"
        else ""
      template code.toList ++ plain flags.toList

end VitaTools.Passes
