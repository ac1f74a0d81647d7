import VitaTools.Passes.Translate
import VitaTools.Library.Loop

set_option autoImplicit false

/-!
`analyseSymbols`, `analyseArguments`, `analyseCode` and `decompile` of `main.cpp`. All
of them sweep over the text segment while `size` is not zero.
-/

namespace VitaTools.Passes

open VitaTools.Library VitaTools.Library.Traced
open VitaTools.Decompiler (Text Word hexChar)

variable {α : Type} [Alphabet α]

-- `size` and `address`. The code pointer moves with `address`.
structure Cursor where
  size : Word
  address : Word
deriving DecidableEq

def Cursor.advance (c : Cursor) (bytes : Nat) : Cursor :=
  ⟨c.size - BitVec.ofNat 32 bytes, c.address + BitVec.ofNat 32 bytes⟩

-- `cs_disasm_iter` on the code of the module.
structure Disassembler where
  iter : Cursor → Option CsInsn
  consumes : ∀ c insn, iter c = some insn → insn.size = 2 ∨ insn.size = 4
  remains : ∀ c insn, iter c = some insn → insn.size ≤ c.size.toNat

structure Module where
  textAddr : Word
  textSize : Word
  modInfoOffset : Word
  disasm : Disassembler
  isascii4 : Word → Bool
  stringAt : Word → Text

namespace Module

variable (m : Module)

def start : Cursor := ⟨m.modInfoOffset, m.textAddr⟩

def inText (address : Word) : Bool := m.textAddr ≤ address && address < m.textAddr + m.textSize

def disassemble (c : Cursor) : Option CsInsn × Cursor :=
  match m.disasm.iter c with
  | some insn => (some insn, c.advance insn.size)
  | none => (none, c.advance 2)

end Module

-- `while (size > 0)`.
def sweep {State : Type} (pass : State → Cursor → State × Cursor) : Loop (State × Cursor) where
  more s := s.2.size != 0
  pass s := pass s.1 s.2

structure Symbols where
  symbolMap : SymbolMap
  movwMap : Word → Word

namespace Symbols

def addSymbol (s : Symbols) (addr : Word) (name : Text) (type : Word) : Symbols :=
  match s.symbolMap addr with
  | some _ => s
  | none => { s with symbolMap :=
      Function.update s.symbolMap addr (some ⟨type, name, 0, fun _ => 0⟩) }

-- `%s_%08X`.
def addressName (kind : String) (addr : Word) : Text :=
  kind.toList ++ '_' :: [7, 6, 5, 4, 3, 2, 1, 0].map fun k => hexChar (addr.extractLsb' (4 * k) 4)

def addLabel (s : Symbols) (addr : Word) : Symbols :=
  s.addSymbol addr (addressName "loc" addr) symbolLabel

def addSubroutine (s : Symbols) (addr : Word) : Symbols :=
  s.addSymbol addr (addressName "sub" addr) symbolSubroutine

def firstRun (m : Module) (insn : CsInsn) (s : Symbols) : Symbols :=
  let mnemonic := String.ofList (trimMnemonic insn).1
  let op0 := (insn.operands 0).base
  let op1 := (insn.operands 1).base
  if mnemonic = "b" then if m.inText op0 then s.addLabel op0 else s
  else if mnemonic = "bl" ∨ mnemonic = "blx" then if m.inText op0 then s.addSubroutine op0 else s
  else if mnemonic = "cbz" ∨ mnemonic = "cbnz" then if m.inText op1 then s.addLabel op1 else s
  else if mnemonic = "mov" ∨ mnemonic = "movw" then
    { s with movwMap := Function.update s.movwMap op0 op1 }
  else if mnemonic = "movt" then
    let value := op1 <<< 16 ||| s.movwMap op0
    if m.inText value then
      if m.textAddr + m.modInfoOffset < value || m.isascii4 value then
        s.addSymbol value (m.stringAt value) symbolString
      else s.addSubroutine (value &&& ~~~1)
    else s
  else s

end Symbols

/-- The place behind a return, where the next subroutine is taken to begin: a `nop` there is
skipped. A look-ahead that fails leaves the instruction decoded before in place. -/
def Module.behindReturn (m : Module) (insn : CsInsn) (after : Cursor) : Option Cursor :=
  let mnemonic := String.ofList (trimMnemonic insn).1
  if mnemonic = "pop" ∨ mnemonic = "bx" then
    match m.disasm.iter after with
    | some next =>
        if next.mnemonic = "nop".toList then some (after.advance next.size) else some after
    | none => some after
  else none

def analyseSymbolsPass (m : Module) (secondRun : Bool) (s : Symbols) (c : Cursor) :
    Symbols × Cursor :=
  match m.disassemble c with
  | (none, after) => (s, after)
  | (some insn, after) =>
      if !secondRun then (s.firstRun m insn, after)
      else
        match m.behindReturn insn after with
        | some behind => (s.addSubroutine behind.address, after)
        | none => (s, after)

def analyseSymbolsLoop (m : Module) (secondRun : Bool) : Loop (Symbols × Cursor) :=
  sweep (analyseSymbolsPass m secondRun)

def analyseSymbolsEnd (m : Module) (secondRun : Bool) (s : Symbols) : Symbols :=
  if secondRun then s.addSubroutine m.textAddr else s

structure Arguments where
  nArgs : Nat
  symbolMap : SymbolMap

namespace Arguments

def maxArgs : Nat := 11

def stackArgs (nArgs : Nat) (op : CsArmOp) : Nat :=
  if op.base = ArmReg.sp ∧ 0 ≤ op.disp.toInt ∧ op.disp.toInt < 0xC then
    max nArgs (4 + (op.disp.toNat / 4 + 1))
  else nArgs

def registerArg (nArgs : Nat) (reg : Word) : Nat :=
  if reg = ArmReg.r0 then max nArgs 1
  else if reg = ArmReg.r1 then max nArgs 2
  else if reg = ArmReg.r2 then max nArgs 3
  else if reg = ArmReg.r3 then max nArgs 4
  else nArgs

def count (insn : CsInsn) (mnemonic : String) (code : Text) (nArgs : Nat) : Nat :=
  if mnemonic = "str" then stackArgs nArgs (insn.operands 1)
  else if mnemonic = "strd" then stackArgs nArgs (insn.operands 2)
  else if occurs "op0 = ".toList code then
    let nArgs := registerArg nArgs (insn.operands 0).base
    if mnemonic = "ldrd" then registerArg nArgs (insn.operands 1).base else nArgs
  else nArgs

def recordCall (m : Module) (target : Word) (s : Arguments) : Arguments :=
  match if m.inText target && s.nArgs < maxArgs then s.symbolMap target else none with
  | some entry =>
      let argsStats := Function.update entry.argsStats s.nArgs (entry.argsStats s.nArgs + 1)
      ⟨0, Function.update s.symbolMap target (some { entry with argsStats })⟩
  | none => ⟨0, s.symbolMap⟩

end Arguments

def analyseArgumentsPass (m : Module) (s : Arguments) (c : Cursor) : Arguments × Cursor :=
  match m.disassemble c with
  | (none, after) => (s, after)
  | (some insn, after) =>
      let s := if (s.symbolMap c.address).isSome then { s with nArgs := 0 } else s
      let mnemonic := (trimMnemonic insn).1
      let code : Text := getInstructionCode insn mnemonic
      if code.isEmpty then (s, after)
      else
        let s := { s with nArgs := Arguments.count insn (String.ofList mnemonic) code s.nArgs }
        if Globals.isCall mnemonic then (s.recordCall m (insn.operands 0).base, after)
        else (s, after)

def analyseArgumentsLoop (m : Module) : Loop (Arguments × Cursor) := sweep (analyseArgumentsPass m)

def mostFrequent (argsStats : Nat → Nat) : Nat :=
  ((List.range Arguments.maxArgs).foldl
    (fun (best : Nat × Nat) i => if best.2 < argsStats i then (i, argsStats i) else best)
    (0, 0)).1

def analyseArgumentsEnd (symbolMap : SymbolMap) : SymbolMap := fun addr =>
  (symbolMap addr).map fun entry =>
    if entry.is symbolSubroutine then { entry with nArgs := mostFrequent entry.argsStats }
    else entry

namespace Globals

def initial : Globals α := ⟨fun _ => none, fun _ => false, false⟩

def resetAt (session : Session) (address : Word) (g : Globals α) : Globals α :=
  if (session.symbolMap address).isSome then { g.freeRegAssignMap with useFlags := false } else g

end Globals

def analyseCodePass (m : Module) (session : Session) (g : Globals α) (c : Cursor) :
    Globals α × Cursor :=
  let g := g.resetAt session c.address
  match m.disassemble c with
  | (none, after) => (g, after)
  | (some insn, after) =>
      let mnemonic := (trimMnemonic insn).1
      let code : List α := getInstructionCode insn mnemonic
      if code.isEmpty then (g, after)
      else ((Globals.translateCode session insn mnemonic c.address code true g).2, after)

def analyseCodeLoop (m : Module) (session : Session) : Loop (Globals α × Cursor) :=
  sweep (analyseCodePass m session)

structure Output (α : Type) where
  globals : Globals α
  fout : List α

def Session.isImport (session : Session) (address : Word) : Bool :=
  ((session.symbolMap address).map fun entry => entry.is symbolImport).getD false

def decompilePass (m : Module) (session : Session) (out : Output α) (c : Cursor) :
    Output α × Cursor :=
  let g := out.globals.resetAt session c.address
  if session.isImport c.address then ({ out with globals := g }, c.advance 0x10)
  else
    match m.disassemble c with
    | (none, after) => ({ out with globals := g }, after)
    | (some insn, after) =>
        let (text, g) := g.pseudoCode session insn c.address
        (⟨g, out.fout ++ text⟩, after)

def decompileLoop (m : Module) (session : Session) : Loop (Output α × Cursor) :=
  sweep (decompilePass m session)

end VitaTools.Passes
