import VitaTools.Passes.Translate

set_option autoImplicit false

namespace VitaTools.Passes

open VitaTools.Library VitaTools.Library.Traced
open VitaTools.Decompiler (Text Word)

variable {α : Type}

/-- The globals differ at most in `ignoreMap`. -/
structure SameMaps (g h : Globals α) : Prop where
  map : g.regAssignMap = h.regAssignMap
  flags : g.useFlags = h.useFlags

structure Alike (x y : List α × Globals α) : Prop where
  text : x.1 = y.1
  maps : SameMaps x.2 y.2

namespace SameMaps

variable {g h : Globals α}

theorem refl (g : Globals α) : SameMaps g g := ⟨rfl, rfl⟩

theorem symm (same : SameMaps g h) : SameMaps h g := ⟨same.map.symm, same.flags.symm⟩

theorem assign (same : SameMaps g h) (reg : Word) (entry : Option (RegisterAssignmentEntry α)) :
    SameMaps (g.assign reg entry) (h.assign reg entry) :=
  ⟨by rw [Globals.assign, Globals.assign, same.map], same.flags⟩

theorem ignoreAddr_left (g : Globals α) (reg : Word) : SameMaps (g.ignoreAddr reg) g := by
  rw [Globals.ignoreAddr]
  split
  · exact refl g
  · split
    · exact refl g
    · exact ⟨rfl, rfl⟩

theorem absorb_left (g : Globals α) (analyse : Bool) (reg : Word) :
    SameMaps (g.absorb analyse reg) g := by
  cases analyse
  · exact refl g
  · exact ignoreAddr_left g reg

theorem absorb (same : SameMaps g h) (analyse other : Bool) (reg : Word) :
    SameMaps (g.absorb analyse reg) (h.absorb other reg) :=
  have left := absorb_left g analyse reg
  have right := absorb_left h other reg
  ⟨left.map.trans (same.map.trans right.map.symm),
    left.flags.trans (same.flags.trans right.flags.symm)⟩

theorem clear (same : SameMaps g h) :
    SameMaps g.clearRegAssignMapAfterBranch h.clearRegAssignMapAfterBranch :=
  (((same.assign _ none).assign _ none).assign _ none).assign _ none

end SameMaps

theorem Alike.bind {x y : List α × Globals α} (alike : Alike x y)
    {f f' : List α → Globals α → List α × Globals α}
    (next : ∀ code g h, SameMaps g h → Alike (f code g) (f' code h)) :
    Alike (f x.1 x.2) (f' y.1 y.2) :=
  alike.text ▸ next x.1 x.2 y.2 alike.maps

namespace Globals

variable [Alphabet α] {g h : Globals α}

theorem composed_alike (same : SameMaps g h) (regStr : List α) (reg : Word) :
    g.composed regStr reg = h.composed regStr reg := by
  rw [composed, composed, same.map]

theorem composeRegister_alike (same : SameMaps g h) (regStr : List α) (reg : Word)
    (analyse other : Bool) :
    Alike (g.composeRegister regStr reg analyse) (h.composeRegister regStr reg other) := by
  rw [composeRegister, composeRegister, composed_alike same]
  refine ⟨rfl, ?_⟩
  dsimp only
  split
  · exact same.absorb analyse other reg
  · exact same

theorem registerText_alike (same : SameMaps g h) (i : Nat) (code : List α) (reg : Word)
    (analyse other : Bool) :
    Alike (g.registerText i code reg analyse) (h.registerText i code reg other) := by
  rw [registerText, registerText]
  split
  · exact ⟨rfl, same⟩
  · exact composeRegister_alike same _ reg analyse other

theorem operandText_alike (same : SameMaps g h) (insn : CsInsn) (analyse other : Bool) (i : Nat)
    (code : List α) :
    (g.operandText insn analyse i code).1 = (h.operandText insn other i code).1 ∧
      SameMaps (g.operandText insn analyse i code).2 (h.operandText insn other i code).2 := by
  have alike := registerText_alike same i code (insn.operands i).base analyse other
  rw [operandText, operandText]
  cases (insn.operands i).type with
  | reg => exact ⟨by simp only [alike.text], alike.maps⟩
  | imm => exact ⟨rfl, same⟩
  | mem => exact ⟨by simp only [alike.text], alike.maps⟩
  | other => exact ⟨rfl, same⟩

theorem parseOperand_alike (same : SameMaps g h) (insn : CsInsn) (analyse other : Bool) (i : Nat)
    (code : List α) :
    Alike (parseOperand insn analyse i code g) (parseOperand insn other i code h) := by
  obtain ⟨text, maps⟩ := operandText_alike same insn analyse other i code
  exact ⟨by simp only [parseOperand, text], maps⟩

theorem parseFrom_alike (same : SameMaps g h) (insn : CsInsn) (analyse other : Bool)
    (left i : Nat) (code : List α) :
    Alike (parseFrom insn analyse left i code g) (parseFrom insn other left i code h) := by
  induction left generalizing i code g h with
  | zero => exact ⟨rfl, same⟩
  | succ left ih =>
      exact (parseOperand_alike same insn analyse other i code).bind
        fun code g h same => ih same (i + 1) code

theorem lowHalf_alike (same : SameMaps g h) (reg : Word) : g.lowHalf reg = h.lowHalf reg := by
  rw [lowHalf, lowHalf, same.map]

theorem assignRegister_alike (same : SameMaps g h) (session : Session) (insn : CsInsn)
    (mnemonic : Text) (addr : Word) (code : List α) (analyse other : Bool) :
    Alike (assignRegister session insn mnemonic addr code analyse g)
      (assignRegister session insn mnemonic addr code other h) := by
  simp only [assignRegister, lowHalf_alike same]
  split
  · exact ⟨rfl, same.assign _ none⟩
  · split
    · exact ⟨rfl, (same.absorb analyse other _).assign _ _⟩
    · exact ⟨rfl, same.assign _ _⟩

theorem argText_alike (same : SameMaps g h) (analyse other : Bool) (i : Nat) :
    Alike (argText analyse i g) (argText other i h) := by
  rw [argText, argText, same.map]
  split
  · split
    · exact ⟨rfl, same.absorb analyse other _⟩
    · exact ⟨rfl, same⟩
  · exact ⟨rfl, same⟩

theorem argsFrom_alike (same : SameMaps g h) (analyse other : Bool) (count i : Nat) :
    Alike (argsFrom analyse count i g) (argsFrom other count i h) := by
  induction count generalizing i g h with
  | zero => exact ⟨rfl, same⟩
  | succ count ih =>
      have appended : ∀ (arg : List α) (g h : Globals α), SameMaps g h →
          Alike (arg ++ plain ", ".toList ++ (argsFrom analyse count (i + 1) g).1,
              (argsFrom analyse count (i + 1) g).2)
            (arg ++ plain ", ".toList ++ (argsFrom other count (i + 1) h).1,
              (argsFrom other count (i + 1) h).2) := by
        intro arg g h same
        have rest := ih same (i + 1)
        exact ⟨by rw [rest.text], rest.maps⟩
      exact (argText_alike same analyse other i).bind appended

theorem getArgsString_alike (same : SameMaps g h) (nArgs : Nat) (analyse other : Bool) :
    Alike (getArgsString nArgs analyse g) (getArgsString nArgs other h) := by
  have alike := argsFrom_alike same analyse other (min nArgs 11) 0
  exact ⟨by simp only [getArgsString, alike.text], alike.maps⟩

theorem replaceSymbol_alike (same : SameMaps g h) (session : Session) (insn : CsInsn)
    (analyse other : Bool) (i : Nat) (code : List α) :
    Alike (replaceSymbol session insn analyse i code g)
      (replaceSymbol session insn other i code h) := by
  rw [replaceSymbol, replaceSymbol]
  split
  next symbol _ =>
    have alike := getArgsString_alike same symbol.nArgs analyse other
    split
    · dsimp only
      split
      · exact ⟨by simp only [alike.text], alike.maps⟩
      · exact ⟨rfl, same⟩
    · exact ⟨rfl, same⟩
  next => exact ⟨rfl, same⟩

theorem replaceSymbols_alike (same : SameMaps g h) (session : Session) (insn : CsInsn)
    (analyse other : Bool) (code : List α) :
    Alike (replaceSymbols session insn analyse code g)
      (replaceSymbols session insn other code h) := by
  exact (replaceSymbol_alike same session insn analyse other 0 code).bind
    fun code g h same => replaceSymbol_alike same session insn analyse other 1 code

theorem recordAssignment_alike (same : SameMaps g h) (session : Session) (insn : CsInsn)
    (mnemonic : Text) (addr : Word) (analyse other : Bool) (code : List α) :
    Alike (recordAssignment session insn mnemonic addr analyse code g)
      (recordAssignment session insn mnemonic addr other code h) := by
  rw [recordAssignment, recordAssignment]
  split
  · exact assignRegister_alike same session insn mnemonic addr code analyse other
  · exact ⟨rfl, same⟩

theorem translateCode_alike (same : SameMaps g h) (session : Session) (insn : CsInsn)
    (mnemonic : Text) (addr : Word) (code : List α) (analyse other : Bool) :
    Alike (translateCode session insn mnemonic addr code analyse g)
      (translateCode session insn mnemonic addr code other h) := by
  have flags : SameMaps (useFlagsOf insn g) (useFlagsOf insn h) :=
    ⟨same.map, by rw [useFlagsOf, useFlagsOf, same.flags]⟩
  have parsed := parseFrom_alike flags insn analyse other insn.opCount 0 code
  have assigned := parsed.bind fun code g h same =>
    recordAssignment_alike same session insn mnemonic addr analyse other code
  have named := assigned.bind fun code g h same =>
    replaceSymbols_alike same session insn analyse other code
  refine ⟨named.text, ?_⟩
  rw [translateCode, translateCode]
  dsimp only
  split
  · exact ⟨named.maps.clear.map, rfl⟩
  · exact named.maps

end Globals

end VitaTools.Passes
