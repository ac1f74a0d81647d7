import VitaTools.Passes.Halves
import VitaTools.Passes.Inside
import VitaTools.Passes.Segments

set_option autoImplicit false

namespace VitaTools.Passes

open VitaTools.Library VitaTools.Library.Traced
open VitaTools.Decompiler (Text Word getImmString hexDigits hexChar)

/-- A `movw`, or a `mov` of an immediate. -/
structure LoadsLow (insn : CsInsn) (reg lo : Word) : Prop where
  mnemonic : mnemonicOf insn = "movw".toList ∨ mnemonicOf insn = "mov".toList
  immediate : Immediate insn reg lo

structure LoadsHigh (insn : CsInsn) (reg hi : Word) : Prop where
  mnemonic : mnemonicOf insn = "movt".toList
  immediate : Immediate insn reg hi

theorem getInstructionCode_single (insn : CsInsn) (mnemonic text : String)
    (found : instructions.lookup mnemonic = some text)
    (single : instructions2.lookup mnemonic = none) :
    ∃ rest, (getInstructionCode insn mnemonic.toList : Text) = text.toList ++ rest := by
  rw [getInstructionCode, String.ofList_toList, found]
  simp only [template_char, single, Option.getD_none, ite_self]
  exact ⟨_, rfl⟩

theorem low_code {insn : CsInsn}
    (mnemonic : mnemonicOf insn = "movw".toList ∨ mnemonicOf insn = "mov".toList) :
    ∃ rest, codeOf insn = "op0 = op1".toList ++ ';' :: rest := by
  rcases mnemonic with movw | mov
  · rw [codeOf, movw]
    exact getInstructionCode_single insn "movw" "op0 = op1;" (by decide) (by decide)
  · rw [codeOf, mov]
    exact getInstructionCode_single insn "mov" "op0 = op1;" (by decide) (by decide)

theorem LoadsHigh.code {insn : CsInsn} {reg hi : Word} (loads : LoadsHigh insn reg hi) :
    ∃ rest, codeOf insn = "op0 = op10000 | op0".toList ++ ';' :: rest := by
  rw [codeOf, loads.mnemonic]
  exact getInstructionCode_single insn "movt" "op0 = op10000 | op0;" (by decide) (by decide)

theorem LoadsLow.assigns {insn : CsInsn} {reg lo : Word} (loads : LoadsLow insn reg lo)
    (half : lo.toNat < 2 ^ 16) (g : Globals Char) :
    Assigns reg (getImmString lo false) (g.parsed insn (codeOf insn)) := by
  obtain ⟨rest, code⟩ := low_code loads.mnemonic
  have first : assignsFirst (codeOf insn) = true := by
    rw [code]
    rfl
  rw [parsed_immediate loads.immediate first, code]
  exact assigns_low reg (fun c member => (getImmString_letters half c member).1) rest

theorem LoadsHigh.assigns {insn : CsInsn} {reg hi : Word} (loads : LoadsHigh insn reg hi)
    (half : hi.toNat < 2 ^ 16) (g : Globals Char) :
    Assigns reg (getImmString hi false ++ "0000 | ".toList ++ (variableOf reg).toList)
      (g.parsed insn (codeOf insn)) := by
  obtain ⟨rest, code⟩ := loads.code
  have first : assignsFirst (codeOf insn) = true := by
    rw [code]
    rfl
  rw [parsed_immediate loads.immediate first, code]
  exact assigns_high reg (fun c member => (getImmString_letters half c member).1) rest

theorem getImmString_cons {imm : Word} (half : imm.toNat < 2 ^ 16) :
    ∃ c rest, getImmString imm false = c :: rest ∧ c ≠ 's' := by
  obtain ⟨prefixed, digits, text, some, -, -⟩ := getImmString_half half
  obtain ⟨digit, later, rfl⟩ := List.exists_cons_of_ne_nil some
  have letters := getImmString_letters half
  cases shape : getImmString imm false with
  | nil =>
      rw [shape] at text
      cases prefixed <;> cases text
  | cons c rest =>
      rw [shape] at letters
      exact ⟨c, rest, rfl, (letters c List.mem_cons_self).2.2⟩

namespace Globals

-- The value that a `movt` completes.
def constant (g : Globals Char) (insn : CsInsn) : Option Word :=
  let code := g.parsed insn (codeOf insn)
  if isAssignment code && !insn.conditional && mnemonicOf insn == "movt".toList then
    (g.lowHalf (insn.operands 0).base).map fun entry =>
      strToHex (cutAt [' '] (assignedText code)) ||| strToHex entry.assign
  else none

end Globals

theorem LoadsHigh.constant {insn : CsInsn} {reg hi : Word} (loads : LoadsHigh insn reg hi)
    (half : hi.toNat < 2 ^ 16) (known : (regNames.lookup reg).isSome = true) (g : Globals Char) :
    g.constant insn =
      if insn.conditional then none
      else (g.lowHalf reg).map fun entry => hi <<< 16 ||| strToHex entry.assign := by
  have assigns := loads.assigns half g
  obtain ⟨c, rest, shape, other⟩ := getImmString_cons half
  have recorded := assigns.isAssignment known ⟨c, _, by rw [shape]; rfl, other⟩
  have digits : ' ' ∉ getImmString hi false ++ "0000".toList := by
    intro member
    rcases List.mem_append.mp member with digit | zero
    · exact absurd (getImmString_letters half _ digit).1 (by decide)
    · exact absurd zero (by decide)
  have cut : cutAt [' '] (getImmString hi false ++ "0000 | ".toList ++ (variableOf reg).toList) =
      getImmString hi false ++ "0000".toList := by
    have front := cutAt_front digits ("| ".toList ++ (variableOf reg).toList)
    rw [List.append_assoc] at front ⊢
    exact front
  simp only [Globals.constant, recorded, loads.mnemonic, loads.immediate.reg,
    assigns.assignedText known, cut, strToHex_shifted half, beq_self_eq_true, Bool.and_true,
    Bool.true_and, Bool.not_eq_true']
  cases insn.conditional <;> rfl

def Keeps (reg : Word) (insn : CsInsn) : Prop :=
  Globals.isCall (mnemonicOf insn) = false ∧
    (assignsFirst (codeOf insn) = true → (insn.operands 0).base ≠ reg)

variable {m : Module} {session : Session} {reg lo hi : Word} {c : Cursor} {g : Globals Char}

theorem LoadsLow.not_call {insn : CsInsn} (loads : LoadsLow insn reg lo) :
    Globals.isCall (mnemonicOf insn) = false := by
  rcases loads.mnemonic with movw | mov
  · rw [movw]
    decide
  · rw [mov]
    decide

theorem LoadsLow.entry {insn : CsInsn} (loads : LoadsLow insn reg lo) (half : lo.toNat < 2 ^ 16)
    (known : (regNames.lookup reg).isSome = true) (unconditional : insn.conditional = false)
    (addr : Word) (analyse : Bool) (g : Globals Char) :
    (Globals.translateCode session insn (mnemonicOf insn) addr (codeOf insn) analyse
        g).2.regAssignMap reg = some ⟨getImmString lo false, addr, insn.updateFlags⟩ := by
  have assigns := loads.assigns half g
  obtain ⟨first, rest, shape, other⟩ := getImmString_cons half
  have records := assigns.isAssignment known ⟨first, rest, shape, other⟩
  have notMovt : mnemonicOf insn ≠ "movt".toList := by
    rcases loads.mnemonic with movw | mov
    · rw [movw]
      decide
    · rw [mov]
      decide
  rw [Globals.translateCode_map, loads.not_call, if_neg (by simp), Globals.records, records,
    if_pos ⟨rfl, loads.immediate.reg.symm⟩, Globals.recorded, Globals.assignRegister]
  simp only [unconditional, Bool.false_eq_true, if_false, if_neg notMovt,
    assigns.assignedText known, loads.immediate.reg, Globals.assign, Function.update_self]

theorem Keeps.translateCode_map {insn : CsInsn} (keeps : Keeps reg insn)
    (known : (codeOf insn).isEmpty = false) (addr : Word) (analyse : Bool) :
    (Globals.translateCode session insn (mnemonicOf insn) addr (codeOf insn) analyse
        g).2.regAssignMap reg = g.regAssignMap reg := by
  rw [Globals.translateCode_map, keeps.1, if_neg (by simp), if_neg]
  rintro ⟨records, same⟩
  exact keeps.2 (records_assigns known records) same.symm

theorem analyseCodePass_map (reg : Word) :
    (analyseCodePass m session g c).1.regAssignMap reg =
      match m.disasm.iter c with
      | none => (g.resetAt session c.address).regAssignMap reg
      | some insn =>
          if (codeOf insn).isEmpty then (g.resetAt session c.address).regAssignMap reg
          else (Globals.translateCode session insn (mnemonicOf insn) c.address (codeOf insn) true
            (g.resetAt session c.address)).2.regAssignMap reg := by
  rw [analyseCodePass, Module.disassemble]
  cases m.disasm.iter c with
  | none => rfl
  | some insn =>
      dsimp only
      split <;> split <;> first | rfl | contradiction

theorem analyseCodePass_keeps
    (keeps : ∀ insn, m.disasm.iter c = some insn → Keeps reg insn) :
    (analyseCodePass m session g c).1.regAssignMap reg =
      (g.resetAt session c.address).regAssignMap reg := by
  rw [analyseCodePass_map]
  cases decoded : m.disasm.iter c with
  | none => rfl
  | some insn =>
      dsimp only
      split
      next => rfl
      next known =>
        exact (keeps insn decoded).translateCode_map (Bool.eq_false_iff.mpr known) _ _

def Module.behind (m : Module) (count : Nat) (c : Cursor) : Cursor :=
  (fun c => (m.disassemble c).2)^[count] c

theorem Module.behind_succ (m : Module) (count : Nat) (c : Cursor) :
    m.behind (count + 1) c = (m.disassemble (m.behind count c)).2 :=
  Function.iterate_succ_apply' _ _ _

/-- A `movw` or `mov` of an immediate at `c` and, `between` instructions behind it, a `movt` to the
same register. In between the register is not assigned, nothing is called, and no branch goes to
an instruction up to the `movt`. -/
structure HalvesAt (m : Module) (session : Session) (reg lo hi : Word) (c : Cursor)
    (between : Nat) (movt : CsInsn) : Prop where
  known : (regNames.lookup reg).isSome = true
  lowHalf : lo.toNat < 2 ^ 16
  highHalf : hi.toNat < 2 ^ 16
  low : ∃ movw, m.disasm.iter c = some movw ∧ LoadsLow movw reg lo ∧ movw.conditional = false
  high : m.disasm.iter (m.behind (between + 1) c) = some movt
  loadsHigh : LoadsHigh movt reg hi
  keeps : ∀ k < between, ∀ insn, m.disasm.iter (m.behind (k + 1) c) = some insn → Keeps reg insn
  untargeted : ∀ k ≤ between, ∀ symbol,
    session.symbolMap (m.behind (k + 1) c).address = some symbol →
      symbol.is (symbolSubroutine ||| symbolLabel) = false

-- No symbol of any kind up to the `movt`.
def SymbolFree (m : Module) (session : Session) (c : Cursor) (between : Nat) : Prop :=
  ∀ k ≤ between, session.symbolMap (m.behind (k + 1) c).address = none

theorem resetAt_free {address : Word} (free : session.symbolMap address = none)
    (g : Globals Char) : g.resetAt session address = g := by
  rw [Globals.resetAt, free]
  rfl

theorem resetAt_entry_none {address : Word} (cleared : g.regAssignMap reg = none) :
    (g.resetAt session address).regAssignMap reg = none := by
  rw [Globals.resetAt]
  split
  · rfl
  · exact cleared

theorem analyseCode_behind (m : Module) (session : Session) (g : Globals Char) (c : Cursor)
    (count : Nat) :
    ((analyseCodeLoop m session).pass^[count] (g, c)).2 = m.behind count c := by
  induction count with
  | zero => rfl
  | succ count ih =>
      rw [Function.iterate_succ_apply', Module.behind_succ, ← ih]
      exact analyseCodePass_cursor m session _ _

variable {between : Nat} {movt : CsInsn}

theorem HalvesAt.pass_keeps (halves : HalvesAt m session reg lo hi c between movt) (k : Nat)
    (inside : k < between) :
    ((analyseCodeLoop m session).pass
        ((analyseCodeLoop m session).pass^[k + 1] (g, c))).1.regAssignMap reg =
      (((analyseCodeLoop m session).pass^[k + 1] (g, c)).1.resetAt session
        (m.behind (k + 1) c).address).regAssignMap reg := by
  have cursor := analyseCode_behind m session g c (k + 1)
  rw [← cursor]
  apply analyseCodePass_keeps
  rw [cursor]
  exact halves.keeps k inside

theorem HalvesAt.entry (halves : HalvesAt m session reg lo hi c between movt)
    (free : SymbolFree m session c between) (k : Nat) (inside : k ≤ between) :
    ∃ entry, ((analyseCodeLoop m session).pass^[k + 1] (g, c)).1.regAssignMap reg = some entry ∧
      entry.assign = getImmString lo false := by
  obtain ⟨movw, decoded, low, unconditional⟩ := halves.low
  induction k with
  | zero =>
      obtain ⟨rest, code⟩ := low_code low.mnemonic
      have loaded : (analyseCodePass m session g c).1.regAssignMap reg =
          some ⟨getImmString lo false, c.address, movw.updateFlags⟩ := by
        rw [analyseCodePass_map, decoded]
        dsimp only
        rw [if_neg (by simp [code])]
        exact low.entry halves.lowHalf halves.known unconditional _ _ _
      exact ⟨_, loaded, rfl⟩
  | succ k ih =>
      obtain ⟨entry, found, assign⟩ := ih (by omega)
      refine ⟨entry, ?_, assign⟩
      rw [Function.iterate_succ_apply', ← found]
      exact (halves.pass_keeps k (by omega)).trans
        (by rw [resetAt_free (free k (by omega))])

theorem HalvesAt.no_entry (halves : HalvesAt m session reg lo hi c between movt) {first : Nat}
    (symbol : session.symbolMap (m.behind (first + 1) c).address ≠ none) (k : Nat)
    (behind : first ≤ k) (inside : k ≤ between) :
    (((analyseCodeLoop m session).pass^[k + 1] (g, c)).1.resetAt session
      (m.behind (k + 1) c).address).regAssignMap reg = none := by
  induction k, behind using Nat.le_induction with
  | base =>
      rw [Globals.resetAt, if_pos (Option.isSome_iff_ne_none.mpr symbol)]
      rfl
  | succ k behind ih =>
      apply resetAt_entry_none
      rw [Function.iterate_succ_apply']
      exact (halves.pass_keeps k (by omega)).trans (ih (by omega))

-- The value that the first run of `analyseSymbols` completes.
def Symbols.constant (s : Symbols) (insn : CsInsn) : Word :=
  (insn.operands 1).base <<< 16 ||| s.movwMap (insn.operands 0).base

theorem analyseSymbols_behind (m : Module) (s : Symbols) (c : Cursor) (count : Nat) :
    ((analyseSymbolsLoop m false).pass^[count] (s, c)).2 = m.behind count c := by
  induction count with
  | zero => rfl
  | succ count ih =>
      rw [Function.iterate_succ_apply', Module.behind_succ, ← ih]
      exact analyseSymbolsPass_cursor m false _ _

theorem addSymbol_movwMap (s : Symbols) (addr : Word) (name : Text) (type : Word) :
    (s.addSymbol addr name type).movwMap = s.movwMap := by
  rw [Symbols.addSymbol]
  split <;> rfl

theorem firstRun_movwMap (m : Module) (insn : CsInsn) (s : Symbols) :
    (s.firstRun m insn).movwMap =
      if mnemonicOf insn = "mov".toList ∨ mnemonicOf insn = "movw".toList then
        Function.update s.movwMap (insn.operands 0).base (insn.operands 1).base
      else s.movwMap := by
  have text (mnemonic : String) : mnemonicOf insn = mnemonic.toList ↔
      String.ofList (trimMnemonic insn).1 = mnemonic := by
    rw [mnemonicOf, ← String.toList_inj, String.toList_ofList]
  simp only [text, Symbols.firstRun]
  generalize String.ofList (trimMnemonic insn).1 = mnemonic
  by_cases mov : mnemonic = "mov" ∨ mnemonic = "movw"
  next =>
    rw [if_pos mov]
    rcases mov with rfl | rfl <;> simp
  next =>
    rw [if_neg mov]
    split_ifs <;> simp [Symbols.addLabel, Symbols.addSubroutine, addSymbol_movwMap]

theorem Keeps.firstRun {insn : CsInsn} (keeps : Keeps reg insn) (s : Symbols) :
    (s.firstRun m insn).movwMap reg = s.movwMap reg := by
  rw [firstRun_movwMap]
  split
  next mov =>
    obtain ⟨rest, code⟩ := low_code mov.symm
    have first : assignsFirst (codeOf insn) = true := by
      rw [code]
      rfl
    rw [Function.update_of_ne (keeps.2 first).symm]
  next => rfl

theorem HalvesAt.movwMap (halves : HalvesAt m session reg lo hi c between movt) (s : Symbols)
    (k : Nat) (inside : k ≤ between) :
    ((analyseSymbolsLoop m false).pass^[k + 1] (s, c)).1.movwMap reg = lo := by
  obtain ⟨movw, decoded, low, -⟩ := halves.low
  induction k with
  | zero =>
      have loaded : ((analyseSymbolsPass m false s c).1).movwMap reg = lo := by
        simp only [analyseSymbolsPass, Module.disassemble, decoded, Bool.not_false, if_true]
        rw [firstRun_movwMap, if_pos low.mnemonic.symm, low.immediate.reg, low.immediate.imm,
          Function.update_self]
      exact loaded
  | succ k ih =>
      have cursor := analyseSymbols_behind m s c (k + 1)
      rw [Function.iterate_succ_apply', ← ih (by omega)]
      generalize (analyseSymbolsLoop m false).pass^[k + 1] (s, c) = state at cursor ⊢
      change (analyseSymbolsPass m false state.1 state.2).1.movwMap reg = _
      rw [analyseSymbolsPass, cursor, Module.disassemble]
      cases here : m.disasm.iter (m.behind (k + 1) c) with
      | none => rfl
      | some insn => exact (halves.keeps k (by omega) insn here).firstRun state.1

theorem HalvesAt.together (free : SymbolFree m session c between) (out : Output Char)
    (code : session.isImport c.address = false) (k : Nat) (inside : k ≤ between) :
    let s := (decompileLoop m session).pass^[k + 1] (out, c)
    s.2 = m.behind (k + 1) c ∧
      SameMaps ((analyseCodeLoop m session).pass^[k + 1] (out.globals, c)).1 s.1.globals := by
  induction k with
  | zero =>
      obtain ⟨cursor, maps⟩ := passes_alike (m := m) (c := c) (g := out.globals) (by simp [code])
        (SameMaps.refl (out.globals.resetAt session c.address))
      exact ⟨cursor.symm.trans (analyseCodePass_cursor m session out.globals c), maps⟩
  | succ k ih =>
      obtain ⟨cursor, maps⟩ := ih (by omega)
      have there := analyseCode_behind m session out.globals c (k + 1)
      simp only [Function.iterate_succ_apply' _ (k + 1)]
      generalize (analyseCodeLoop m session).pass^[k + 1] (out.globals, c) = s at maps there ⊢
      generalize (decompileLoop m session).pass^[k + 1] (out, c) = t at cursor maps ⊢
      obtain ⟨g, d⟩ := s
      obtain ⟨out, e⟩ := t
      obtain rfl : d = m.behind (k + 1) c := there
      obtain rfl : e = m.behind (k + 1) c := cursor
      have noStub : ¬ session.isImport (m.behind (k + 1) c).address = true := fun stub => by
        have symbol := isImport_symbol stub
        rw [free k (by omega)] at symbol
        contradiction
      obtain ⟨cursors, maps⟩ := passes_alike noStub (maps.resetAt session _)
      refine ⟨?_, maps⟩
      rw [Module.behind_succ m (k + 1)]
      exact cursors.symm.trans (analyseCodePass_cursor m session g _)

theorem constant_alike {h : Globals Char} (same : SameMaps g h) (insn : CsInsn) :
    g.constant insn = h.constant insn := by
  have flags : SameMaps (Globals.useFlagsOf insn g) (Globals.useFlagsOf insn h) :=
    ⟨same.map, by rw [Globals.useFlagsOf, Globals.useFlagsOf, same.flags]⟩
  have parsed : g.parsed insn (codeOf insn) = h.parsed insn (codeOf insn) :=
    (Globals.parseFrom_alike flags insn false false insn.opCount 0 (codeOf insn)).text
  rw [Globals.constant, Globals.constant, parsed, Globals.lowHalf_alike same]

/-- Both analyses, and the output pass where it comes to the first instruction, recover the
value. -/
structure Recovers (m : Module) (session : Session) (c : Cursor) (between : Nat) (movt : CsInsn)
    (value : Word) : Prop where
  symbols : ∀ s, ((analyseSymbolsLoop m false).pass^[between + 1] (s, c)).1.constant movt = value
  analysed : ∀ g : Globals Char,
    (((analyseCodeLoop m session).pass^[between + 1] (g, c)).1.resetAt session
      (m.behind (between + 1) c).address).constant movt = some value
  decompiled : ∀ out : Output Char, session.isImport c.address = false →
    let s := (decompileLoop m session).pass^[between + 1] (out, c)
    s.2 = m.behind (between + 1) c ∧
      (s.1.globals.resetAt session s.2.address).constant movt = some value

theorem HalvesAt.recovers_iff (halves : HalvesAt m session reg lo hi c between movt) :
    Recovers m session c between movt (hi <<< 16 ||| lo) ↔
      movt.conditional = false ∧ SymbolFree m session c between := by
  have joined (g : Globals Char) := halves.loadsHigh.constant halves.highHalf halves.known g
  constructor
  · intro recovers
    have found := recovers.analysed Globals.initial
    rw [joined] at found
    constructor
    · by_contra conditional
      rw [if_pos (Bool.of_not_eq_false conditional)] at found
      cases found
    · intro k inside
      by_contra symbol
      have cleared := halves.no_entry (g := Globals.initial) symbol between inside (Nat.le_refl _)
      rw [Globals.lowHalf, cleared] at found
      split at found <;> cases found
  · rintro ⟨unconditional, free⟩
    have analysed (g : Globals Char) :
        (((analyseCodeLoop m session).pass^[between + 1] (g, c)).1.resetAt session
          (m.behind (between + 1) c).address).constant movt = some (hi <<< 16 ||| lo) := by
      obtain ⟨entry, found, assign⟩ := halves.entry (g := g) free between (Nat.le_refl _)
      have number : (isHex entry.assign || isDec entry.assign) = true := by
        obtain ⟨prefixed, digits, text, -, -, number⟩ := getImmString_half halves.lowHalf
        rwa [assign, text]
      rw [joined, unconditional, resetAt_free (free between (Nat.le_refl _)), Globals.lowHalf,
        found, Option.filter_some, spell_char, if_pos number]
      simp [assign, strToHex_half halves.lowHalf]
    refine ⟨fun s => ?_, analysed, fun out code => ?_⟩
    · rw [Symbols.constant, halves.loadsHigh.immediate.imm, halves.loadsHigh.immediate.reg,
        halves.movwMap s between (Nat.le_refl _)]
    · obtain ⟨cursor, maps⟩ := HalvesAt.together free out code between (Nat.le_refl _)
      refine ⟨cursor, ?_⟩
      rw [cursor, ← constant_alike (maps.resetAt session _)]
      exact analysed out.globals

end VitaTools.Passes
