import VitaTools.Passes.Record
import VitaTools.Passes.Inside

set_option autoImplicit false

namespace VitaTools.Passes

open VitaTools.Library VitaTools.Library.Traced
open VitaTools.Decompiler (Text Word)

namespace Globals

variable (g : Globals Char) (insn : CsInsn) (reg : Word)

def renews : Bool :=
  !(codeOf insn).isEmpty && !(isCall (mnemonicOf insn) && scratch reg) &&
    g.records insn (codeOf insn) && !insn.conditional && reg == (insn.operands 0).base

def drops : Bool :=
  !(codeOf insn).isEmpty &&
    (isCall (mnemonicOf insn) && scratch reg ||
      g.records insn (codeOf insn) && insn.conditional && reg == (insn.operands 0).base)

end Globals

-- The entry of the register when the instruction, if there is one, has been handled.
def entryBehind (session : Session) (insn : Option CsInsn) (addr : Word) (g : Globals Char)
    (reg : Word) : Option (RegisterAssignmentEntry Char) :=
  match insn with
  | none => g.regAssignMap reg
  | some insn =>
      if (codeOf insn).isEmpty then g.regAssignMap reg
      else (Globals.translateCode session insn (mnemonicOf insn) addr (codeOf insn) false
        g).2.regAssignMap reg

structure Handler (session : Session) (State : Type) where
  globals : State → Globals Char
  pass : State → Cursor → State × Cursor
  insn : Cursor → Option CsInsn
  entry : ∀ s c reg, (globals (pass s c).1).regAssignMap reg =
    entryBehind session (insn c) c.address ((globals s).resetAt session c.address) reg

theorem analyseCodePass_entry (m : Module) (session : Session) (g : Globals Char) (c : Cursor)
    (reg : Word) :
    (analyseCodePass m session g c).1.regAssignMap reg =
      entryBehind session (m.disasm.iter c) c.address (g.resetAt session c.address) reg := by
  rw [analyseCodePass, Module.disassemble]
  cases m.disasm.iter c with
  | none => rfl
  | some insn =>
      dsimp only
      rw [entryBehind, codeOf, mnemonicOf]
      split
      · rfl
      · rw [(Globals.translateCode_alike (SameMaps.refl _) session insn _ _ _ true false).maps.map]

def analyseCodeHandler (m : Module) (session : Session) : Handler session (Globals Char) where
  globals := id
  pass := analyseCodePass m session
  insn := m.disasm.iter
  entry := analyseCodePass_entry m session

theorem decompilePass_entry (m : Module) (session : Session) (out : Output Char) (c : Cursor)
    (reg : Word) :
    (decompilePass m session out c).1.globals.regAssignMap reg =
      entryBehind session (if session.isImport c.address then none else m.disasm.iter c) c.address
        (out.globals.resetAt session c.address) reg := by
  rw [decompilePass, Module.disassemble]
  split
  · rfl
  · cases m.disasm.iter c with
    | none => rfl
    | some insn =>
        dsimp only
        rw [entryBehind, pseudoCode_globals, codeOf, mnemonicOf]
        split <;> rfl

def decompileHandler (m : Module) (session : Session) : Handler session (Output Char) where
  globals := Output.globals
  pass := decompilePass m session
  insn c := if session.isImport c.address then none else m.disasm.iter c
  entry := decompilePass_entry m session

section

variable {session : Session} {insn : CsInsn} {addr reg : Word} {g : Globals Char}

theorem entryBehind_renews (renews : g.renews insn reg = true) :
    ∃ entry, entryBehind session (some insn) addr g reg = some entry ∧ entry.addr = addr := by
  simp only [Globals.renews, Bool.and_eq_true, Bool.not_eq_true', beq_iff_eq] at renews
  obtain ⟨⟨⟨⟨known, noCall⟩, records⟩, unconditional⟩, same⟩ := renews
  rw [entryBehind, if_neg (by simp [known]), Globals.translateCode_map,
    if_neg (by simpa using noCall), if_pos ⟨records, same⟩]
  exact Globals.recorded_some unconditional

theorem entryBehind_drops (drops : g.drops insn reg = true) :
    entryBehind session (some insn) addr g reg = none := by
  simp only [Globals.drops, Bool.and_eq_true, Bool.not_eq_true', Bool.or_eq_true,
    beq_iff_eq] at drops
  obtain ⟨known, call | ⟨⟨records, conditional⟩, same⟩⟩ := drops
  · rw [entryBehind, if_neg (by simp [known]), Globals.translateCode_map, if_pos call]
  · rw [entryBehind, if_neg (by simp [known]), Globals.translateCode_map]
    split
    · rfl
    · rw [if_pos ⟨records, same⟩]
      exact Globals.recorded_conditional conditional

theorem entryBehind_keeps (noDrop : g.drops insn reg = false)
    (noEntry : g.renews insn reg = false) :
    entryBehind session (some insn) addr g reg = g.regAssignMap reg := by
  rw [entryBehind]
  split
  next => rfl
  next known =>
    have known : (codeOf insn).isEmpty = false := Bool.eq_false_iff.mpr known
    simp only [Globals.drops, Globals.renews, known, Bool.not_false, Bool.true_and]
      at noDrop noEntry
    rw [Globals.translateCode_map]
    split
    next call => simp [call] at noDrop
    next noCall =>
      rw [if_neg]
      rintro ⟨records, same⟩
      have notCall : (Globals.isCall (mnemonicOf insn) && scratch reg) = false := by
        simpa using noCall
      rw [notCall, records, same] at noDrop
      rw [notCall, records, same] at noEntry
      cases conditional : insn.conditional <;> simp [conditional] at noDrop noEntry

end

abbrev Marks := Word → Bool

def marksBehind (modifies : CsInsn → Word → Bool) (insn : Option CsInsn) (g after : Globals Char)
    (marks : Marks) : Marks := fun reg =>
  match insn with
  | none => marks reg
  | some insn =>
      (after.regAssignMap reg).isSome && !g.renews insn reg && (marks reg || modifies insn reg)

namespace Handler

variable {session : Session} {State : Type} (h : Handler session State)
variable (modifies : CsInsn → Word → Bool)

def loop : Loop (State × Cursor) := sweep h.pass

def before (s : State × Cursor) : Globals Char := (h.globals s.1).resetAt session s.2.address

def trackedPass (s : State × Marks) (c : Cursor) : (State × Marks) × Cursor :=
  let (state, after) := h.pass s.1 c
  -- A symbol clears the map, and the marks with it.
  let marks := if (session.symbolMap c.address).isSome then fun _ => false else s.2
  ((state, marksBehind modifies (h.insn c) (h.before (s.1, c)) (h.globals state) marks), after)

def tracked : Loop ((State × Marks) × Cursor) := sweep (h.trackedPass modifies)

/-- Behind each instruction the registers it may change have no entry or the one it has made, and
no entry is ever older than the last change of its register. -/
structure NoStale (start : State × Cursor) : Prop where
  fresh : ∀ s, h.loop.Visits start s → s.2.size ≠ 0 → ∀ insn, h.insn s.2 = some insn →
    ∀ reg, modifies insn reg = true →
      (h.globals (h.pass s.1 s.2).1).regAssignMap reg = none ∨
        (h.before s).renews insn reg = true ∧
          ∃ entry, (h.globals (h.pass s.1 s.2).1).regAssignMap reg = some entry ∧
            entry.addr = s.2.address
  lasting : ∀ s, (h.tracked modifies).Visits ((start.1, fun _ => false), start.2) s →
    ∀ reg, s.1.2 reg = false

/-- Each register that an instruction may change has no entry before it, gets a new one or
loses its own. -/
def Covered (start : State × Cursor) : Prop :=
  ∀ s, h.loop.Visits start s → s.2.size ≠ 0 → ∀ insn, h.insn s.2 = some insn →
    ∀ reg, modifies insn reg = true →
      (h.before s).regAssignMap reg = none ∨ (h.before s).renews insn reg = true ∨
        (h.before s).drops insn reg = true

variable {h modifies}

theorem behind_iff {s : State × Cursor} {insn : CsInsn} (handled : h.insn s.2 = some insn)
    (reg : Word) :
    ((h.globals (h.pass s.1 s.2).1).regAssignMap reg = none ∨
        (h.before s).renews insn reg = true) ↔
      (h.before s).regAssignMap reg = none ∨ (h.before s).renews insn reg = true ∨
        (h.before s).drops insn reg = true := by
  rw [h.entry, handled]
  change entryBehind session (some insn) s.2.address (h.before s) reg = none ∨ _ ↔ _
  cases renews : (h.before s).renews insn reg with
  | true => simp
  | false =>
      cases drops : (h.before s).drops insn reg with
      | true => simp [entryBehind_drops drops]
      | false => simp [entryBehind_keeps drops renews]

theorem tracked_visits {start : State × Cursor} {s : (State × Marks) × Cursor}
    (visited : (h.tracked modifies).Visits ((start.1, fun _ => false), start.2) s) :
    h.loop.Visits start (s.1.1, s.2) :=
  visited.map (fun s => (s.1.1, s.2)) (fun _ => rfl) fun _ => rfl

theorem noStale_iff (start : State × Cursor) :
    h.NoStale modifies start ↔ h.Covered modifies start := by
  constructor
  · intro noStale s visited nonzero insn handled reg changed
    refine (behind_iff handled reg).mp ((noStale.fresh s visited nonzero insn handled reg
      changed).imp_right And.left)
  · intro covered
    constructor
    · intro s visited nonzero insn handled reg changed
      have here := (behind_iff handled reg).mpr (covered s visited nonzero insn handled reg changed)
      refine here.imp_right fun renews => ⟨renews, ?_⟩
      rw [h.entry, handled]
      exact entryBehind_renews renews
    · intro s visited
      apply visited.invariant fun s => ∀ reg, s.1.2 reg = false
      · exact fun _ => rfl
      · intro s reached unmarked more reg
        have nonzero : s.2.size ≠ 0 := sweep_more.mp more
        have quiet : (if (session.symbolMap s.2.address).isSome then fun _ => false
            else s.1.2) reg = false := by
          split
          · rfl
          · exact unmarked reg
        change marksBehind modifies (h.insn s.2) (h.before (s.1.1, s.2))
          (h.globals (h.pass s.1.1 s.2).1) _ reg = false
        cases handled : h.insn s.2 with
        | none => exact quiet
        | some insn =>
            rw [marksBehind, quiet, Bool.false_or]
            cases changed : modifies insn reg with
            | false => simp
            | true =>
                have visited := tracked_visits reached
                rcases (behind_iff (s := (s.1.1, s.2)) handled reg).mpr
                    (covered _ visited nonzero insn handled reg changed) with gone | renews
                · simp [gone]
                · simp [renews]

end Handler

/-- No expression is older than its register exactly when each register that an instruction may
change has no entry before it, gets a new one or loses its own. -/
theorem expressions_fresh_iff (modifies : CsInsn → Word → Bool) (m : Module) (session : Session)
    (analysed : Globals Char × Cursor) (decompiled : Output Char × Cursor) :
    ((analyseCodeHandler m session).NoStale modifies analysed ∧
        (decompileHandler m session).NoStale modifies decompiled) ↔
      (analyseCodeHandler m session).Covered modifies analysed ∧
        (decompileHandler m session).Covered modifies decompiled :=
  and_congr (Handler.noStale_iff analysed) (Handler.noStale_iff decompiled)

-- mov r4, #5
def movFour : CsInsn :=
  ⟨"mov".toList, [], 2, false, false, 2, fun i =>
    if i = 0 then operand .reg ArmReg.r4 else operand .imm 5⟩

-- sdiv r4, r1, r2
def sdivFour : CsInsn :=
  ⟨"sdiv".toList, [], 4, false, false, 3, fun i =>
    operand .reg (if i = 0 then ArmReg.r4 else if i = 1 then ArmReg.r1 else ArmReg.r2)⟩

def sdivIter (c : Cursor) : Option CsInsn :=
  if c.address = 0x81000000 ∧ 2 ≤ c.size.toNat then some movFour
  else if c.address = 0x81000002 ∧ 4 ≤ c.size.toNat then some sdivFour
  else none

def sdivModule : Module where
  textAddr := 0x81000000
  textSize := 0x10
  modInfoOffset := 6
  disasm :=
    { iter := sdivIter
      consumes := by
        intro c insn decoded
        rw [sdivIter] at decoded
        split_ifs at decoded <;> cases decoded
        · exact .inl rfl
        · exact .inr rfl
      remains := by
        intro c insn decoded
        rw [sdivIter] at decoded
        split_ifs at decoded with first second
        · cases decoded
          exact first.2
        · cases decoded
          exact second.2 }
  isascii4 _ := false
  stringAt _ := []

def sdivSession : Session where
  symbolMap address :=
    if address = 0x81000000 then
      some ⟨symbolSubroutine, Symbols.addressName "sub" address, 0, fun _ => 0⟩
    else none
  constantText _ := []

def writesFirst (insn : CsInsn) (reg : Word) : Bool := reg == (insn.operands 0).base

def sdivBehind : Cursor := ⟨4, 0x81000002⟩

theorem movFour_renews (g : Globals Char) : g.renews movFour ArmReg.r4 = true := rfl

theorem sdiv_not_covered {State : Type} (h : Handler sdivSession State) (state : State)
    (first : h.insn sdivModule.start = some movFour) (second : h.insn sdivBehind = some sdivFour)
    (moves : (h.pass state sdivModule.start).2 = sdivBehind) :
    ¬ h.Covered writesFirst (state, sdivModule.start) := by
  intro covered
  have visited : h.loop.Visits (state, sdivModule.start) (h.pass state sdivModule.start) :=
    Loop.Visits.next .start rfl
  have entry := h.entry state sdivModule.start ArmReg.r4
  rw [first] at entry
  obtain ⟨assigned, made, -⟩ := @entryBehind_renews sdivSession movFour
    sdivModule.start.address ArmReg.r4 _ (movFour_renews _)
  rw [made] at entry
  generalize h.pass state sdivModule.start = s at visited moves entry
  obtain ⟨behind, c⟩ := s
  obtain rfl : c = sdivBehind := moves
  have nonzero : sdivBehind.size ≠ 0 := by decide
  rcases covered _ visited nonzero sdivFour second ArmReg.r4 (by decide) with
    gone | renews | drops
  · have kept : (h.before (behind, sdivBehind)).regAssignMap ArmReg.r4 = some assigned := entry
    rw [kept] at gone
    cases gone
  · cases renews
  · cases drops

theorem sdiv_stale :
    ¬ (analyseCodeHandler sdivModule sdivSession).NoStale writesFirst
        (Globals.initial, sdivModule.start) ∧
      ¬ (decompileHandler sdivModule sdivSession).NoStale writesFirst
        (⟨Globals.initial, []⟩, sdivModule.start) := by
  rw [Handler.noStale_iff, Handler.noStale_iff]
  constructor
  · exact sdiv_not_covered _ _ rfl rfl (analyseCodePass_cursor _ _ _ _)
  · exact sdiv_not_covered _ _ rfl rfl (decompilePass_cursor _ _ _ _)

end VitaTools.Passes
