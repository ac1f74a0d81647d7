import VitaTools.Passes.SameMaps
import VitaTools.Passes.Inside

set_option autoImplicit false

namespace VitaTools.Passes

open VitaTools.Library
open VitaTools.Decompiler (Text Word)

variable {α : Type}

theorem SameMaps.resetAt {g h : Globals α} (same : SameMaps g h) (session : Session)
    (address : Word) :
    SameMaps (g.resetAt session address) (h.resetAt session address) := by
  rw [Globals.resetAt, Globals.resetAt]
  split
  · exact ⟨rfl, rfl⟩
  · exact same

theorem resetAt_symbol {session : Session} {address : Word}
    (symbol : (session.symbolMap address).isSome = true) (g : Globals α) :
    SameMaps (g.resetAt session address) .initial := by
  rw [Globals.resetAt, if_pos symbol]
  exact ⟨rfl, rfl⟩

theorem resetAt_initial (session : Session) {g : Globals α} (clear : SameMaps g .initial)
    (address : Word) :
    SameMaps (g.resetAt session address) .initial := by
  have reset := clear.resetAt session address
  refine ⟨reset.map.trans ?_, reset.flags.trans ?_⟩ <;>
    rw [Globals.resetAt] <;> split <;> rfl

variable [Alphabet α]

-- The arguments of `translateCode` and the globals it reads. The template belongs to the
-- instruction.
structure Handed (α : Type) where
  insn : CsInsn
  addr : Word
  regAssignMap : Word → Option (RegisterAssignmentEntry α)
  useFlags : Bool

section

variable (m : Module) (session : Session)

def handedAt (g : Globals α) (c : Cursor) : Option (Handed α) :=
  match m.disasm.iter c with
  | none => none
  | some insn =>
      let code : List α := getInstructionCode insn (trimMnemonic insn).1
      let g := g.resetAt session c.address
      if code.isEmpty then none else some ⟨insn, c.address, g.regAssignMap, g.useFlags⟩

def analyseCodeHands (s : Globals α × Cursor) : Option (Handed α) := handedAt m session s.1 s.2

def decompileHands (s : Output α × Cursor) : Option (Handed α) :=
  if session.isImport s.2.address then none else handedAt m session s.1.globals s.2

def textOf (call : Handed α) (analyse : Bool) (g : Globals α) : List α :=
  (Globals.translateCode session call.insn (trimMnemonic call.insn).1 call.addr
    (getInstructionCode call.insn (trimMnemonic call.insn).1) analyse
    (g.resetAt session call.addr)).1

abbrev Analysed (s : Globals α × Cursor) : Prop :=
  (analyseCodeLoop m session).Visits (.initial, m.start) s

-- The heads of the passes of `decompile` when `analyseCode` has returned.
def Decompiled (s : Output α × Cursor) : Prop :=
  ∃ done c, Analysed m session (done, c) ∧ c.size = 0 ∧
    (decompileLoop m session).Visits (⟨done, []⟩, m.start) s

/-- `decompile` hands on what `analyseCode` handed on, and gets the same text for it. -/
def PassesAgree (α : Type) [Alphabet α] : Prop :=
  ∀ (s : Output α × Cursor) (call : Handed α), Decompiled m session s → s.2.size ≠ 0 →
    decompileHands m session s = some call →
      ∃ t, Analysed m session t ∧ t.2.size ≠ 0 ∧ analyseCodeHands m session t = some call ∧
        textOf session call false s.1.globals = textOf session call true t.1

def QuietSince (stub s : Output α × Cursor) : Prop :=
  (decompileLoop m session).system.Reachable (fun s _ => decompileHands m session s = none)
    ((decompileLoop m session).pass stub) s

/-- What `decompile` hands on first behind an import stub lies where `analyseCode` comes to with
an empty register-assignment map and `g_use_flags` clear. -/
def RejoinsBehindStubs (α : Type) [Alphabet α] : Prop :=
  ∀ stub s : Output α × Cursor, Decompiled m session stub → stub.2.size ≠ 0 →
    session.isImport stub.2.address = true → QuietSince m session stub s → s.2.size ≠ 0 →
      decompileHands m session s ≠ none →
        ∃ t : Globals α × Cursor, Analysed m session t ∧ t.2 = s.2 ∧
          SameMaps (t.1.resetAt session t.2.address) .initial

end

variable {m : Module} {session : Session}

theorem isImport_symbol {address : Word} (stub : session.isImport address = true) :
    (session.symbolMap address).isSome = true := by
  rw [Session.isImport] at stub
  cases found : session.symbolMap address with
  | none => simp [found] at stub
  | some _ => rfl

theorem pseudoCode_globals (insn : CsInsn) (addr : Word) (g : Globals α) :
    (g.pseudoCode session insn addr).2 =
      if (getInstructionCode insn (trimMnemonic insn).1 : List α).isEmpty then g
      else (Globals.translateCode session insn (trimMnemonic insn).1 addr
        (getInstructionCode insn (trimMnemonic insn).1) false g).2 := by
  rw [Globals.pseudoCode]
  dsimp only
  split
  · rfl
  · split <;> rfl

theorem passes_alike {out : Output α} {g : Globals α} {c : Cursor}
    (code : ¬ session.isImport c.address = true)
    (same : SameMaps (g.resetAt session c.address) (out.globals.resetAt session c.address)) :
    (analyseCodePass m session g c).2 = (decompilePass m session out c).2 ∧
      SameMaps (analyseCodePass m session g c).1 (decompilePass m session out c).1.globals := by
  rw [analyseCodePass_cursor, decompilePass_cursor, if_neg code]
  refine ⟨rfl, ?_⟩
  simp only [analyseCodePass, decompilePass, if_neg code]
  rcases m.disassemble c with ⟨_ | insn, after⟩
  · exact same
  · dsimp only
    rw [pseudoCode_globals]
    split
    · exact same
    · exact (Globals.translateCode_alike same session insn _ _ _ true false).maps

theorem decompilePass_quiet {out : Output α} {c : Cursor}
    (quiet : decompileHands m session (out, c) = none) :
    (decompilePass m session out c).1.globals = out.globals.resetAt session c.address := by
  rw [decompilePass]
  rw [decompileHands] at quiet
  split
  · rfl
  next code =>
    rw [if_neg code, handedAt] at quiet
    rw [Module.disassemble]
    cases decoded : m.disasm.iter c with
    | none => rfl
    | some insn =>
        simp only [decoded] at quiet
        split at quiet
        next blank =>
          dsimp only
          rw [pseudoCode_globals, if_pos blank]
        next => cases quiet

theorem analyseCode_sum {s : Globals α × Cursor} (visited : Analysed m session s) :
    s.2.address + s.2.size = m.textAddr + m.modInfoOffset := by
  refine visited.invariant (fun s => s.2.address + s.2.size = m.textAddr + m.modInfoOffset) rfl ?_
  intro s _ sum _
  obtain ⟨bytes, moved, -⟩ := m.disassemble_advance s.2
  have cursor : ((analyseCodeLoop m session).pass s).2 = s.2.advance bytes :=
    (analyseCodePass_cursor m session s.1 s.2).trans moved
  rw [cursor, Cursor.advance_sum, sum]

theorem decompile_sum {s : Output α × Cursor} (visited : Decompiled m session s) :
    s.2.address + s.2.size = m.textAddr + m.modInfoOffset := by
  obtain ⟨done, c, -, -, visited⟩ := visited
  refine visited.invariant (fun s => s.2.address + s.2.size = m.textAddr + m.modInfoOffset) rfl ?_
  intro s _ sum _
  have cursor : ∃ bytes, ((decompileLoop m session).pass s).2 = s.2.advance bytes := by
    obtain ⟨bytes, moved, -⟩ := m.disassemble_advance s.2
    rw [show ((decompileLoop m session).pass s).2 = _ from decompilePass_cursor m session s.1 s.2]
    split
    · exact ⟨0x10, rfl⟩
    · exact ⟨bytes, moved⟩
  obtain ⟨bytes, moved⟩ := cursor
  rw [moved, Cursor.advance_sum, sum]

theorem Decompiled.next {s : Output α × Cursor} (visited : Decompiled m session s)
    (nonzero : s.2.size ≠ 0) : Decompiled m session ((decompileLoop m session).pass s) := by
  obtain ⟨done, c, finished, zero, visited⟩ := visited
  exact ⟨done, c, finished, zero, visited.next (sweep_more.mpr nonzero)⟩

def Together (m : Module) (session : Session) (s : Output α × Cursor) : Prop :=
  ∃ t : Globals α × Cursor, Analysed m session t ∧ t.2 = s.2 ∧
    SameMaps (t.1.resetAt session s.2.address) (s.1.globals.resetAt session s.2.address)

def Apart (m : Module) (session : Session) (s : Output α × Cursor) : Prop :=
  SameMaps s.1.globals .initial ∧ ∃ stub, Decompiled m session stub ∧ stub.2.size ≠ 0 ∧
    session.isImport stub.2.address = true ∧ QuietSince m session stub s

theorem handedAt_congr {g h : Globals α} {c : Cursor}
    (same : SameMaps (g.resetAt session c.address) (h.resetAt session c.address)) :
    handedAt m session g c = handedAt m session h c := by
  simp only [handedAt, same.map, same.flags]

theorem handedAt_some {g : Globals α} {c : Cursor} {call : Handed α}
    (handed : handedAt m session g c = some call) :
    call.addr = c.address ∧ call.regAssignMap = (g.resetAt session c.address).regAssignMap ∧
      call.useFlags = (g.resetAt session c.address).useFlags := by
  rw [handedAt] at handed
  split at handed
  · cases handed
  · dsimp only at handed
    split at handed
    · cases handed
    · cases handed
      exact ⟨rfl, rfl, rfl⟩

theorem decompileHands_code {s : Output α × Cursor} {call : Handed α}
    (handed : decompileHands m session s = some call) :
    ¬ session.isImport s.2.address = true ∧ handedAt m session s.1.globals s.2 = some call := by
  rw [decompileHands] at handed
  split at handed
  case isTrue => cases handed
  case isFalse code => exact ⟨code, handed⟩

variable {s : Output α × Cursor}

theorem Together.hands (together : Together m session s) {call : Handed α} (nonzero : s.2.size ≠ 0)
    (handed : decompileHands m session s = some call) :
    ∃ t, Analysed m session t ∧ t.2.size ≠ 0 ∧ analyseCodeHands m session t = some call ∧
      textOf session call false s.1.globals = textOf session call true t.1 := by
  obtain ⟨⟨g, c⟩, visited, rfl, same⟩ := together
  obtain ⟨-, handed⟩ := decompileHands_code handed
  refine ⟨_, visited, nonzero, (handedAt_congr same).trans handed, ?_⟩
  rw [textOf, textOf, (handedAt_some handed).1]
  exact ((Globals.translateCode_alike same session call.insn _ _ _ true false).text).symm

theorem Together.step (together : Together m session s) (visited : Decompiled m session s)
    (nonzero : s.2.size ≠ 0) :
    Together m session ((decompileLoop m session).pass s) ∨
      Apart m session ((decompileLoop m session).pass s) := by
  by_cases stub : session.isImport s.2.address = true
  next =>
    refine .inr ⟨?_, s, visited, nonzero, stub, .start⟩
    have cleared : ((decompileLoop m session).pass s).1.globals =
        s.1.globals.resetAt session s.2.address :=
      decompilePass_quiet (by rw [decompileHands, if_pos stub])
    rw [cleared]
    exact resetAt_symbol (isImport_symbol stub) _
  next =>
    obtain ⟨⟨g, c⟩, visitedThere, rfl, same⟩ := together
    obtain ⟨cursor, maps⟩ := passes_alike (m := m) stub same
    exact .inl ⟨_, visitedThere.next (sweep_more.mpr nonzero), cursor, maps.resetAt session _⟩

theorem Apart.rejoins (rejoins : RejoinsBehindStubs m session α) (apart : Apart m session s)
    (nonzero : s.2.size ≠ 0) (hands : decompileHands m session s ≠ none) :
    Together m session s := by
  obtain ⟨clear, stub, visitedStub, ahead, isStub, quiet⟩ := apart
  obtain ⟨t, visited, place, same⟩ := rejoins stub s visitedStub ahead isStub quiet nonzero hands
  have here := resetAt_initial session clear s.2.address
  rw [place] at same
  exact ⟨t, visited, place, same.map.trans here.map.symm, same.flags.trans here.flags.symm⟩

theorem Apart.step (rejoins : RejoinsBehindStubs m session α) (apart : Apart m session s)
    (visited : Decompiled m session s) (nonzero : s.2.size ≠ 0) :
    Together m session ((decompileLoop m session).pass s) ∨
      Apart m session ((decompileLoop m session).pass s) := by
  by_cases silent : decompileHands m session s = none
  next =>
    obtain ⟨clear, stub, visitedStub, ahead, isStub, quiet⟩ := apart
    refine .inr ⟨?_, stub, visitedStub, ahead, isStub, ?_⟩
    · have kept : ((decompileLoop m session).pass s).1.globals =
          s.1.globals.resetAt session s.2.address := decompilePass_quiet silent
      rw [kept]
      exact resetAt_initial session clear _
    · exact .next () quiet silent (if_pos (sweep_more.mpr nonzero))
  next => exact (apart.rejoins rejoins nonzero silent).step visited nonzero

theorem together_or_apart (entry : (session.symbolMap m.textAddr).isSome = true)
    (rejoins : RejoinsBehindStubs m session α) (visited : Decompiled m session s) :
    Together m session s ∨ Apart m session s := by
  obtain ⟨done, c, finished, zero, visited⟩ := visited
  refine visited.invariant (fun s => Together m session s ∨ Apart m session s) ?_ ?_
  · have clear : SameMaps (done.resetAt session m.textAddr) .initial := resetAt_symbol entry done
    have start : SameMaps (Globals.initial.resetAt session m.textAddr) (.initial : Globals α) :=
      resetAt_symbol entry _
    exact .inl ⟨(.initial, m.start), .start, rfl, start.map.trans clear.map.symm,
      start.flags.trans clear.flags.symm⟩
  · intro s visited place more
    have there : Decompiled m session s := ⟨done, c, finished, zero, visited⟩
    have nonzero := sweep_more.mp more
    rcases place with together | apart
    · exact together.step there nonzero
    · exact apart.step rejoins there nonzero

theorem quiet_clear {stub : Output α × Cursor} (visited : Decompiled m session stub)
    (nonzero : stub.2.size ≠ 0) (isStub : session.isImport stub.2.address = true)
    (quiet : QuietSince m session stub s) :
    Decompiled m session s ∧ SameMaps s.1.globals .initial := by
  refine Transitions.Reachable.invariant quiet
    (fun s => Decompiled m session s ∧ SameMaps s.1.globals .initial)
    ⟨visited.next nonzero, ?_⟩ ?_
  · have cleared : ((decompileLoop m session).pass stub).1.globals =
        stub.1.globals.resetAt session stub.2.address :=
      decompilePass_quiet (by rw [decompileHands, if_pos isStub])
    rw [cleared]
    exact resetAt_symbol (isImport_symbol isStub) _
  · rintro s action t ⟨visited, clear⟩ silent step
    obtain ⟨more, rfl⟩ := Loop.step_eq step
    have kept : ((decompileLoop m session).pass s).1.globals =
        s.1.globals.resetAt session s.2.address := decompilePass_quiet silent
    refine ⟨visited.next (sweep_more.mp more), ?_⟩
    rw [kept]
    exact resetAt_initial session clear _

theorem addSubroutine_symbol (s : Symbols) (address : Word) :
    ((s.addSubroutine address).symbolMap address).isSome = true := by
  rw [Symbols.addSubroutine, Symbols.addSymbol]
  split
  next found => simp [found]
  next => simp

theorem recordCall_symbol (s : Arguments) (target address : Word)
    (symbol : (s.symbolMap address).isSome = true) :
    ((s.recordCall m target).symbolMap address).isSome = true := by
  rw [Arguments.recordCall]
  split
  · dsimp only
    rw [Function.update_apply]
    split
    · rfl
    · exact symbol
  · exact symbol

theorem analyseArgumentsPass_symbol (s : Arguments) (c : Cursor) (address : Word)
    (symbol : (s.symbolMap address).isSome = true) :
    ((analyseArgumentsPass m s c).1.symbolMap address).isSome = true := by
  have reset : (if (s.symbolMap c.address).isSome then { s with nArgs := 0 } else s).symbolMap =
      s.symbolMap := by
    split <;> rfl
  rw [analyseArgumentsPass]
  rcases m.disassemble c with ⟨_ | insn, after⟩
  · exact symbol
  · dsimp only
    split
    · rwa [reset]
    · split
      · exact recordCall_symbol _ _ address (by rwa [reset])
      · rwa [reset]

theorem entry_symbol (s : Symbols) {t : Arguments × Cursor}
    (visited : (analyseArgumentsLoop m).Visits
      (⟨0, (analyseSymbolsEnd m true s).symbolMap⟩, m.start) t) :
    (analyseArgumentsEnd t.1.symbolMap m.textAddr).isSome = true := by
  have kept : (t.1.symbolMap m.textAddr).isSome = true :=
    visited.invariant (fun t => (t.1.symbolMap m.textAddr).isSome = true)
      (addSubroutine_symbol s m.textAddr)
      fun t _ symbol _ => analyseArgumentsPass_symbol t.1 t.2 m.textAddr symbol
  rwa [analyseArgumentsEnd, Option.isSome_map]

/-- With the symbols that `analyseSymbols` and `analyseArguments` leave, or any others of which one
is at the start of the text, the passes agree exactly when they meet again behind every import
stub. -/
theorem passesAgree_iff (α : Type) [Alphabet α] (m : Module) (session : Session)
    (entry : (session.symbolMap m.textAddr).isSome = true ∨ ∃ s t,
      (analyseArgumentsLoop m).Visits ⟨⟨0, (analyseSymbolsEnd m true s).symbolMap⟩, m.start⟩ t ∧
        session.symbolMap = analyseArgumentsEnd t.1.symbolMap) :
    PassesAgree m session α ↔ RejoinsBehindStubs m session α := by
  have symbol : (session.symbolMap m.textAddr).isSome = true := by
    rcases entry with symbol | ⟨s, t, visited, left⟩
    · exact symbol
    · rw [left]
      exact entry_symbol s visited
  constructor
  · intro agree stub s visited ahead isStub quiet nonzero hands
    obtain ⟨there, clear⟩ := quiet_clear visited ahead isStub quiet
    obtain ⟨call, handed⟩ := Option.ne_none_iff_exists'.mp hands
    obtain ⟨⟨g, c⟩, analysed, -, same, -⟩ := agree s call there nonzero handed
    obtain ⟨-, handed⟩ := decompileHands_code handed
    obtain ⟨address, map, flags⟩ := handedAt_some handed
    obtain ⟨addressThere, mapThere, flagsThere⟩ := handedAt_some same
    have here := resetAt_initial session clear s.2.address
    refine ⟨_, analysed, ?_, ?_⟩
    · have sum := (analyseCode_sum analysed).trans (decompile_sum there).symm
      have size : c.size = s.2.size := by
        rw [← address, ← addressThere] at sum
        bv_omega
      exact congrArg₂ Cursor.mk size (addressThere.symm.trans address)
    · exact ⟨mapThere.symm.trans (map.trans here.map),
        flagsThere.symm.trans (flags.trans here.flags)⟩
  · intro rejoins s call visited nonzero handed
    rcases together_or_apart symbol rejoins visited with together | apart
    · exact together.hands nonzero handed
    · have hands : decompileHands m session s ≠ none := by simp [handed]
      exact (apart.rejoins rejoins nonzero hands).hands nonzero handed

def operand (type : OpType) (base : Word) : CsArmOp := ⟨type, base, 0, 0, .invalid, 0⟩

-- mov r0, #1
def movOne : CsInsn where
  mnemonic := "mov".toList
  opStr := "r0, #1".toList
  size := 2
  conditional := false
  updateFlags := false
  opCount := 2
  operands i := if i = 0 then operand .reg ArmReg.r0 else operand .imm 1

def movOnes : Module where
  textAddr := 0x81000000
  textSize := 0x1000
  modInfoOffset := 18
  disasm := halfwords (fun _ => movOne) fun _ => rfl
  isascii4 _ := false
  stringAt _ := []

def stubSession : Session where
  symbolMap address :=
    if address = 0x81000000 ∨ address = 0x81000004 then
      some ⟨symbolSubroutine ||| symbolImport, "stub".toList, 0, fun _ => 0⟩
    else none
  constantText _ := []

theorem movOne_records (g : Globals Char) (address : Word) :
    (Globals.translateCode stubSession movOne "mov".toList address
      (getInstructionCode movOne "mov".toList) true g).2.regAssignMap ArmReg.r0 =
        some ⟨['1'], address, false⟩ := rfl

theorem movOnes_iter {c : Cursor} (enough : 2 ≤ c.size.toNat) :
    movOnes.disasm.iter c = some movOne := if_pos enough

theorem movOnes_recorded {t : Globals Char × Cursor} (visited : Analysed movOnes stubSession t) :
    t.2 = movOnes.start ∨ (t.1.regAssignMap ArmReg.r0).isSome = true := by
  refine visited.invariant
    (fun t => t.2 = movOnes.start ∨ (t.1.regAssignMap ArmReg.r0).isSome = true) (.inl rfl) ?_
  intro t visited _ more
  have even := (ahead_of_moves (m := movOnes) (by decide) (fun t _ enough => by
    rw [analyseCodePass_cursor]
    exact disassemble_moves movOnes enough) visited).2
  have enough : 2 ≤ t.2.size.toNat := two_le (sweep_more.mp more) even
  have decoded : movOnes.disassemble t.2 = (some movOne, t.2.advance 2) := by
    rw [Module.disassemble, movOnes_iter enough]
    rfl
  right
  rw [show (analyseCodeLoop movOnes stubSession).pass t =
    analyseCodePass movOnes stubSession t.1 t.2 from rfl, analyseCodePass, decoded]
  exact congrArg Option.isSome (movOne_records _ _)

theorem movOnes_stub (done : Globals Char) :
    (decompileLoop movOnes stubSession).pass (⟨done, []⟩, movOnes.start) =
      (⟨done.resetAt stubSession 0x81000000, []⟩, ⟨2, 0x81000010⟩) := by
  have stub : stubSession.isImport movOnes.start.address = true := by decide
  have behind : movOnes.start.advance 0x10 = ⟨2, 0x81000010⟩ := by decide
  change decompilePass movOnes stubSession ⟨done, []⟩ movOnes.start = _
  rw [decompilePass]
  dsimp only
  rw [if_pos stub, behind]
  rfl

theorem movOnes_hands (g : Globals Char) :
    decompileHands movOnes stubSession (⟨g, []⟩, ⟨2, 0x81000010⟩) =
      some ⟨movOne, 0x81000010, g.regAssignMap, g.useFlags⟩ := by
  have code : ¬ stubSession.isImport 0x81000010 = true := by decide
  have decoded : movOnes.disasm.iter ⟨2, 0x81000010⟩ = some movOne :=
    movOnes_iter (by decide)
  rw [decompileHands, if_neg code, handedAt, decoded]
  rfl

/-- The code behind the stub is handed on with an empty map, where `analyseCode` has recorded what
it found in the stub. -/
theorem movOnes_disagree :
    (stubSession.symbolMap movOnes.textAddr).isSome = true ∧
      ¬ PassesAgree movOnes stubSession Char := by
  refine ⟨by decide, fun agree => ?_⟩
  have returns : (analyseCodeLoop (α := Char) movOnes stubSession).Returns
      (.initial, movOnes.start) := ⟨20, rfl⟩
  obtain ⟨⟨done, c⟩, analysed, ended⟩ := returns.visits
  have start : Decompiled movOnes stubSession (⟨done, []⟩, movOnes.start) :=
    ⟨done, c, analysed, sweep_over ended, .start⟩
  have behind := start.next (show (18 : Word) ≠ 0 by decide)
  rw [movOnes_stub] at behind
  obtain ⟨t, visited, -, same, -⟩ := agree _ _ behind (show (2 : Word) ≠ 0 by decide)
    (movOnes_hands _)
  obtain ⟨address, map, -⟩ := handedAt_some same
  have noSymbol : t.1.resetAt stubSession t.2.address = t.1 := by
    rw [← address]
    exact if_neg (show ¬ (stubSession.symbolMap 0x81000010).isSome = true by decide)
  rcases movOnes_recorded visited with first | recorded
  · rw [first] at address
    exact absurd (show (0x81000010 : Word) = 0x81000000 from address) (by decide)
  · rw [noSymbol] at map
    rw [← map] at recorded
    cases recorded

def labelledSession : Session where
  symbolMap address :=
    if address = 0x81000010 then some ⟨symbolSubroutine, "sub_81000010".toList, 0, fun _ => 0⟩
    else stubSession.symbolMap address
  constantText _ := []

theorem labelled_places {s : Output Char × Cursor} (visited : Decompiled movOnes labelledSession s)
    (nonzero : s.2.size ≠ 0) : s.2 = movOnes.start ∨ s.2 = ⟨2, 0x81000010⟩ := by
  obtain ⟨done, c, -, -, visited⟩ := visited
  have place : s.2 = movOnes.start ∨ s.2 = ⟨2, 0x81000010⟩ ∨ s.2.size = 0 := by
    refine visited.invariant
      (fun s => s.2 = movOnes.start ∨ s.2 = ⟨2, 0x81000010⟩ ∨ s.2.size = 0) (.inl rfl) ?_
    rintro ⟨out, c⟩ - place more
    have cursor : ((decompileLoop movOnes labelledSession).pass (out, c)).2 = _ :=
      decompilePass_cursor movOnes labelledSession out c
    rw [cursor]
    rcases place with rfl | rfl | none
    · exact .inr (.inl (by decide +kernel))
    · exact .inr (.inr (by decide +kernel))
    · exact absurd none (sweep_more.mp more)
  rcases place with start | behind | none
  · exact .inl start
  · exact .inr behind
  · exact absurd none nonzero

theorem passesAgree_iff_labelled :
    (∃ s : Output Char × Cursor, Decompiled movOnes labelledSession s ∧
      labelledSession.isImport s.2.address = true) ∧
      PassesAgree movOnes labelledSession Char := by
  have behind : Analysed movOnes labelledSession ((analyseCodeLoop (α := Char) movOnes
      labelledSession).pass^[8] (.initial, movOnes.start)) :=
    Loop.Visits.iterate 8 (by decide +kernel)
  constructor
  next =>
    have returns : (analyseCodeLoop (α := Char) movOnes labelledSession).Returns
        (.initial, movOnes.start) := ⟨20, rfl⟩
    obtain ⟨⟨done, c⟩, analysed, ended⟩ := returns.visits
    exact ⟨(⟨done, []⟩, movOnes.start), ⟨done, c, analysed, sweep_over ended, .start⟩,
      show labelledSession.isImport 0x81000000 = true by decide⟩
  next =>
    refine (passesAgree_iff Char movOnes labelledSession (.inl (by decide))).mpr ?_
    intro stub s visited ahead isStub quiet nonzero _
    obtain ⟨there, -⟩ := quiet_clear visited ahead isStub quiet
    rcases labelled_places there nonzero with start | label
    · exact ⟨(.initial, movOnes.start), .start, start.symm, resetAt_symbol (by decide) _⟩
    · refine ⟨_, behind, ?_, resetAt_symbol ?_ _⟩
      · rw [label]
        rfl
      · exact show (labelledSession.symbolMap 0x81000010).isSome = true by decide

end VitaTools.Passes
