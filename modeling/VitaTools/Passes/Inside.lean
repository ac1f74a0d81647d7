import VitaTools.Passes.Sweeps

set_option autoImplicit false

namespace VitaTools.Passes

open VitaTools.Library
open VitaTools.Decompiler (Word)

theorem two_le {size : Word} (nonzero : size ≠ 0) (even : 2 ∣ size.toNat) : 2 ≤ size.toNat := by
  have positive : size.toNat ≠ 0 := fun zero => nonzero (BitVec.eq_of_toNat_eq zero)
  omega

namespace Cursor

variable {c : Cursor} {bytes : Nat}

theorem advance_size (enough : bytes ≤ c.size.toNat) :
    (c.advance bytes).size.toNat = c.size.toNat - bytes := by
  have := c.size.isLt
  simp only [advance, BitVec.toNat_sub, BitVec.toNat_ofNat]
  omega

theorem advance_wraps (short : c.size.toNat < bytes) (word : bytes < 2 ^ 32) :
    ¬ (c.advance bytes).size < c.size := by
  rw [BitVec.lt_def]
  simp only [advance, BitVec.toNat_sub, BitVec.toNat_ofNat]
  omega

theorem advance_parity (even : 2 ∣ bytes) :
    (c.advance bytes).size.toNat % 2 = c.size.toNat % 2 := by
  simp only [advance, BitVec.toNat_sub, BitVec.toNat_ofNat]
  omega

theorem advance_sum : (c.advance bytes).address + (c.advance bytes).size = c.address + c.size := by
  simp only [advance]
  bv_omega

end Cursor

namespace Module

variable (m : Module)

def Inside (address : Word) : Prop := address - m.textAddr < m.modInfoOffset

theorem inside_iff (fits : m.textAddr.toNat + m.modInfoOffset.toNat ≤ 2 ^ 32) (address : Word) :
    m.Inside address ↔ m.textAddr.toNat ≤ address.toNat ∧
      address.toNat < m.textAddr.toNat + m.modInfoOffset.toNat := by
  have := address.isLt
  have := m.textAddr.isLt
  rw [Inside, BitVec.lt_def, BitVec.toNat_sub]
  omega

structure Ahead (c : Cursor) : Prop where
  size_le : c.size.toNat ≤ m.modInfoOffset.toNat
  sum : c.address + c.size = m.textAddr + m.modInfoOffset

variable {m} {c : Cursor}

theorem ahead_start : m.Ahead m.start := ⟨Nat.le_refl _, rfl⟩

theorem Ahead.advance (ahead : m.Ahead c) {bytes : Nat} (enough : bytes ≤ c.size.toNat) :
    m.Ahead (c.advance bytes) := by
  refine ⟨?_, Cursor.advance_sum.trans ahead.sum⟩
  rw [Cursor.advance_size enough]
  exact (Nat.sub_le _ _).trans ahead.size_le

theorem Ahead.inside_iff (ahead : m.Ahead c) : m.Inside c.address ↔ c.size ≠ 0 := by
  have bound := ahead.size_le
  have place : c.address - m.textAddr = m.modInfoOffset - c.size := by
    have := ahead.sum
    bv_omega
  rw [Inside, place, BitVec.lt_def, BitVec.toNat_sub]
  have nonzero : c.size ≠ 0 ↔ c.size.toNat ≠ 0 := by
    rw [Ne, Ne, ← BitVec.toNat_inj]
    rfl
  have := m.modInfoOffset.isLt
  rw [nonzero]
  omega

theorem disassemble_advance (m : Module) (c : Cursor) :
    ∃ bytes, (m.disassemble c).2 = c.advance bytes ∧ 2 ∣ bytes ∧ 0 < bytes ∧
      (2 ≤ c.size.toNat → bytes ≤ c.size.toNat) := by
  rw [disassemble]
  cases decoded : m.disasm.iter c with
  | none => exact ⟨2, rfl, by decide, by decide, id⟩
  | some insn =>
      have width := m.disasm.consumes c insn decoded
      refine ⟨insn.size, rfl, ?_, ?_, fun _ => m.disasm.remains c insn decoded⟩ <;> omega

end Module

section

variable {State : Type} (m : Module) (pass : State → Cursor → State × Cursor)
  (uses : State → Cursor → List Word)

/-- The loop ends, `size` falls at every pass, and the addresses used are inside the code. -/
structure StaysInside (begun : State) : Prop where
  returns : (sweep pass).Returns (begun, m.start)
  counter : ∀ s, (sweep pass).Visits (begun, m.start) s → s.2.size ≠ 0 →
    (pass s.1 s.2).2.size < s.2.size
  addresses : ∀ s, (sweep pass).Visits (begun, m.start) s → s.2.size ≠ 0 →
    ∀ address ∈ uses s.1 s.2, m.Inside address

variable {m pass uses} {begun : State}

theorem sweep_more {s : State × Cursor} : (sweep pass).more s = true ↔ s.2.size ≠ 0 :=
  bne_iff_ne

theorem sweep_over {s : State × Cursor} (ended : (sweep pass).more s = false) : s.2.size = 0 := by
  by_contra nonzero
  rw [sweep_more.mpr nonzero] at ended
  cases ended

theorem even_of_returns (returns : (sweep pass).Returns (begun, m.start))
    (moves : ∀ s c, ∃ bytes, (pass s c).2 = c.advance bytes ∧ 2 ∣ bytes) :
    2 ∣ m.modInfoOffset.toNat := by
  obtain ⟨s, visited, ended⟩ := returns.visits
  have parity : s.2.size.toNat % 2 = m.modInfoOffset.toNat % 2 := by
    refine visited.invariant (fun s => s.2.size.toNat % 2 = m.modInfoOffset.toNat % 2) rfl ?_
    intro s _ same _
    obtain ⟨bytes, moved, even⟩ := moves s.1 s.2
    exact (congrArg (·.size.toNat % 2) moved).trans ((Cursor.advance_parity even).trans same)
  rw [sweep_over ended] at parity
  exact Nat.dvd_of_mod_eq_zero parity.symm

theorem ahead_of_moves (even : 2 ∣ m.modInfoOffset.toNat)
    (moves : ∀ s, (sweep pass).Visits (begun, m.start) s → 2 ≤ s.2.size.toNat →
      ∃ bytes, (pass s.1 s.2).2 = s.2.advance bytes ∧ 2 ∣ bytes ∧ 0 < bytes ∧
        bytes ≤ s.2.size.toNat)
    {s : State × Cursor} (visited : (sweep pass).Visits (begun, m.start) s) :
    m.Ahead s.2 ∧ 2 ∣ s.2.size.toNat := by
  refine visited.invariant (fun s => m.Ahead s.2 ∧ 2 ∣ s.2.size.toNat)
    ⟨Module.ahead_start, even⟩ ?_
  rintro s visited ⟨ahead, evenSize⟩ more
  have enough : 2 ≤ s.2.size.toNat := two_le (sweep_more.mp more) evenSize
  obtain ⟨bytes, moved, evenBytes, -, fits⟩ := moves s visited enough
  rw [show ((sweep pass).pass s).2 = s.2.advance bytes from moved, Cursor.advance_size fits]
  exact ⟨ahead.advance fits, Nat.dvd_sub evenSize evenBytes⟩

theorem staysInside_of_moves (even : 2 ∣ m.modInfoOffset.toNat)
    (moves : ∀ s, (sweep pass).Visits (begun, m.start) s → 2 ≤ s.2.size.toNat →
      ∃ bytes, (pass s.1 s.2).2 = s.2.advance bytes ∧ 2 ∣ bytes ∧ 0 < bytes ∧
        bytes ≤ s.2.size.toNat)
    (inside : ∀ s, (sweep pass).Visits (begun, m.start) s → m.Ahead s.2 → s.2.size ≠ 0 →
      ∀ address ∈ uses s.1 s.2, m.Inside address) :
    StaysInside m pass uses begun := by
  have falls : ∀ s, (sweep pass).Visits (begun, m.start) s → s.2.size ≠ 0 →
      (pass s.1 s.2).2.size < s.2.size := by
    intro s visited nonzero
    have enough := two_le nonzero (ahead_of_moves even moves visited).2
    obtain ⟨bytes, moved, -, positive, fits⟩ := moves s visited enough
    rw [moved, BitVec.lt_def, Cursor.advance_size fits]
    omega
  constructor
  case returns =>
    refine Loop.returns_of_falls (fun s => (sweep pass).Visits (begun, m.start) s)
      (fun s => s.2.size.toNat) ?_ _ .start
    intro s visited more
    exact ⟨visited.next more, BitVec.lt_def.mp (falls s visited (sweep_more.mp more))⟩
  case counter => exact falls
  case addresses =>
    intro s visited nonzero
    exact inside s visited (ahead_of_moves even moves visited).1 nonzero

end

variable {α : Type} [Alphabet α] (m : Module) (session : Session)

theorem analyseSymbolsPass_cursor (secondRun : Bool) (s : Symbols) (c : Cursor) :
    (analyseSymbolsPass m secondRun s c).2 = (m.disassemble c).2 := by
  rw [analyseSymbolsPass]
  rcases m.disassemble c with ⟨_ | insn, after⟩
  · rfl
  · cases secondRun
    · rfl
    · simp only [Bool.not_true, Bool.false_eq_true, if_false]
      split <;> rfl

theorem analyseArgumentsPass_cursor (s : Arguments) (c : Cursor) :
    (analyseArgumentsPass m s c).2 = (m.disassemble c).2 := by
  rw [analyseArgumentsPass]
  rcases m.disassemble c with ⟨_ | insn, after⟩
  · rfl
  · dsimp only
    split
    · rfl
    · split <;> rfl

theorem analyseCodePass_cursor (g : Globals α) (c : Cursor) :
    (analyseCodePass m session g c).2 = (m.disassemble c).2 := by
  rw [analyseCodePass]
  rcases m.disassemble c with ⟨_ | insn, after⟩
  · rfl
  · dsimp only
    split <;> rfl

theorem decompilePass_cursor (out : Output α) (c : Cursor) :
    (decompilePass m session out c).2 =
      if session.isImport c.address then c.advance 0x10 else (m.disassemble c).2 := by
  rw [decompilePass]
  dsimp only
  split
  · rfl
  · rcases m.disassemble c with ⟨_ | insn, after⟩ <;> rfl

theorem disassemble_moves {c : Cursor} (enough : 2 ≤ c.size.toNat) :
    ∃ bytes, (m.disassemble c).2 = c.advance bytes ∧ 2 ∣ bytes ∧ 0 < bytes ∧
      bytes ≤ c.size.toNat := by
  obtain ⟨bytes, moved, even, positive, fits⟩ := m.disassemble_advance c
  exact ⟨bytes, moved, even, positive, fits enough⟩

def usesAddress {State : Type} (_ : State) (c : Cursor) : List Word := [c.address]

-- The second run also looks ahead, where bytes remain, and at the place behind a return.
def analyseSymbolsUses (secondRun : Bool) (_ : Symbols) (c : Cursor) : List Word :=
  match m.disassemble c with
  | (none, _) => [c.address]
  | (some insn, after) =>
      if secondRun then
        c.address :: (if after.size = 0 then [] else [after.address]) ++
          ((m.behindReturn insn after).map Cursor.address).toList
      else [c.address]

structure Begun (α : Type) where
  firstRun : Symbols
  secondRun : Symbols
  arguments : Arguments
  globals : Globals α
  output : Output α

structure SweepsStayInside (begun : Begun α) : Prop where
  firstRun : StaysInside m (analyseSymbolsPass m false) (analyseSymbolsUses m false) begun.firstRun
  secondRun : StaysInside m (analyseSymbolsPass m true) (analyseSymbolsUses m true) begun.secondRun
  arguments : StaysInside m (analyseArgumentsPass m) usesAddress begun.arguments
  code : StaysInside m (analyseCodePass m session) usesAddress begun.globals
  output : StaysInside m (decompilePass m session) usesAddress begun.output

/-- The code is a whole number of halfwords, an import stub that `decompile` comes to has its 16
bytes, and no return ends the code, alone or with a `nop` behind it. -/
structure EndsWhole (begun : Begun α) : Prop where
  even : 2 ∣ m.modInfoOffset.toNat
  stubs : ∀ s, (decompileLoop m session).Visits (begun.output, m.start) s → s.2.size ≠ 0 →
    session.isImport s.2.address = true → 16 ≤ s.2.size.toNat
  returns : ∀ s, (analyseSymbolsLoop m true).Visits (begun.secondRun, m.start) s →
    s.2.size ≠ 0 → ∀ insn after behind, m.disassemble s.2 = (some insn, after) →
      m.behindReturn insn after = some behind → behind.size ≠ 0

variable {m session} {begun : Begun α}

theorem decompile_stays (whole : EndsWhole m session begun) :
    StaysInside m (decompilePass m session) usesAddress begun.output := by
  refine staysInside_of_moves whole.even ?_ ?_
  · intro s visited enough
    rw [decompilePass_cursor]
    split
    next stub =>
      have nonzero : s.2.size ≠ 0 := by
        intro zero
        rw [zero] at enough
        exact absurd enough (by decide)
      exact ⟨16, rfl, by decide, by decide, whole.stubs s visited nonzero stub⟩
    next => exact disassemble_moves m enough
  · intro s _ ahead nonzero address member
    rw [List.mem_singleton.mp member]
    exact ahead.inside_iff.mpr nonzero

theorem behindReturn_ahead {insn : CsInsn} {after behind : Cursor} (ahead : m.Ahead after)
    (found : m.behindReturn insn after = some behind) : m.Ahead behind := by
  rw [Module.behindReturn] at found
  split at found
  case isFalse => contradiction
  case isTrue =>
    cases decoded : m.disasm.iter after with
    | none =>
        simp only [decoded, Option.some.injEq] at found
        exact found ▸ ahead
    | some next =>
        simp only [decoded] at found
        split at found
        next =>
          cases found
          exact ahead.advance (m.disasm.remains after next decoded)
        next =>
          cases found
          exact ahead

theorem disassemble_ahead {c after : Cursor} {insn : Option CsInsn} (ahead : m.Ahead c)
    (nonzero : c.size ≠ 0) (even : 2 ∣ c.size.toNat)
    (decoded : m.disassemble c = (insn, after)) : m.Ahead after := by
  obtain ⟨bytes, moved, -, -, fits⟩ := disassemble_moves m (two_le nonzero even)
  have place : after = c.advance bytes := by rw [← moved, decoded]
  exact place ▸ ahead.advance fits

omit [Alphabet α] in
theorem secondRun_ahead (even : 2 ∣ m.modInfoOffset.toNat) {s : Symbols × Cursor}
    (visited : (analyseSymbolsLoop m true).Visits (begun.secondRun, m.start) s) :
    m.Ahead s.2 ∧ 2 ∣ s.2.size.toNat := by
  refine ahead_of_moves even ?_ visited
  intro s _ enough
  rw [analyseSymbolsPass_cursor]
  exact disassemble_moves m enough

theorem secondRun_stays (whole : EndsWhole m session begun) :
    StaysInside m (analyseSymbolsPass m true) (analyseSymbolsUses m true) begun.secondRun := by
  refine staysInside_of_moves whole.even ?_ ?_
  · intro s _ enough
    rw [analyseSymbolsPass_cursor]
    exact disassemble_moves m enough
  intro s visited ahead nonzero address member
  have here := ahead.inside_iff.mpr nonzero
  have even := (secondRun_ahead whole.even visited).2
  rcases decoded : m.disassemble s.2 with ⟨_ | insn, after⟩
  · rw [analyseSymbolsUses, decoded] at member
    rwa [List.mem_singleton.mp member]
  · rw [analyseSymbolsUses, decoded] at member
    have aheadAfter := disassemble_ahead ahead nonzero even decoded
    rcases List.mem_append.mp member with near | behindMember
    · rcases List.mem_cons.mp near with rfl | look
      · exact here
      · by_cases ended : after.size = 0
        next => simp [ended] at look
        next =>
          rw [if_neg ended] at look
          rw [List.mem_singleton.mp look]
          exact aheadAfter.inside_iff.mpr ended
    · cases found : m.behindReturn insn after with
      | none => simp [found] at behindMember
      | some behind =>
          have same : address = behind.address := by simpa [found] using behindMember
          rw [same]
          exact (behindReturn_ahead aheadAfter found).inside_iff.mpr
            (whole.returns s visited nonzero insn after behind decoded found)

theorem disassembling_stays {State : Type} {pass : State → Cursor → State × Cursor}
    {uses : State → Cursor → List Word} {begun : State}
    (cursor : ∀ s c, (pass s c).2 = (m.disassemble c).2) (single : ∀ s c, uses s c = [c.address])
    (even : 2 ∣ m.modInfoOffset.toNat) : StaysInside m pass uses begun := by
  refine staysInside_of_moves even ?_ ?_
  · intro s _ enough
    rw [cursor]
    exact disassemble_moves m enough
  · intro s _ ahead nonzero address member
    rw [single] at member
    rw [List.mem_singleton.mp member]
    exact ahead.inside_iff.mpr nonzero

theorem analyseSymbolsUses_first (s : Symbols) (c : Cursor) :
    analyseSymbolsUses m false s c = [c.address] := by
  rw [analyseSymbolsUses]
  split <;> rfl

theorem stub_whole (stays : StaysInside m (decompilePass m session) usesAddress begun.output)
    {s : Output α × Cursor}
    (visited : (decompileLoop m session).Visits (begun.output, m.start) s)
    (nonzero : s.2.size ≠ 0) (stub : session.isImport s.2.address = true) :
    16 ≤ s.2.size.toNat := by
  by_contra short
  have falls := stays.counter s visited nonzero
  rw [decompilePass_cursor, if_pos stub] at falls
  exact Cursor.advance_wraps (by omega) (by decide) falls

omit [Alphabet α] in
theorem behind_whole (even : 2 ∣ m.modInfoOffset.toNat)
    (stays : StaysInside m (analyseSymbolsPass m true) (analyseSymbolsUses m true) begun.secondRun)
    {s : Symbols × Cursor}
    (visited : (analyseSymbolsLoop m true).Visits (begun.secondRun, m.start) s)
    (nonzero : s.2.size ≠ 0) {insn : CsInsn} {after behind : Cursor}
    (decoded : m.disassemble s.2 = (some insn, after))
    (found : m.behindReturn insn after = some behind) : behind.size ≠ 0 := by
  obtain ⟨ahead, evenSize⟩ := secondRun_ahead even visited
  have used : behind.address ∈ analyseSymbolsUses m true s.1 s.2 := by
    simp [analyseSymbolsUses, decoded, found]
  have aheadAfter := disassemble_ahead ahead nonzero evenSize decoded
  exact (behindReturn_ahead aheadAfter found).inside_iff.mp
    (stays.addresses s visited nonzero _ used)

/-- The loops end, never wrap `size` and keep to the code exactly when the code ends whole. -/
theorem sweepsStayInside_iff (m : Module) (session : Session) (begun : Begun α) :
    SweepsStayInside m session begun ↔ EndsWhole m session begun := by
  constructor
  · intro stays
    have even : 2 ∣ m.modInfoOffset.toNat := by
      refine even_of_returns stays.code.returns fun g c => ?_
      obtain ⟨bytes, moved, even, -⟩ := m.disassemble_advance c
      exact ⟨bytes, (analyseCodePass_cursor m session g c).trans moved, even⟩
    constructor
    case even => exact even
    case stubs => exact fun s visited nonzero stub => stub_whole stays.output visited nonzero stub
    case returns =>
      intro s visited nonzero insn after behind decoded found
      exact behind_whole even stays.secondRun visited nonzero decoded found
  · intro whole
    constructor
    case firstRun =>
      exact disassembling_stays (analyseSymbolsPass_cursor m false) analyseSymbolsUses_first
        whole.even
    case secondRun => exact secondRun_stays whole
    case arguments =>
      exact disassembling_stays (analyseArgumentsPass_cursor m) (fun _ _ => rfl) whole.even
    case code =>
      exact disassembling_stays (analyseCodePass_cursor m session) (fun _ _ => rfl) whole.even
    case output => exact decompile_stays whole

def halfwords (insnAt : Word → CsInsn) (two : ∀ address, (insnAt address).size = 2) :
    Disassembler where
  iter c := if 2 ≤ c.size.toNat then some (insnAt c.address) else none
  consumes c insn decoded := by
    split at decoded
    · cases decoded
      exact .inl (two c.address)
    · cases decoded
  remains c insn decoded := by
    split at decoded
    next enough =>
      cases decoded
      rwa [two c.address]
    next => cases decoded

def noOperand : CsArmOp := ⟨.other, 0, 0, 0, .invalid, 0⟩

def bxLr : CsInsn := ⟨"bx".toList, "lr".toList, 2, false, false, 1, fun _ => noOperand⟩

def returning (modInfoOffset : Word) : Module where
  textAddr := 0x81000000
  textSize := 0x1000
  modInfoOffset := modInfoOffset
  disasm := halfwords (fun _ => bxLr) fun _ => rfl
  isascii4 _ := false
  stringAt _ := []

def importAt (address : Word) : Session where
  symbolMap := Function.update (fun _ => none) address
    (some ⟨symbolSubroutine ||| symbolImport, "stub".toList, 0, fun _ => 0⟩)
  constantText _ := []

def noneBegun : Begun Char where
  firstRun := ⟨fun _ => none, fun _ => 0⟩
  secondRun := ⟨fun _ => none, fun _ => 0⟩
  arguments := ⟨0, fun _ => none⟩
  globals := .initial
  output := ⟨.initial, []⟩

/-- One byte of code; an import stub with half of its bytes; a return at the end. -/
theorem shortEnds_leave :
    ¬ SweepsStayInside (returning 1) (importAt 0) noneBegun ∧
      ¬ SweepsStayInside (returning 8) (importAt 0x81000000) noneBegun ∧
      ¬ SweepsStayInside (returning 2) (importAt 0) noneBegun := by
  refine ⟨fun stays => ?_, fun stays => ?_, fun stays => ?_⟩
  · have even := even_of_returns stays.code.returns fun g c => ?_
    · exact absurd even (by decide)
    · obtain ⟨bytes, moved, even, -⟩ := (returning 1).disassemble_advance c
      exact ⟨bytes, (analyseCodePass_cursor _ _ g c).trans moved, even⟩
  · have falls := stays.output.counter _ .start (by decide)
    exact absurd falls (by decide)
  · have inside := stays.secondRun.addresses _ .start (by decide) 0x81000002 (by decide)
    exact absurd (BitVec.lt_def.mp inside) (by decide)

end VitaTools.Passes
