import VitaTools.Passes.Printed
import VitaTools.Passes.Spelled
import VitaTools.Passes.Agree
import Mathlib.Tactic.IntervalCases

set_option autoImplicit false

namespace VitaTools.Passes

open VitaTools.Library VitaTools.Library.Traced
open VitaTools.Decompiler (Text Word)
open VitaTools.Decompiler.Globals (opName)

section

variable (m : Module) (session : Session)

-- The head of a pass of `decompile`.
abbrev Head := Output Glyph × Cursor

def Head.globals (s : Head) : Globals Glyph := s.1.globals.resetAt session s.2.address

def Head.insn (s : Head) : Option CsInsn :=
  if session.isImport s.2.address then none else (m.disassemble s.2).1

def Head.printed (s : Head) : List Glyph :=
  match s.insn m session with
  | some insn => ((s.globals session).pseudoCode session insn s.2.address).1
  | none => []

def Head.sure (s : Head) : Bool :=
  match s.insn m session with
  | some insn => (trimMnemonic insn).2.isNone
  | none => true

def Head.reads (s : Head) (name : String) : Bool :=
  readsFirst name (s.sure m session) (divide '\n' (s.printed m session))

def Head.assigns (s : Head) (name : String) : Bool :=
  s.sure m session && (divide '\n' (s.printed m session)).any (assignsIn name)

def defines (insn : CsInsn) (reg : Word) : Bool :=
  (List.range insn.opCount).any fun i =>
    (insn.operands i).type == .reg && (insn.operands i).base == reg &&
      isTarget i (getInstructionCode insn (trimMnemonic insn).1)

/-- The instruction defines the register, and its statement is not printed. -/
structure Suppressed (s : Head) (reg : Word) : Prop where
  decompiled : Decompiled m session s
  insn : ∃ insn, s.insn m session = some insn ∧ defines insn reg = true
  ignored : s.1.globals.ignoreMap s.2.address = true

-- The places that control comes to from `s` before a statement assigns the variable.
inductive Exposed (flow : Word → Word → Prop) (name : String) (s : Head) : Head → Prop
  | leave {t : Head} (decompiled : Decompiled m session t)
      (goes : flow s.2.address t.2.address) : Exposed flow name s t
  | pass {t u : Head} (exposed : Exposed flow name s t)
      (unassigned : t.assigns m session name = false) (decompiled : Decompiled m session u)
      (goes : flow t.2.address u.2.address) : Exposed flow name s u

theorem Exposed.decompiled {flow : Word → Word → Prop} {name : String} {s t : Head}
    (exposed : Exposed m session flow name s t) : Decompiled m session t := by
  cases exposed <;> assumption

/-- No statement on a path from a dropped definition reads its variable before one assigns it. -/
def SuppressedDead (flow : Word → Word → Prop) : Prop :=
  ∀ s reg t, Suppressed m session s reg → Exposed m session flow (variableOf reg) s t →
    t.reads m session (variableOf reg) = false

/-- The variables of dropped definitions are hidden from the instructions on their paths. -/
def HiddenOnPaths (flow : Word → Word → Prop) : Prop :=
  ∀ s reg t insn, Suppressed m session s reg → Exposed m session flow (variableOf reg) s t →
    t.insn m session = some insn →
      Hidden (variableOf reg) session insn t.2.address (t.globals session)

end

variable {m : Module} {session : Session}

theorem decompilePass_printed (s : Head) :
    (decompilePass m session s.1 s.2).1.fout = s.1.fout ++ s.printed m session := by
  rw [decompilePass, Head.printed, Head.insn, Head.globals]
  dsimp only
  split
  next => exact (List.append_nil _).symm
  next =>
    rcases m.disassemble s.2 with ⟨_ | insn, after⟩
    · exact (List.append_nil _).symm
    · rfl

theorem decompiled_spelled {t : Output Char × Cursor} :
    Decompiled m session t ↔ ∃ s : Head, Decompiled m session s ∧ t = spelledOutput s := by
  constructor
  next =>
    rintro ⟨done, c, analysed, ended, visited⟩
    have analysing : (analyseCodeLoop m session).Visits
        (spelledAnalysis ((.initial, m.start) : Globals Glyph × Cursor)) (done, c) := analysed
    obtain ⟨traced, reached, same⟩ :=
      analysing.lift spelledAnalysis (fun _ => rfl) analyseCodePass_spelled
    cases same
    have printing : (decompileLoop m session).Visits
        (spelledOutput ((⟨traced.1, []⟩, m.start) : Head)) t := visited
    obtain ⟨s, visited, same⟩ := printing.lift spelledOutput (fun _ => rfl) decompilePass_spelled
    exact ⟨s, ⟨traced.1, traced.2, reached, ended, visited⟩, same⟩
  next =>
    rintro ⟨s, ⟨done, c, analysed, ended, visited⟩, rfl⟩
    exact ⟨done.spelled, c, analysed.map spelledAnalysis (fun _ => rfl) analyseCodePass_spelled,
      ended, visited.map spelledOutput (fun _ => rfl) decompilePass_spelled⟩

theorem Suppressed.silent {s : Head} {reg : Word} (suppressed : Suppressed m session s reg) :
    ∃ insn, s.insn m session = some insn ∧ (decompilePass m session s.1 s.2).1.fout =
      s.1.fout ++ plain (Globals.heading (trimMnemonic insn).2).2 := by
  obtain ⟨insn, found, defined⟩ := suppressed.insn
  obtain ⟨i, -, target⟩ := List.any_eq_true.mp defined
  have code : ¬ (getInstructionCode insn (trimMnemonic insn).1 : List Glyph).isEmpty = true := by
    intro empty
    rw [List.isEmpty_iff] at empty
    rw [Bool.and_eq_true, empty, isTarget] at target
    exact absurd target.2 (by simp [spell, occurs, opName])
  have ignored : (s.globals session).ignoreMap s.2.address = true := by
    rw [Head.globals, Globals.resetAt]
    split <;> exact suppressed.ignored
  refine ⟨insn, found, ?_⟩
  rw [decompilePass_printed, Head.printed, found]
  dsimp only
  rw [Globals.pseudoCode]
  dsimp only
  rw [if_neg code, Globals.translateCode_ignoreMap, if_pos ignored]

theorem Head.hidden_reads {s : Head} {reg : Word}
    (hidden : ∀ insn, s.insn m session = some insn →
      Hidden (variableOf reg) session insn s.2.address (s.globals session)) :
    s.reads m session (variableOf reg) = false := by
  rw [Head.reads, Head.sure, Head.printed]
  cases found : s.insn m session with
  | none =>
      exact readsFirst_divide (fun c member => (variableOf_letters reg c member).1)
        (separator_newline (variableOf_letters reg)) (valueOf_quiet mentions_nil)
  | some insn =>
      exact pseudoCode_hidden (variableOf_letters reg) session s.2.address (hidden insn found)

/-- Whatever the control flow is: dropped definitions are dead when their variables are hidden
from every instruction that control comes to before a statement assigns them. Of such a definition
at most the line with its condition is printed. The letters of these runs spell the runs over
characters. -/
theorem suppressed_dead (m : Module) (session : Session) (flow : Word → Word → Prop)
    (hidden : HiddenOnPaths m session flow) :
    SuppressedDead m session flow ∧
      (∀ s reg, Suppressed m session s reg →
        ∃ insn, s.insn m session = some insn ∧ (decompilePass m session s.1 s.2).1.fout =
          s.1.fout ++ plain (Globals.heading (trimMnemonic insn).2).2) ∧
      ∀ t : Output Char × Cursor,
        Decompiled m session t ↔ ∃ s : Head, Decompiled m session s ∧ t = spelledOutput s := by
  refine ⟨?_, fun s reg suppressed => suppressed.silent, fun t => decompiled_spelled⟩
  intro s reg t suppressed exposed
  apply Head.hidden_reads
  intro insn found
  exact hidden s reg t insn suppressed exposed found

def movInsn (opStr : String) (target : Word) (source : CsArmOp) : CsInsn where
  mnemonic := "mov".toList
  opStr := opStr.toList
  size := 2
  conditional := false
  updateFlags := false
  opCount := 2
  operands i := if i = 0 then operand .reg target else source

-- movs r4, #5
def movFive : CsInsn :=
  { movInsn "r4, #5" ArmReg.r4 (operand .imm 5) with
    mnemonic := "movs".toList, updateFlags := true }

-- movs r4, #5; mov r5, r4; label: mov r6, r4; b label
def loopInsn (address : Word) : CsInsn :=
  if address = 0x81000000 then movFive
  else if address = 0x81000002 then movInsn "r5, r4" 71 (operand .reg ArmReg.r4)
  else if address = 0x81000004 then movInsn "r6, r4" 72 (operand .reg ArmReg.r4)
  else
    { mnemonic := "b".toList, opStr := "#0x81000004".toList, size := 2, conditional := false,
      updateFlags := false, opCount := 1, operands := fun _ => operand .imm 0x81000004 }

theorem loopInsn_size (address : Word) : (loopInsn address).size = 2 := by
  rw [loopInsn]
  split
  · rfl
  · split
    · rfl
    · split <;> rfl

def loopModule : Module where
  textAddr := 0x81000000
  textSize := 0x1000
  modInfoOffset := 8
  disasm := halfwords loopInsn loopInsn_size
  isascii4 _ := false
  stringAt _ := []

def loopSession : Session where
  symbolMap address :=
    if address = 0x81000000 then some ⟨symbolSubroutine, "sub_81000000".toList, 0, fun _ => 0⟩
    else if address = 0x81000004 then some ⟨symbolLabel, "loc_81000004".toList, 0, fun _ => 0⟩
    else none
  constantText _ := []

def loopFlow (address next : Word) : Prop :=
  next = if address = 0x81000006 then 0x81000004 else address + 2

def loopAnalysed : Globals Glyph × Cursor :=
  (analyseCodeLoop loopModule loopSession).pass^[4] (.initial, loopModule.start)

def loopHead (passes : Nat) : Head :=
  (decompileLoop loopModule loopSession).pass^[passes] (⟨loopAnalysed.1, []⟩, loopModule.start)

theorem loop_decompiled {passes : Nat} (few : passes ≤ 4) :
    Decompiled loopModule loopSession (loopHead passes) := by
  have analysed : ∀ k < 4, (analyseCodeLoop loopModule loopSession).more
      ((analyseCodeLoop loopModule loopSession).pass^[k]
        ((.initial, loopModule.start) : Globals Glyph × Cursor)) = true := by decide +kernel
  have printed : ∀ k < 4, (decompileLoop loopModule loopSession).more (loopHead k) = true := by
    decide +kernel
  exact ⟨loopAnalysed.1, loopAnalysed.2, Loop.Visits.iterate 4 analysed, by decide +kernel,
    Loop.Visits.iterate passes fun k less => printed k (Nat.lt_of_lt_of_le less few)⟩

/-- `v1 = 5;` is not printed, and behind the label `v3 = v1;` reads it. -/
theorem loop_not_dead : ¬ SuppressedDead loopModule loopSession loopFlow := by
  intro dead
  have suppressed : Suppressed loopModule loopSession (loopHead 0) ArmReg.r4 :=
    ⟨loop_decompiled (by decide), ⟨movFive, by rfl, by decide +kernel⟩, by decide +kernel⟩
  have behind : Exposed loopModule loopSession loopFlow "v1" (loopHead 0) (loopHead 1) :=
    .leave (loop_decompiled (by decide)) (by rw [loopFlow]; decide +kernel)
  have label : Exposed loopModule loopSession loopFlow "v1" (loopHead 0) (loopHead 2) :=
    .pass behind (by decide +kernel) (loop_decompiled (by decide))
      (by rw [loopFlow]; decide +kernel)
  have reads : (loopHead 2).reads loopModule loopSession "v1" = true := by decide +kernel
  have unread := dead _ _ _ suppressed label
  exact absurd (reads.symm.trans unread) (by decide)

-- movs r4, #5; mov r5, r4
def straightModule : Module := { loopModule with modInfoOffset := 4 }

def straightAnalysed : Globals Glyph × Cursor :=
  (analyseCodeLoop straightModule loopSession).pass^[2] (.initial, straightModule.start)

def straightHead (passes : Nat) : Head :=
  (decompileLoop straightModule loopSession).pass^[passes]
    (⟨straightAnalysed.1, []⟩, straightModule.start)

theorem straight_decompiled {s : Head} (visited : Decompiled straightModule loopSession s) :
    ∃ passes ≤ 2, s = straightHead passes := by
  obtain ⟨done, c, analysed, ended, visited⟩ := visited
  obtain ⟨passes, same, more⟩ := analysed.eq_iterate
  have few : passes ≤ 2 := by
    by_contra many
    exact absurd (more 2 (by omega)) (by decide +kernel)
  have whole : passes = 2 := by
    have zero : (done, c).2.size = 0 := ended
    rw [same] at zero
    interval_cases passes
    · exact absurd zero (by decide +kernel)
    · exact absurd zero (by decide +kernel)
    · rfl
  subst whole
  have finished : done = straightAnalysed.1 := congrArg Prod.fst same
  subst finished
  obtain ⟨passes, here, more⟩ := visited.eq_iterate
  refine ⟨passes, ?_, here⟩
  by_contra many
  exact absurd (more 2 (by omega)) (by decide +kernel)

theorem straight_suppressed {s : Head} {reg : Word}
    (suppressed : Suppressed straightModule loopSession s reg) : reg = ArmReg.r4 := by
  obtain ⟨passes, few, rfl⟩ := straight_decompiled suppressed.decompiled
  obtain ⟨insn, found, defined⟩ := suppressed.insn
  have ignored := suppressed.ignored
  interval_cases passes
  · have first : insn = movFive := (Option.some.inj found).symm
    subst first
    obtain ⟨i, member, target⟩ := List.any_eq_true.mp defined
    have bound : i < 2 := List.mem_range.mp member
    rw [Bool.and_eq_true, Bool.and_eq_true] at target
    interval_cases i
    · exact (beq_iff_eq.mp target.1.2).symm
    · exact absurd target.1.1 (by decide)
  · exact absurd ignored (by decide +kernel)
  · exact absurd ignored (by decide +kernel)

theorem straight_hidden (insn : CsInsn)
    (found : (straightHead 1).insn straightModule loopSession = some insn) :
    Hidden "v1" loopSession insn (straightHead 1).2.address
      ((straightHead 1).globals loopSession) := by
  have second : insn = movInsn "r5, r4" 71 (operand .reg ArmReg.r4) :=
    (Option.some.inj found).symm
  subst second
  have code : (getInstructionCode (movInsn "r5, r4" 71 (operand .reg ArmReg.r4))
      (trimMnemonic (movInsn "r5, r4" 71 (operand .reg ArmReg.r4))).1 : List Glyph).isEmpty =
        false := by decide +kernel
  simp only [Hidden, code, Bool.false_eq_true, if_false]
  rintro -
  refine ⟨.inr ⟨?target, ?source, trivial⟩, ?_, ?_⟩
  case target =>
    rintro -
    change (0 + 1 = 2 → _) ∧ if _ then _ else _
    refine ⟨fun last => absurd last (by decide), ?_⟩
    rw [if_pos (by decide +kernel)]
    exact .inl (by decide)
  case source =>
    rintro -
    change (1 + 1 = 2 → _) ∧ if _ then _ else _
    refine ⟨fun _ unshifted => absurd rfl unshifted, ?_⟩
    rw [if_neg (by decide +kernel)]
    exact mentions_plain ['5']
  all_goals
    intro symbol found
    cases found

theorem straight_dropped : Suppressed straightModule loopSession (straightHead 0) ArmReg.r4 := by
  have analysed : ∀ k < 2, (analyseCodeLoop straightModule loopSession).more
      ((analyseCodeLoop straightModule loopSession).pass^[k]
        ((.initial, straightModule.start) : Globals Glyph × Cursor)) = true := by decide +kernel
  have start : Decompiled straightModule loopSession (straightHead 0) :=
    ⟨straightAnalysed.1, straightAnalysed.2, Loop.Visits.iterate 2 analysed, by decide +kernel,
      .start⟩
  exact ⟨start, ⟨movFive, by rfl, by decide +kernel⟩, by decide +kernel⟩

theorem suppressed_dead_straight :
    Suppressed straightModule loopSession (straightHead 0) ArmReg.r4 ∧
      SuppressedDead straightModule loopSession loopFlow := by
  refine ⟨straight_dropped, (suppressed_dead straightModule loopSession loopFlow ?_).1⟩
  intro s reg t insn suppressed exposed found
  obtain rfl := straight_suppressed suppressed
  obtain ⟨passes, few, rfl⟩ := straight_decompiled exposed.decompiled
  interval_cases passes
  · have first : insn = movFive := (Option.some.inj found).symm
    subst first
    have code : (getInstructionCode movFive (trimMnemonic movFive).1 : List Glyph).isEmpty =
        false := by decide +kernel
    simp only [Hidden, code, Bool.false_eq_true, if_false]
    exact fun shown => absurd shown (by decide +kernel)
  · exact straight_hidden insn found
  · cases found

end VitaTools.Passes
