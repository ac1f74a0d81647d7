import VitaTools.Decompiler.Compose

set_option autoImplicit false

namespace VitaTools.Decompiler

open VitaTools.Library

def Binary.apply (op : Binary) (left right : Word) : Word :=
  match op with
  | .add => left + right
  | .sub => left - right
  | .and => left &&& right
  | .orr => left ||| right
  | .eor => left ^^^ right
  | .lsl => left <<< (right.toNat % 256)
  | .lsr => left >>> (right.toNat % 256)

def Operand.value (machine : Reg → Word) : Operand → Word
  | .reg source => machine source
  | .imm word => word

namespace Insn

def value (machine : Reg → Word) : Insn → Word
  | .mov _ op1 => op1.value machine
  | .three op _ rn op2 => op.apply (machine rn) (op2.value machine)
  | .two op rd op1 => op.apply (machine rd) (op1.value machine)

def exec (insn : Insn) (machine : Reg → Word) : Reg → Word :=
  Function.update machine insn.rd (insn.value machine)

def shiftDefined (machine : Reg → Word) : Insn → Bool
  | .mov _ _ => true
  | .three op _ _ op2 => !(op = .lsl || op = .lsr) || (op2.value machine).toNat < 32
  | .two op _ op1 => !(op = .lsl || op = .lsr) || (op1.value machine).toNat < 32

end Insn

structure Lockstep where
  globals : Globals
  vars : Reg → Word
  machine : Reg → Word

def runStatement (vars : Reg → Word) (printed : Option Text) : Reg → Word :=
  match printed with
  | none => vars
  | some text =>
      match evalStatement text vars with
      | some (reg, word) => Function.update vars reg word
      | none => vars

namespace Lockstep

def step (session : Session) (s : Lockstep) (line : Nat × Insn) : Lockstep :=
  let (printed, globals) := Globals.pseudoCode session line.2 line.1 s.globals
  { globals, vars := runStatement s.vars printed, machine := line.2.exec s.machine }

def Assigns (session : Session) (s : Lockstep) (line : Nat × Insn) : Prop :=
  ∀ text, (Globals.pseudoCode session line.2 line.1 s.globals).1 = some text →
    evalStatement text s.vars = some (line.2.rd, line.2.value s.machine)

def Preserves (session : Session) (s : Lockstep) (run : List (Nat × Insn)) : Prop :=
  ∀ before line after, run = before ++ line :: after →
    Assigns session (before.foldl (step session) s) line

end Lockstep

/-- The registers whose variable holds their value, and those whose entry was right at the
start or made from right values and mentions no variable assigned since. -/
structure Tracking where
  current : Reg → Bool
  fresh : Reg → Bool

namespace Tracking

def start : Tracking := ⟨fun _ => true, fun _ => false⟩

def reads (t : Tracking) (g : Globals) : Operand → Bool
  | .reg reg => if g.byName reg then t.current reg else t.fresh reg
  | .imm _ => true

def readsTarget (t : Tracking) : Insn → Bool
  | .two _ rd _ => t.current rd
  | _ => true

def good (t : Tracking) (s : Lockstep) (insn : Insn) : Bool :=
  insn.sources.all (t.reads s.globals) && t.readsTarget insn && insn.shiftDefined s.machine

def mentions (g : Globals) (reg target : Reg) : Bool :=
  match g.regAssignMap reg with
  | none => false
  | some entry => occurs (getRegName target) entry.assign

def step (session : Session) (t : Tracking) (s : Lockstep) (line : Nat × Insn) : Tracking :=
  let printed := !s.globals.ignoreMap line.1
  { current := Function.update t.current line.2.rd printed
    fresh := fun reg =>
      Function.update t.fresh line.2.rd (t.good s line.2) reg &&
        !(printed && mentions (s.step session line).globals reg line.2.rd) }

/-- Every printed statement of the run reads only current variables and fresh entries. -/
def Sound (session : Session) : List (Nat × Insn) → Tracking → Lockstep → Prop
  | [], _, _ => True
  | line :: rest, t, s =>
      (s.globals.ignoreMap line.1 = false → t.good s line.2 = true) ∧
        Sound session rest (t.step session s line) (s.step session line)

end Tracking

theorem Term.eval_update (term : Term) {reg : Reg} (vars : Reg → Word) (word : Word)
    (absent : ¬ getRegName reg <:+: term.render) :
    term.eval (Function.update vars reg word) = term.eval vars := by
  induction term with
  | var other =>
      have different : other ≠ reg := fun same => absent (by rw [same]; exact List.infix_refl _)
      simp [Term.eval, different]
  | imm => rfl
  | same body ih =>
      refine ih fun inside => absent (inside.trans ?_)
      exact ⟨['('], [')'], by simp [Term.render]⟩
  | bin op left right ihLeft ihRight =>
      have inLeft : left.render <:+: (Term.bin op left right).render :=
        ⟨['('], ' ' :: op.sign ++ ' ' :: right.render ++ [')'], by simp [Term.render]⟩
      have inRight : right.render <:+: (Term.bin op left right).render :=
        ⟨'(' :: left.render ++ ' ' :: op.sign ++ [' '], [')'], by simp [Term.render]⟩
      rw [Term.eval, ihLeft fun inside => absent (inside.trans inLeft),
        ihRight fun inside => absent (inside.trans inRight), Term.eval]

theorem Expr.eval_update (expr : Expr) {reg : Reg} (vars : Reg → Word) (word : Word)
    (absent : ¬ getRegName reg <:+: expr.render) :
    expr.eval (Function.update vars reg word) = expr.eval vars := by
  cases expr with
  | term body => exact body.eval_update vars word absent
  | bin op left right =>
      have inLeft : left.render <:+: (Expr.bin op left right).render :=
        ⟨[], ' ' :: op.sign ++ ' ' :: right.render, by simp [Expr.render]⟩
      have inRight : right.render <:+: (Expr.bin op left right).render :=
        ⟨left.render ++ ' ' :: op.sign ++ [' '], [], by simp [Expr.render]⟩
      rw [Expr.eval, left.eval_update vars word fun inside => absent (inside.trans inLeft),
        right.eval_update vars word fun inside => absent (inside.trans inRight), Expr.eval]

theorem evalC_apply (op : Binary) (left right : Word)
    (defined : !(op = .lsl || op = .lsr) || right.toNat < 32) :
    op.evalC left right = some (op.apply left right) := by
  have lowByte : right.toNat < 32 → right.toNat % 256 = right.toNat := fun bound =>
    Nat.mod_eq_of_lt (bound.trans (by decide))
  cases op with
  | lsl =>
      have bound : right.toNat < 32 := by simpa using defined
      simp [Binary.evalC, Binary.apply, bound, lowByte]
  | lsr =>
      have bound : right.toNat < 32 := by simpa using defined
      simp [Binary.evalC, Binary.apply, bound, lowByte]
  | _ => rfl

structure Agrees (t : Tracking) (s : Lockstep) : Prop where
  current : ∀ reg, t.current reg = true → s.vars reg = s.machine reg
  fresh : ∀ reg, t.fresh reg = true → ∃ entry, ∃ expr : Expr,
    s.globals.regAssignMap reg = some entry ∧ entry.assign = expr.render ∧
      expr.eval s.vars = some (s.machine reg)

namespace Agrees

variable {t : Tracking} {s : Lockstep}

theorem start (g : Globals) (machine : Reg → Word) :
    Agrees Tracking.start ⟨g, machine, machine⟩ :=
  ⟨fun _ _ => rfl, fun _ never => absurd never (by simp [Tracking.start])⟩

theorem read (agrees : Agrees t s) (op : Operand) (reads : t.reads s.globals op = true) :
    ∃ term : Term, s.globals.operandText op = term.render ∧
      term.eval s.vars = some (op.value s.machine) := by
  cases op with
  | imm imm => exact ⟨.imm imm, rfl, rfl⟩
  | reg reg =>
      rw [Tracking.reads] at reads
      cases named : s.globals.byName reg with
      | true =>
          rw [named, if_pos rfl] at reads
          refine ⟨.var reg, s.globals.operandText_byName named, ?_⟩
          rw [Term.eval, agrees.current reg reads, Operand.value]
      | false =>
          rw [named, if_neg Bool.false_ne_true] at reads
          obtain ⟨entry, expr, found, text, value⟩ := agrees.fresh reg reads
          refine ⟨expr.operand, ?_, ?_⟩
          · rw [s.globals.operandText_composed named found, text, bracket_render]
          · rw [operand_eval, value, Operand.value]

theorem expr (agrees : Agrees t s) (insn : Insn) (good : t.good s insn = true) :
    ∃ read : Operand → Term,
      (∀ op ∈ insn.sources, s.globals.operandText op = (read op).render) ∧
        (insn.expr read).eval s.vars = some (insn.value s.machine) := by
  rw [Tracking.good, Bool.and_eq_true, Bool.and_eq_true, List.all_eq_true] at good
  obtain ⟨⟨sources, target⟩, defined⟩ := good
  have terms : ∀ op, ∃ term : Term, op ∈ insn.sources →
      s.globals.operandText op = term.render ∧ term.eval s.vars = some (op.value s.machine) := by
    intro op
    by_cases member : op ∈ insn.sources
    next =>
      obtain ⟨term, holds⟩ := agrees.read op (sources op member)
      exact ⟨term, fun _ => holds⟩
    next => exact ⟨.imm 0, fun other => absurd other member⟩
  choose read holds using terms
  refine ⟨read, fun op member => (holds op member).1, ?_⟩
  have values : ∀ op ∈ insn.sources, (read op).eval s.vars = some (op.value s.machine) :=
    fun op member => (holds op member).2
  cases insn with
  | mov rd op1 => exact values op1 (by simp [Insn.sources])
  | three op rd rn op2 =>
      have left := values (.reg rn) (by simp [Insn.sources])
      have right := values op2 (by simp [Insn.sources])
      simp only [Insn.expr, Expr.eval, left, right, Option.bind_eq_bind, Option.bind_some]
      exact evalC_apply op _ _ defined
  | two op rd op1 =>
      have right := values op1 (by simp [Insn.sources])
      simp only [Insn.expr, Expr.eval, Term.eval, agrees.current rd target, right,
        Option.bind_eq_bind, Option.bind_some]
      exact evalC_apply op _ _ defined

theorem line (agrees : Agrees t s) (session : Session) (addr : Nat) (insn : Insn)
    (good : t.good s insn = true) :
    ∃ expr : Expr,
      Globals.pseudoCode session insn addr s.globals =
        (if s.globals.ignoreMap addr then none else some (statement insn.rd expr),
          s.globals.record insn.rd addr expr.render) ∧
        expr.eval s.vars = some (insn.value s.machine) := by
  obtain ⟨read, texts, value⟩ := agrees.expr insn good
  exact ⟨_, Globals.pseudoCode_statement session s.globals insn addr read texts, value⟩

theorem assigns (agrees : Agrees t s) (session : Session) (line : Nat × Insn)
    (sound : s.globals.ignoreMap line.1 = false → t.good s line.2 = true) :
    Lockstep.Assigns session s line := by
  intro text output
  have printed : s.globals.ignoreMap line.1 = false := by
    have hidden := Globals.pseudoCode_ignored session s.globals line.2 line.1
    rw [output] at hidden
    simpa using hidden
  obtain ⟨expr, code, value⟩ := agrees.line session line.1 line.2 (sound printed)
  rw [code, printed] at output
  cases output
  rw [evalStatement_statement, value]
  rfl

end Agrees

namespace Lockstep

variable {session : Session} {s : Lockstep} {line : Nat × Insn}

theorem step_vars (assigns : Assigns session s line) :
    (s.step session line).vars = if s.globals.ignoreMap line.1 then s.vars
      else Function.update s.vars line.2.rd (line.2.value s.machine) := by
  have hidden := Globals.pseudoCode_ignored session s.globals line.2 line.1
  cases output : (Globals.pseudoCode session line.2 line.1 s.globals).1 with
  | none => simp [step, runStatement, output, hidden.mp output]
  | some text =>
      have printed : ¬ s.globals.ignoreMap line.1 = true := by simp [← hidden, output]
      simp [step, runStatement, output, assigns text output, printed]

theorem step_entry {reg : Reg} (other : reg ≠ line.2.rd) :
    (s.step session line).globals.regAssignMap reg = s.globals.regAssignMap reg :=
  (Globals.pseudoCode_globals session s.globals line.2 line.1).2 reg other

theorem step_machine {reg : Reg} :
    (s.step session line).machine reg =
      if reg = line.2.rd then line.2.value s.machine else s.machine reg :=
  Function.update_apply s.machine line.2.rd (line.2.value s.machine) reg

theorem eval_step (assigns : Assigns session s line) (expr : Expr)
    (apart : s.globals.ignoreMap line.1 = true ∨ ¬ getRegName line.2.rd <:+: expr.render) :
    expr.eval (s.step session line).vars = expr.eval s.vars := by
  rw [step_vars assigns]
  split
  next => rfl
  next printed => exact expr.eval_update s.vars _ (apart.resolve_left printed)

end Lockstep

namespace Tracking

variable {t : Tracking} {session : Session} {s : Lockstep} {line : Nat × Insn} {reg : Reg}

theorem step_fresh (fresh : (t.step session s line).fresh reg = true) :
    (if reg = line.2.rd then t.good s line.2 = true else t.fresh reg = true) ∧
      ∀ entry, (s.step session line).globals.regAssignMap reg = some entry →
        s.globals.ignoreMap line.1 = true ∨ ¬ getRegName line.2.rd <:+: entry.assign := by
  rw [step, Bool.and_eq_true, Function.update_apply] at fresh
  obtain ⟨before, apart⟩ := fresh
  refine ⟨by split <;> simp_all, fun entry found => ?_⟩
  rw [← occurs_iff_infix]
  simp only [mentions, found] at apart
  cases ignored : s.globals.ignoreMap line.1 <;> simp_all

end Tracking

theorem Agrees.step {t : Tracking} {s : Lockstep} (agrees : Agrees t s) (session : Session)
    (line : Nat × Insn)
    (sound : s.globals.ignoreMap line.1 = false → t.good s line.2 = true) :
    Agrees (t.step session s line) (s.step session line) := by
  have assigns := agrees.assigns session line sound
  constructor
  case current =>
    intro reg current
    rw [Lockstep.step_machine, Lockstep.step_vars assigns]
    by_cases target : reg = line.2.rd
    next =>
      have printed : s.globals.ignoreMap line.1 = false := by
        simpa [Tracking.step, target] using current
      simp [target, printed]
    next =>
      have before : t.current reg = true := by
        simpa [Tracking.step, target] using current
      rw [if_neg target, ← agrees.current reg before]
      split
      next => rfl
      next => exact Function.update_of_ne target _ _
  case fresh =>
    intro reg fresh
    obtain ⟨before, apart⟩ := Tracking.step_fresh fresh
    rw [Lockstep.step_machine]
    by_cases target : reg = line.2.rd
    next =>
      rw [if_pos target] at before
      obtain ⟨expr, code, value⟩ := agrees.line session line.1 line.2 before
      have found : (s.step session line).globals.regAssignMap reg =
          some ⟨expr.render, line.1, false⟩ := by
        simp [Lockstep.step, code, Globals.record, target]
      refine ⟨_, expr, found, rfl, ?_⟩
      rw [Lockstep.eval_step assigns expr (apart _ found), value, if_pos target]
    next =>
      rw [if_neg target] at before
      obtain ⟨entry, expr, found, text, value⟩ := agrees.fresh reg before
      have kept : (s.step session line).globals.regAssignMap reg = some entry :=
        (Lockstep.step_entry target).trans found
      refine ⟨entry, expr, kept, text, ?_⟩
      rw [Lockstep.eval_step assigns expr (text ▸ apart entry kept), value, if_neg target]

theorem Agrees.run {session : Session} (before : List (Nat × Insn)) {line : Nat × Insn}
    {after : List (Nat × Insn)} {t : Tracking} {s : Lockstep} (agrees : Agrees t s)
    (sound : Tracking.Sound session (before ++ line :: after) t s) :
    Lockstep.Assigns session (before.foldl (Lockstep.step session) s) line := by
  induction before generalizing t s with
  | nil => exact agrees.assigns session line sound.1
  | cons first rest ih => exact ih (agrees.step session first sound.1) sound.2

/-- Every statement printed for the run is right, when the run starts from variables that
hold the registers and entries that are right where they count as fresh. -/
theorem composition_preserves_values (session : Session) (g : Globals) (machine : Reg → Word)
    (run : List (Nat × Insn)) (t : Tracking) (begun : Agrees t ⟨g, machine, machine⟩)
    (sound : Tracking.Sound session run t ⟨g, machine, machine⟩) :
    Lockstep.Preserves session ⟨g, machine, machine⟩ run := by
  intro before line after shape
  subst shape
  exact begun.run before sound

def afterAnalysis (session : Session) (run : List (Nat × Insn)) : Globals :=
  let blank : Globals := ⟨fun _ => none, fun _ => false, false⟩
  { run.foldl (fun g line => g.analyse session line.2 line.1) blank with
    regAssignMap := fun _ => none }

def plainSession : Session := ⟨fun _ => none, fun _ => 0, fun _ => []⟩

def shiftedSum : List (Nat × Insn) :=
  [(0, .three .add .r0 .r1 (.imm 1)), (4, .three .lsl .r2 .r0 (.imm 2)), (8, .mov .r1 (.reg .r2))]

/-- Only the last line is printed: `a2 = ((a2 + 1) << 2);`. -/
theorem composition_preserves_values_shiftedSum :
    Lockstep.Preserves plainSession
      ⟨afterAnalysis plainSession shiftedSum, fun _ => 7, fun _ => 7⟩ shiftedSum :=
  composition_preserves_values plainSession _ (fun _ => 7) shiftedSum Tracking.start
    (Agrees.start _ _)
    ⟨fun printed => absurd printed (by decide), fun printed => absurd printed (by decide),
      fun _ => by decide, trivial⟩

def copyOverwritten : List (Nat × Insn) :=
  [(0, .mov .r0 (.reg .r1)), (4, .mov .r1 (.imm 5)), (8, .mov .r2 (.reg .r0))]

/-- `a2 = 5;` comes before `a3 = a2;`, which stands for the copy of the old `a2`. -/
theorem copyOverwritten_not_preserved :
    ¬ Lockstep.Preserves plainSession
      ⟨afterAnalysis plainSession copyOverwritten, fun _ => 7, fun _ => 7⟩ copyOverwritten := by
  intro preserves
  have last := preserves (copyOverwritten.take 2) (8, .mov .r2 (.reg .r0)) [] rfl
  have wrong := last "a3 = a2;".toList (by decide)
  exact absurd wrong (by decide)

end VitaTools.Decompiler
