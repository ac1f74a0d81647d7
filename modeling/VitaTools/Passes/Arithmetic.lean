import VitaTools.Passes.Operands

set_option autoImplicit false

namespace VitaTools.Passes

open VitaTools.Library VitaTools.Library.Traced
open VitaTools.Decompiler (Text Word)
open VitaTools.Decompiler.Globals (opName)

inductive Arithmetic
  | add | sub | rsb | mul | mla | mls | umull | and | bic | eor | orr | lsl | lsr | ubfx
  | mvn | rev | rev16
deriving DecidableEq

namespace Arithmetic

def name : Arithmetic → String
  | .add => "add"
  | .sub => "sub"
  | .rsb => "rsb"
  | .mul => "mul"
  | .mla => "mla"
  | .mls => "mls"
  | .umull => "umull"
  | .and => "and"
  | .bic => "bic"
  | .eor => "eor"
  | .orr => "orr"
  | .lsl => "lsl"
  | .lsr => "lsr"
  | .ubfx => "ubfx"
  | .mvn => "mvn"
  | .rev => "rev"
  | .rev16 => "rev16"

def forms : Arithmetic → List (Nat × List Nat)
  | .add | .sub | .mul | .and | .bic | .eor | .orr | .lsl | .lsr => [(3, [1, 2]), (2, [0, 1])]
  | .rsb => [(3, [1, 2])]
  | .mla | .mls | .ubfx => [(4, [1, 2, 3])]
  | .umull => [(4, [2, 3])]
  | .mvn | .rev | .rev16 => [(2, [1])]

def targets : Arithmetic → List Nat
  | .umull => [0, 1]
  | _ => [0]

/-- What the instruction leaves in its targets. A shift by a register uses its low byte. -/
def results : Arithmetic → List Word → List Word
  | .add, [n, m] => [n + m]
  | .sub, [n, m] => [n - m]
  | .rsb, [n, m] => [m - n]
  | .mul, [n, m] => [n * m]
  | .mla, [n, m, a] => [n * m + a]
  | .mls, [n, m, a] => [a - n * m]
  | .umull, [n, m] =>
      let product := n.setWidth 64 * m.setWidth 64
      [product.setWidth 32, (product >>> 32).setWidth 32]
  | .and, [n, m] => [n &&& m]
  | .bic, [n, m] => [n &&& ~~~m]
  | .eor, [n, m] => [n ^^^ m]
  | .orr, [n, m] => [n ||| m]
  | .lsl, [n, m] => [n <<< (m.toNat % 256)]
  | .lsr, [n, m] => [n >>> (m.toNat % 256)]
  | .ubfx, [n, lsb, width] => [BitVec.ofNat 32 (n.toNat / 2 ^ lsb.toNat % 2 ^ width.toNat)]
  | .mvn, [n] => [~~~n]
  | .rev, [n] =>
      [n.extractLsb' 0 8 ++ n.extractLsb' 8 8 ++ n.extractLsb' 16 8 ++ n.extractLsb' 24 8]
  | .rev16, [n] =>
      [n.extractLsb' 16 8 ++ n.extractLsb' 24 8 ++ n.extractLsb' 0 8 ++ n.extractLsb' 8 8]
  | _, _ => []

def expressions : Arithmetic → List C.Expr → List C.Expr
  | .add, [n, m] => [.binary .add n m]
  | .sub, [n, m] => [.binary .sub n m]
  | .rsb, [n, m] => [.binary .sub m n]
  | .mul, [n, m] => [.binary .mul n m]
  | .mla, [n, m, a] => [.binary .add (.binary .mul n m) a]
  | .mls, [n, m, a] => [.binary .sub (.binary .mul n m) a]
  | .umull, [n, m] =>
      [.binary .shl (.binary .mul n m) (.word "32".toList),
        .binary .and (.binary .mul n m) (.word "0xFFFFFFFF".toList)]
  | .and, [n, m] => [.binary .and n m]
  | .bic, [n, m] => [.binary .and n (.complement m)]
  | .eor, [n, m] => [.binary .xor n m]
  | .orr, [n, m] => [.binary .or n m]
  | .lsl, [n, m] => [.binary .shl n m]
  | .lsr, [n, m] => [.binary .shr n m]
  | .ubfx, [n, lsb, width] =>
      [.binary .and (.binary .shr n lsb)
        (.binary .sub (.binary .shl (.word "1".toList) width) (.word "1".toList))]
  | .mvn, [n] => [.complement n]
  | .rev, [n] => [.swap .bswap32 n]
  | .rev16, [n] => [.swap .bswap16 n]
  | _, _ => []

def flexible : Arithmetic → Bool
  | .add | .sub | .rsb | .and | .bic | .eor | .orr | .mvn => true
  | .mul | .mla | .mls | .umull | .lsl | .lsr | .ubfx | .rev | .rev16 => false

def statements (a : Arithmetic) (sources : List Nat) (flags : Bool) : List C.Assignment :=
  List.zipWith (fun i e => ⟨operandSlot i, e⟩) a.targets
      (a.expressions (sources.map operandSlot)) ++
    if flags then [⟨.word "FLAGS".toList, operandSlot 0⟩] else []

-- The code assigns the targets, is read as these statements and has slots for its operands only.
def readsAs (a : Arithmetic) (sources : List Nat) (flags : Bool) (code : Text) : Bool :=
  a.targets.all (fun i => occurs (opName i ++ " = ".toList) code) &&
    (slots (templateOf code)).all (fun name => (a.targets ++ sources).any (opName · == name)) &&
      aloneIn (templateOf code) &&
        C.parse (tokensOf (inPlace '\\' [' '] (templateOf code))) ==
          some (a.statements sources flags) &&
          sources.all fun i =>
            (tokensOf (inPlace '\\' [' '] (templateOf code))).any (· == .slot (opName i))

theorem templates_read (a : Arithmetic) {count : Nat} {sources : List Nat}
    (form : (count, sources) ∈ a.forms) :
    ∃ letters, templateText a.name count = some (String.ofList letters) ∧
      (a.readsAs sources false letters && a.readsAs sources true (letters ++ flagsText)) =
        true := by
  cases a <;>
    simp only [forms, List.mem_cons, List.not_mem_nil, or_false, Prod.mk.injEq] at form
  case add | sub | mul | and | bic | eor | orr | lsl | lsr =>
    rcases form with ⟨rfl, rfl⟩ | ⟨rfl, rfl⟩
    all_goals
      apply Exists.intro
      apply And.intro
      · simp [templateText, instructions, instructions2, name, List.lookup_cons]
        rfl
      · decide +kernel
  case rsb | mla | mls | umull | ubfx | mvn | rev | rev16 =>
    obtain ⟨rfl, rfl⟩ := form
    apply Exists.intro
    apply And.intro
    · simp [templateText, instructions, instructions2, name, List.lookup_cons]
      rfl
    · decide +kernel

/-- The values from which the template computes what the instruction does. -/
def Translated : Arithmetic → List Word → Prop
  -- The difference is taken the wrong way round.
  | .mls, [n, m, a] => n * m - a = 0 ∨ n * m - a = 2 ^ 31
  -- The product has 32 bits only, and is shifted by as many.
  | .umull, _ => False
  | .lsl, [_, m] | .lsr, [_, m] => m.toNat < 32
  | .ubfx, [_, lsb, width] => lsb.toNat < 32 ∧ width.toNat < 32
  -- The high half is left out.
  | .rev16, [n] => n.toNat < 2 ^ 16
  | _, _ => True

section

variable {s : C.State} {x y z : C.Expr} {n m k : Word}

theorem value_one : s.value (.word "1".toList) = some 1 := value_literal (by decide) (by decide)

theorem value_thirtyTwo : s.value (.word "32".toList) = some 32 :=
  value_literal (by decide) (by decide)

theorem neg_self_iff (v : Word) : v = -v ↔ v = 0 ∨ v = 2 ^ 31 := by
  have half : (2 ^ 31 : Word).toNat = 2 ^ 31 := by decide
  have zero : (0 : Word).toNat = 0 := rfl
  have bound := v.isLt
  rw [← BitVec.toNat_inj, ← BitVec.toNat_inj, ← BitVec.toNat_inj, BitVec.toNat_neg, half, zero]
  omega

theorem mls_iff : n * m - k = k - n * m ↔ n * m - k = 0 ∨ n * m - k = 2 ^ 31 := by
  generalize n * m = product
  have swapped : k - product = -(product - k) := by
    apply BitVec.eq_of_toNat_eq
    have first := product.isLt
    have second := k.isLt
    rw [BitVec.toNat_neg, BitVec.toNat_sub, BitVec.toNat_sub]
    omega
  rw [swapped]
  exact neg_self_iff _

theorem mask_value {lsb width : Nat} (small : width < 32) :
    (n >>> lsb) &&& ((1 : Word) <<< width - 1) =
      BitVec.ofNat 32 (n.toNat / 2 ^ lsb % 2 ^ width) := by
  apply BitVec.eq_of_toNat_eq
  have power : 2 ^ width < 2 ^ 32 := Nat.pow_lt_pow_right (by decide) small
  have one : 1 ≤ 2 ^ width := Nat.one_le_two_pow
  have mask : ((1 : Word) <<< width - 1).toNat = 2 ^ width - 1 := by
    rw [BitVec.toNat_sub, BitVec.toNat_shiftLeft, Nat.shiftLeft_eq]
    change (2 ^ 32 - 1 + 1 * 2 ^ width % 2 ^ 32) % 2 ^ 32 = _
    rw [Nat.one_mul, Nat.mod_eq_of_lt power]
    omega
  rw [BitVec.toNat_and, mask, BitVec.toNat_ushiftRight, Nat.shiftRight_eq_div_pow,
    Nat.and_two_pow_sub_one_eq_mod, BitVec.toNat_ofNat]
  exact (Nat.mod_eq_of_lt ((Nat.mod_lt _ one).trans power)).symm

theorem toNat_append_add {a b : Nat} (x : BitVec a) (y : BitVec b) :
    (x ++ y).toNat = x.toNat * 2 ^ b + y.toNat := by
  rw [BitVec.toNat_append, ← Nat.shiftLeft_add_eq_or_of_lt y.isLt, Nat.shiftLeft_eq]

theorem bswap16_iff : C.Swap.bswap16.apply n =
    n.extractLsb' 16 8 ++ n.extractLsb' 24 8 ++ n.extractLsb' 0 8 ++ n.extractLsb' 8 8 ↔
      n.toNat < 2 ^ 16 := by
  have bound := n.isLt
  rw [C.Swap.apply, ← BitVec.toNat_inj, BitVec.toNat_setWidth]
  simp only [toNat_append_add, BitVec.extractLsb'_toNat, Nat.shiftRight_eq_div_pow]
  have third : n.toNat / 2 ^ 24 = n.toNat / 2 ^ 16 / 2 ^ 8 := by omega
  rw [third]
  have zero := Nat.mod_lt (n.toNat / 2 ^ 0) (by decide : 0 < 2 ^ 8)
  have one := Nat.mod_lt (n.toNat / 2 ^ 8) (by decide : 0 < 2 ^ 8)
  have two := Nat.mod_lt (n.toNat / 2 ^ 16) (by decide : 0 < 2 ^ 8)
  have three := Nat.mod_lt (n.toNat / 2 ^ 16 / 2 ^ 8) (by decide : 0 < 2 ^ 8)
  have high : n.toNat / 2 ^ 16 < 2 ^ 16 := by omega
  generalize n.toNat / 2 ^ 0 % 2 ^ 8 = b0 at *
  generalize n.toNat / 2 ^ 8 % 2 ^ 8 = b1 at *
  constructor
  next =>
    intro same
    have empty : n.toNat / 2 ^ 16 % 2 ^ 8 = 0 ∧ n.toNat / 2 ^ 16 / 2 ^ 8 % 2 ^ 8 = 0 := by omega
    omega
  next =>
    intro small
    have empty : n.toNat / 2 ^ 16 = 0 := by omega
    rw [empty]
    omega

theorem shift_defined {shift : Word → Nat → Word} :
    (if m.toNat < 32 then some (shift n m.toNat) else none) = some (shift n (m.toNat % 256)) ↔
      m.toNat < 32 := by
  by_cases small : m.toNat < 32
  next =>
    have low : m.toNat % 256 = m.toNat := Nat.mod_eq_of_lt (small.trans (by decide))
    rw [low, if_pos small]
    exact iff_of_true rfl small
  next =>
    rw [if_neg small]
    exact iff_of_false (fun same => by cases same) small

theorem translated_two {a : Arithmetic} (two : (3, [1, 2]) ∈ a.forms)
    (first : s.value x = some n) (second : s.value y = some m) :
    ∃ e r, a.expressions [x, y] = [e] ∧ a.results [n, m] = [r] ∧
      (s.value e = some r ↔ a.Translated [n, m]) := by
  cases a with
  | mla | mls | umull | ubfx | mvn | rev | rev16 => simp [forms] at two
  | lsl | lsr =>
      refine ⟨_, _, rfl, rfl, ?_⟩
      simp only [C.State.value, first, second, Option.bind_some, C.Op.apply, Translated]
      exact shift_defined
  | add | sub | rsb | mul | and | bic | eor | orr =>
      refine ⟨_, _, rfl, rfl, ?_⟩
      simp only [C.State.value, first, second, Option.bind_some, Option.map_some, C.Op.apply,
        Translated]

theorem translated_three {a : Arithmetic} (three : (4, [1, 2, 3]) ∈ a.forms)
    (first : s.value x = some n) (second : s.value y = some m) (third : s.value z = some k) :
    ∃ e r, a.expressions [x, y, z] = [e] ∧ a.results [n, m, k] = [r] ∧
      (s.value e = some r ↔ a.Translated [n, m, k]) := by
  cases a with
  | mla =>
      refine ⟨_, _, rfl, rfl, ?_⟩
      simp only [C.State.value, first, second, third, Option.bind_some, C.Op.apply, Translated]
  | mls =>
      refine ⟨_, _, rfl, rfl, ?_⟩
      simp only [C.State.value, first, second, third, Option.bind_some, C.Op.apply, Translated,
        Option.some.injEq]
      exact mls_iff
  | ubfx =>
      refine ⟨_, _, rfl, rfl, ?_⟩
      have one := value_one (s := s)
      rw [C.State.value] at one
      simp only [C.State.value, first, second, third, one, Option.bind_some, C.Op.apply, Translated]
      by_cases lsb : m.toNat < 32
      next =>
        by_cases width : k.toNat < 32
        next =>
          simp only [lsb, width, if_true, Option.bind_some, and_self, iff_true]
          exact congrArg some (mask_value width)
        next => simp [lsb, width]
      next => simp [lsb]
  | add | sub | rsb | mul | umull | and | bic | eor | orr | lsl | lsr | mvn | rev | rev16 =>
      simp [forms] at three

theorem translated_one {a : Arithmetic} (one : (2, [1]) ∈ a.forms) (first : s.value x = some n) :
    ∃ e r, a.expressions [x] = [e] ∧ a.results [n] = [r] ∧
      (s.value e = some r ↔ a.Translated [n]) := by
  cases a with
  | mvn | rev =>
      refine ⟨_, _, rfl, rfl, ?_⟩
      simp only [C.State.value, first, Option.map_some, C.Swap.apply, Translated]
  | rev16 =>
      refine ⟨_, _, rfl, rfl, ?_⟩
      simp only [C.State.value, first, Option.map_some, Option.some.injEq, Translated]
      exact bswap16_iff
  | add | sub | rsb | mul | mla | mls | umull | and | bic | eor | orr | lsl | lsr | ubfx =>
      simp [forms] at one

end

/-- Run from the state, the statements leave these values in the variables. -/
def Gives (s : C.State) (text : Text) (vars : List Text) (values : List Word) : Prop :=
  ∃ statements after, C.parse (lex text) = some statements ∧ s.run statements = some after ∧
    vars.map after.vars = values

/-- The instruction has this name and form, its targets are registers, and only the last operand
of a flexible instruction is shifted. -/
structure Is (a : Arithmetic) (sources : List Nat) (insn : CsInsn) : Prop where
  name : mnemonicOf insn = a.name.toList
  form : (insn.opCount, sources) ∈ a.forms
  targets : ∀ i ∈ a.targets, (insn.operands i).type = .reg
  shifts : ∀ i ∈ sources, (insn.operands i).shiftType ≠ .invalid →
    a.flexible = true ∧ i + 1 = insn.opCount

def targetNames (a : Arithmetic) (insn : CsInsn) : List Text :=
  a.targets.map fun i => (variableOf (insn.operands i).base).toList

theorem translated_iff {a : Arithmetic} {count : Nat} {sources : List Nat}
    (form : (count, sources) ∈ a.forms) (narrow : a ≠ .umull) {s : C.State}
    {expr : Nat → C.Expr} {v : Nat → Word}
    (values : ∀ i ∈ sources, s.value (expr i) = some (v i)) :
    ∃ e r, a.expressions (sources.map expr) = [e] ∧ a.results (sources.map v) = [r] ∧
      (s.value e = some r ↔ a.Translated (sources.map v)) := by
  have shapes : (3, [1, 2]) ∈ a.forms ∧ (sources = [1, 2] ∨ sources = [0, 1]) ∨
      (4, [1, 2, 3]) ∈ a.forms ∧ sources = [1, 2, 3] ∨ (2, [1]) ∈ a.forms ∧ sources = [1] := by
    cases a <;> simp [forms] at form narrow ⊢ <;> tauto
  rcases shapes with ⟨two, rfl | rfl⟩ | ⟨three, rfl⟩ | ⟨one, rfl⟩
  · exact translated_two two (values 1 (by simp)) (values 2 (by simp))
  · exact translated_two two (values 0 (by simp)) (values 1 (by simp))
  · exact translated_three three (values 1 (by simp)) (values 2 (by simp)) (values 3 (by simp))
  · exact translated_one one (values 1 (by simp))

theorem expressions_fill (a : Arithmetic) (g : Text → C.Expr) (es : List C.Expr) :
    (a.expressions es).map (C.Expr.fill g) = a.expressions (es.map (C.Expr.fill g)) := by
  rcases es with _ | ⟨n, _ | ⟨m, _ | ⟨k, _ | ⟨last, rest⟩⟩⟩⟩ <;> cases a <;> rfl

theorem statements_fill (a : Arithmetic) (sources : List Nat) (flags : Bool)
    (expr : Nat → C.Expr) :
    (a.statements sources flags).map (C.Assignment.fill fun name => expr (slotIndex name)) =
      List.zipWith (fun i e => ⟨expr i, e⟩) a.targets (a.expressions (sources.map expr)) ++
        if flags then [⟨.word "FLAGS".toList, expr 0⟩] else [] := by
  have operand (i : Nat) :
      (operandSlot i).fill (fun name => expr (slotIndex name)) = expr i := by
    rw [operandSlot, C.Expr.fill, slotIndex_opName]
  have filled := expressions_fill a (fun name => expr (slotIndex name)) (sources.map operandSlot)
  rw [List.map_map] at filled
  simp only [Function.comp_def, operand] at filled
  rw [statements, List.map_append, List.map_zipWith, ← filled, List.zipWith_map_right]
  simp only [C.Assignment.fill, operand]
  congr 1
  cases flags with
  | true =>
      simp only [if_true, List.map_cons, List.map_nil, C.Assignment.fill, operand]
      rfl
  | false => rfl

theorem run_single {s : C.State} {target : Text} (word : Variable target)
    (apart : target ≠ "FLAGS".toList) (e : C.Expr) (flags : Bool) (r : Word) :
    (∃ after, s.run (⟨.word target, e⟩ ::
        if flags then [⟨.word "FLAGS".toList, .word target⟩] else []) = some after ∧
      after.vars target = r) ↔ s.value e = some r := by
  cases value : s.value e with
  | none =>
      have fails : s.run (⟨.word target, e⟩ ::
          if flags then [⟨.word "FLAGS".toList, .word target⟩] else []) = none := by
        rw [C.State.run, List.foldlM_cons, C.State.exec, value]
        rfl
      rw [fails]
      simp
  | some u =>
      let first : C.State := { s with vars := Function.update s.vars target u }
      have step : s.exec ⟨.word target, e⟩ = some first := by
        rw [C.State.exec, value, Option.bind_some, C.State.assign, if_pos word.name]
      have name : C.isName "FLAGS".toList = true := by decide
      have last : ∃ after, s.run (⟨.word target, e⟩ ::
          if flags then [⟨.word "FLAGS".toList, .word target⟩] else []) = some after ∧
            after.vars target = u := by
        cases flags with
        | false =>
            refine ⟨first, ?_, Function.update_self target u s.vars⟩
            rw [C.State.run, List.foldlM_cons, step]
            rfl
        | true =>
            let second : C.State :=
              { first with vars := Function.update first.vars "FLAGS".toList u }
            have again : first.exec ⟨.word "FLAGS".toList, .word target⟩ = some second := by
              have kept : first.vars target = u := Function.update_self target u s.vars
              rw [C.State.exec, C.State.value, if_pos word.name, kept, Option.bind_some,
                C.State.assign, if_pos name]
            refine ⟨second, ?_, (Function.update_of_ne apart u first.vars).trans
              (Function.update_self target u s.vars)⟩
            rw [C.State.run, List.foldlM_cons, step]
            exact congrArg (·.bind fun s => List.foldlM C.State.exec s []) again
      obtain ⟨after, runs, holds⟩ := last
      rw [runs]
      simp [holds]

section

variable {session : Session} {insn : CsInsn} {addr : Word} {g : Globals Char} {a : Arithmetic}
variable {sources : List Nat}

theorem form_bounds {count : Nat} (form : (count, sources) ∈ a.forms) :
    count ≤ 4 ∧ (∀ i ∈ sources, i < count) ∧ ∀ i ∈ a.targets, i + 1 < count := by
  cases a <;>
    simp only [forms, List.mem_cons, List.not_mem_nil, or_false, Prod.mk.injEq] at form
  case add | sub | mul | and | bic | eor | orr | lsl | lsr =>
    rcases form with ⟨rfl, rfl⟩ | ⟨rfl, rfl⟩ <;> decide
  case rsb | mla | mls | umull | ubfx | mvn | rev | rev16 =>
    obtain ⟨rfl, rfl⟩ := form
    decide

theorem Is.reads (is : a.Is sources insn) : ∃ flags : Bool,
    (∀ i ∈ a.targets, occurs (opName i ++ " = ".toList) (codeOf insn) = true) ∧
      (slots (templateOf (codeOf insn))).all
        (fun name => (a.targets ++ sources).any (opName · == name)) = true ∧
      aloneIn (templateOf (codeOf insn)) = true ∧
      C.parse (tokensOf (inPlace '\\' [' '] (templateOf (codeOf insn)))) =
        some (a.statements sources flags) ∧
      ∀ i ∈ sources,
        .slot (opName i) ∈ tokensOf (inPlace '\\' [' '] (templateOf (codeOf insn))) := by
  obtain ⟨letters, found, both⟩ := templates_read a is.form
  rw [Bool.and_eq_true] at both
  have named : String.ofList (mnemonicOf insn) = a.name := by rw [is.name, String.ofList_toList]
  rw [← named] at found
  have reads : a.readsAs sources (setsFlags insn) (codeOf insn) = true := by
    rw [codeOf_template found, String.toList_ofList]
    cases setsFlags insn with
    | true => exact both.2
    | false => rw [if_neg Bool.false_ne_true, List.append_nil]; exact both.1
  simp only [readsAs, Bool.and_eq_true, List.all_eq_true (l := a.targets),
    List.all_eq_true (l := sources), List.any_eq_true (l := tokensOf _), beq_iff_eq] at reads
  obtain ⟨⟨⟨⟨assigned, names⟩, alone⟩, read⟩, needed⟩ := reads
  refine ⟨setsFlags insn, assigned, names, alone, read, fun i source => ?_⟩
  obtain ⟨token, inside, rfl⟩ := needed i source
  exact inside

theorem Is.target (is : a.Is sources insn) {i : Nat} (member : i ∈ a.targets) :
    Globals.valueOf session insn g (.operand i) =
      (variableOf (insn.operands i).base).toList := by
  obtain ⟨flags, assigned, -⟩ := is.reads
  have inside := (form_bounds is.form).2.2 i member
  exact Globals.valueOf_target (is.targets i member) (assigned i member) (by omega)

theorem Is.filled (is : a.Is sources insn) {s : C.State} {u : Nat → Word}
    (holds : ∀ i ∈ sources, Globals.OperandHolds s insn g i (u i)) :
    Globals.Filled session insn g := by
  obtain ⟨flags, assigned, names, -⟩ := is.reads
  obtain ⟨few, below, targets⟩ := form_bounds is.form
  have first : 0 ∈ a.targets := by cases a <;> decide
  constructor
  case known =>
    by_contra none
    have code : codeOf insn = [] := List.isEmpty_iff.mp (Bool.of_not_eq_false none)
    have hit := assigned 0 first
    rw [code] at hit
    exact absurd hit (by decide)
  case few => omega
  case noConstant =>
    rw [is.name]
    cases a <;> decide
  case operands =>
    intro name member
    obtain ⟨i, inside, rfl⟩ := slot_of_all names member
    rcases List.mem_append.mp inside with target | source
    · refine ⟨i, by have := targets i target; omega, rfl, ?_, ?_⟩
      · rw [is.targets i target]
        exact fun other => by cases other
      · rw [is.target target]
        exact quiet_variableOf _
    · exact ⟨i, below i source, rfl, (holds i source).kind, (holds i source).quiet⟩

theorem Is.operands (is : a.Is sources insn) {s : C.State} {v : Nat → Option Word}
    (reads : ∀ i ∈ sources, Reads s (Globals.valueOf session insn g (.operand i)) (v i)) :
    ∃ expr : Nat → C.Expr,
      (∀ i ∈ a.targets ++ sources,
        C.Phrase (lex (Globals.valueOf session insn g (.operand i))) (expr i)) ∧
      (∀ i ∈ a.targets, expr i = .word (variableOf (insn.operands i).base).toList) ∧
      ∀ i ∈ sources, s.value (expr i) = v i := by
  have each (i : Nat) : ∃ e, i ∈ a.targets ++ sources →
      C.Phrase (lex (Globals.valueOf session insn g (.operand i))) e ∧
        (i ∈ a.targets → e = .word (variableOf (insn.operands i).base).toList) ∧
        (i ∈ sources → s.value e = v i) := by
    by_cases target : i ∈ a.targets
    next =>
      have phrase := (variableOf_variable (insn.operands i).base).phrase
      refine ⟨_, fun _ => ⟨?_, fun _ => rfl, fun source => ?_⟩⟩
      · rw [is.target target]
        exact phrase
      · obtain ⟨e, other, value⟩ := (reads i source).reads
        rw [is.target target] at other
        rw [phrase.unique other]
        exact value
    next =>
      by_cases source : i ∈ sources
      next =>
        obtain ⟨e, phrase, value⟩ := (reads i source).reads
        exact ⟨e, fun _ => ⟨phrase, fun member => absurd member target, fun _ => value⟩⟩
      next =>
        refine ⟨.word [], fun member => ?_⟩
        exact absurd (List.mem_append.mp member) (not_or.mpr ⟨target, source⟩)
  choose expr holds using each
  exact ⟨expr, fun i member => (holds i member).1,
    fun i target => (holds i (List.mem_append_left _ target)).2.1 target,
    fun i source => (holds i (List.mem_append_right _ source)).2.2 source⟩

theorem Is.parsed (is : a.Is sources insn) (filled : Globals.Filled session insn g)
    {expr : Nat → C.Expr} (phrases : ∀ i ∈ a.targets ++ sources,
      C.Phrase (lex (Globals.valueOf session insn g (.operand i))) (expr i)) :
    ∃ flags : Bool, C.parse (lex (Globals.statementText session insn addr g)) =
      some (List.zipWith (fun i e => ⟨expr i, e⟩) a.targets (a.expressions (sources.map expr)) ++
        if flags then [⟨.word "FLAGS".toList, expr 0⟩] else []) := by
  obtain ⟨flags, -, names, alone, read, -⟩ := is.reads
  have slotPhrases : ∀ name ∈ slots (templateOf (codeOf insn)),
      C.Phrase (Globals.slotTokens session insn g name) (expr (slotIndex name)) := by
    intro name member
    obtain ⟨i, operand, rfl⟩ := slot_of_all names member
    rw [Globals.slotTokens_operand filled member, slotIndex_opName]
    exact phrases i operand
  exact ⟨flags, (Globals.parse_statementText filled alone read slotPhrases).trans
    (congrArg some (statements_fill a sources flags expr))⟩

theorem run_wide (s : C.State) (target e : C.Expr) (rest : List C.Assignment) :
    s.run (⟨target, .binary .shl e (.word "32".toList)⟩ :: rest) = none := by
  have undefined : s.value (.binary .shl e (.word "32".toList)) = none := by
    rw [C.State.value, value_thirtyTwo]
    cases s.value e <;> rfl
  rw [C.State.run, List.foldlM_cons, C.State.exec, undefined]
  rfl

theorem Is.unread (is : a.Is sources insn) {s : C.State} {u : Nat → Word}
    (holds : ∀ i ∈ sources, Globals.OperandHolds s insn g i (u i)) {k : Nat} (source : k ∈ sources)
    (kind : (insn.operands k).type = .reg) (last : k + 1 = insn.opCount)
    (shifted : (insn.operands k).shiftType ≠ .invalid ∧ (insn.operands k).shiftValue ≠ 0)
    (unsigned : (insn.operands k).shiftType.sign = none) :
    C.parse (lex (Globals.statementText session insn addr g)) = none := by
  have filled : Globals.Filled session insn g := is.filled holds
  obtain ⟨flags, -, names, alone, read, needed⟩ := is.reads
  have stuck : C.Stuck (Globals.slotTokens session insn g (opName k)) := by
    rw [Globals.slotTokens_operand filled (mem_slots_inPlace (mem_tokensOf (needed k source)))]
    exact (holds k source).stuck kind last shifted unsigned
  have others (name : Text) : ∃ e,
      .slot name ∈ tokensOf (inPlace '\\' [' '] (templateOf (codeOf insn))) → name ≠ opName k →
        C.Phrase (Globals.slotTokens session insn g name) e := by
    by_cases member : .slot name ∈ tokensOf (inPlace '\\' [' '] (templateOf (codeOf insn)))
    next =>
      have inSlots := mem_slots_inPlace (mem_tokensOf member)
      obtain ⟨i, inside, rfl⟩ := slot_of_all names inSlots
      rw [Globals.slotTokens_operand filled inSlots]
      rcases List.mem_append.mp inside with target | source
      · rw [is.target target]
        exact ⟨_, fun _ _ => (variableOf_variable _).phrase⟩
      · by_cases same : i = k
        next => exact ⟨.word [], fun _ apart => absurd (by rw [same]) apart⟩
        next =>
          have reads : Reads s (Globals.valueOf session insn g (.operand i)) _ :=
            (holds i source).reads fun _ end' => absurd (by omega) same
          obtain ⟨e, phrase, -⟩ := reads.reads
          exact ⟨e, fun _ _ => phrase⟩
    next => exact ⟨.word [], fun inside => absurd inside member⟩
  choose expr phrases using others
  rw [Globals.lex_statementText filled alone]
  exact C.parse_stuck phrases stuck (needed k source) read

theorem value_undefined (flexible : a.flexible = true) {count : Nat}
    (form : (count, sources) ∈ a.forms) {s : C.State} {expr : Nat → C.Expr} {k : Nat}
    (source : k ∈ sources) (undefined : s.value (expr k) = none) {e : C.Expr}
    (expression : a.expressions (sources.map expr) = [e]) : s.value e = none := by
  have pair (op : C.Op) {x y : C.Expr} (lacks : s.value x = none ∨ s.value y = none) :
      s.value (.binary op x y) = none := by
    rw [C.State.value]
    rcases lacks with left | right
    · rw [left]
      rfl
    · rw [right]
      cases s.value x <;> rfl
  have at_source (i : Nat) (same : k = i) : s.value (expr i) = none := by rw [← same, undefined]
  have complemented {x : C.Expr} (lacks : s.value x = none) :
      s.value (.complement x) = none := by
    rw [C.State.value, lacks]
    rfl
  cases a <;> simp [Arithmetic.flexible] at flexible <;>
    simp only [forms, List.mem_cons, List.not_mem_nil, or_false, Prod.mk.injEq] at form
  case mvn =>
    obtain ⟨-, rfl⟩ := form
    obtain rfl := List.mem_singleton.mp source
    obtain rfl := (List.cons.inj expression).1
    exact complemented undefined
  case rsb =>
    obtain ⟨-, rfl⟩ := form
    obtain rfl := (List.cons.inj expression).1
    simp only [List.mem_cons, List.not_mem_nil, or_false] at source
    exact pair _ (source.symm.imp (at_source 2) (at_source 1))
  case add | sub | and | eor | orr | bic =>
    obtain ⟨-, rfl⟩ | ⟨-, rfl⟩ := form
    all_goals
      obtain rfl := (List.cons.inj expression).1
      simp only [List.mem_cons, List.not_mem_nil, or_false] at source
      refine pair _ (source.imp (at_source _) fun same => ?_)
      first
        | exact at_source _ same
        | exact complemented (at_source _ same)

/-- C gives the operands values from which the result is that of the instruction. -/
def ShiftsKept (a : Arithmetic) (s : C.State) (carry : Bool) (insn : CsInsn) (sources : List Nat)
    (u : Nat → Word) : Prop :=
  ∃ w : Nat → Word, (∀ i ∈ sources, Globals.printedValue s insn i (u i) = some (w i)) ∧
    a.results (sources.map w) =
      a.results (sources.map fun i => Globals.operandValue s carry insn i (u i))

theorem Is.printed (is : a.Is sources insn) {i : Nat} (source : i ∈ sources) {s : C.State}
    {u : Word} (shift : ExactShift s (insn.operands i) u) (carry : Bool) :
    Globals.printedValue s insn i u = some (Globals.operandValue s carry insn i u) := by
  have whole := printedShift_exact shift carry
  rw [Globals.printedValue, Globals.operandValue]
  by_cases kind : (insn.operands i).type = .reg
  next =>
    rw [if_pos kind]
    by_cases last : i + 1 = insn.opCount
    next => rw [if_pos ⟨kind, last⟩, whole]
    next =>
      have unshifted : (insn.operands i).shiftType = .invalid := by
        by_contra shifted
        exact last (is.shifts i source shifted).2
      rw [printedShift, if_neg fun both => both.1 unshifted] at whole
      rw [if_neg fun both => last both.2, whole]
  next => rw [if_neg kind, if_neg fun both => kind both.1]

theorem translated_flexible (flexible : a.flexible = true) (values : List Word) :
    a.Translated values := by
  cases a <;> simp [Arithmetic.flexible] at flexible <;> trivial

theorem single {count : Nat} (form : (count, sources) ∈ a.forms) (narrow : a ≠ .umull)
    (expr : Nat → C.Expr) (v : Nat → Word) :
    (∃ e, a.expressions (sources.map expr) = [e]) ∧ ∃ r, a.results (sources.map v) = [r] := by
  cases a <;> simp only [forms, List.mem_cons, List.not_mem_nil, or_false, Prod.mk.injEq] at form
  case umull => exact absurd rfl narrow
  case add | sub | mul | and | bic | eor | orr | lsl | lsr =>
    obtain ⟨-, rfl⟩ | ⟨-, rfl⟩ := form <;> exact ⟨⟨_, rfl⟩, _, rfl⟩
  case rsb | mla | mls | ubfx | mvn | rev | rev16 =>
    obtain ⟨-, rfl⟩ := form
    exact ⟨⟨_, rfl⟩, _, rfl⟩

theorem value_iff (is : a.Is sources insn) (narrow : a ≠ .umull) {s : C.State} {u : Nat → Word}
    {carry : Bool} {expr : Nat → C.Expr} {e : C.Expr}
    (expression : a.expressions (sources.map expr) = [e])
    (values : ∀ i ∈ sources, s.value (expr i) = Globals.printedValue s insn i (u i)) {r : Word}
    (result : a.results (sources.map fun i => Globals.operandValue s carry insn i (u i)) = [r]) :
    s.value e = some r ↔ a.ShiftsKept s carry insn sources u ∧
      a.Translated (sources.map fun i => Globals.operandValue s carry insn i (u i)) := by
  cases flexible : a.flexible with
  | true =>
      have always := translated_flexible flexible
      by_cases defined : ∃ k ∈ sources, Globals.printedValue s insn k (u k) = none
      next =>
        obtain ⟨k, source, none⟩ := defined
        have undefined := (values k source).trans none
        rw [value_undefined flexible is.form source undefined expression]
        refine iff_of_false (fun same => by cases same) ?_
        rintro ⟨⟨w, printed, -⟩, -⟩
        rw [printed k source] at none
        cases none
      next =>
        simp only [not_exists, not_and] at defined
        let w (i : Nat) : Word := (Globals.printedValue s insn i (u i)).getD 0
        have printed : ∀ i ∈ sources, Globals.printedValue s insn i (u i) = some (w i) := by
          intro i source
          obtain ⟨v, value⟩ := Option.ne_none_iff_exists'.mp (defined i source)
          simp only [w, value, Option.getD_some]
        obtain ⟨e', r', same, read, translated⟩ := translated_iff is.form narrow
          fun i source => (values i source).trans (printed i source)
        obtain rfl := List.singleton_injective (expression.symm.trans same)
        rw [translated.mpr (always _), Option.some.injEq]
        constructor
        next =>
          rintro rfl
          exact ⟨⟨w, printed, by rw [read, result]⟩, always _⟩
        next =>
          rintro ⟨⟨other, printed', kept⟩, -⟩
          have equal : sources.map other = sources.map w := List.map_congr_left fun i source =>
            Option.some.inj ((printed' i source).symm.trans (printed i source))
          rw [equal, read, result] at kept
          exact List.singleton_injective kept
  | false =>
      have unshifted (i : Nat) (source : i ∈ sources) : Globals.printedValue s insn i (u i) =
          some (Globals.operandValue s carry insn i (u i)) := by
        refine is.printed source (.inl ?_) carry
        by_contra shifted
        have other := (is.shifts i source shifted).1
        rw [flexible] at other
        cases other
      obtain ⟨e', r', same, read, translated⟩ := translated_iff is.form narrow
        fun i source => (values i source).trans (unshifted i source)
      obtain rfl := List.singleton_injective (expression.symm.trans same)
      obtain rfl := List.singleton_injective (result.symm.trans read)
      exact translated.trans (and_iff_right ⟨_, unshifted, rfl⟩).symm

/-- A printed statement computes what the instruction does exactly when C reads its shifts so and
the template translates it on these values. -/
theorem translates_iff (is : a.Is sources insn) {s : C.State} {u : Nat → Word}
    (holds : ∀ i ∈ sources, Globals.OperandHolds s insn g i (u i)) (carry : Bool) :
    (g.ignoreMap addr = false → (Globals.pseudoCode session insn addr g).1 =
      (Globals.heading (trimMnemonic insn).2).2 ++ indentOf insn ++
        Globals.statementText session insn addr g ++ ['\n']) ∧
    (Gives s (Globals.statementText session insn addr g) (a.targetNames insn)
        (a.results (sources.map fun i => Globals.operandValue s carry insn i (u i))) ↔
      a.ShiftsKept s carry insn sources u ∧
        a.Translated (sources.map fun i => Globals.operandValue s carry insn i (u i))) ∧
    ((∀ i ∈ sources, ExactShift s (insn.operands i) (u i)) →
      a.ShiftsKept s carry insn sources u) := by
  have filled : Globals.Filled session insn g := is.filled holds
  refine ⟨Globals.pseudoCode_statementText filled.known, ?_,
    fun shifts => ⟨_, fun i source => is.printed source (shifts i source) carry, rfl⟩⟩
  by_cases signed : ∀ i ∈ sources, (insn.operands i).type = .reg → i + 1 = insn.opCount →
      (insn.operands i).shiftType ≠ .invalid ∧ (insn.operands i).shiftValue ≠ 0 →
        (insn.operands i).shiftType.sign ≠ none
  next =>
    have reads : ∀ i ∈ sources, Reads s (Globals.valueOf session insn g (.operand i))
        (Globals.printedValue s insn i (u i)) := fun i source =>
      (holds i source).reads (signed i source)
    obtain ⟨expr, phrases, names, values⟩ := is.operands reads
    obtain ⟨flags, parsed⟩ : ∃ flags : Bool,
        C.parse (lex (Globals.statementText session insn addr g)) =
          some (_ ++ if flags then _ else _) :=
      is.parsed filled phrases
    by_cases wide : a = .umull
    next =>
      subst wide
      refine iff_of_false ?_ fun both => both.2
      rintro ⟨statements, after, read, ran, -⟩
      rw [parsed] at read
      obtain rfl := Option.some.inj read
      have form := is.form
      simp only [forms, List.mem_singleton, Prod.mk.injEq] at form
      obtain ⟨-, rfl⟩ := form
      simp only [targets, expressions, List.map_cons, List.map_nil, List.zipWith_cons_cons,
        List.cons_append, run_wide] at ran
      cases ran
    next =>
      have target : a.targets = [0] := by cases a <;> first | rfl | exact absurd rfl wide
      have name := names 0 (by rw [target]; exact List.mem_cons_self)
      obtain ⟨⟨e, expression⟩, r, result⟩ := single is.form wide expr
        fun i => Globals.operandValue s carry insn i (u i)
      have gives : Gives s (Globals.statementText session insn addr g) (a.targetNames insn) [r] ↔
          s.value e = some r := by
        rw [targetNames, target, ← run_single (variableOf_variable (insn.operands 0).base)
          (variableOf_flags _) e flags r]
        rw [expression, target, name, List.zipWith_cons_cons, List.zipWith_nil_left, name] at parsed
        constructor
        next =>
          rintro ⟨statements, after, read, ran, value⟩
          rw [parsed] at read
          obtain rfl := Option.some.inj read
          exact ⟨after, ran, (List.cons.inj value).1⟩
        next =>
          rintro ⟨after, ran, value⟩
          exact ⟨_, after, parsed, ran, congrArg (fun v => [v]) value⟩
      rw [result, gives]
      exact value_iff is wide expression values result
  next =>
    simp only [not_forall, not_not] at signed
    obtain ⟨k, source, kind, last, shifted, unsigned⟩ := signed
    refine iff_of_false ?_ ?_
    · rintro ⟨statements, after, read, -⟩
      rw [is.unread holds source kind last shifted unsigned] at read
      cases read
    · rintro ⟨⟨w, printed, -⟩, -⟩
      have value := printed k source
      rw [Globals.printedValue, if_pos ⟨kind, last⟩, printedShift, if_pos shifted, unsigned]
        at value
      cases value

end

-- `add a1, a2, a3, lsl #2`
def shiftedAdd : CsInsn where
  mnemonic := "add".toList
  opStr := "r0, r1, r2, lsl #2".toList
  size := 4
  conditional := false
  updateFlags := false
  opCount := 3
  operands i :=
    ⟨.reg, ArmReg.r0 + BitVec.ofNat 32 i, 0, 0, if i = 2 then .lsl else .invalid,
      if i = 2 then 2 else 0⟩

-- `mls a1, a2, a3, a4`
def mlsInsn : CsInsn where
  mnemonic := "mls".toList
  opStr := "r0, r1, r2, r3".toList
  size := 4
  conditional := false
  updateFlags := false
  opCount := 4
  operands i := ⟨.reg, ArmReg.r0 + BitVec.ofNat 32 i, 0, 0, .invalid, 0⟩

-- `a4` is zero and all other variables are one.
def ones : C.State := ⟨fun text => if text = "a4".toList then 0 else 1, fun _ => 0⟩

theorem translates_shiftedAdd :
    Gives ones (Globals.statementText Globals.bareSession shiftedAdd 0x81000000 Globals.initial)
      (targetNames .add shiftedAdd)
      (results .add ([1, 2].map fun i => Globals.operandValue ones false shiftedAdd i 1)) := by
  have holds : ∀ i ∈ [1, 2],
      Globals.OperandHolds ones shiftedAdd Globals.initial i ((fun _ => 1 : Nat → Word) i) := by
    intro i source
    have value : ones.vars (variableOf (shiftedAdd.operands i).base).toList = 1 := by
      simp only [List.mem_cons, List.not_mem_nil, or_false] at source
      rcases source with rfl | rfl <;> decide
    refine .register rfl ?_
    rw [Globals.registerOf_named rfl, ← value]
    exact stands_register _
  have shifts : ∀ i ∈ [1, 2], (shiftedAdd.operands i).shiftType ≠ .invalid →
      flexible .add = true ∧ i + 1 = shiftedAdd.opCount := by decide
  have is : Is .add [1, 2] shiftedAdd := ⟨by decide, by decide, fun _ _ => rfl, shifts⟩
  obtain ⟨-, gives, kept⟩ :=
    @translates_iff Globals.bareSession shiftedAdd 0x81000000 _ _ _ is _ _ holds false
  refine gives.mpr ⟨kept fun i source => ?_, trivial⟩
  simp only [List.mem_cons, List.not_mem_nil, or_false] at source
  rcases source with rfl | rfl
  · exact .inl rfl
  · exact .inr ⟨by decide, by decide, .inl (by decide)⟩

-- The difference is that of the product and the last operand.
theorem mls_reversed :
    Globals.statementText Globals.bareSession mlsInsn 0x81000000 Globals.initial =
        "a1 = a2 * a3 - a4;".toList ∧
      ¬ Gives ones (Globals.statementText Globals.bareSession mlsInsn 0x81000000 Globals.initial)
        (targetNames .mls mlsInsn)
        (results .mls (["a2", "a3", "a4"].map fun name => ones.vars name.toList)) := by
  have text : Globals.statementText Globals.bareSession mlsInsn 0x81000000 Globals.initial =
      "a1 = a2 * a3 - a4;".toList := by decide +kernel
  have read : C.parse (lex "a1 = a2 * a3 - a4;".toList) =
      some [⟨.word "a1".toList, .binary .sub (.binary .mul (.word "a2".toList)
        (.word "a3".toList)) (.word "a4".toList)⟩] := by decide +kernel
  refine ⟨text, ?_⟩
  rintro ⟨statements, after, parsed, ran, value⟩
  rw [text, read] at parsed
  obtain rfl := Option.some.inj parsed
  have computed : ones.value (.binary .sub (.binary .mul (.word "a2".toList)
      (.word "a3".toList)) (.word "a4".toList)) = some 1 := by decide +kernel
  have name : C.isName "a1".toList = true := by decide
  rw [C.State.run, List.foldlM_cons, C.State.exec, computed, Option.bind_some, C.State.assign,
    if_pos name] at ran
  obtain rfl := Option.some.inj ran
  exact absurd value (by decide +kernel)

end Arithmetic

end VitaTools.Passes
