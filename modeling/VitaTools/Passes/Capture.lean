import VitaTools.Passes.Sources

set_option autoImplicit false

namespace VitaTools.Passes

open VitaTools.Library VitaTools.Library.Traced
open VitaTools.Decompiler (Text Word)
open VitaTools.Decompiler.Globals (opName)

def lines (pieces : List Piece) : List Piece := letterSlots '\\' pieces

namespace Globals

variable (session : Session) (insn : CsInsn) (addr : Word) (g : Globals Char)

def valueOf (source : Source) : Text :=
  textsOf session insn (useFlagsOf insn g) (useFlagsOf insn g) source (codeOf insn)

def operandFilling : Filling Source :=
  Filling.puts (valueOf session insn g) (fun _ => none) (operandPlan insn)

def substitutedOperands : List (Stamped Source) :=
  render (operandFilling session insn g).fill (templateOf (codeOf insn))

def statementFilling : Filling Source :=
  (operandFilling session insn g).puts (valueOf session insn g) (symbolsPlan session insn)

def substituted : List (Stamped Source) :=
  render (statementFilling session insn g).fill (templateOf (codeOf insn))

def brokenFilling : Filling Source :=
  (statementFilling session insn g).puts (valueOf session insn g) breakPlan

def substitution : List (Stamped Source) :=
  render (brokenFilling session insn g).fill (lines (templateOf (codeOf insn)))

/-- No replacement reaches a text that another one has put in: behind each of them the code is
the substitution of what has been put in so far, and this is what is printed. -/
structure CaptureFree : Prop where
  operands : parsedSources session insn g = substitutedOperands session insn g
  recorded : recordedSources session insn g = substitutedOperands session insn g
  symbols : statementSources session insn addr g = substituted session insn g
  lineBreaks : brokenSources session insn addr g = substitution session insn g
  escapes : printedSources session insn addr g = substitution session insn g
  printed : g.ignoreMap addr = false →
    (pseudoCode session insn addr g).1 = (heading (trimMnemonic insn).2).2 ++ indentOf insn ++
      spell (substitution session insn g) ++ ['\n']

/-- The condition on the texts: none contains what is searched for after it has been put in, none
behind a bracket begins like the end of an escape, and the instruction completes no constant. -/
structure Clear : Prop where
  operands : Filling.Safe (valueOf session insn g) (templateOf (codeOf insn)) (fun _ => none)
    (operandPlan insn)
  unjoined : joined insn g (spell (substitutedOperands session insn g)) = none
  symbols : Filling.Safe (valueOf session insn g) (templateOf (codeOf insn))
    (operandFilling session insn g) (symbolsPlan session insn)
  lineBreaks : (statementFilling session insn g).Untouched (lines (templateOf (codeOf insn)))
    ['\\']
  escapes : ∀ name ∈ slots (lines (templateOf (codeOf insn))),
    occurs "()n".toList (spell ((brokenFilling session insn g).fill name)) = false
  brackets : ∀ front name back,
    lines (templateOf (codeOf insn)) = front ++ .own '(' :: .slot name :: back →
      [')', 'n'].isPrefixOf (spell ((brokenFilling session insn g).fill name)) = false

end Globals

-- No letter beside a slot occurs in a name that is searched for once the slot may be filled.
def outsideNames (c : Char) : Bool := !"op123456789symbl.".toList.contains c

-- What is put in begins neither with "n" nor with ")n".
def gentle : List Piece → Bool
  | [] => true
  | [.own c] => c != 'n'
  | .own c :: .own d :: _ => c != 'n' && (c != ')' || d != 'n')
  | .own c :: .slot _ :: _ => c != 'n' && c != ')'
  | .slot _ :: _ => false

def escapable : List Piece → Bool
  | [] => true
  | .own c :: .slot name :: rest => (c != '(' || name != ['\\']) && escapable (.slot name :: rest)
  | .own c :: rest => (c != '(' || gentle rest) && escapable rest
  | .slot name :: rest => (name == ['\\'] || gentle rest) && escapable rest

def wellMade (pieces : List Piece) : Bool :=
  flanked outsideNames pieces && tailed " = ".toList pieces && escapable (lines pieces)

def wellMadeCode (code : Text) : Bool :=
  let pieces := templateOf code
  wellMade pieces && flanked (outsideOf (opName 0)) (expose (opName 0) pieces) &&
    absent (opName 0) (expose (opName 0) pieces) &&
      (!(slots pieces).contains "...".toList || !assignsFirst code)

inductive Letters : List (String × String) → List Text → Prop
  | nil : Letters [] []
  | cons {name : String} {letters : Text} {rest : List (String × String)} {others : List Text}
      (later : Letters rest others) :
      Letters ((name, String.ofList letters) :: rest) (letters :: others)

theorem Letters.forall {table : List (String × String)} {all : List Text} {P : Text → Prop}
    (letters : Letters table all) (holds : ∀ text ∈ all, P text) :
    ∀ row ∈ table, P row.2.toList := by
  induction letters with
  | nil => intro row member; cases member
  | cons later ih =>
      intro row member
      rcases List.mem_cons.mp member with rfl | member
      · rw [String.toList_ofList]
        exact holds _ List.mem_cons_self
      · exact ih (fun text inRest => holds text (List.mem_cons_of_mem _ inRest)) row member

def flagsText : Text := "\\FLAGS = op0;".toList

theorem templates_wellMade : ∀ row ∈ instructions ++ instructions2,
    wellMadeCode row.2.toList = true ∧ wellMadeCode (row.2.toList ++ flagsText) = true := by
  have letters : ∃ all, Letters (instructions ++ instructions2) all ∧
      ∀ text ∈ all, wellMadeCode text = true ∧ wellMadeCode (text ++ flagsText) = true := by
    apply Exists.intro
    apply And.intro
    case h.left =>
      unfold instructions instructions2
      simp only [List.cons_append, List.nil_append]
      repeat (first | apply Letters.nil | apply Letters.cons)
    case h.right => decide +kernel
  obtain ⟨all, letters, holds⟩ := letters
  exact letters.forall (P := fun text => wellMadeCode text = true ∧
    wellMadeCode (text ++ flagsText) = true) holds

theorem wellMade_codeOf {insn : CsInsn} (known : (codeOf insn).isEmpty = false) :
    wellMadeCode (codeOf insn) = true := by
  rw [codeOf, getInstructionCode] at known ⊢
  cases found : instructions.lookup (String.ofList (mnemonicOf insn)) with
  | none =>
      rw [found] at known
      contradiction
  | some text =>
      simp only [template_char, plain_char]
      have both (name text : String) (member : (name, text) ∈ instructions ++ instructions2)
          (sets : Bool) : wellMadeCode
            (text.toList ++ (if sets then "\\FLAGS = op0;" else "").toList) = true := by
        obtain ⟨bare, flagged⟩ := templates_wellMade _ member
        cases sets with
        | true => exact flagged
        | false =>
            rw [if_neg Bool.false_ne_true, show "".toList = [] from rfl, List.append_nil]
            exact bare
      split
      next =>
        cases shorter : instructions2.lookup (String.ofList (mnemonicOf insn)) with
        | none => exact both _ _ (List.mem_append_left _ (mem_of_lookup found)) _
        | some text => exact both _ _ (List.mem_append_right _ (mem_of_lookup shorter)) _
      next => exact both _ _ (List.mem_append_left _ (mem_of_lookup found)) _

def templateText (name : String) (count : Nat) : Option String :=
  (instructions.lookup name).map fun code =>
    if count = 2 then (instructions2.lookup name).getD code else code

def setsFlags (insn : CsInsn) : Bool :=
  insn.updateFlags && !(["cmp", "cmn", "tst"].contains (String.ofList (mnemonicOf insn)))

theorem codeOf_template {insn : CsInsn} {text : String}
    (found : templateText (String.ofList (mnemonicOf insn)) insn.opCount = some text) :
    codeOf insn = text.toList ++ if setsFlags insn then flagsText else [] := by
  rw [templateText] at found
  rw [codeOf, getInstructionCode]
  cases known : instructions.lookup (String.ofList (mnemonicOf insn)) with
  | none =>
      rw [known] at found
      cases found
  | some code =>
      rw [known] at found
      obtain rfl := Option.some.inj found
      have flags (sets : Bool) : (if sets then "\\FLAGS = op0;" else "").toList =
          if sets then flagsText else [] := by
        cases sets <;> rfl
      simp only [template_char, plain_char]
      exact congrArg _ (flags (setsFlags insn))

theorem slotNames_named : [] ∉ slotNames := by decide

theorem slotNames_apart : ∀ search ∈ slotNames, ∀ name ∈ slotNames, name ≠ search →
    occurs search name = false := by
  decide +kernel

theorem opName_mem {i : Nat} (digit : i < 10) : opName i ∈ slotNames :=
  List.mem_append_left _ (List.mem_map_of_mem (List.mem_range.mpr digit))

theorem opName_long (i : Nat) : 1 < (opName i).length := by
  rw [opName, List.length_append]
  exact Nat.lt_of_lt_of_le (by decide) (Nat.le_add_right "op".toList.length _)

theorem outsideOf_names : ∀ search ∈ slotNames, search ≠ opName 0 →
    ∀ c, outsideNames c = true → outsideOf search c = true := by
  have table : slotNames.all (fun search => search == opName 0 ||
      search.all fun c => "op123456789symbl.".toList.contains c) = true := by decide
  have letters : ∀ search ∈ slotNames, search ≠ opName 0 →
      ∀ c ∈ search, c ∈ "op123456789symbl.".toList := by
    intro search member other c inside
    have known := List.all_eq_true.mp table search member
    rw [Bool.or_eq_true, List.all_eq_true, beq_iff_eq] at known
    exact List.contains_iff_mem.mp ((known.resolve_left other) c inside)
  intro search member other c outside
  simp only [outsideNames, outsideOf, Bool.not_eq_true', List.contains_eq_mem,
    decide_eq_false_iff_not] at outside ⊢
  exact fun inside => outside (letters search member other c inside)

theorem slots_templateOf {code : Text} : ∀ name ∈ slots (templateOf code), name ∈ slotNames :=
  slots_piecesFrom slotNames 0 code

section

variable {code : Text} (made : wellMadeCode code = true)

include made

theorem flanked_templateOf : flanked outsideNames (templateOf code) = true := by
  simp only [wellMadeCode, wellMade, Bool.and_eq_true] at made
  exact made.1.1.1.1.1

theorem tailed_templateOf : tailed " = ".toList (templateOf code) = true := by
  simp only [wellMadeCode, wellMade, Bool.and_eq_true] at made
  exact made.1.1.1.1.2

theorem escapable_templateOf : escapable (lines (templateOf code)) = true := by
  simp only [wellMadeCode, wellMade, Bool.and_eq_true] at made
  exact made.1.1.1.2

theorem suited_first : Suited (opName 0) (expose (opName 0) (templateOf code)) := by
  simp only [wellMadeCode, Bool.and_eq_true] at made
  exact ⟨.inr made.1.1.2, made.1.2⟩

theorem suited_name {search : Text} (member : search ∈ slotNames) (other : search ≠ opName 0) :
    Suited search (templateOf code) :=
  ⟨.inr (flanked_mono (outsideOf_names search member other) (flanked_templateOf made)),
    absent_piecesFrom slotNames_named member 0 code⟩

theorem dots_templateOf (dots : "...".toList ∈ slots (templateOf code)) :
    assignsFirst code = false := by
  simp only [wellMadeCode, Bool.and_eq_true, Bool.or_eq_true, Bool.not_eq_true',
    List.contains_eq_mem, decide_eq_false_iff_not] at made
  exact made.2.resolve_left fun none => none dots

end

namespace Globals

variable {session : Session} {insn : CsInsn} {addr : Word} {g : Globals Char}

theorem operandText_congr {i : Nat} {code other : Text}
    (same : occurs (opName i ++ " = ".toList) code = occurs (opName i ++ " = ".toList) other) :
    (operandText g insn false i code).1 = (operandText g insn false i other).1 := by
  simp only [operandText, registerText, spell_char, same]

theorem fits_operand (made : wellMadeCode (codeOf insn) = true) {i : Nat} (digit : i < 10)
    (later : i ≠ 0) :
    Step.Fits ⟨.operand i, opName i⟩ (textsOf session insn (useFlagsOf insn g) g)
      (valueOf session insn g) (templateOf (codeOf insn)) := by
  have member := opName_mem digit
  have other : opName i ≠ opName 0 := by
    have all : ∀ i < 10, i ≠ 0 → opName i ≠ opName 0 := by decide
    exact all i digit later
  have apart : ∀ name ∈ slots (templateOf (codeOf insn)), name ≠ opName i →
      occurs (opName i) name = false := fun name inside =>
    slotNames_apart _ member name (slots_templateOf name inside)
  refine ⟨List.ne_nil_of_length_pos (Nat.lt_of_succ_lt (opName_long i)),
    suited_name made member other, apart, ?_⟩
  intro _ f waiting untouched
  have same : occurs (opName i ++ " = ".toList)
        (spell (render f.fill (templateOf (codeOf insn)))) =
      occurs (opName i ++ " = ".toList)
        (spell (render (fun name => (plain name : List (Stamped Source)))
          (templateOf (codeOf insn)))) := by
    refine occurs_render (opName_long i) (suited_name made member other) (tailed_templateOf made)
      (by rw [Filling.fill, waiting]) (spell_plain _) fun name inside unlike => ?_
    refine ⟨?_, by rw [spell_plain]; exact apart name inside unlike⟩
    rw [Filling.fill]
    cases filled : f name with
    | none => rw [spell_plain]; exact apart name inside unlike
    | some entry => rw [spell_stamp]; exact untouched name inside _ _ filled
  rw [templateOf, render_piecesOf slotNames_named, spell_plain] at same
  exact congrArg (·.getD []) (operandText_congr same)

-- The operands from operand `i` on.
def operandsFrom (insn : CsInsn) (i left : Nat) : List (Step Source) :=
  (List.range' i left).filterMap fun i =>
    if (insn.operands i).type = .other then none else some ⟨.operand i, opName i⟩

theorem operandPlan_from : operandPlan insn = operandsFrom insn 0 insn.opCount := by
  rw [operandPlan, operandsFrom, List.range_eq_range']

theorem mem_operandsFrom {i left : Nat} {step : Step Source}
    (member : step ∈ operandsFrom insn i left) :
    ∃ k, i ≤ k ∧ k < i + left ∧ step = ⟨.operand k, opName k⟩ := by
  obtain ⟨k, inRange, made⟩ := List.mem_filterMap.mp member
  obtain ⟨low, high⟩ := List.mem_range'_1.mp inRange
  refine ⟨k, low, high, ?_⟩
  split at made
  next => cases made
  next => exact (Option.some.inj made).symm

theorem distinct_operandsFrom (i left : Nat) :
    ((operandsFrom insn i left).map Step.source).Nodup := by
  rw [operandsFrom, List.map_filterMap]
  apply List.Nodup.filterMap
  · intro a b source first second
    simp only [Option.mem_def, Option.map_eq_some_iff] at first second
    obtain ⟨step, made, rfl⟩ := first
    obtain ⟨other, made', same⟩ := second
    split at made
    next => cases made
    next =>
      split at made'
      next => cases made'
      next =>
        cases made
        cases made'
        exact (Source.operand.inj same).symm
  · exact List.nodup_range'

theorem apply_first (made : wellMadeCode (codeOf insn) = true) :
    Step.apply (textsOf session insn (useFlagsOf insn g) g) (plain (codeOf insn))
        ⟨.operand 0, opName 0⟩ =
      render (Filling.put (fun _ => none) (.operand 0) (opName 0)
        (valueOf session insn g (.operand 0))).fill (templateOf (codeOf insn)) := by
  have start (f : Filling Source) (waiting : f (opName 0) = none) :
      render f.fill (expose (opName 0) (templateOf (codeOf insn))) = plain (codeOf insn) := by
    have plainly : render f.fill (expose (opName 0) (templateOf (codeOf insn))) =
        render (fun name => plain name) (expose (opName 0) (templateOf (codeOf insn))) :=
      render_congr fun name member => by rw [slots_expose member, Filling.fill, waiting]
    rw [plainly, render_expose fun _ _ _ => rfl, templateOf, render_piecesOf slotNames_named]
  have fits : Step.Fits ⟨.operand 0, opName 0⟩ (textsOf session insn (useFlagsOf insn g) g)
      (valueOf session insn g) (expose (opName 0) (templateOf (codeOf insn))) := by
    refine ⟨List.ne_nil_of_length_pos (Nat.lt_of_succ_lt (opName_long 0)), suited_first made,
      fun name member other => absurd (slots_expose member) other, ?_⟩
    intro _ f waiting _
    rw [start f waiting, spell_plain]
    rfl
  have filled := apply_render (f := fun _ => none) fits fun _ _ _ _ none => by cases none
  rw [start _ rfl] at filled
  rw [filled, render_expose]
  intro other _ unlike
  rw [Filling.fill, Filling.put, Function.update_of_ne unlike]

theorem operands_iff (made : wellMadeCode (codeOf insn) = true) (few : insn.opCount ≤ 10) :
    parsedSources session insn g = substitutedOperands session insn g ↔
      Filling.Safe (valueOf session insn g) (templateOf (codeOf insn)) (fun _ => none)
        (operandPlan insn) := by
  have start : (plain (codeOf insn) : List (Stamped Source)) =
      render (Filling.fill fun _ => none) (templateOf (codeOf insn)) :=
    (render_piecesOf slotNames_named _).symm
  have later (f : Filling Source) (left : Nat) (few : 1 + left ≤ 10)
      (fresh : f.Fresh (operandsFrom insn 1 left)) :
      run (textsOf session insn (useFlagsOf insn g) g) (operandsFrom insn 1 left)
          (render f.fill (templateOf (codeOf insn))) =
        render (f.puts (valueOf session insn g) (operandsFrom insn 1 left)).fill
          (templateOf (codeOf insn)) ↔
      f.Safe (valueOf session insn g) (templateOf (codeOf insn)) (operandsFrom insn 1 left) := by
    refine run_iff (fun step member => ?_) (distinct_operandsFrom 1 left) fresh
    obtain ⟨k, low, high, rfl⟩ := mem_operandsFrom member
    exact fits_operand made (by omega) (by omega)
  rw [parsedSources, substitutedOperands, operandFilling, operandPlan_from]
  cases count : insn.opCount with
  | zero =>
      rw [start]
      exact iff_of_true rfl trivial
  | succ left =>
      rw [count] at few
      by_cases other : (insn.operands 0).type = .other
      next =>
        have plan : operandsFrom insn 0 (left + 1) = operandsFrom insn 1 left := by
          rw [operandsFrom, List.range'_succ, List.filterMap_cons, if_pos other]
          rfl
        rw [plan, start]
        exact later _ left (by omega) fun _ _ _ filled => by cases filled
      next =>
        have plan : operandsFrom insn 0 (left + 1) =
            ⟨.operand 0, opName 0⟩ :: operandsFrom insn 1 left := by
          rw [operandsFrom, List.range'_succ, List.filterMap_cons, if_neg other]
          rfl
        have fresh : (Filling.put (fun _ => none) (Source.operand 0) (opName 0)
            (valueOf session insn g (.operand 0))).Fresh (operandsFrom insn 1 left) := by
          intro name source text filled inPlan
          rw [Filling.put, Function.update_apply] at filled
          split at filled
          next =>
            obtain ⟨rfl, -⟩ := Prod.mk.inj (Option.some.inj filled)
            obtain ⟨step, member, same⟩ := List.mem_map.mp inPlan
            obtain ⟨k, low, -, rfl⟩ := mem_operandsFrom member
            have zero := Source.operand.inj same
            omega
          next => cases filled
        rw [plan]
        change run _ (operandsFrom insn 1 left) (Step.apply _ (plain (codeOf insn)) _) = _ ↔ _ ∧ _
        rw [apply_first made]
        exact (later _ left (by omega) fresh).trans
          (and_iff_right fun _ _ _ _ none => by cases none).symm

theorem mem_symbolPlan {i : Nat} {step : Step Source}
    (member : step ∈ symbolPlan session insn i) :
    step = ⟨.symbol i, "symbol".toList⟩ ∨ step = ⟨.arguments i, "...".toList⟩ := by
  rw [symbolPlan] at member
  split at member
  next =>
    split at member
    next =>
      rcases List.mem_cons.mp member with first | second
      · exact .inl first
      · split at second
        next => exact .inr (List.mem_singleton.mp second)
        next => cases second
    next => cases member
  next =>
    split at member
    next => exact .inl (List.mem_singleton.mp member)
    next => cases member

theorem mem_symbolsPlan {step : Step Source} (member : step ∈ symbolsPlan session insn) :
    ∃ i, step = ⟨.symbol i, "symbol".toList⟩ ∨ step = ⟨.arguments i, "...".toList⟩ := by
  rcases List.mem_append.mp member with first | second
  · exact ⟨0, mem_symbolPlan first⟩
  · exact ⟨1, mem_symbolPlan second⟩

theorem distinct_symbolPlan (i : Nat) : ((symbolPlan session insn i).map Step.source).Nodup := by
  rw [symbolPlan]
  split
  · split
    · split <;> simp
    · exact List.nodup_nil
  · split
    · exact List.nodup_singleton _
    · exact List.nodup_nil

theorem distinct_symbolsPlan : ((symbolsPlan session insn).map Step.source).Nodup := by
  rw [symbolsPlan, List.map_append, List.nodup_append]
  refine ⟨distinct_symbolPlan 0, distinct_symbolPlan 1, ?_⟩
  intro first inFirst second inSecond same
  obtain ⟨a, inPlan, rfl⟩ := List.mem_map.mp inFirst
  obtain ⟨b, inPlan', rfl⟩ := List.mem_map.mp inSecond
  rcases mem_symbolPlan inPlan with rfl | rfl <;> rcases mem_symbolPlan inPlan' with rfl | rfl <;>
    simp at same

theorem operandFilling_sources {name text : Text} {source : Source}
    (filled : operandFilling session insn g name = some (source, text)) :
    ∃ i, source = .operand i := by
  rcases puts_source filled with inPlan | none
  · obtain ⟨step, member, rfl⟩ := List.mem_map.mp inPlan
    rw [operandPlan_from] at member
    obtain ⟨k, -, -, rfl⟩ := mem_operandsFrom member
    exact ⟨k, rfl⟩
  · cases none

theorem fresh_symbols : (operandFilling session insn g).Fresh (symbolsPlan session insn) := by
  intro name source text filled inPlan
  obtain ⟨step, member, rfl⟩ := List.mem_map.mp inPlan
  obtain ⟨k, same⟩ := operandFilling_sources filled
  obtain ⟨i, rfl | rfl⟩ := mem_symbolsPlan member <;> cases same

theorem recordedGlobals_call (dots : assignsFirst (codeOf insn) = false)
    (known : (codeOf insn).isEmpty = false) :
    recordedGlobals session insn addr g = useFlagsOf insn g := by
  have unrecorded : isAssignment (parsed insn (codeOf insn) g) = false := by
    by_contra assigns
    have first := records_assigns (g := g) known (Bool.of_not_eq_false assigns)
    rw [codeOf] at dots
    rw [first] at dots
    contradiction
  rw [recordedGlobals, recordAssignment, unrecorded]
  rfl

theorem fits_symbol (known : (codeOf insn).isEmpty = false) :
    ∀ step ∈ symbolsPlan session insn,
      step.Fits (textsOf session insn g (recordedGlobals session insn addr g))
        (valueOf session insn g) (templateOf (codeOf insn)) := by
  have made := wellMade_codeOf known
  intro step member
  have search : step.search ∈ ["symbol".toList, "...".toList] := by
    obtain ⟨i, rfl | rfl⟩ := mem_symbolsPlan member <;> simp
  have named : ∀ search ∈ ["symbol".toList, "...".toList],
      search ∈ slotNames ∧ search ≠ opName 0 ∧ search ≠ [] := by decide
  obtain ⟨inNames, other, nonempty⟩ := named _ search
  refine ⟨nonempty, suited_name made inNames other, ?_, ?_⟩
  · exact fun name inside unlike =>
      slotNames_apart _ inNames name (slots_templateOf name inside) unlike
  · intro inside f waiting untouched
    obtain ⟨i, rfl | rfl⟩ := mem_symbolsPlan member
    · rfl
    · rw [textsOf, recordedGlobals_call (dots_templateOf made inside) known]
      rfl

theorem symbols_iff (known : (codeOf insn).isEmpty = false)
    (recorded : recordedSources session insn g = substitutedOperands session insn g) :
    statementSources session insn addr g = substituted session insn g ↔
      Filling.Safe (valueOf session insn g) (templateOf (codeOf insn))
        (operandFilling session insn g) (symbolsPlan session insn) := by
  rw [statementSources, recorded]
  exact run_iff (fits_symbol known) distinct_symbolsPlan fresh_symbols

theorem share_constant (value : Word) :
    share none (render (constantFilling session insn value).fill constantTemplate) = 4 := by
  have texts (source : Source) (text : Text) : share none (stamp source text) = 0 :=
    share_stamp_other (by simp) text
  have own (c : Char) (rest : List (Stamped Source)) :
      share none ((Alphabet.write none c : Stamped Source) :: rest) = share none rest + 1 :=
    List.countP_cons_of_pos rfl
  simp only [constantTemplate, render_slot, render_own, render_nil, share_append, Filling.fill,
    constantFilling_first, constantFilling_second, texts, own]
  rfl

theorem movt_letters (movt : mnemonicOf insn = "movt".toList) :
    4 < share none (render (fun _ => ([] : List (Stamped Source))) (templateOf (codeOf insn))) := by
  have found : templateText (String.ofList (mnemonicOf insn)) insn.opCount =
      some "op0 = op10000 | op0;" := by
    have single : instructions2.lookup "movt" = none := by decide
    have row : instructions.lookup "movt" = some "op0 = op10000 | op0;" := by decide
    rw [movt, String.ofList_toList, templateText, row, single]
    simp
  have both : ∀ sets : Bool, 4 < share none (render (fun _ => ([] : List (Stamped Source)))
      (templateOf ("op0 = op10000 | op0;".toList ++ if sets then flagsText else []))) := by
    decide +kernel
  rw [codeOf_template found]
  exact both _

theorem recorded_iff
    (operands : parsedSources session insn g = substitutedOperands session insn g) :
    recordedSources session insn g = substitutedOperands session insn g ↔
      joined insn g (spell (substitutedOperands session insn g)) = none := by
  rw [recordedSources, operands]
  cases constant : joined insn g (spell (substitutedOperands session insn g)) with
  | none => exact iff_of_true rfl rfl
  | some value =>
      refine iff_of_false (fun same => ?_) (Option.some_ne_none value)
      have movt : mnemonicOf insn = "movt".toList := by
        rw [joined] at constant
        split at constant
        next found => exact found.1
        next => cases constant
      have more := (movt_letters movt).trans_le
        (share_own_le (operandFilling session insn g).fill _)
      rw [← substitutedOperands, ← same, share_constant] at more
      exact Nat.lt_irrefl 4 more

theorem slotNames_backslash : ∀ name ∈ slotNames, '\\' ∉ name := by decide

theorem statementFilling_break : statementFilling session insn g ['\\'] = none := by
  have searches : ['\\'] ∉ (symbolsPlan session insn).map Step.search := by
    intro inPlan
    obtain ⟨step, member, same⟩ := List.mem_map.mp inPlan
    have named : "symbol".toList ≠ ['\\'] ∧ "...".toList ≠ ['\\'] := by decide
    obtain ⟨i, rfl | rfl⟩ := mem_symbolsPlan member
    · exact named.1 same
    · exact named.2 same
  rw [statementFilling, puts_other searches, operandFilling]
  refine puts_other fun inPlan => ?_
  obtain ⟨step, member, same⟩ := List.mem_map.mp inPlan
  rw [operandPlan_from] at member
  obtain ⟨k, -, -, rfl⟩ := mem_operandsFrom member
  have name : opName k = ['\\'] := same
  exact whole_opName k (by rw [name]; exact List.mem_cons_self)

theorem lineBreaks_iff
    (symbols : statementSources session insn addr g = substituted session insn g) :
    brokenSources session insn addr g = substitution session insn g ↔
      (statementFilling session insn g).Untouched (lines (templateOf (codeOf insn))) ['\\'] := by
  have start : substituted session insn g =
      render (statementFilling session insn g).fill (lines (templateOf (codeOf insn))) := by
    rw [substituted, lines, render_letterSlots]
    rw [Filling.fill, statementFilling_break]
  have fits : ∀ step ∈ breakPlan, step.Fits (textsOf session insn g g) (valueOf session insn g)
      (lines (templateOf (codeOf insn))) := by
    intro step member
    obtain rfl := List.mem_singleton.mp member
    refine ⟨List.cons_ne_nil _ _, suited_letterSlots _, ?_, fun _ _ _ _ => rfl⟩
    intro name inside unlike
    by_contra found
    have letter := ( occurs_iff_infix.mp (Bool.of_not_eq_false found)).subset List.mem_cons_self
    rcases mem_slots_letterSlots inside with same | slot
    · exact unlike same
    · exact slotNames_backslash name (slots_templateOf name slot) letter
  have fresh : (statementFilling session insn g).Fresh breakPlan := by
    intro name source text filled inPlan
    obtain rfl := List.mem_singleton.mp inPlan
    rcases puts_source filled with symbol | before
    · obtain ⟨step, member, same⟩ := List.mem_map.mp symbol
      obtain ⟨i, rfl | rfl⟩ := mem_symbolsPlan member <;> cases same
    · obtain ⟨k, same⟩ := operandFilling_sources before
      cases same
  rw [brokenSources, symbols, start]
  exact (run_iff fits (List.nodup_singleton _) fresh).trans (and_iff_left trivial)

theorem escape_letters : "()n".toList = ['(', ')', 'n'] := by decide

theorem escape_seam {front back : Text} (opened : ['('] <:+ front → ¬ [')', 'n'] <+: back)
    (closed : ['(', ')'] <:+ front → ¬ ['n'] <+: back) : Seam "()n".toList front back := by
  rw [escape_letters]
  intro p q whole some more suffix after
  obtain ⟨a, p, rfl⟩ := List.exists_cons_of_ne_nil some
  obtain ⟨first, second⟩ := List.cons.inj whole
  subst first
  cases p with
  | nil =>
      obtain rfl : [')', 'n'] = q := second
      exact opened suffix after
  | cons b p =>
      obtain ⟨first, third⟩ := List.cons.inj second
      subst first
      cases p with
      | nil =>
          obtain rfl : ['n'] = q := third
          exact closed suffix after
      | cons c p => exact more (List.append_eq_nil_iff.mp (List.cons.inj third).2.symm).2

variable {fill : Text → List (Stamped Source)}

theorem gentle_render (fill : Text → List (Stamped Source)) {pieces : List Piece}
    (gentle : gentle pieces = true) :
    ¬ ['n'] <+: spell (render fill pieces) ∧ ¬ [')', 'n'] <+: spell (render fill pieces) := by
  fun_cases Passes.gentle pieces with
  | case1 => simp [spell]
  | case2 c =>
      rw [Passes.gentle, bne_iff_ne] at gentle
      rw [spell_own, List.cons_prefix_cons, List.cons_prefix_cons]
      exact ⟨fun both => gentle both.1.symm, fun both => by simp [spell] at both⟩
  | case3 c d rest =>
      rw [Passes.gentle, Bool.and_eq_true, Bool.or_eq_true, bne_iff_ne, bne_iff_ne, bne_iff_ne]
        at gentle
      rw [spell_own, spell_own, List.cons_prefix_cons, List.cons_prefix_cons,
        List.cons_prefix_cons]
      refine ⟨fun both => gentle.1 both.1.symm, fun both => ?_⟩
      exact gentle.2.elim (fun other => other both.1.symm) fun other => other both.2.1.symm
  | case4 c name rest =>
      rw [Passes.gentle, Bool.and_eq_true, bne_iff_ne, bne_iff_ne] at gentle
      rw [spell_own, List.cons_prefix_cons, List.cons_prefix_cons]
      exact ⟨fun both => gentle.1 both.1.symm, fun both => gentle.2 both.1.symm⟩
  | case5 => cases gentle

theorem opened_slot {name : Text} {rest : List Piece} (gentle : gentle rest = true)
    (shut : [')', 'n'].isPrefixOf (spell (fill name)) = false) :
    ¬ [')', 'n'] <+: spell (render fill (.slot name :: rest)) := by
  obtain ⟨noN, noEnd⟩ := gentle_render fill gentle
  rw [render_slot, spell_append]
  intro after
  generalize spell (fill name) = text at shut after
  cases text with
  | nil => exact noEnd after
  | cons c text =>
      obtain ⟨first, tail⟩ := List.cons_prefix_cons.mp after
      subst first
      cases text with
      | nil => exact noN tail
      | cons d text =>
          obtain ⟨second, -⟩ := List.cons_prefix_cons.mp tail
          subst second
          have isPrefix : [')', 'n'].isPrefixOf (')' :: 'n' :: text) = true :=
            List.isPrefixOf_iff_prefix.mpr (List.prefix_append [')', 'n'] text)
          rw [isPrefix] at shut
          contradiction

theorem slot_seam {name : Text} {rest : List Piece}
    (safe : (∀ c ∈ spell (fill name), c ≠ '(' ∧ c ≠ ')') ∨ gentle rest = true) :
    Seam "()n".toList (spell (fill name)) (spell (render fill rest)) := by
  rcases safe with quiet | gentle
  · refine escape_seam (fun suffix => ?_) fun suffix => ?_
    · exact absurd rfl (quiet '(' (suffix.subset List.mem_cons_self)).1
    · exact absurd rfl (quiet '(' (suffix.subset List.mem_cons_self)).1
  · obtain ⟨noN, noEnd⟩ := gentle_render fill gentle
    exact escape_seam (fun _ => noEnd) fun _ => noN

theorem own_seam {c : Char} {rest : List Piece}
    (safe : c = '(' → ¬ [')', 'n'] <+: spell (render fill rest)) :
    Seam "()n".toList [c] (spell (render fill rest)) := by
  refine escape_seam (fun suffix => ?_) fun suffix => ?_
  · exact safe (List.mem_singleton.mp (suffix.subset List.mem_cons_self)).symm
  · exact absurd suffix.length_le (by decide : ¬ 2 ≤ 1)

theorem escape_render {pieces : List Piece} (fits : escapable pieces = true)
    (breaks : ∀ c ∈ spell (fill ['\\']), c ≠ '(' ∧ c ≠ ')') :
    occurs "()n".toList (spell (render fill pieces)) = false ↔
      (∀ name ∈ slots pieces, occurs "()n".toList (spell (fill name)) = false) ∧
        ∀ front name back, pieces = front ++ .own '(' :: .slot name :: back →
          [')', 'n'].isPrefixOf (spell (fill name)) = false := by
  constructor
  next =>
    intro none
    have apart {text : Text} (inside : text <:+: spell (render fill pieces)) :
        ¬ "()n".toList <:+: text := by
      intro found
      rw [ occurs_iff_infix.mpr (found.trans inside)] at none
      contradiction
    refine ⟨fun name member => ?_, ?_⟩
    · by_contra found
      obtain ⟨front, back, whole⟩ := slots_split member
      refine apart ⟨spell (render fill front), spell (render fill back), ?_⟩
        ( occurs_iff_infix.mp (Bool.of_not_eq_false found))
      rw [whole, render_append, render_slot, spell_append, spell_append, List.append_assoc]
    · rintro front name back rfl
      by_contra opened
      obtain ⟨tail, whole⟩ := List.isPrefixOf_iff_prefix.mp (Bool.of_not_eq_false opened)
      refine apart ⟨spell (render fill front), tail ++ spell (render fill back), ?_⟩
        List.infix_rfl
      rw [render_append, spell_append, spell_own, render_slot, spell_append, ← whole,
        escape_letters]
      simp
  next =>
    rintro ⟨texts, shut⟩
    induction pieces with
    | nil =>
        change "()n".toList.isEmpty = false
        decide
    | cons piece rest ih =>
        have later : ∀ front name back, rest = front ++ .own '(' :: .slot name :: back →
            [')', 'n'].isPrefixOf (spell (fill name)) = false := fun front name back whole =>
          shut (piece :: front) name back (by rw [whole]; rfl)
        have nonempty : "()n".toList ≠ [] := by decide
        cases piece with
        | own c =>
            have seam : Seam "()n".toList [c] (spell (render fill rest)) ∧
                escapable rest = true := by
              cases rest with
              | nil =>
                  refine ⟨own_seam fun _ => ?_, rfl⟩
                  simp [spell]
              | cons next rest =>
                  cases next with
                  | own d =>
                      have both : (c != '(' || gentle (.own d :: rest)) = true ∧
                          escapable (.own d :: rest) = true := Bool.and_eq_true_iff.mp fits
                      refine ⟨own_seam fun bracket => ?_, both.2⟩
                      rw [bracket, bne_self_eq_false, Bool.false_or] at both
                      exact (gentle_render fill both.1).2
                  | slot name =>
                      have both : (c != '(' || name != ['\\']) = true ∧
                          escapable (.slot name :: rest) = true := Bool.and_eq_true_iff.mp fits
                      refine ⟨own_seam fun bracket => ?_, both.2⟩
                      rw [bracket, bne_self_eq_false, Bool.false_or, bne_iff_ne] at both
                      have behind := both.2
                      rw [escapable, Bool.and_eq_true, Bool.or_eq_true, beq_iff_eq] at behind
                      refine opened_slot (behind.1.resolve_left both.1) ?_
                      exact shut [] name rest (by rw [bracket]; rfl)
            have letter : occurs "()n".toList [c] = false := by
              by_contra found
              have short := ( occurs_iff_infix.mp (Bool.of_not_eq_false found)).length_le
              rw [escape_letters] at short
              exact absurd short (by decide : ¬ 3 ≤ 1)
            rw [spell_own, ← List.singleton_append, occurs_seam nonempty seam.1, letter,
              Bool.false_or]
            exact ih seam.2 texts later
        | slot name =>
            rw [escapable, Bool.and_eq_true, Bool.or_eq_true, beq_iff_eq] at fits
            have seam : Seam "()n".toList (spell (fill name)) (spell (render fill rest)) := by
              refine slot_seam (fits.1.imp_left fun same => ?_)
              rw [same]
              exact breaks
            rw [render_slot, spell_append, occurs_seam nonempty seam,
              texts name List.mem_cons_self, Bool.false_or]
            exact ih fits.2 (fun other member => texts other (List.mem_cons_of_mem name member))
              later

theorem brokenFilling_break :
    (brokenFilling session insn g).fill ['\\'] = stamp .lineBreak ('\n' :: indentOf insn) := by
  have filled : brokenFilling session insn g ['\\'] =
      some (.lineBreak, '\n' :: indentOf insn) := by
    change (statementFilling session insn g).put .lineBreak ['\\'] ('\n' :: indentOf insn)
      ['\\'] = _
    rw [Filling.put, Function.update_self, statementFilling_break]
    rfl
  rw [Filling.fill, filled]

theorem unescaped_self_iff {code : List (Stamped Source)} :
    unescaped code = code ↔ occurs "()n".toList (spell code) = false := by
  constructor
  next =>
    intro same
    have spelled := congrArg spell same
    rw [unescaped, Traced.spell_replaceAll, spell_stamp] at spelled
    exact occurs_of_replaceAll_self (by decide) spelled
  next => exact replaceAll_of_not_occurs

theorem escapes_iff (known : (codeOf insn).isEmpty = false)
    (lineBreaks : brokenSources session insn addr g = substitution session insn g) :
    printedSources session insn addr g = substitution session insn g ↔
      (∀ name ∈ slots (lines (templateOf (codeOf insn))),
        occurs "()n".toList (spell ((brokenFilling session insn g).fill name)) = false) ∧
      ∀ front name back, lines (templateOf (codeOf insn)) =
        front ++ .own '(' :: .slot name :: back →
          [')', 'n'].isPrefixOf (spell ((brokenFilling session insn g).fill name)) = false := by
  rw [printedSources, lineBreaks, unescaped_self_iff, substitution]
  refine escape_render (escapable_templateOf (wellMade_codeOf known)) fun c member => ?_
  rw [brokenFilling_break, spell_stamp, List.mem_cons] at member
  rcases member with rfl | indent
  · decide
  · have tabs : c = '\t' := by
      rw [indentOf] at indent
      cases condition : (trimMnemonic insn).2 <;> rw [condition] at indent
      · simpa [heading] using indent
      · simpa [heading] using indent
    rw [tabs]
    decide

theorem captureFree_of_clear (known : (codeOf insn).isEmpty = false) (few : insn.opCount ≤ 10)
    (clear : Clear session insn g) : CaptureFree session insn addr g := by
  have operands := (operands_iff (wellMade_codeOf known) few).mpr clear.operands
  have recorded := (recorded_iff operands).mpr clear.unjoined
  have symbols : statementSources session insn addr g = substituted session insn g :=
    (symbols_iff known recorded).mpr clear.symbols
  have lineBreaks := (lineBreaks_iff symbols).mpr clear.lineBreaks
  have escapes := (escapes_iff known lineBreaks).mpr ⟨clear.escapes, clear.brackets⟩
  refine ⟨operands, recorded, symbols, lineBreaks, escapes, fun printed => ?_⟩
  rw [← escapes]
  exact pseudoCode_sources known printed

/-- A statement is the template with all texts put in at once exactly when the texts are clear
of what is searched for after them. -/
theorem captureFree_iff (known : (codeOf insn).isEmpty = false) (few : insn.opCount ≤ 10) :
    CaptureFree session insn addr g ↔ Clear session insn g := by
  constructor
  next =>
    intro free
    obtain ⟨escapes, brackets⟩ := (escapes_iff known free.lineBreaks).mp free.escapes
    exact ⟨(operands_iff (wellMade_codeOf known) few).mp free.operands,
      (recorded_iff free.operands).mp free.recorded,
      (symbols_iff known free.recorded).mp free.symbols,
      (lineBreaks_iff free.symbols).mp free.lineBreaks, escapes, brackets⟩
  next => exact captureFree_of_clear known few

-- `add v1, a1, a3`
def addInsn : CsInsn where
  mnemonic := "add".toList
  opStr := "r4, r0, r2".toList
  size := 4
  conditional := false
  updateFlags := false
  opCount := 3
  operands i :=
    ⟨.reg, if i = 0 then ArmReg.r4 else if i = 1 then ArmReg.r0 else ArmReg.r2, 0, 0, .invalid, 0⟩

-- The first argument is the address of a subroutine `loop2`.
def loopGlobals : Globals Char where
  regAssignMap reg := if reg = ArmReg.r0 then some ⟨"loop2".toList, 0x81000000, false⟩ else none
  ignoreMap _ := false
  useFlags := false

def bareSession : Session := ⟨fun _ => none, fun _ => []⟩

theorem captureFree_add : (codeOf addInsn).isEmpty = false ∧ addInsn.opCount ≤ 10 ∧
    (CaptureFree bareSession addInsn 0x81000004 loopGlobals ↔
      Clear bareSession addInsn loopGlobals) :=
  ⟨by decide, by decide, captureFree_iff (by decide) (by decide)⟩

-- The third operand is put into the name.
theorem loop_captured :
    (pseudoCode bareSession addInsn 0x81000004 loopGlobals).1 = "\tv1 = loa3 + a3;\n".toList ∧
      spell (substitution bareSession addInsn loopGlobals) = "v1 = loop2 + a3;".toList ∧
      ¬ CaptureFree bareSession addInsn 0x81000004 loopGlobals := by
  have printed : (pseudoCode bareSession addInsn 0x81000004 loopGlobals).1 =
      "\tv1 = loa3 + a3;\n".toList := by decide +kernel
  have expected : spell (substitution bareSession addInsn loopGlobals) =
      "v1 = loop2 + a3;".toList := by decide +kernel
  refine ⟨printed, expected, fun free => ?_⟩
  have same := free.printed rfl
  rw [printed, expected] at same
  exact absurd same (by decide +kernel)

end Globals

end VitaTools.Passes
