import VitaTools.Passes.Pointers
import VitaTools.Passes.Recovery

set_option autoImplicit false

namespace VitaTools.Passes

open VitaTools.Library VitaTools.Library.Traced
open VitaTools.Decompiler (Text Word hexChar)

def Holds (symbolMap : SymbolMap) (address : Word) (type : Word) (name : Text) : Prop :=
  ∃ entry, symbolMap address = some entry ∧ entry.type = type ∧ entry.name = name

variable {m : Module} {address type : Word} {name : Text}

theorem holds_addSymbol {s : Symbols} (holds : Holds s.symbolMap address type name) (addr : Word)
    (other : Text) (kind : Word) :
    Holds (s.addSymbol addr other kind).symbolMap address type name := by
  obtain ⟨entry, found, same⟩ := holds
  rw [Symbols.addSymbol]
  split
  next => exact ⟨entry, found, same⟩
  next free =>
    have apart : address ≠ addr := fun eq => by
      rw [eq, free] at found
      cases found
    exact ⟨entry, (Function.update_of_ne apart _ _).trans found, same⟩

theorem holds_firstRun {s : Symbols} (holds : Holds s.symbolMap address type name)
    (insn : CsInsn) : Holds (s.firstRun m insn).symbolMap address type name := by
  rw [Symbols.firstRun]
  dsimp only
  split_ifs <;> first | exact holds | exact holds_addSymbol holds _ _ _

theorem holds_analyseSymbols {secondRun : Bool} {s t : Symbols × Cursor}
    (holds : Holds s.1.symbolMap address type name)
    (visited : (analyseSymbolsLoop m secondRun).Visits s t) :
    Holds t.1.symbolMap address type name := by
  apply visited.invariant fun t => Holds t.1.symbolMap address type name
  · exact holds
  · rintro ⟨s, c⟩ - kept -
    change Holds (analyseSymbolsPass m secondRun s c).1.symbolMap address type name
    rw [analyseSymbolsPass]
    rcases m.disassemble c with ⟨_ | insn, after⟩
    · exact kept
    · cases secondRun with
      | false => exact holds_firstRun kept insn
      | true =>
          simp only [Bool.not_true, Bool.false_eq_true, if_false]
          split
          · exact holds_addSymbol kept _ _ _
          · exact kept

theorem holds_recordCall {s : Arguments} (holds : Holds s.symbolMap address type name)
    (target : Word) : Holds (s.recordCall m target).symbolMap address type name := by
  obtain ⟨entry, found, same⟩ := holds
  rw [Arguments.recordCall]
  split
  next called counted =>
    by_cases here : address = target
    next =>
      have callee : called = entry := by
        split at counted
        · rw [here, counted] at found
          exact Option.some.inj found
        · cases counted
      exact ⟨_, by rw [here]; exact Function.update_self _ _ _, by rwa [callee]⟩
    next => exact ⟨entry, (Function.update_of_ne here _ _).trans found, same⟩
  next => exact ⟨entry, found, same⟩

theorem holds_analyseArguments {s t : Arguments × Cursor}
    (holds : Holds s.1.symbolMap address type name)
    (visited : (analyseArgumentsLoop m).Visits s t) :
    Holds (analyseArgumentsEnd t.1.symbolMap) address type name := by
  have kept : Holds t.1.symbolMap address type name := by
    apply visited.invariant fun t => Holds t.1.symbolMap address type name
    · exact holds
    · rintro ⟨s, c⟩ - kept -
      change Holds (analyseArgumentsPass m s c).1.symbolMap address type name
      have reset : (if (s.symbolMap c.address).isSome then { s with nArgs := 0 }
          else s).symbolMap = s.symbolMap := by
        split <;> rfl
      rw [analyseArgumentsPass]
      rcases m.disassemble c with ⟨_ | insn, after⟩
      · exact kept
      · dsimp only
        split
        · rwa [reset]
        · split
          · exact holds_recordCall (by rwa [reset]) _
          · rwa [reset]
  obtain ⟨entry, found, type, name⟩ := kept
  simp only [Holds, analyseArgumentsEnd, found, Option.map_some]
  split
  · exact ⟨_, rfl, type, name⟩
  · exact ⟨_, rfl, type, name⟩

/-- The symbols that the analyses come to from a state of the first run. -/
def LeftFrom (m : Module) (first : Symbols × Cursor) (symbolMap : SymbolMap) : Prop :=
  ∃ s t args, (analyseSymbolsLoop m false).Visits first s ∧
    (analyseSymbolsLoop m true).Visits (s.1, m.start) t ∧
      (analyseArgumentsLoop m).Visits
        (⟨0, (analyseSymbolsEnd m true t.1).symbolMap⟩, m.start) args ∧
        symbolMap = analyseArgumentsEnd args.1.symbolMap

theorem LeftFrom.holds {first : Symbols × Cursor} {symbolMap : SymbolMap}
    (left : LeftFrom m first symbolMap) (holds : Holds first.1.symbolMap address type name) :
    Holds symbolMap address type name := by
  obtain ⟨s, t, args, symbols, returns, arguments, rfl⟩ := left
  have between : Holds s.1.symbolMap address type name := holds_analyseSymbols holds symbols
  have later : Holds t.1.symbolMap address type name :=
    holds_analyseSymbols (s := (s.1, m.start)) between returns
  exact holds_analyseArguments (holds_addSymbol later _ _ _) arguments

def subroutineAt (value : Word) : Word := value &&& ~~~1

def subroutineName (value : Word) : Text := Symbols.addressName "sub" (subroutineAt value)

-- The `movt` makes a new subroutine of its constant.
def Registers (m : Module) (s : Symbols) (movt : CsInsn) : Prop :=
  s.symbolMap (subroutineAt (s.constant movt)) = none ∧
    (s.firstRun m movt).symbolMap (subroutineAt (s.constant movt)) =
      some ⟨symbolSubroutine, subroutineName (s.constant movt), 0, fun _ => 0⟩

theorem firstRun_movt {movt : CsInsn} (mnemonic : mnemonicOf movt = "movt".toList)
    (s : Symbols) :
    s.firstRun m movt =
      if m.inText (s.constant movt) then
        if m.textAddr + m.modInfoOffset < s.constant movt || m.isascii4 (s.constant movt) then
          s.addSymbol (s.constant movt) (m.stringAt (s.constant movt)) symbolString
        else s.addSubroutine (subroutineAt (s.constant movt))
      else s := by
  have text : String.ofList (trimMnemonic movt).1 = "movt" := by
    rw [← mnemonicOf, mnemonic]
    rfl
  rw [Symbols.firstRun, text]
  rfl

theorem Registers.inText {movt : CsInsn} {s : Symbols} (registers : Registers m s movt)
    (mnemonic : mnemonicOf movt = "movt".toList) :
    m.inText (s.constant movt) = true ∧ m.isascii4 (s.constant movt) = false := by
  obtain ⟨free, made⟩ := registers
  rw [firstRun_movt mnemonic] at made
  split at made
  next inText =>
    refine ⟨inText, ?_⟩
    split at made
    next =>
      rw [Symbols.addSymbol] at made
      split at made
      next => rw [free] at made; cases made
      next =>
        dsimp only at made
        rw [Function.update_apply] at made
        split at made
        next =>
          have types := congrArg SymbolEntry.type (Option.some.inj made)
          exact absurd types (by decide : symbolString ≠ symbolSubroutine)
        next => rw [free] at made; cases made
    next other =>
      rw [Bool.or_eq_true, not_or] at other
      exact Bool.eq_false_iff.mpr other.2
  next => rw [free] at made; cases made

namespace Segments

variable (segments : Segments)

-- The words that are followed from the value come to an end that is no string.
def LeadsToNoString (value : Word) : Prop :=
  ∃ fuel ptr, segments.checkDwordValue fuel value = some ptr ∧
    ptr.filter segments.isascii4 = none

theorem constantText_text {symbolMap : SymbolMap} {value : Word}
    (held : segments.text.holds value = true)
    (letters : segments.isascii4 (segments.text.place value) = false) (fuel : Nat) :
    segments.constantText symbolMap fuel value =
      (segments.checkDwordValue fuel value).map fun ptr =>
        Library.replaceAll ((match ptr.filter segments.isascii4 with
          | some string => segments.stringText "text" value string
          | none => symbolText symbolMap value (segments.dword value ptr)).take 1023)
          ['\n'] "()n".toList := by
  rw [constantText, constantBuf, if_pos held, follow, letters]
  cases segments.checkDwordValue fuel value <;> rfl

theorem constantText_outside {symbolMap : SymbolMap} {value : Word} {fuel : Nat} {text : Text}
    (outside : segments.text.holds value = false)
    (printed : segments.constantText symbolMap fuel value = some text) :
    ∃ rest, text = '/' :: rest := by
  obtain ⟨buf, found, rfl⟩ := Option.map_eq_some_iff.mp printed
  suffices comment : ∃ rest, buf = '/' :: rest by
    obtain ⟨rest, rfl⟩ := comment
    exact ⟨_, rfl⟩
  rw [constantBuf, if_neg (by simp [outside])] at found
  split at found
  next =>
    obtain ⟨⟨string, ptr⟩, -, rfl⟩ := Option.map_eq_some_iff.mp found
    cases string <;> exact ⟨_, rfl⟩
  next =>
    cases found
    exact ⟨_, rfl⟩

theorem constantText_iff {symbolMap : SymbolMap} {value : Word} {entry : SymbolEntry}
    (inText :
      (segments.text.addr ≤ value && value < segments.text.addr + segments.text.size) = true)
    (letters : segments.isascii4 (segments.text.place value) = false)
    (found : symbolMap (subroutineAt value) = some entry)
    (subroutine : entry.is symbolSubroutine = true)
    (short : entry.name.length ≤ 1023) (line : '\n' ∉ entry.name)
    (word : ∃ c later, entry.name = c :: later ∧ c ≠ '/') :
    (∃ fuel, segments.constantText symbolMap fuel value = some entry.name) ↔
      value ≠ segments.text.addr ∧ segments.LeadsToNoString value := by
  obtain ⟨c, later, name, other⟩ := word
  have comment (rest : Text) : '/' :: rest ≠ entry.name := fun same => by
    rw [name] at same
    exact other (List.cons.inj same).1.symm
  by_cases start : value = segments.text.addr
  next =>
    have outside : segments.text.holds value = false := by simp [Segment.holds, start]
    refine iff_of_false (fun printed => ?_) fun both => both.1 start
    obtain ⟨fuel, printed⟩ := printed
    obtain ⟨rest, same⟩ := segments.constantText_outside outside printed
    exact comment rest same.symm
  next =>
    have held : segments.text.holds value = true := by
      rw [Bool.and_eq_true, decide_eq_true_eq, decide_eq_true_eq] at inText
      have above : segments.text.addr < value :=
        BitVec.lt_of_le_ne inText.1 fun same => start same.symm
      simp [Segment.holds, above, inText.2]
    have kept : Library.replaceAll (entry.name.take 1023) ['\n'] "()n".toList = entry.name := by
      rw [List.take_of_length_le short]
      exact replaceAll_absent List.mem_cons_self line
    simp only [segments.constantText_text held letters]
    constructor
    · rintro ⟨fuel, printed⟩
      obtain ⟨ptr, led, same⟩ := Option.map_eq_some_iff.mp printed
      refine ⟨start, fuel, ptr, led, ?_⟩
      cases kind : ptr.filter segments.isascii4 with
      | none => rfl
      | some string =>
          simp only [kind] at same
          exact absurd same (comment _)
    · rintro ⟨-, fuel, ptr, led, noString⟩
      refine ⟨fuel, ?_⟩
      rw [led, Option.map_some, noString]
      have masked : symbolText symbolMap value (segments.dword value ptr) = entry.name := by
        rw [symbolText]
        simp only [show value &&& ~~~1 = subroutineAt value from rfl, found, subroutine, if_true]
      simp only [masked, kept]

theorem checkDwordValue_more {fuel more : Nat} {value : Word} {ptr : Option Nat}
    (least : fuel ≤ more) (returned : segments.checkDwordValue fuel value = some ptr) :
    segments.checkDwordValue more value = some ptr := by
  rw [checkDwordValue] at returned ⊢
  split at returned
  case isTrue zero => rwa [if_pos zero]
  case isFalse nonzero =>
    obtain ⟨c, first, returned⟩ := Option.bind_eq_some_iff.mp returned
    obtain ⟨d, second, same⟩ := Option.bind_eq_some_iff.mp returned
    rw [if_neg nonzero, Loop.run_more least first, ← same]
    exact congrArg (Option.bind · fun c => some c.currentPtr) (Loop.run_more least second)

theorem constantText_more {symbolMap : SymbolMap} {fuel more : Nat} {value : Word} {text : Text}
    (least : fuel ≤ more) (printed : segments.constantText symbolMap fuel value = some text) :
    segments.constantText symbolMap more value = some text := by
  have follow (segment : Segment) {led} (found : segments.follow segment fuel value = some led) :
      segments.follow segment more value = some led := by
    rw [Segments.follow] at found ⊢
    split at found
    case isTrue string => rwa [if_pos string]
    case isFalse other =>
      obtain ⟨ptr, returned, rfl⟩ := Option.map_eq_some_iff.mp found
      rw [if_neg other, segments.checkDwordValue_more least returned]
      rfl
  obtain ⟨buf, found, rfl⟩ := Option.map_eq_some_iff.mp printed
  rw [constantText]
  suffices same : segments.constantBuf symbolMap more value = some buf by rw [same]; rfl
  rw [constantBuf] at found ⊢
  split at found
  case isTrue held =>
    obtain ⟨led, followed, rfl⟩ := Option.map_eq_some_iff.mp found
    rw [if_pos held, follow _ followed]
    rfl
  case isFalse outside =>
    rw [if_neg outside]
    split at found
    case isTrue held =>
      obtain ⟨led, followed, rfl⟩ := Option.map_eq_some_iff.mp found
      rw [if_pos held, follow _ followed]
      rfl
    case isFalse away => rwa [if_neg away]

open Classical in
noncomputable def session (symbolMap : SymbolMap) : Session where
  symbolMap := symbolMap
  constantText value :=
    if ends : ∃ fuel text, segments.constantText symbolMap fuel value = some text then
      ends.choose_spec.choose
    else []

theorem session_symbolMap (symbolMap : SymbolMap) :
    (segments.session symbolMap).symbolMap = symbolMap := rfl

theorem session_constantText {symbolMap : SymbolMap} {fuel : Nat} {value : Word} {text : Text}
    (printed : segments.constantText symbolMap fuel value = some text) :
    (segments.session symbolMap).constantText value = text := by
  have ends : ∃ fuel text, segments.constantText symbolMap fuel value = some text :=
    ⟨fuel, text, printed⟩
  have chosen := segments.constantText_more (Nat.le_max_left _ fuel) ends.choose_spec.choose_spec
  rw [segments.constantText_more (Nat.le_max_right _ fuel) printed] at chosen
  rw [session]
  dsimp only
  rw [dif_pos ends]
  exact (Option.some.inj chosen).symm

end Segments

variable {session : Session} {insn : CsInsn} {addr value : Word} {g : Globals Char}

theorem trimMnemonic_unconditional (unconditional : insn.conditional = false) :
    (trimMnemonic insn).2 = none := by
  have absent : ∀ mnemonic, conditionOf insn mnemonic = none := fun mnemonic => by
    rw [conditionOf, unconditional]
    rfl
  rw [trimMnemonic]
  simp only [absent]
  split_ifs <;> rfl

theorem recordAssignment_constant (session : Session) (addr : Word)
    (found : g.constant insn = some value) :
    (Globals.recordAssignment session insn (mnemonicOf insn) addr false
        (g.parsed insn (codeOf insn)) (Globals.useFlagsOf insn g)).1 =
      (variableOf (insn.operands 0).base).toList ++ " = ".toList ++ session.constantText value ++
        [';'] := by
  rw [Globals.constant] at found
  split at found
  next complete =>
    obtain ⟨entry, half, rfl⟩ := Option.map_eq_some_iff.mp found
    simp only [Bool.and_eq_true, Bool.not_eq_true', beq_iff_eq] at complete
    obtain ⟨⟨assigns, unconditional⟩, movt⟩ := complete
    have half : (Globals.useFlagsOf insn g).lowHalf (insn.operands 0).base = some entry := half
    rw [Globals.recordAssignment, if_pos assigns, Globals.assignRegister, unconditional,
      if_neg (by decide), if_pos movt, half]
    simp [getRegName]
  next => cases found

theorem replaceSymbol_still {code : Text} (noY : 'y' ∉ code) (noDot : '.' ∉ code) (i : Nat) :
    (Globals.replaceSymbol session insn false i code g).1 = code := by
  have still (text : Text) : Traced.replaceAll code "symbol".toList text = code :=
    replaceAll_of_absent (by decide : 'y' ∈ "symbol".toList) (by rwa [spell_char])
  have dots (text : Text) : Traced.replaceAll code "...".toList text = code :=
    replaceAll_of_absent (by decide : '.' ∈ "...".toList) (by rwa [spell_char])
  rw [Globals.replaceSymbol]
  split
  · split
    · dsimp only
      split
      · simp only [still, dots]
      · exact still _
    · rfl
  · dsimp only
    split
    · exact still _
    · rfl

theorem variableOf_y (reg : Word) : 'y' ∉ (variableOf reg).toList := by
  have none : ∀ name ∈ "unk" :: regNames.map Prod.snd, 'y' ∉ name.toList := by decide
  rw [variableOf]
  cases found : regNames.lookup reg with
  | none => exact none "unk" List.mem_cons_self
  | some name =>
      exact none name (List.mem_cons_of_mem _ (List.mem_map_of_mem (mem_of_lookup found)))

theorem pseudoCode_constant (addr : Word) (found : g.constant insn = some value)
    (quiet : ∀ c ∈ session.constantText value, c ≠ 'y' ∧ c ≠ '.' ∧ c ≠ '\\' ∧ c ≠ '(') :
    (g.pseudoCode session insn addr).1 =
      if g.ignoreMap addr then []
      else '\t' :: (variableOf (insn.operands 0).base).toList ++ " = ".toList ++
        session.constantText value ++ ";\n".toList := by
  have complete := found
  rw [Globals.constant] at complete
  split at complete
  case isFalse => cases complete
  case isTrue both =>
    simp only [Bool.and_eq_true, Bool.not_eq_true', beq_iff_eq] at both
    obtain ⟨⟨-, unconditional⟩, movt⟩ := both
    generalize whole : (variableOf (insn.operands 0).base).toList ++ " = ".toList ++
      session.constantText value ++ [';'] = statement
    have letters : ∀ c ∈ statement, c ≠ 'y' ∧ c ≠ '.' ∧ c ≠ '\\' ∧ c ≠ '(' := by
      intro c member
      simp only [← whole, List.mem_append, List.mem_singleton] at member
      rcases member with ((name | equals) | constant) | rfl
      · have letter := variableOf_letters (insn.operands 0).base c name
        refine ⟨fun same => variableOf_y _ (same ▸ name), ?_, ?_, ?_⟩ <;>
          (rintro rfl; exact absurd letter.1 (by decide))
      · obtain rfl | rfl | rfl : c = ' ' ∨ c = '=' ∨ c = ' ' := by simpa using equals
        · decide
        · decide
        · decide
      · exact quiet c constant
      · decide
    have still (i : Nat) (g : Globals Char) :
        (Globals.replaceSymbol session insn false i statement g).1 = statement :=
      replaceSymbol_still (fun member => (letters _ member).1 rfl)
        (fun member => (letters _ member).2.1 rfl) i
    have text : (Globals.translateCode session insn (mnemonicOf insn) addr (codeOf insn) false
        g).1 = statement := by
      have quietParse : (Globals.parseOperations insn false (codeOf insn)
          (Globals.useFlagsOf insn g)).2 = Globals.useFlagsOf insn g :=
        Globals.parseFrom_globals insn _ 0 _ _
      have recorded := recordAssignment_constant session addr found
      rw [whole, Globals.parsed] at recorded
      simp only [Globals.translateCode, Globals.replaceSymbols, quietParse, recorded, still]
    have lines : Globals.breakLines ['\t'] statement = statement := by
      rw [Globals.breakLines, replaceAll_of_absent List.mem_cons_self,
        replaceAll_of_absent (by decide : '(' ∈ "()n".toList)]
      · exact fun member => (letters '(' (by rwa [spell_char] at member)).2.2.2 rfl
      · exact fun member => (letters '\\' (by rwa [spell_char] at member)).2.2.1 rfl
    have condition := trimMnemonic_unconditional unconditional
    have known : (codeOf insn).isEmpty = false := by
      rw [codeOf, movt]
      obtain ⟨rest, code⟩ := getInstructionCode_single insn "movt" "op0 = op10000 | op0;"
        (by decide) (by decide)
      rw [code]
      rfl
    have ignored := Globals.translateCode_ignoreMap session insn (mnemonicOf insn) addr
      (codeOf insn) g
    rw [codeOf, mnemonicOf] at known text ignored
    rw [Globals.pseudoCode]
    rcases trimmed : trimMnemonic insn with ⟨mnemonic, kind⟩
    rw [trimmed] at known text ignored condition
    obtain rfl : kind = none := condition
    simp only [known, Bool.false_eq_true, if_false, text, ignored, Globals.heading,
      plain_char, lines]
    split
    · rfl
    · rw [← whole]
      simp

theorem subroutineName_letters (value : Word) : ∀ c ∈ subroutineName value,
    c ≠ 'y' ∧ c ≠ '.' ∧ c ≠ '\\' ∧ c ≠ '(' ∧ c ≠ '\n' := by
  have digit : ∀ digit, hexChar digit ≠ 'y' ∧ hexChar digit ≠ '.' ∧ hexChar digit ≠ '\\' ∧
      hexChar digit ≠ '(' ∧ hexChar digit ≠ '\n' := by decide
  intro c member
  have parts : c ∈ "sub_".toList ++ [7, 6, 5, 4, 3, 2, 1, 0].map fun k =>
    hexChar ((subroutineAt value).extractLsb' (4 * k) 4) := member
  rcases List.mem_append.mp parts with sub | digits
  · obtain rfl | rfl | rfl | rfl : c = 's' ∨ c = 'u' ∨ c = 'b' ∨ c = '_' := by simpa using sub
    all_goals decide
  · obtain ⟨k, -, rfl⟩ := List.mem_map.mp digits
    exact digit _

/-- The segments are those of the module, and constants are printed from them. -/
structure Hosted (segments : Segments) (m : Module) (session : Session) : Prop where
  textAddr : m.textAddr = segments.text.addr
  textSize : m.textSize = segments.text.size
  isascii4 : ∀ value, m.inText value = true →
    m.isascii4 value = segments.isascii4 (segments.text.place value)
  constantText : ∀ fuel value text,
    segments.constantText session.symbolMap fuel value = some text →
      session.constantText value = text

/-- The constant comes to the name of the subroutine, which stands in the statement unless that is
not printed. -/
structure ShowsName (segments : Segments) (m : Module) (session : Session) (reg : Word) (c : Cursor)
    (between : Nat) (movt : CsInsn) (value : Word) : Prop where
  comes : ∃ fuel, segments.constantText session.symbolMap fuel value = some (subroutineName value)
  printed : ∀ out : Output Char, session.isImport c.address = false →
    let s := (decompileLoop m session).pass^[between + 1] (out, c)
    let g := s.1.globals.resetAt session s.2.address
    (g.pseudoCode session movt s.2.address).1 =
      if g.ignoreMap s.2.address then []
      else '\t' :: (variableOf reg).toList ++ " = ".toList ++ subroutineName value ++ ";\n".toList

variable {segments : Segments} {reg lo hi : Word} {c : Cursor} {between : Nat} {movt : CsInsn}

theorem HalvesAt.showsName_iff (halves : HalvesAt m session reg lo hi c between movt)
    (hosted : Hosted segments m session)
    (recovers : Recovers m session c between movt (hi <<< 16 ||| lo)) {s : Symbols}
    (left : LeftFrom m ((analyseSymbolsLoop m false).pass^[between + 2] (s, c)) session.symbolMap)
    (registers : Registers m ((analyseSymbolsLoop m false).pass^[between + 1] (s, c)).1 movt) :
    ShowsName segments m session reg c between movt (hi <<< 16 ||| lo) ↔
      hi <<< 16 ||| lo ≠ m.textAddr ∧ segments.LeadsToNoString (hi <<< 16 ||| lo) := by
  have joined := recovers.symbols s
  generalize hi <<< 16 ||| lo = value at recovers joined ⊢
  have inText := registers.inText halves.loadsHigh.mnemonic
  rw [joined] at inText
  obtain ⟨inText, letters⟩ := inText
  have found : ∃ entry, session.symbolMap (subroutineAt value) = some entry ∧
      entry.type = symbolSubroutine ∧ entry.name = subroutineName value := by
    have cursor := analyseSymbols_behind m s c (between + 1)
    have made := registers.2
    rw [Function.iterate_succ_apply'] at left
    generalize (analyseSymbolsLoop m false).pass^[between + 1] (s, c) = t at *
    apply left.holds
    have run : (analyseSymbolsPass m false t.1 t.2).1 = t.1.firstRun m movt := by
      simp only [analyseSymbolsPass, cursor, Module.disassemble, halves.high, Bool.not_false,
        if_true]
    change Holds (analyseSymbolsPass m false t.1 t.2).1.symbolMap _ _ _
    rw [run]
    rw [joined] at made
    exact ⟨_, made, rfl, rfl⟩
  obtain ⟨entry, found, subroutine, name⟩ := found
  have quiet := subroutineName_letters value
  have comes : (∃ fuel, segments.constantText session.symbolMap fuel value =
      some (subroutineName value)) ↔
        value ≠ m.textAddr ∧ segments.LeadsToNoString value := by
    rw [← name, hosted.textAddr]
    apply segments.constantText_iff _ _ found
    · rw [SymbolEntry.is, subroutine]
      decide
    · rw [name]
      simp [subroutineName, Symbols.addressName]
    · rw [name]
      exact fun member => (quiet _ member).2.2.2.2 rfl
    · rw [name]
      exact ⟨'s', _, rfl, by decide⟩
    · rwa [← hosted.textAddr, ← hosted.textSize]
    · rwa [← hosted.isascii4 value inText]
  rw [← comes]
  refine ⟨ShowsName.comes, fun printed => ⟨printed, fun out code => ?_⟩⟩
  obtain ⟨fuel, printed⟩ := printed
  have text := hosted.constantText fuel value _ printed
  have letters : ∀ c ∈ session.constantText value, c ≠ 'y' ∧ c ≠ '.' ∧ c ≠ '\\' ∧ c ≠ '(' := by
    rw [text]
    exact fun c member => ⟨(quiet c member).1, (quiet c member).2.1, (quiet c member).2.2.1,
      (quiet c member).2.2.2.1⟩
  have shown := pseudoCode_constant
    ((decompileLoop m session).pass^[between + 1] (out, c)).2.address
    (recovers.decompiled out code).2 letters
  rwa [text, halves.loadsHigh.immediate.reg] at shown

-- movw r0, #lo
def movwInsn (lo : Word) : CsInsn :=
  ⟨"movw".toList, [], 4, false, false, 2, fun i =>
    if i = 0 then operand .reg ArmReg.r0 else operand .imm lo⟩

-- movt r0, #0x8100
def movtInsn : CsInsn :=
  ⟨"movt".toList, [], 4, false, false, 2, fun i =>
    if i = 0 then operand .reg ArmReg.r0 else operand .imm 0x8100⟩

def halvesSegments : Segments :=
  { Segments.selfPointing with memory := fun a => if a = 0x1010 then 0x10 else 0 }

def halvesIter (lo : Word) (c : Cursor) : Option CsInsn :=
  if c.address = 0x81000000 ∧ 4 ≤ c.size.toNat then some (movwInsn lo)
  else if c.address = 0x81000004 ∧ 4 ≤ c.size.toNat then some movtInsn
  else none

def halvesModule (lo : Word) : Module where
  textAddr := halvesSegments.text.addr
  textSize := halvesSegments.text.size
  modInfoOffset := 0x20
  disasm :=
    { iter := halvesIter lo
      consumes := by
        intro c insn decoded
        rw [halvesIter] at decoded
        split_ifs at decoded <;> cases decoded <;> exact .inr rfl
      remains := by
        intro c insn decoded
        rw [halvesIter] at decoded
        split_ifs at decoded with low high
        · cases decoded
          exact low.2
        · cases decoded
          exact high.2 }
  isascii4 value := halvesSegments.isascii4 (halvesSegments.text.place value)
  stringAt _ := []

def halvesStart : Cursor := ⟨0x20, 0x81000000⟩

def halvesBehind : Cursor := ⟨0x1C, 0x81000004⟩

def halvesRun (lo : Word) (passes : Nat) : Symbols × Cursor :=
  (analyseSymbolsLoop (halvesModule lo) false).pass^[passes]
    (⟨fun _ => none, fun _ => 0⟩, halvesStart)

def halvesSymbols (lo : Word) : SymbolMap :=
  analyseArgumentsEnd (analyseSymbolsEnd (halvesModule lo) true (halvesRun lo 2).1).symbolMap

theorem halves_left (lo : Word) : LeftFrom (halvesModule lo) (halvesRun lo 2)
    (halvesSegments.session (halvesSymbols lo)).symbolMap := by
  rw [Segments.session_symbolMap, halvesSymbols]
  generalize halvesRun lo 2 = first
  exact ⟨first, (first.1, (halvesModule lo).start), _, .start, .start, .start, rfl⟩

theorem halves_hosted (lo : Word) (symbolMap : SymbolMap) :
    Hosted halvesSegments (halvesModule lo) (halvesSegments.session symbolMap) where
  textAddr := rfl
  textSize := rfl
  isascii4 _ _ := by rw [halvesModule]
  constantText _ _ _ := halvesSegments.session_constantText

theorem halves_movw (lo : Word) :
    (halvesModule lo).disasm.iter halvesStart = some (movwInsn lo) := by
  change halvesIter lo halvesStart = _
  rw [halvesIter, if_pos (by decide)]

theorem halves_movt (lo : Word) : (halvesModule lo).disasm.iter halvesBehind = some movtInsn := by
  change halvesIter lo halvesBehind = _
  rw [halvesIter, if_neg (by decide), if_pos (by decide)]

theorem halves_behind (lo : Word) : (halvesModule lo).behind 1 halvesStart = halvesBehind := by
  rw [Module.behind, Function.iterate_one, Module.disassemble, halves_movw]
  exact (by decide : halvesStart.advance 4 = halvesBehind)

theorem halves_at {lo : Word} (half : lo.toNat < 2 ^ 16)
    (free : (halvesSymbols lo 0x81000004).isNone = true) :
    HalvesAt (halvesModule lo) (halvesSegments.session (halvesSymbols lo)) ArmReg.r0 lo 0x8100
      halvesStart 0 movtInsn where
  known := by decide
  lowHalf := half
  highHalf := by decide
  low := ⟨movwInsn lo, halves_movw lo, ⟨.inl (by decide : mnemonicOf (movwInsn 0) = _),
    ⟨rfl, rfl, rfl, rfl, rfl⟩⟩, rfl⟩
  high := by rw [halves_behind, halves_movt]
  loadsHigh := ⟨by decide, ⟨rfl, rfl, rfl, rfl, rfl⟩⟩
  keeps k inside := absurd inside (Nat.not_lt_zero k)
  untargeted := by
    intro k inside symbol found
    obtain rfl : k = 0 := Nat.le_zero.mp inside
    rw [halves_behind] at found
    change halvesSymbols lo 0x81000004 = some symbol at found
    rw [found] at free
    cases free

/-- The two recoveries agree exactly when the `movt` is unconditional, no symbol stands before it,
and a constant that becomes a subroutine is not the first address and leads to no string. -/
theorem recoveries_agree_iff (halves : HalvesAt m session reg lo hi c between movt)
    (hosted : Hosted segments m session) (s : Symbols)
    (left : LeftFrom m ((analyseSymbolsLoop m false).pass^[between + 2] (s, c))
      session.symbolMap) :
    (Recovers m session c between movt (hi <<< 16 ||| lo) ∧
        (Registers m ((analyseSymbolsLoop m false).pass^[between + 1] (s, c)).1 movt →
          ShowsName segments m session reg c between movt (hi <<< 16 ||| lo))) ↔
      (movt.conditional = false ∧ SymbolFree m session c between) ∧
        (Registers m ((analyseSymbolsLoop m false).pass^[between + 1] (s, c)).1 movt →
          hi <<< 16 ||| lo ≠ m.textAddr ∧ segments.LeadsToNoString (hi <<< 16 ||| lo)) := by
  rw [← halves.recovers_iff]
  constructor
  · rintro ⟨recovers, shows⟩
    exact ⟨recovers, fun registers =>
      (halves.showsName_iff hosted recovers left registers).mp (shows registers)⟩
  · rintro ⟨recovers, leads⟩
    exact ⟨recovers, fun registers =>
      (halves.showsName_iff hosted recovers left registers).mpr (leads registers)⟩

-- A pair for `0x81000010`.
theorem recoveries_agree_inside :
    let session := halvesSegments.session (halvesSymbols 0x10)
    Recovers (halvesModule 0x10) session halvesStart 0 movtInsn 0x81000010 ∧
      (Registers (halvesModule 0x10) (halvesRun 0x10 1).1 movtInsn →
        ShowsName halvesSegments (halvesModule 0x10) session ArmReg.r0 halvesStart 0 movtInsn
          0x81000010) := by
  have free : (halvesSymbols 0x10 0x81000004).isNone = true := by decide +kernel
  refine (recoveries_agree_iff (halves_at (by decide) free) (halves_hosted 0x10 _) _
    (halves_left 0x10)).mpr ⟨⟨rfl, fun k inside => ?_⟩, fun _ => ⟨by decide, ?_⟩⟩
  · obtain rfl : k = 0 := Nat.le_zero.mp inside
    rw [halves_behind]
    exact Option.isNone_iff_eq_none.mp free
  · exact ⟨2, some 0x1010, by decide +kernel, by decide +kernel⟩

theorem start_registers : Registers (halvesModule 0) (halvesRun 0 1).1 movtInsn := by
  have constant : (halvesRun 0 1).1.constant movtInsn = 0x81000000 := by decide +kernel
  rw [Registers, constant]
  exact ⟨rfl, rfl⟩

-- A pair for the first address of the text segment.
theorem start_not_named :
    let session := halvesSegments.session (halvesSymbols 0)
    HalvesAt (halvesModule 0) session ArmReg.r0 0 0x8100 halvesStart 0 movtInsn ∧
      Hosted halvesSegments (halvesModule 0) session ∧
      LeftFrom (halvesModule 0) (halvesRun 0 2) session.symbolMap ∧
      Registers (halvesModule 0) (halvesRun 0 1).1 movtInsn ∧
      ¬ ShowsName halvesSegments (halvesModule 0) session ArmReg.r0 halvesStart 0 movtInsn
        0x81000000 := by
  refine ⟨halves_at (by decide) (by decide +kernel), halves_hosted 0 _, halves_left 0,
    start_registers, fun shows => ?_⟩
  obtain ⟨fuel, comes⟩ := shows.comes
  obtain ⟨rest, comment⟩ := halvesSegments.constantText_outside (by decide) comes
  have letter : subroutineName 0x81000000 = 's' :: _ := rfl
  rw [letter] at comment
  exact absurd (List.cons.inj comment).1 (by decide)

end VitaTools.Passes
