import VitaTools.Passes.Hidden

set_option autoImplicit false

namespace VitaTools.Passes

open VitaTools.Library VitaTools.Library.Traced
open VitaTools.Decompiler (Text Word)

section

variable {name : String} (letters : ∀ c ∈ name.toList, c.isAlphanum = true ∧ c ≠ 'o')
variable {sure : Bool} {insn : CsInsn} {i : Nat} {code : List Glyph} {g : Globals Glyph}
include letters

omit letters in
theorem assignment_plain {text : Text} (equals : [' ', '=', ' '].isPrefixOf text = true) :
    Assignment name (named name ++ plain text) [] (plain text) := by
  obtain ⟨body, rfl⟩ := List.isPrefixOf_iff_prefix.mp equals
  exact ⟨rfl, by simp, _, _, _, plain body, rfl, rfl, rfl, rfl⟩

theorem kept_of_assignment {tabs value : List Glyph} (parts : Assignment name code tabs value)
    (quiet : mentions name value = false) : Kept name sure code := by
  apply kept_of_valueOf letters
  rwa [(parts.valueOf_eq fun c member => (letters c member).1).2]

theorem kept_of_quiet (quiet : mentions name code = false) : Kept name sure code :=
  kept_of_valueOf letters (valueOf_quiet quiet)

theorem named_kept (other : String) {text : Text}
    (equals : [' ', '=', ' '].isPrefixOf text = true) :
    Kept name sure (named other ++ plain text) := by
  by_cases same : other = name
  next =>
    subst same
    exact kept_of_assignment letters (assignment_plain equals) (mentions_plain _)
  next =>
    apply kept_of_quiet letters
    rw [mentions_append, mentions_named same, mentions_plain]
    rfl

theorem template_kept {text : Text} (rest : Text)
    (assigns : "a1".toList.isPrefixOf text = true →
      [' ', '=', ' '].isPrefixOf (text.drop 2) = true) :
    Kept name sure (template text ++ plain rest) := by
  rw [template]
  split
  next call =>
    rw [List.append_assoc, ← plain_append]
    apply named_kept letters
    exact List.isPrefixOf_iff_prefix.mpr
      ((List.isPrefixOf_iff_prefix.mp (assigns call)).trans (List.prefix_append _ _))
  next =>
    apply kept_of_quiet letters
    rw [mentions_append, mentions_plain, mentions_plain]
    rfl

theorem getInstructionCode_kept (insn : CsInsn) (mnemonic : Text) :
    Kept name sure (getInstructionCode insn mnemonic) := by
  have rows : ∀ row ∈ instructions ++ instructions2, "a1".toList.isPrefixOf row.2.toList = true →
      [' ', '=', ' '].isPrefixOf (row.2.toList.drop 2) = true := by decide +kernel
  rw [getInstructionCode]
  cases found : instructions.lookup (String.ofList mnemonic) with
  | none => exact kept_of_quiet letters mentions_nil
  | some text =>
      have first := rows _ (List.mem_append_left instructions2 (mem_of_lookup found))
      apply template_kept letters
      split
      next =>
        cases shorter : instructions2.lookup (String.ofList mnemonic) with
        | none => exact first
        | some text => exact rows _ (List.mem_append_right instructions (mem_of_lookup shorter))
      next => exact first

theorem recordAssignment_kept (session : Session) (mnemonic : Text) (addr : Word)
    (either : Completes insn mnemonic code g ∨ Kept name sure code) :
    Kept name sure
      (Globals.recordAssignment session insn mnemonic addr false code g).1 := by
  rw [Globals.recordAssignment]
  split
  next assignment =>
    rw [Globals.assignRegister]
    dsimp only
    split
    next conditional =>
      rcases either with ⟨-, unconditional, -⟩ | kept
      · rw [conditional] at unconditional
        cases unconditional
      · exact kept
    next unconditional =>
      split
      next entry _ =>
        rw [List.append_assoc, List.append_assoc, ← plain_append, ← plain_append]
        exact named_kept letters _ rfl
      next low =>
        rcases either with ⟨movt, -, -, half⟩ | kept
        · rw [if_pos movt] at low
          rw [low] at half
          cases half
        · exact kept
  next other =>
    rcases either with ⟨-, -, assignment, -⟩ | kept
    · exact absurd assignment other
    · exact kept

omit letters in
theorem argText_quiet (hidden : ArgHidden name g i) :
    mentions name (Globals.argText false i g).1 = false ∧ (Globals.argText false i g).2 = g := by
  rw [ArgHidden] at hidden
  rw [Globals.argText]
  split
  next register =>
    rw [if_pos register] at hidden
    cases found : g.regAssignMap (ArmReg.r0 + BitVec.ofNat 32 i) with
    | none =>
        rw [found] at hidden
        exact ⟨mentions_named hidden, rfl⟩
    | some entry =>
        rw [found] at hidden
        exact ⟨hidden, rfl⟩
  next stack =>
    rw [if_neg stack] at hidden
    simp only [mentions_append, mentions_plain, mentions_named hidden, Bool.or_false, and_self]

omit letters in
theorem argsFrom_quiet (count : Nat) (hidden : ∀ k < i + count, ArgHidden name g k) :
    mentions name (Globals.argsFrom false count i g).1 = false := by
  induction count generalizing i with
  | zero => rfl
  | succ count ih =>
      obtain ⟨quiet, same⟩ := argText_quiet (hidden i (by omega))
      have later := ih (i := i + 1) fun k less => hidden k (by omega)
      simp only [Globals.argsFrom, mentions_append, mentions_plain, quiet, same, later,
        Bool.or_false]

theorem apart_of_char {search : List Char} {c : Char} (member : c ∈ search)
    (other : c.isAlphanum = false ∧ c ≠ '\t' ∨ c = 'o') (blank : ' ' ∉ search)
    (equals : '=' ∉ search) : Apart name search := by
  refine ⟨⟨c, member, fun inside => ?_, ?_⟩, blank, equals⟩
  · rcases other with ⟨symbol, -⟩ | rfl
    · rw [(letters c inside).1] at symbol
      cases symbol
    · exact (letters 'o' inside).2 rfl
  · rcases other with ⟨-, notTab⟩ | rfl
    · exact notTab
    · decide

theorem replaceSymbol_kept (session : Session) (hidden : ArgsHidden name session insn i code g)
    (kept : Kept name sure code) :
    Kept name sure (Globals.replaceSymbol session insn false i code g).1 := by
  have symbolApart : Apart name "symbol".toList :=
    apart_of_char letters (show 'o' ∈ "symbol".toList by decide) (.inr rfl) (by decide) (by decide)
  have dotsApart : Apart name "...".toList :=
    apart_of_char letters (show '.' ∈ "...".toList by decide) (.inl (by decide)) (by decide)
      (by decide)
  have put (text : Text) : Kept name sure (replaceAll code "symbol".toList (plain text)) :=
    kept_replaceAll letters symbolApart (by decide) (mentions_plain _) kept
  rw [Globals.replaceSymbol]
  split
  next symbol found =>
    split
    next named =>
      dsimp only
      split
      next subroutine =>
        by_cases dots : occurs "...".toList
            (spell (replaceAll code "symbol".toList (plain symbol.name : List Glyph))) = true
        next =>
          have args := argsFrom_quiet (i := 0) (min symbol.nArgs 11) fun k less =>
            hidden symbol found named subroutine dots k (by omega)
          refine kept_replaceAll letters dotsApart (by decide) ?_ (put symbol.name)
          exact mentions_of_subset (fun x member => List.mem_of_mem_take member) args
        next =>
          rw [replaceAll_of_not_occurs (Bool.eq_false_of_not_eq_true dots)]
          exact put symbol.name
      next => exact put symbol.name
    next => exact kept
  next =>
    dsimp only
    split
    next => exact put insn.opStr
    next => exact kept

omit letters in
theorem breakLines_cut {indent : Text} (tabs : ∀ c ∈ indent, c = '\t') (front back : List Glyph)
    {x : Glyph} (backslash : x.letter = '\\') :
    Globals.breakLines indent (front ++ x :: back) =
      Globals.breakLines indent front ++
        Alphabet.write none '\n' :: (plain indent ++ Globals.breakLines indent back) := by
  have apart : ∀ y ∈ (plain indent : List Glyph), Alphabet.char y ∉ "()n".toList := by
    intro y member
    obtain ⟨c, inIndent, rfl⟩ := List.mem_map.mp member
    rw [Alphabet.char_write, tabs c inIndent]
    decide
  have first : replaceAll (x :: back) ['\\'] (plain ('\n' :: indent)) =
      plain ('\n' :: indent) ++ replaceAll back ['\\'] (plain ('\n' :: indent)) := by
    rw [show x :: back = [x] ++ back from rfl]
    exact replaceAll_hit (by rw [← backslash]; rfl) (by decide) back
  rw [Globals.breakLines, replaceAll_char_append, first,
    show (plain ('\n' :: indent) : List Glyph) = Alphabet.write none '\n' :: plain indent from rfl,
    List.cons_append, replaceAll_cut (by decide) (by decide),
    replaceAll_behind (by decide) _ _ apart]
  rfl

theorem breakLines_kept {indent : Text} (tabs : ∀ c ∈ indent, c = '\t')
    (kept : Kept name sure code) :
    readsFirst name sure
      (divide '\n' (plain indent ++ Globals.breakLines indent code)) = false := by
  have alnum : ∀ c ∈ name.toList, c.isAlphanum = true := fun c member => (letters c member).1
  have backslashApart : Apart name ['\\'] :=
    apart_of_char letters List.mem_cons_self (.inl (by decide)) (by decide) (by decide)
  have parensApart : Apart name "()n".toList :=
    apart_of_char letters (show '(' ∈ "()n".toList by decide) (.inl (by decide)) (by decide)
      (by decide)
  have indentTabs : ∀ x ∈ (plain indent : List Glyph), x.letter = '\t' := by
    intro x member
    obtain ⟨c, inIndent, rfl⟩ := List.mem_map.mp member
    exact tabs c inIndent
  apply readsFirst_rewrite alnum (separator_newline letters)
    (fun code => plain indent ++ Globals.breakLines indent code)
    (fun lines => readsFirst name sure lines = false) _ _ kept
  · intro front x back backslash
    refine ⟨Alphabet.write none '\n', rfl, ?_⟩
    rw [breakLines_cut tabs front back backslash, List.append_assoc]
  · intro line rest fit
    obtain ⟨first, later⟩ := readsFirst_cons.mp fit
    obtain ⟨broken, assigns₁⟩ := replaceAll_keeps alnum backslashApart
      (mentions_plain ('\n' :: indent)) first
    obtain ⟨escaped, assigns₂⟩ := replaceAll_keeps alnum parensApart
      (mentions_plain "\\n".toList) broken
    obtain ⟨indented, assigns₃⟩ := indent_keeps alnum indentTabs escaped (mentions_plain indent)
    exact ⟨indented, later.imp_left fun ⟨sure, assigned⟩ =>
      ⟨sure, assigns₃ (assigns₂ (assigns₁ assigned))⟩⟩

omit letters in
theorem untranslated_quiet {mnemonic : Text} (hidden : Returns insn mnemonic → "a1" ≠ name) :
    mentions name (Globals.untranslated insn mnemonic) = false := by
  rw [Globals.untranslated]
  split
  next returns =>
    rw [mentions_append, mentions_append, mentions_plain, mentions_plain,
      mentions_named (hidden (.inl returns))]
    rfl
  next =>
    split
    next pop =>
      rw [mentions_append, mentions_append, mentions_plain, mentions_plain,
        mentions_named (hidden (.inr pop))]
      rfl
    next =>
      split
      · exact mentions_plain _
      · split
        · rfl
        · exact mentions_plain _

theorem statement_kept {line indent : Text} (whole : line = [] ∨ ∃ text, line = text ++ ['\n'])
    (tabs : ∀ c ∈ indent, c = '\t') (kept : Kept name sure code) :
    readsFirst name sure (divide '\n'
      (plain line ++ plain indent ++ Globals.breakLines indent code ++ plain ['\n'])) = false := by
  have ended : readsFirst name sure (divide '\n'
      ((plain indent ++ Globals.breakLines indent code) ++ plain ['\n'])) = false := by
    rw [show (plain ['\n'] : List Glyph) = [Alphabet.write none '\n'] from rfl,
      divide_append _ _ (show (Alphabet.write none '\n' : Glyph).letter = '\n' from rfl)]
    exact readsFirst_append_quiet (breakLines_kept letters tabs kept)
      fun line member => mentions_divide mentions_nil member
  rcases whole with rfl | ⟨text, rfl⟩
  · exact ended
  · rw [plain_append, List.append_assoc, List.append_assoc, List.append_assoc,
      show (plain ['\n'] : List Glyph) = [Alphabet.write none '\n'] from rfl,
      List.singleton_append,
      divide_append _ _ (show (Alphabet.write none '\n' : Glyph).letter = '\n' from rfl)]
    rw [List.append_assoc] at ended
    exact readsFirst_quiet_append (fun line member => mentions_divide (mentions_plain text) member)
      ended

omit letters in
theorem heading_lines (condition : Option Condition) :
    ((Globals.heading condition).2 = [] ∨ ∃ text, (Globals.heading condition).2 = text ++ ['\n']) ∧
      ∀ c ∈ (Globals.heading condition).1, c = '\t' := by
  cases condition with
  | none => exact ⟨.inl rfl, by simp [Globals.heading]⟩
  | some condition => exact ⟨.inr ⟨_, rfl⟩, by simp [Globals.heading]⟩

theorem translateCode_kept (session : Session) (addr : Word)
    (shown : g.ignoreMap addr = false)
    (code : (getInstructionCode insn (trimMnemonic insn).1 : List Glyph).isEmpty = false)
    (hidden : Hidden name session insn addr g) :
    Kept name (trimMnemonic insn).2.isNone
      (Globals.translateCode session insn (trimMnemonic insn).1 addr
        (getInstructionCode insn (trimMnemonic insn).1) false g).1 := by
  simp only [Hidden, code, Bool.false_eq_true, if_false] at hidden
  obtain ⟨operands, first, second⟩ := hidden shown
  apply replaceSymbol_kept letters session second
  apply replaceSymbol_kept letters session first
  apply recordAssignment_kept letters
  exact operands.imp_right fun operands =>
    parseFrom_kept letters _ operands (getInstructionCode_kept letters insn _)

theorem pseudoCode_hidden (session : Session) (addr : Word)
    (hidden : Hidden name session insn addr g) :
    readsFirst name (trimMnemonic insn).2.isNone
      (divide '\n' (g.pseudoCode session insn addr).1) = false := by
  have alnum : ∀ c ∈ name.toList, c.isAlphanum = true := fun c member => (letters c member).1
  have quiet {text : List Glyph} (quiet : mentions name text = false) :
      readsFirst name (trimMnemonic insn).2.isNone (divide '\n' text) = false :=
    readsFirst_divide alnum (separator_newline letters) (valueOf_quiet quiet)
  rw [Globals.pseudoCode]
  dsimp only
  split
  next empty =>
    simp only [Hidden, empty, if_true] at hidden
    exact quiet (untranslated_quiet hidden)
  next code =>
    rw [Globals.translateCode_ignoreMap]
    split
    next => exact quiet (mentions_plain _)
    next shown =>
      have kept := translateCode_kept letters session addr (Bool.eq_false_of_not_eq_true shown)
        (Bool.eq_false_of_not_eq_true code) hidden
      exact statement_kept letters (heading_lines _).1 (heading_lines _).2 kept

end

end VitaTools.Passes
