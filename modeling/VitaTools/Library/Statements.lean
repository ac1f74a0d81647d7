import VitaTools.Library.Traced
import Mathlib.Data.List.TakeWhile

set_option autoImplicit false

namespace VitaTools.Library.Traced

def mentions (name : String) (text : List Glyph) : Bool := text.any fun x => x.name == some name

def unindented (line : List Glyph) : List Glyph := line.dropWhile fun x => x.letter == '\t'

def assignsIn (name : String) (line : List Glyph) : Bool :=
  (named name).isPrefixOf (unindented line) &&
    [' ', '=', ' '].isPrefixOf (spell ((unindented line).drop name.toList.length))

def valueOf (name : String) (line : List Glyph) : List Glyph :=
  if assignsIn name line then (unindented line).drop name.toList.length else line

/-- A statement reads the variable and none before it has assigned it. An assignment counts only
when the statements are `sure` to be executed. -/
def readsFirst (name : String) (sure : Bool) : List (List Glyph) → Bool
  | [] => false
  | line :: rest =>
      mentions name (valueOf name line) ||
        (!(sure && assignsIn name line) && readsFirst name sure rest)

def assignsOnly (sure : Bool) (word : List Char) : List (List Glyph) → Bool
  | [] => true
  | line :: rest =>
      if (word ++ [' ', '=', ' ']).isPrefixOf (spell line) then
        !occurs word ((spell line).drop word.length) && (sure || assignsOnly sure word rest)
      else !occurs word (spell line) && assignsOnly sure word rest

def divide (separator : Char) (text : List Glyph) : List (List Glyph) :=
  text.splitOnP fun x => x.letter == separator

variable {name : String}

theorem mentions_of_subset {text part : List Glyph} (subset : ∀ x ∈ part, x ∈ text)
    (quiet : mentions name text = false) : mentions name part = false := by
  simp only [mentions, List.any_eq_false] at quiet ⊢
  exact fun x member => quiet x (subset x member)

@[simp] theorem mentions_nil : mentions name [] = false := rfl

@[simp] theorem mentions_cons (x : Glyph) (rest : List Glyph) :
    mentions name (x :: rest) = (x.name == some name || mentions name rest) := List.any_cons

@[simp] theorem mentions_append (front back : List Glyph) :
    mentions name (front ++ back) = (mentions name front || mentions name back) := List.any_append

@[simp] theorem mentions_plain (text : List Char) : mentions name (plain text) = false := by
  simp [mentions, plain, Alphabet.write]

theorem mentions_named {other : String} (different : other ≠ name) :
    mentions name (named other) = false := by
  simp [mentions, named, Alphabet.write, different]

theorem mentions_replaceAll {subject replacement : List Glyph} {search : List Char}
    (quiet : mentions name subject = false) (inserted : mentions name replacement = false) :
    mentions name (replaceAll subject search replacement) = false := by
  have both : mentions name (subject ++ replacement) = false := by
    rw [mentions_append, quiet, inserted, Bool.or_false]
  exact mentions_of_subset (fun x member => List.mem_append.mpr (mem_replaceAll member)) both

theorem mentions_divide {separator : Char} {text line : List Glyph}
    (quiet : mentions name text = false) (member : line ∈ divide separator text) :
    mentions name line = false := by
  induction text generalizing line with
  | nil =>
      obtain rfl : line = [] := List.mem_singleton.mp member
      rfl
  | cons x rest ih =>
      rw [mentions_cons, Bool.or_eq_false_iff] at quiet
      rw [divide, List.splitOnP_cons_eq_if_modifyHead] at member
      split at member
      next =>
        rcases List.mem_cons.mp member with rfl | later
        · rfl
        · exact ih quiet.2 later
      next =>
        change line ∈ (divide separator rest).modifyHead (x :: ·) at member
        rcases lines : divide separator rest with _ | ⟨first, others⟩
        · rw [lines] at member
          cases member
        · rw [lines, List.modifyHead_cons] at member
          rcases List.mem_cons.mp member with rfl | later
          · rw [mentions_cons, quiet.1, Bool.false_or]
            exact ih quiet.2 (lines ▸ List.mem_cons_self)
          · exact ih quiet.2 (lines ▸ List.mem_cons_of_mem _ later)

structure Assignment (name : String) (line tabs value : List Glyph) : Prop where
  whole : line = tabs ++ (named name ++ value)
  tabs : ∀ x ∈ tabs, x.letter = '\t'
  equals : ∃ x y z body, value = x :: y :: z :: body ∧
    x.letter = ' ' ∧ y.letter = '=' ∧ z.letter = ' '

theorem Assignment.of_assignsIn {line : List Glyph} (assigns : assignsIn name line = true) :
    ∃ tabs, Assignment name line tabs (valueOf name line) := by
  have value : valueOf name line = (unindented line).drop name.toList.length := if_pos assigns
  rw [assignsIn, Bool.and_eq_true, ← value] at assigns
  obtain ⟨rest, whole⟩ := List.isPrefixOf_iff_prefix.mp assigns.1
  have same : rest = valueOf name line := by
    have length : (named name : List Glyph).length = name.toList.length := List.length_map _
    rw [value, ← whole, ← length, List.drop_left]
  refine ⟨line.takeWhile fun x => x.letter == '\t', ?_, ?_, ?_⟩
  · rw [← same, whole]
    exact List.takeWhile_append_dropWhile.symm
  · intro x member
    have tab := List.mem_takeWhile_imp member
    exact beq_iff_eq.mp tab
  · obtain ⟨after, spelled⟩ := List.isPrefixOf_iff_prefix.mp assigns.2
    generalize valueOf name line = value at spelled
    rcases value with _ | ⟨x, _ | ⟨y, _ | ⟨z, body⟩⟩⟩ <;> simp [spell] at spelled
    exact ⟨x, y, z, body, rfl, spelled.1.symm, spelled.2.1.symm, spelled.2.2.1.symm⟩

section

variable (letters : ∀ c ∈ name.toList, c.isAlphanum = true)
include letters

theorem Assignment.unindented_eq {line tabs value : List Glyph}
    (parts : Assignment name line tabs value) : unindented line = named name ++ value := by
  rw [unindented, parts.whole, List.dropWhile_append_of_pos fun x member =>
    beq_iff_eq.mpr (parts.tabs x member)]
  rcases spelled : name.toList with _ | ⟨c, rest⟩
  · obtain ⟨x, y, z, body, rfl, blank, -, -⟩ := parts.equals
    simp [named, spelled, blank]
  · have notTab : c ≠ '\t' := by
      rintro rfl
      exact absurd (letters '\t' (spelled ▸ List.mem_cons_self)) (by decide)
    simp [named, spelled, Alphabet.write, notTab]

theorem Assignment.valueOf_eq {line tabs value : List Glyph}
    (parts : Assignment name line tabs value) :
    assignsIn name line = true ∧ valueOf name line = value := by
  have rest : (unindented line).drop name.toList.length = value := by
    have length : (named name : List Glyph).length = name.toList.length := List.length_map _
    rw [parts.unindented_eq letters, ← length, List.drop_left]
  have assigns : assignsIn name line = true := by
    obtain ⟨x, y, z, body, rfl, blank, equals, space⟩ := parts.equals
    rw [assignsIn, rest, Bool.and_eq_true, parts.unindented_eq letters]
    constructor
    next => exact List.isPrefixOf_iff_prefix.mpr (List.prefix_append _ _)
    next => simp [spell, Alphabet.char, blank, equals, space]
  exact ⟨assigns, (if_pos assigns).trans rest⟩

end

variable {separator : Char}

theorem divide_cons (x : Glyph) (rest : List Glyph) :
    divide separator (x :: rest) =
      if x.letter = separator then [] :: divide separator rest
      else (divide separator rest).modifyHead (x :: ·) := by
  rw [divide, List.splitOnP_cons_eq_if_modifyHead]
  simp only [beq_iff_eq]
  rfl

theorem divide_append (front back : List Glyph) {x : Glyph} (separates : x.letter = separator) :
    divide separator (front ++ x :: back) = divide separator front ++ divide separator back :=
  List.splitOnP_append_cons front back (beq_iff_eq.mpr separates)

theorem divide_eq_cons {text line : List Glyph} {rest : List (List Glyph)}
    (lines : divide separator text = line :: rest) :
    (rest = [] ∧ text = line) ∨
      ∃ x back, x.letter = separator ∧ text = line ++ x :: back ∧ divide separator back = rest := by
  induction text generalizing line rest with
  | nil => cases lines; exact .inl ⟨rfl, rfl⟩
  | cons x text ih =>
      rw [divide_cons] at lines
      split at lines
      next separates => cases lines; exact .inr ⟨x, text, separates, rfl, rfl⟩
      next =>
        rcases later : divide separator text with _ | ⟨first, others⟩
        · exact absurd later (List.splitOnP_ne_nil _ _)
        · rw [later, List.modifyHead_cons] at lines
          cases lines
          rcases ih later with ⟨ends, whole⟩ | ⟨y, back, separates, whole, behind⟩
          · exact .inl ⟨ends, congrArg (x :: ·) whole⟩
          · exact .inr ⟨y, back, separates, congrArg (x :: ·) whole, behind⟩

theorem divide_behind (front back : List Glyph) (clear : ∀ x ∈ front, x.letter ≠ separator) :
    divide separator (front ++ back) = (divide separator back).modifyHead (front ++ ·) := by
  induction front with
  | nil => exact (congrFun List.modifyHead_id _).symm
  | cons x front ih =>
      rw [List.cons_append, divide_cons, if_neg (clear x List.mem_cons_self),
        ih fun y member => clear y (List.mem_cons_of_mem x member), List.modifyHead_modifyHead]
      rfl

variable {sure : Bool}

theorem readsFirst_cons {line : List Glyph} {rest : List (List Glyph)} :
    readsFirst name sure (line :: rest) = false ↔
      mentions name (valueOf name line) = false ∧
        (sure = true ∧ assignsIn name line = true ∨ readsFirst name sure rest = false) := by
  rw [readsFirst, Bool.or_eq_false_iff]
  cases sure <;> cases assignsIn name line <;> simp

theorem valueOf_quiet {line : List Glyph} (quiet : mentions name line = false) :
    mentions name (valueOf name line) = false := by
  rw [valueOf]
  split
  next =>
    exact mentions_of_subset
      (fun x member => (List.dropWhile_suffix _).subset (List.mem_of_mem_drop member)) quiet
  next => exact quiet

theorem readsFirst_quiet_append {front more : List (List Glyph)}
    (quiet : ∀ line ∈ front, mentions name line = false)
    (later : readsFirst name sure more = false) : readsFirst name sure (front ++ more) = false := by
  induction front with
  | nil => exact later
  | cons line front ih =>
      exact readsFirst_cons.mpr ⟨valueOf_quiet (quiet line List.mem_cons_self),
        .inr (ih fun other member => quiet other (List.mem_cons_of_mem line member))⟩

structure Apart (name : String) (search : List Char) : Prop where
  hidden : ∃ c ∈ search, c ∉ name.toList ∧ c ≠ '\t'
  blank : ' ' ∉ search
  equals : '=' ∉ search

theorem Apart.nonempty {search : List Char} (apart : Apart name search) : search ≠ [] := by
  obtain ⟨c, member, -⟩ := apart.hidden
  exact List.ne_nil_of_mem member

theorem Apart.absent {search : List Char} (apart : Apart name search) {tabs : List Glyph}
    (allTabs : ∀ x ∈ tabs, x.letter = '\t') :
    ∃ c ∈ search, c ∉ spell (tabs ++ named name) := by
  obtain ⟨c, member, notLetter, notTab⟩ := apart.hidden
  refine ⟨c, member, fun inside => ?_⟩
  rw [spell_append, spell_named] at inside
  rcases List.mem_append.mp inside with tab | letter
  · obtain ⟨x, inTabs, rfl⟩ := List.mem_map.mp tab
    exact notTab (allTabs x inTabs)
  · exact notLetter letter

theorem Assignment.replaced {search : List Char} (apart : Apart name search)
    {line tabs value : List Glyph} (parts : Assignment name line tabs value)
    (replacement : List Glyph) :
    Assignment name (replaceAll line search replacement) tabs
      (replaceAll value search replacement) := by
  obtain ⟨x, y, z, body, rfl, blank, equals, space⟩ := parts.equals
  obtain ⟨c, member, absent⟩ := apart.absent parts.tabs
  have apartX : Alphabet.char x ∉ search := fun inside => apart.blank (blank ▸ inside)
  have apartY : Alphabet.char y ∉ search := fun inside => apart.equals (equals ▸ inside)
  have apartZ : Alphabet.char z ∉ search := fun inside => apart.blank (space ▸ inside)
  have value : replaceAll (x :: y :: z :: body) search replacement =
      x :: y :: z :: replaceAll body search replacement := by
    rw [replaceAll_cons apartX apart.nonempty, replaceAll_cons apartY apart.nonempty,
      replaceAll_cons apartZ apart.nonempty]
  refine ⟨?_, parts.tabs, x, y, z, _, value, blank, equals, space⟩
  rw [parts.whole, ← List.append_assoc, replaceAll_cut apartX apart.nonempty,
    replaceAll_of_absent member absent, ← replaceAll_cons apartX apart.nonempty,
    List.append_assoc]

theorem readsFirst_append_quiet {front more : List (List Glyph)}
    (first : readsFirst name sure front = false)
    (quiet : ∀ line ∈ more, mentions name line = false) :
    readsFirst name sure (front ++ more) = false := by
  induction front with
  | nil =>
      rw [List.nil_append, ← List.append_nil more]
      exact readsFirst_quiet_append quiet rfl
  | cons line front ih =>
      obtain ⟨kept, later⟩ := readsFirst_cons.mp first
      exact readsFirst_cons.mpr ⟨kept, later.imp_right ih⟩

structure Separator (name : String) (separator : Char) : Prop where
  tab : separator ≠ '\t'
  blank : separator ≠ ' '
  equals : separator ≠ '='
  letter : separator ∉ name.toList

section

variable (letters : ∀ c ∈ name.toList, c.isAlphanum = true)
include letters

theorem divide_assignment (separates : Separator name separator) {line : List Glyph}
    (assigns : assignsIn name line = true) (kept : mentions name (valueOf name line) = false) :
    ∃ first others, divide separator line = first :: others ∧ assignsIn name first = true ∧
      mentions name (valueOf name first) = false ∧
        ∀ other ∈ others, mentions name other = false := by
  obtain ⟨tabs, parts⟩ := Assignment.of_assignsIn assigns
  obtain ⟨x, y, z, body, value, blank, equals, space⟩ := parts.equals
  have quiet : mentions name [x, y, z] = false ∧ mentions name body = false := by
    rw [value, show x :: y :: z :: body = [x, y, z] ++ body from rfl, mentions_append,
      Bool.or_eq_false_iff] at kept
    exact kept
  have clear : ∀ u ∈ tabs ++ (named name ++ [x, y, z]), u.letter ≠ separator := by
    intro u member
    rcases List.mem_append.mp member with tab | member
    · rw [parts.tabs u tab]
      exact separates.tab.symm
    · rcases List.mem_append.mp member with letter | member
      · obtain ⟨c, inName, rfl⟩ := List.mem_map.mp letter
        exact fun same => separates.letter (same ▸ inName)
      · simp only [List.mem_cons, List.not_mem_nil, or_false] at member
        rcases member with rfl | rfl | rfl
        · exact blank ▸ separates.blank.symm
        · exact equals ▸ separates.equals.symm
        · exact space ▸ separates.blank.symm
  have whole : line = (tabs ++ (named name ++ [x, y, z])) ++ body := by
    rw [parts.whole, value]
    simp
  rcases lines : divide separator body with _ | ⟨first, others⟩
  · exact absurd lines (List.splitOnP_ne_nil _ _)
  · have inside : ∀ part ∈ first :: others, mentions name part = false :=
      fun part member => mentions_divide quiet.2 (lines ▸ member)
    have begun : Assignment name ((tabs ++ (named name ++ [x, y, z])) ++ first) tabs
        ([x, y, z] ++ first) :=
      ⟨by simp, parts.tabs, x, y, z, first, rfl, blank, equals, space⟩
    obtain ⟨assignsFirst, valueFirst⟩ := begun.valueOf_eq letters
    refine ⟨_, others, ?_, assignsFirst, ?_, ?_⟩
    · rw [whole, divide_behind _ _ clear, lines, List.modifyHead_cons]
    · rw [valueFirst, mentions_append, quiet.1, inside first List.mem_cons_self]
      rfl
    · exact fun other member => inside other (List.mem_cons_of_mem first member)

theorem readsFirst_divide_append (separates : Separator name separator) {line : List Glyph}
    {more : List (List Glyph)} (kept : mentions name (valueOf name line) = false)
    (later : sure = true ∧ assignsIn name line = true ∨ readsFirst name sure more = false) :
    readsFirst name sure (divide separator line ++ more) = false := by
  by_cases assigns : assignsIn name line = true
  next =>
    obtain ⟨first, others, lines, assignsFirst, keptFirst, quiet⟩ :=
      divide_assignment letters separates assigns kept
    rw [lines, List.cons_append]
    refine readsFirst_cons.mpr ⟨keptFirst, ?_⟩
    rcases later with ⟨sure, -⟩ | later
    · exact .inl ⟨sure, assignsFirst⟩
    · exact .inr (readsFirst_quiet_append quiet later)
  next =>
    rw [valueOf, if_neg assigns] at kept
    rcases later with ⟨-, assigned⟩ | later
    · exact absurd assigned assigns
    · exact readsFirst_quiet_append (fun part member => mentions_divide kept member) later

theorem readsFirst_divide (separates : Separator name separator) {line : List Glyph}
    (kept : mentions name (valueOf name line) = false) :
    readsFirst name sure (divide separator line) = false := by
  rw [← List.append_nil (divide separator line)]
  exact readsFirst_divide_append letters separates kept (.inr rfl)

theorem readsFirst_rewrite {after : Char} (separates : Separator name after)
    (rewrite : List Glyph → List Glyph) (Fit : List (List Glyph) → Prop)
    (cut : ∀ front x back, x.letter = separator →
      ∃ y : Glyph, y.letter = after ∧
        rewrite (front ++ x :: back) = rewrite front ++ y :: rewrite back)
    (step : ∀ line rest, Fit (line :: rest) → mentions name (valueOf name (rewrite line)) = false ∧
      (sure = true ∧ assignsIn name (rewrite line) = true ∨ Fit rest))
    {text : List Glyph} (fit : Fit (divide separator text)) :
    readsFirst name sure (divide after (rewrite text)) = false := by
  rcases lines : divide separator text with _ | ⟨line, rest⟩
  · exact absurd lines (List.splitOnP_ne_nil _ _)
  rw [lines] at fit
  induction rest generalizing text line with
  | nil =>
      obtain ⟨kept, -⟩ := step line [] fit
      rcases divide_eq_cons lines with ⟨-, rfl⟩ | ⟨x, back, -, -, none⟩
      · exact readsFirst_divide letters separates kept
      · exact absurd none (List.splitOnP_ne_nil _ _)
  | cons next rest ih =>
      obtain ⟨kept, later⟩ := step line (next :: rest) fit
      rcases divide_eq_cons lines with ⟨ends, -⟩ | ⟨x, back, separated, rfl, behind⟩
      · cases ends
      · obtain ⟨y, place, rewritten⟩ := cut line x back separated
        rw [rewritten, divide_append _ _ place]
        exact readsFirst_divide_append letters separates kept
          (later.imp_right fun fit => ih next fit behind)

theorem replaceAll_keeps {search : List Char} (apart : Apart name search)
    {line replacement : List Glyph} (inserted : mentions name replacement = false)
    (kept : mentions name (valueOf name line) = false) :
    mentions name (valueOf name (replaceAll line search replacement)) = false ∧
      (assignsIn name line = true →
        assignsIn name (replaceAll line search replacement) = true) := by
  by_cases assigns : assignsIn name line = true
  next =>
    obtain ⟨tabs, parts⟩ := Assignment.of_assignsIn assigns
    obtain ⟨still, value⟩ := (parts.replaced apart replacement).valueOf_eq letters
    rw [value]
    exact ⟨mentions_replaceAll kept inserted, fun _ => still⟩
  next =>
    rw [valueOf, if_neg assigns] at kept
    exact ⟨valueOf_quiet (mentions_replaceAll kept inserted),
      fun assigned => absurd assigned assigns⟩

theorem indent_keeps {indent line : List Glyph} (tabs : ∀ x ∈ indent, x.letter = '\t')
    (kept : mentions name (valueOf name line) = false)
    (quiet : mentions name indent = false) :
    mentions name (valueOf name (indent ++ line)) = false ∧
      (assignsIn name line = true → assignsIn name (indent ++ line) = true) := by
  by_cases assigns : assignsIn name line = true
  next =>
    obtain ⟨inner, parts⟩ := Assignment.of_assignsIn assigns
    have whole : indent ++ line = (indent ++ inner) ++ (named name ++ valueOf name line) := by
      rw [List.append_assoc, ← parts.whole]
    have allTabs : ∀ x ∈ indent ++ inner, x.letter = '\t' := fun x member =>
      (List.mem_append.mp member).elim (tabs x) (parts.tabs x)
    obtain ⟨still, value⟩ := (Assignment.mk whole allTabs parts.equals).valueOf_eq letters
    rw [value]
    exact ⟨kept, fun _ => still⟩
  next =>
    rw [valueOf, if_neg assigns] at kept
    refine ⟨valueOf_quiet ?_, fun assigned => absurd assigned assigns⟩
    rw [mentions_append, quiet, kept]
    rfl

theorem readsFirst_replaceAll (separates : Separator name separator) {search : List Char}
    (apart : Apart name search) (whole : separator ∉ search) {text replacement : List Glyph}
    (inserted : mentions name replacement = false)
    (quiet : readsFirst name sure (divide separator text) = false) :
    readsFirst name sure (divide separator (replaceAll text search replacement)) = false := by
  apply readsFirst_rewrite letters separates (fun text => replaceAll text search replacement)
    (fun lines => readsFirst name sure lines = false) _ _ quiet
  · intro front x back separated
    exact ⟨x, separated, replaceAll_cut (fun inside => whole (separated ▸ inside)) apart.nonempty
      front back⟩
  · intro line rest fit
    obtain ⟨kept, later⟩ := readsFirst_cons.mp fit
    obtain ⟨keeps, assigns⟩ := replaceAll_keeps letters apart inserted kept
    exact ⟨keeps, later.imp_left fun ⟨sure, assigned⟩ => ⟨sure, assigns assigned⟩⟩

omit letters in
theorem not_assignsIn_of_word {word : List Char} (apart : Apart name word) {line : List Glyph}
    (begins : word.isPrefixOf (spell line) = true) : assignsIn name line = false := by
  by_contra assigns
  obtain ⟨tabs, parts⟩ := Assignment.of_assignsIn (Bool.of_not_eq_false assigns)
  obtain ⟨x, y, z, body, value, blank, -, -⟩ := parts.equals
  obtain ⟨c, member, absent⟩ := apart.absent parts.tabs
  have apartX : Alphabet.char x ∉ word := fun inside => apart.blank (blank ▸ inside)
  rw [parts.whole, value, ← List.append_assoc, spell_append,
    show spell (x :: y :: z :: body) = Alphabet.char x :: spell (y :: z :: body) from rfl,
    isPrefixOf_cut apartX] at begins
  exact absent (mem_of_isPrefixOf begins member)

theorem assigns_of_word {word : List Char} (apart : Apart name word) {line : List Glyph}
    (begins : (word ++ [' ', '=', ' ']).isPrefixOf (spell line) = true)
    (unread : occurs word ((spell line).drop word.length) = false)
    (quiet : mentions name line = false) :
    assignsIn name (replaceAll line word (named name)) = true ∧
      mentions name (valueOf name (replaceAll line word (named name))) = false := by
  obtain ⟨after, spelled⟩ := List.isPrefixOf_iff_prefix.mp begins
  have front : spell (line.take word.length) = word := by
    rw [spell, List.map_take, ← spell, ← spelled, List.append_assoc, List.take_left]
  have back : spell (line.drop word.length) = [' ', '=', ' '] ++ after := by
    rw [spell, List.map_drop, ← spell, ← spelled, List.append_assoc, List.drop_left]
  have replaced : replaceAll line word (named name) = named name ++ line.drop word.length := by
    rw [spell, ← List.map_drop] at unread
    conv_lhs => rw [← List.take_append_drop word.length line]
    rw [replaceAll_hit front apart.nonempty, replaceAll_of_not_occurs unread]
  have parts : Assignment name (replaceAll line word (named name)) [] (line.drop word.length) := by
    refine ⟨replaced, by simp, ?_⟩
    generalize line.drop word.length = value at back
    rcases value with _ | ⟨x, _ | ⟨y, _ | ⟨z, body⟩⟩⟩ <;> simp [spell] at back
    exact ⟨x, y, z, body, rfl, back.1, back.2.1, back.2.2.1⟩
  obtain ⟨assigns, value⟩ := parts.valueOf_eq letters
  refine ⟨assigns, ?_⟩
  rw [value]
  exact mentions_of_subset (fun x member => List.mem_of_mem_drop member) quiet

theorem readsFirst_named (separates : Separator name separator) {word : List Char}
    (apart : Apart name word) (whole : separator ∉ word) {text : List Glyph}
    (quiet : readsFirst name sure (divide separator text) = false)
    (only : assignsOnly sure word (divide separator text) = true) :
    readsFirst name sure (divide separator (replaceAll text word (named name))) = false := by
  apply readsFirst_rewrite letters separates (fun text => replaceAll text word (named name))
    (fun lines => readsFirst name sure lines = false ∧ assignsOnly sure word lines = true) _ _
    ⟨quiet, only⟩
  · intro front x back separated
    exact ⟨x, separated, replaceAll_cut (fun inside => whole (separated ▸ inside)) apart.nonempty
      front back⟩
  · rintro line rest ⟨quiet, only⟩
    obtain ⟨kept, later⟩ := readsFirst_cons.mp quiet
    rw [assignsOnly] at only
    split at only
    next begins =>
      simp only [Bool.and_eq_true, Bool.not_eq_true', Bool.or_eq_true] at only
      have starts : word.isPrefixOf (spell line) = true :=
        List.isPrefixOf_iff_prefix.mpr
          ((List.prefix_append _ _).trans (List.isPrefixOf_iff_prefix.mp begins))
      have free := not_assignsIn_of_word apart starts
      rw [valueOf, free] at kept
      obtain ⟨assigns, value⟩ := assigns_of_word letters apart begins only.1 kept
      refine ⟨value, only.2.imp (fun sure => ⟨sure, assigns⟩) fun only => ⟨?_, only⟩⟩
      rcases later with ⟨-, assigned⟩ | later
      · rw [free] at assigned
        cases assigned
      · exact later
    next =>
      simp only [Bool.and_eq_true, Bool.not_eq_true'] at only
      rw [replaceAll_of_not_occurs only.1]
      exact ⟨kept, later.imp_right fun later => ⟨later, only.2⟩⟩

end

end VitaTools.Library.Traced
