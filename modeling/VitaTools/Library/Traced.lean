import VitaTools.Library.Replace

set_option autoImplicit false

/-!
A program that compares and copies characters runs over any alphabet. Over `Char`
it is the program itself; over `Glyph` each character keeps the name it is part of.
-/

namespace VitaTools.Library

/-- Characters that may remember for which name they were written. -/
class Alphabet (α : Type) where
  char : α → Char
  write : Option String → Char → α
  char_write (name : Option String) (c : Char) : char (write name c) = c

instance : Alphabet Char where
  char := id
  write _ c := c
  char_write _ _ := rfl

structure Glyph where
  letter : Char
  name : Option String
deriving DecidableEq

instance : Alphabet Glyph where
  char := Glyph.letter
  write name c := ⟨c, name⟩
  char_write _ _ := rfl

namespace Traced

variable {α : Type} [Alphabet α]

def spell (text : List α) : List Char := text.map Alphabet.char

def plain (text : List Char) : List α := text.map (Alphabet.write none)

def named (name : String) : List α := name.toList.map (Alphabet.write (some name))

def replaceFrom (search : List Char) (replacement : List α) : Nat → List α → List α
  | _, [] => []
  | skip + 1, _ :: rest => replaceFrom search replacement skip rest
  | 0, x :: rest =>
      if search.isPrefixOf (spell (x :: rest)) then
        replacement ++ replaceFrom search replacement (search.length - 1) rest
      else x :: replaceFrom search replacement 0 rest

def replaceAll (subject : List α) (search : List Char) (replacement : List α) : List α :=
  replaceFrom search replacement 0 subject

@[simp] theorem spell_char (text : List Char) : spell text = text := List.map_id text

@[simp] theorem plain_char (text : List Char) : (plain text : List Char) = text := List.map_id text

@[simp] theorem named_char (name : String) : (named name : List Char) = name.toList :=
  List.map_id _

@[simp] theorem spell_append (front back : List α) :
    spell (front ++ back) = spell front ++ spell back :=
  List.map_append

@[simp] theorem spell_plain (text : List Char) : spell (plain text : List α) = text := by
  simp [spell, plain, Function.comp_def, Alphabet.char_write]

theorem plain_append (front back : List Char) :
    (plain (front ++ back) : List α) = plain front ++ plain back := List.map_append

@[simp] theorem spell_named (name : String) : spell (named name : List α) = name.toList := by
  simp [spell, named, Function.comp_def, Alphabet.char_write]

@[simp] theorem spell_length (text : List α) : (spell text).length = text.length :=
  List.length_map _

theorem spell_replaceFrom (search : List Char) (replacement subject : List α) (skip : Nat) :
    spell (replaceFrom search replacement skip subject) =
      Library.replaceFrom search (spell replacement) skip (spell subject) := by
  induction subject generalizing skip with
  | nil => cases skip <;> rfl
  | cons x rest ih =>
      cases skip with
      | succ skip => exact ih skip
      | zero =>
          rw [replaceFrom]
          by_cases hit : search.isPrefixOf (spell (x :: rest)) = true
          next =>
            rw [if_pos hit, spell_append, ih]
            exact (if_pos hit).symm
          next =>
            rw [if_neg hit]
            exact (congrArg (Alphabet.char x :: ·) (ih 0)).trans (if_neg hit).symm

theorem spell_replaceAll (subject : List α) (search : List Char) (replacement : List α) :
    spell (replaceAll subject search replacement) =
      Library.replaceAll (spell subject) search (spell replacement) :=
  spell_replaceFrom search replacement subject 0

@[simp] theorem spell_replaced (subject replacement : List α) (search : List Char) :
    spell (replaceAll subject search replacement) =
      replaceAll (spell subject) search (spell replacement) := by
  have same := spell_replaceAll (spell subject) search (spell replacement)
  rw [spell_char, spell_char, spell_char] at same
  rw [spell_replaceAll, same]

@[simp] theorem spell_take (count : Nat) (text : List α) :
    spell (text.take count) = (spell text).take count := List.map_take

@[simp] theorem spell_drop (count : Nat) (text : List α) :
    spell (text.drop count) = (spell text).drop count := List.map_drop

theorem mem_replaceAll {subject replacement : List α} {search : List Char} {x : α}
    (member : x ∈ replaceAll subject search replacement) : x ∈ subject ∨ x ∈ replacement := by
  suffices steps : ∀ skip, x ∈ replaceFrom search replacement skip subject →
      x ∈ subject ∨ x ∈ replacement from steps 0 member
  clear member
  induction subject with
  | nil => intro skip member; cases skip <;> cases member
  | cons y rest ih =>
      intro skip member
      have later : ∀ skip, x ∈ replaceFrom search replacement skip rest →
          x ∈ y :: rest ∨ x ∈ replacement := fun skip member =>
        (ih skip member).imp_left (List.mem_cons_of_mem y)
      cases skip with
      | succ skip => exact later skip member
      | zero =>
          rw [replaceFrom] at member
          split at member
          next =>
            rcases List.mem_append.mp member with inserted | after
            · exact .inr inserted
            · exact later _ after
          next =>
            rcases List.mem_cons.mp member with rfl | after
            · exact .inl List.mem_cons_self
            · exact later 0 after

variable {search : List Char} {replacement : List α}

theorem isPrefixOf_cut {c : Char} (apart : c ∉ search) (front back : List Char) :
    search.isPrefixOf (front ++ c :: back) = search.isPrefixOf front := by
  induction front generalizing search with
  | nil =>
      cases search with
      | nil => rfl
      | cons d rest =>
          have other : d ≠ c := fun same => apart (same ▸ List.mem_cons_self)
          simp [List.isPrefixOf, other]
  | cons e front ih =>
      cases search with
      | nil => rfl
      | cons d rest =>
          have later : c ∉ rest := fun member => apart (List.mem_cons_of_mem d member)
          simp only [List.cons_append, List.isPrefixOf, ih later]

theorem replaceFrom_cut {x : α} (apart : Alphabet.char x ∉ search) (nonempty : search ≠ [])
    (front back : List α) (skip : Nat) (inFront : skip ≤ front.length) :
    replaceFrom search replacement skip (front ++ x :: back) =
      replaceFrom search replacement skip front ++ x :: replaceAll back search replacement := by
  induction front generalizing skip with
  | nil =>
      obtain rfl : skip = 0 := Nat.le_zero.mp inFront
      have miss : search.isPrefixOf (spell (x :: back)) = false := by
        rw [show spell (x :: back) = [] ++ Alphabet.char x :: spell back from rfl,
          isPrefixOf_cut apart]
        cases search with
        | nil => exact absurd rfl nonempty
        | cons c rest => rfl
      rw [List.nil_append, replaceFrom, replaceFrom, miss]
      rfl
  | cons y front ih =>
      cases skip with
      | succ skip => exact ih skip (Nat.le_of_succ_le_succ inFront)
      | zero =>
          have same : search.isPrefixOf (spell (y :: (front ++ x :: back))) =
              search.isPrefixOf (spell (y :: front)) := by
            rw [← List.cons_append, spell_append]
            exact isPrefixOf_cut apart _ _
          rw [List.cons_append, replaceFrom, replaceFrom, same]
          by_cases hit : search.isPrefixOf (spell (y :: front)) = true
          next =>
            have short : search.length - 1 ≤ front.length := by
              have le := (List.isPrefixOf_iff_prefix.mp hit).length_le
              rw [spell_length, List.length_cons] at le
              omega
            rw [if_pos hit, if_pos hit, ih _ short, List.append_assoc]
          next => rw [if_neg hit, if_neg hit, ih 0 (Nat.zero_le _), List.cons_append]

theorem replaceAll_cut {x : α} (apart : Alphabet.char x ∉ search) (nonempty : search ≠ [])
    (front back : List α) :
    replaceAll (front ++ x :: back) search replacement =
      replaceAll front search replacement ++ x :: replaceAll back search replacement :=
  replaceFrom_cut apart nonempty front back 0 (Nat.zero_le _)

theorem replaceAll_cons {x : α} (apart : Alphabet.char x ∉ search) (nonempty : search ≠ [])
    (rest : List α) :
    replaceAll (x :: rest) search replacement = x :: replaceAll rest search replacement :=
  replaceAll_cut apart nonempty [] rest

theorem replaceAll_behind (nonempty : search ≠ []) (front back : List α)
    (apart : ∀ x ∈ front, Alphabet.char x ∉ search) :
    replaceAll (front ++ back) search replacement =
      front ++ replaceAll back search replacement := by
  induction front with
  | nil => rfl
  | cons x front ih =>
      rw [List.cons_append, replaceAll_cons (apart x List.mem_cons_self) nonempty,
        ih fun y member => apart y (List.mem_cons_of_mem x member), List.cons_append]

theorem replaceAll_of_not_occurs {subject : List α}
    (absent : occurs search (spell subject) = false) :
    replaceAll subject search replacement = subject := by
  induction subject with
  | nil => rfl
  | cons x rest ih =>
      rw [show spell (x :: rest) = Alphabet.char x :: spell rest from rfl, occurs,
        Bool.or_eq_false_iff] at absent
      have miss : search.isPrefixOf (spell (x :: rest)) = false := absent.1
      rw [replaceAll, replaceFrom, miss]
      exact congrArg (x :: ·) (ih absent.2)

theorem replaceAll_of_absent {subject : List α} {c : Char} (member : c ∈ search)
    (absent : c ∉ spell subject) : replaceAll subject search replacement = subject := by
  apply replaceAll_of_not_occurs
  by_contra found
  have inside := occurs_iff_infix.mp (Bool.of_not_eq_false found)
  exact absent (inside.subset member)

theorem replaceFrom_skip (skipped back : List α) :
    replaceFrom search replacement skipped.length (skipped ++ back) =
      replaceAll back search replacement := by
  induction skipped with
  | nil => rfl
  | cons x rest ih => exact ih

theorem replaceAll_hit {front : List α} (hit : spell front = search) (nonempty : search ≠ [])
    (back : List α) :
    replaceAll (front ++ back) search replacement =
      replacement ++ replaceAll back search replacement := by
  cases front with
  | nil => exact absurd hit.symm nonempty
  | cons x rest =>
      have found : search.isPrefixOf (spell (x :: (rest ++ back))) = true := by
        rw [← List.cons_append, spell_append, hit]
        exact List.isPrefixOf_iff_prefix.mpr (List.prefix_append _ _)
      have length : search.length - 1 = rest.length := by
        rw [← hit, spell_length]
        rfl
      rw [List.cons_append, replaceAll, replaceFrom, if_pos found, length, replaceFrom_skip]

theorem replaceAll_char_append (c : Char) (front back : List α) :
    replaceAll (front ++ back) [c] replacement =
      replaceAll front [c] replacement ++ replaceAll back [c] replacement := by
  induction front with
  | nil => rfl
  | cons x rest ih =>
      by_cases hit : [c].isPrefixOf [Alphabet.char x] = true
      next =>
        have found (more : List α) : [c].isPrefixOf (spell (x :: more)) = true := by
          simpa [spell] using hit
        have first (more : List α) : replaceAll (x :: more) [c] replacement =
            replacement ++ replaceAll more [c] replacement := if_pos (found more)
        rw [List.cons_append, first, first, ih, List.append_assoc]
      next =>
        have missed (more : List α) : ¬ [c].isPrefixOf (spell (x :: more)) = true := by
          simpa [spell] using hit
        have first (more : List α) : replaceAll (x :: more) [c] replacement =
            x :: replaceAll more [c] replacement := if_neg (missed more)
        rw [List.cons_append, first, first, ih, List.cons_append]

def Seam (search front back : List Char) : Prop :=
  ∀ p q, search = p ++ q → p ≠ [] → q ≠ [] → p <:+ front → ¬ q <+: back

theorem isPrefixOf_seam {front back : List Char} (seam : Seam search front back)
    (inside : front ≠ []) : search.isPrefixOf (front ++ back) = search.isPrefixOf front := by
  rw [Bool.eq_iff_iff, List.isPrefixOf_iff_prefix, List.isPrefixOf_iff_prefix]
  constructor
  next =>
    intro hit
    rcases List.prefix_or_prefix_of_prefix hit (List.prefix_append front back) with short | longer
    · exact short
    · obtain ⟨rest, rfl⟩ := longer
      by_cases none : rest = []
      next => simp [none]
      next =>
        have after := (List.prefix_append_right_inj front).mp hit
        exact absurd after (seam front rest rfl inside none List.suffix_rfl)
  next => exact fun short => short.trans (List.prefix_append _ _)

theorem occurs_seam {front back : List Char} (nonempty : search ≠ [])
    (seam : Seam search front back) :
    occurs search (front ++ back) = (occurs search front || occurs search back) := by
  induction front with
  | nil =>
      have missing : occurs search [] = false := by
        rw [occurs]
        exact List.isEmpty_eq_false_iff.mpr nonempty
      rw [List.nil_append, missing, Bool.false_or]
  | cons c front ih =>
      have later : Seam search front back := fun p q whole some more after =>
        seam p q whole some more (after.trans (List.suffix_cons c front))
      have here := isPrefixOf_seam seam (List.cons_ne_nil c front)
      rw [List.cons_append] at here
      rw [List.cons_append, occurs, occurs, here, ih later, Bool.or_assoc]

end Traced

end VitaTools.Library
