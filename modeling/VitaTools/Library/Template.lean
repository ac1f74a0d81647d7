import VitaTools.Library.Traced
import Mathlib.Data.List.Nodup
import Mathlib.Logic.Function.Basic
import Mathlib.Algebra.Order.BigOperators.Group.List
import Mathlib.Algebra.Order.Ring.Nat

set_option autoImplicit false

namespace VitaTools.Library

open Traced

structure Stamped (σ : Type) where
  letter : Char
  source : Option σ
deriving DecidableEq

instance (σ : Type) : Alphabet (Stamped σ) where
  char := Stamped.letter
  write _ c := ⟨c, none⟩
  char_write _ _ := rfl

variable {σ : Type}

def stamp (source : σ) (text : List Char) : List (Stamped σ) := text.map (⟨·, some source⟩)

@[simp] theorem spell_stamp (source : σ) (text : List Char) : spell (stamp source text) = text := by
  simp [spell, stamp, Function.comp_def, Alphabet.char]

inductive Piece
  | own (c : Char)
  | slot (name : List Char)
deriving DecidableEq

def Piece.render {α : Type} [Alphabet α] (fill : List Char → List α) : Piece → List α
  | .own c => plain [c]
  | .slot name => fill name

def render {α : Type} [Alphabet α] (fill : List Char → List α) (pieces : List Piece) : List α :=
  pieces.flatMap (Piece.render fill)

def slots (pieces : List Piece) : List (List Char) :=
  pieces.filterMap fun
    | .own _ => none
    | .slot name => some name

def ownPrefix : List Piece → List Char
  | .own c :: rest => c :: ownPrefix rest
  | _ => []

-- `skip` letters of a name are left.
def piecesFrom (names : List (List Char)) : Nat → List Char → List Piece
  | _, [] => []
  | skip + 1, _ :: rest => piecesFrom names skip rest
  | 0, c :: rest =>
      match names.find? (·.isPrefixOf (c :: rest)) with
      | some name => .slot name :: piecesFrom names (name.length - 1) rest
      | none => .own c :: piecesFrom names 0 rest

def piecesOf (names : List (List Char)) (text : List Char) : List Piece := piecesFrom names 0 text

section

variable {α : Type} [Alphabet α] {fill other : List Char → List α}

@[simp] theorem render_nil : render fill [] = [] := rfl

@[simp] theorem render_own (c : Char) (rest : List Piece) :
    render fill (.own c :: rest) = Alphabet.write none c :: render fill rest := rfl

@[simp] theorem render_slot (name : List Char) (rest : List Piece) :
    render fill (.slot name :: rest) = fill name ++ render fill rest := rfl

theorem spell_own (c : Char) (rest : List Piece) :
    spell (render fill (.own c :: rest)) = c :: spell (render fill rest) :=
  congrArg (· :: _) (Alphabet.char_write none c)

theorem render_congr {pieces : List Piece} (same : ∀ name ∈ slots pieces, fill name = other name) :
    render fill pieces = render other pieces := by
  induction pieces with
  | nil => rfl
  | cons piece rest ih =>
      cases piece with
      | own c => rw [render_own, render_own, ih same]
      | slot name =>
          rw [render_slot, render_slot, same name List.mem_cons_self,
            ih fun later member => same later (List.mem_cons_of_mem name member)]

theorem spell_render (pieces : List Piece) :
    spell (render fill pieces) = render (fun name => spell (fill name)) pieces := by
  induction pieces with
  | nil => rfl
  | cons piece rest ih =>
      cases piece with
      | own c =>
          rw [spell_own, ih]
          rfl
      | slot name => rw [render_slot, render_slot, ← ih, spell_append]

theorem render_piecesFrom {names : List (List Char)} (named : [] ∉ names) (skip : Nat)
    (text : List Char) :
    render (fun name => (plain name : List α)) (piecesFrom names skip text) =
      plain (text.drop skip) := by
  induction text generalizing skip with
  | nil => cases skip <;> rfl
  | cons c rest ih =>
      cases skip with
      | succ skip => exact ih skip
      | zero =>
          rw [piecesFrom]
          split
          next name found =>
            have isPrefix : name.isPrefixOf (c :: rest) = true := by
              simpa using List.find?_some found
            obtain ⟨back, whole⟩ := List.isPrefixOf_iff_prefix.mp isPrefix
            rw [render_slot, ih, ← plain_append]
            cases name with
            | nil => exact absurd (List.mem_of_find?_eq_some found) named
            | cons d name =>
                obtain ⟨rfl, rfl⟩ := List.cons.inj whole
                simp
          next => rw [render_own, ih]; rfl

theorem render_piecesOf {names : List (List Char)} (named : [] ∉ names) (text : List Char) :
    render (fun name => (plain name : List α)) (piecesOf names text) = plain text :=
  render_piecesFrom named 0 text

end

theorem slots_piecesFrom (names : List (List Char)) (skip : Nat) (text : List Char) :
    ∀ name ∈ slots (piecesFrom names skip text), name ∈ names := by
  induction text generalizing skip with
  | nil => cases skip <;> exact fun name member => absurd member List.not_mem_nil
  | cons c rest ih =>
      cases skip with
      | succ skip => exact ih skip
      | zero =>
          rw [piecesFrom]
          split
          next name found =>
            intro other member
            rcases List.mem_cons.mp member with rfl | later
            · exact List.mem_of_find?_eq_some found
            · exact ih _ other later
          next => exact ih 0

def flanked (outside : Char → Bool) : List Piece → Bool
  | [] => true
  | .own c :: .slot name :: rest => outside c && flanked outside (.slot name :: rest)
  | .own _ :: rest => flanked outside rest
  | .slot _ :: .own c :: rest => outside c && flanked outside (.own c :: rest)
  | .slot _ :: .slot _ :: _ => false
  | [.slot _] => true

def outsideOf (search : List Char) (c : Char) : Bool := !search.contains c

def absent (search : List Char) : List Piece → Bool
  | [] => true
  | .own c :: rest => !search.isPrefixOf (ownPrefix (.own c :: rest)) && absent search rest
  | .slot _ :: rest => absent search rest

def Suited (search : List Char) (pieces : List Piece) : Prop :=
  (search.length = 1 ∨ flanked (outsideOf search) pieces = true) ∧ absent search pieces = true

section

variable {α : Type} [Alphabet α] {fill other : List Char → List α}
variable {search : List Char} {replacement : List α}

theorem flanked_mono {outside wider : Char → Bool}
    (wide : ∀ c, outside c = true → wider c = true) {pieces : List Piece}
    (flanks : flanked outside pieces = true) : flanked wider pieces = true := by
  fun_induction flanked outside pieces <;> simp_all [flanked]

theorem flanked_tail {d : Char} {pieces : List Piece}
    (flanks : flanked (outsideOf (d :: search)) pieces = true) :
    flanked (outsideOf search) pieces = true := by
  apply flanked_mono _ flanks
  intro c outside
  simp only [outsideOf, List.contains_cons, Bool.not_or, Bool.and_eq_true] at outside
  exact outside.2

theorem flanked_rest {outside : Char → Bool} {piece : Piece} {rest : List Piece}
    (flanks : flanked outside (piece :: rest) = true) : flanked outside rest = true := by
  cases piece with
  | own c =>
      cases rest with
      | nil => rfl
      | cons next rest =>
          cases next with
          | own d => exact flanks
          | slot name => exact (Bool.and_eq_true_iff.mp flanks).2
  | slot name =>
      cases rest with
      | nil => rfl
      | cons next rest =>
          cases next with
          | own d => exact (Bool.and_eq_true_iff.mp flanks).2
          | slot name => cases flanks

theorem Suited.rest {piece : Piece} {rest : List Piece} (fits : Suited search (piece :: rest)) :
    Suited search rest := by
  refine ⟨fits.1.imp_right flanked_rest, ?_⟩
  have apart := fits.2
  cases piece with
  | own c => exact (Bool.and_eq_true_iff.mp apart).2
  | slot name => exact apart

theorem isPrefixOf_flanked (c : Char) (rest : List Piece)
    (flanks : flanked (outsideOf search) (.own c :: rest) = true) :
    search.isPrefixOf (spell (render fill (.own c :: rest))) =
      search.isPrefixOf (ownPrefix (.own c :: rest)) := by
  induction rest generalizing c search with
  | nil => rw [spell_own]; rfl
  | cons piece rest ih =>
      cases search with
      | nil => rfl
      | cons d search =>
          rw [spell_own, ownPrefix, List.isPrefixOf, List.isPrefixOf]
          by_cases same : d = c
          next =>
            subst same
            cases piece with
            | slot name =>
                rw [flanked, outsideOf, List.contains_cons, BEq.rfl, Bool.true_or] at flanks
                contradiction
            | own e =>
                have later : flanked (outsideOf (d :: search)) (.own e :: rest) = true := flanks
                rw [ih e (flanked_tail later)]
          next => rw [beq_false_of_ne same, Bool.false_and, Bool.false_and]

theorem Suited.miss {c : Char} {rest : List Piece} (fits : Suited search (.own c :: rest))
    (fill : List Char → List α) :
    search.isPrefixOf (spell (render fill (.own c :: rest))) = false := by
  obtain ⟨beside, apart⟩ := fits
  rw [absent, Bool.and_eq_true, Bool.not_eq_true'] at apart
  rw [← apart.1]
  rcases beside with single | flanks
  · obtain ⟨d, rfl⟩ := List.length_eq_one_iff.mp single
    rw [spell_own, ownPrefix, List.isPrefixOf, List.isPrefixOf]
    simp only [List.isPrefixOf]
  · exact isPrefixOf_flanked c rest flanks

theorem replaceAll_render {pieces : List Piece} (nonempty : search ≠ [])
    (fits : Suited search pieces) :
    Traced.replaceAll (render fill pieces) search replacement =
      render (fun name => Traced.replaceAll (fill name) search replacement) pieces := by
  induction pieces with
  | nil => rfl
  | cons piece rest ih =>
      cases piece with
      | own c =>
          have miss := fits.miss fill
          rw [render_own] at miss ⊢
          rw [Traced.replaceAll, Traced.replaceFrom, miss]
          exact congrArg (_ :: ·) (ih fits.rest)
      | slot name =>
          rw [render_slot, render_slot, ← ih fits.rest]
          rcases fits.1 with single | flanks
          · obtain ⟨c, rfl⟩ := List.length_eq_one_iff.mp single
            exact replaceAll_char_append c _ _
          · cases rest with
            | nil => simp [Traced.replaceAll, Traced.replaceFrom]
            | cons next rest =>
                cases next with
                | slot name => simp [flanked] at flanks
                | own c =>
                    have apart : Alphabet.char (Alphabet.write none c : α) ∉ search := by
                      rw [Alphabet.char_write]
                      simp only [flanked, outsideOf, Bool.and_eq_true] at flanks
                      simpa using flanks.1
                    rw [render_own, replaceAll_cut apart nonempty,
                      replaceAll_cons apart nonempty]

theorem occurs_behind {front back tail : List Char} (absent : occurs search front = false)
    (apart : ∀ c rest, back = c :: rest → c ∉ search) :
    occurs (search ++ tail) (front ++ back) = occurs (search ++ tail) back := by
  induction front with
  | nil => rfl
  | cons d front ih =>
      rw [occurs, Bool.or_eq_false_iff] at absent
      have short : search.isPrefixOf (d :: (front ++ back)) = false := by
        cases back with
        | nil => rw [List.append_nil, absent.1]
        | cons c rest => rw [← List.cons_append, isPrefixOf_cut (apart c rest rfl), absent.1]
      have miss : (search ++ tail).isPrefixOf (d :: (front ++ back)) = false := by
        by_contra hit
        have whole := List.isPrefixOf_iff_prefix.mp (Bool.of_not_eq_false hit)
        rw [List.isPrefixOf_iff_prefix.mpr ((List.prefix_append _ _).trans whole)] at short
        contradiction
      rw [List.cons_append, occurs, miss, Bool.false_or, ih absent.2]

-- Whether `tail` follows a slot is settled by the template's own letters.
def settles (tail : List Char) (pieces : List Piece) : Bool :=
  !(ownPrefix pieces).isPrefixOf tail || tail.isPrefixOf (ownPrefix pieces) ||
    (slots pieces).isEmpty

def tailed (tail : List Char) : List Piece → Bool
  | [] => true
  | .own _ :: rest => tailed tail rest
  | .slot _ :: rest => settles tail rest && tailed tail rest

theorem ownPrefix_render (fill : List Char → List α) (pieces : List Piece) :
    ∃ back, spell (render fill pieces) = ownPrefix pieces ++ back ∧
      ((slots pieces).isEmpty = true → back = []) := by
  induction pieces with
  | nil => exact ⟨[], rfl, fun _ => rfl⟩
  | cons piece rest ih =>
      cases piece with
      | own c =>
          obtain ⟨back, whole, ends⟩ := ih
          exact ⟨back, by rw [spell_own, whole]; rfl, ends⟩
      | slot name => exact ⟨_, rfl, fun none => absurd none Bool.false_ne_true⟩

theorem isPrefixOf_settles {tail : List Char} {pieces : List Piece}
    (settled : settles tail pieces = true) (fill : List Char → List α) :
    tail.isPrefixOf (spell (render fill pieces)) = tail.isPrefixOf (ownPrefix pieces) := by
  obtain ⟨back, whole, ends⟩ := ownPrefix_render fill pieces
  rw [whole, Bool.eq_iff_iff, List.isPrefixOf_iff_prefix, List.isPrefixOf_iff_prefix]
  constructor
  next =>
    intro longer
    simp only [settles, Bool.or_eq_true, Bool.not_eq_true', List.isPrefixOf_iff_prefix] at settled
    rcases settled with (apart | short) | none
    · rcases List.prefix_or_prefix_of_prefix longer (List.prefix_append _ back) with short | inner
      · exact short
      · rw [List.isPrefixOf_iff_prefix.mpr inner] at apart
        contradiction
    · exact short
    · rwa [ends none, List.append_nil] at longer
  next => exact fun short => short.trans (List.prefix_append _ _)

theorem absent_piecesFrom {names : List (List Char)} (named : [] ∉ names) (known : search ∈ names)
    (skip : Nat) (text : List Char) : absent search (piecesFrom names skip text) = true := by
  induction text generalizing skip with
  | nil => cases skip <;> rfl
  | cons c rest ih =>
      cases skip with
      | succ skip => exact ih skip
      | zero =>
          rw [piecesFrom]
          split
          next => exact ih _
          next none =>
            rw [absent, ih, Bool.and_true, Bool.not_eq_true']
            obtain ⟨back, whole, -⟩ :=
              ownPrefix_render (fun name => (plain name : List Char)) (piecesFrom names 0 rest)
            rw [render_piecesFrom named, spell_plain, List.drop_zero] at whole
            by_contra found
            have isPrefix := List.isPrefixOf_iff_prefix.mp (Bool.of_not_eq_false found)
            refine List.find?_eq_none.mp none search known (List.isPrefixOf_iff_prefix.mpr ?_)
            rw [whole]
            exact isPrefix.trans (List.prefix_append (c :: _) back)

theorem occurs_render {tail : List Char} {pieces : List Piece} (long : 1 < search.length)
    (fits : Suited search pieces) (tails : tailed tail pieces = true)
    (waiting : fill search = other search) (named : spell (other search) = search)
    (without : ∀ name ∈ slots pieces, name ≠ search →
      occurs search (spell (fill name)) = false ∧ occurs search (spell (other name)) = false) :
    occurs (search ++ tail) (spell (render fill pieces)) =
      occurs (search ++ tail) (spell (render other pieces)) := by
  induction pieces with
  | nil => rfl
  | cons piece rest ih =>
      cases piece with
      | own c =>
          have miss (fill : List Char → List α) :
              (search ++ tail).isPrefixOf (c :: spell (render fill rest)) = false := by
            rw [← spell_own]
            by_contra hit
            have whole := List.isPrefixOf_iff_prefix.mp (Bool.of_not_eq_false hit)
            have short := fits.miss fill
            rw [List.isPrefixOf_iff_prefix.mpr ((List.prefix_append _ _).trans whole)] at short
            contradiction
          rw [spell_own, spell_own, occurs, occurs, miss, miss, Bool.false_or, Bool.false_or]
          exact ih fits.rest tails without
      | slot name =>
          have flanks := fits.1.resolve_left (by omega)
          rw [tailed, Bool.and_eq_true] at tails
          have same := ih fits.rest tails.2 fun later member =>
            without later (List.mem_cons_of_mem name member)
          have apart (fill : List Char → List α) (c : Char) (back : List Char)
              (whole : spell (render fill rest) = c :: back) : c ∉ search := by
            cases rest with
            | nil => cases whole
            | cons next rest =>
                cases next with
                | slot name => simp [flanked] at flanks
                | own d =>
                    rw [spell_own] at whole
                    simp only [flanked, outsideOf, Bool.and_eq_true] at flanks
                    rw [← (List.cons.inj whole).1]
                    simpa using flanks.1
          rw [render_slot, render_slot, spell_append, spell_append]
          by_cases here : name = search
          next =>
            subst here
            rw [waiting, named]
            obtain ⟨d, letters, rfl⟩ :=
              List.exists_cons_of_length_pos (Nat.lt_of_succ_lt long)
            have once : occurs (d :: letters) letters = false := by
              by_contra found
              have le := ( occurs_iff_infix.mp (Bool.of_not_eq_false found)).length_le
              rw [List.length_cons] at le
              omega
            have first (fill : List Char → List α) :
                occurs (d :: letters ++ tail) (d :: letters ++ spell (render fill rest)) =
                  (tail.isPrefixOf (ownPrefix rest) ||
                    occurs (d :: letters ++ tail) (spell (render fill rest))) := by
              have cut : (d :: letters ++ tail).isPrefixOf
                    (d :: letters ++ spell (render fill rest)) =
                  tail.isPrefixOf (ownPrefix rest) := by
                rw [← isPrefixOf_settles tails.1 fill, Bool.eq_iff_iff,
                  List.isPrefixOf_iff_prefix, List.isPrefixOf_iff_prefix,
                  List.prefix_append_right_inj]
              rw [← occurs_behind once (apart fill), ← cut]
              rfl
            rw [first, first, same]
          next =>
            obtain ⟨filled, waits⟩ := without name List.mem_cons_self here
            rw [occurs_behind filled (apart fill), occurs_behind waits (apart other), same]

end

def expose (name : List Char) : List Piece → List Piece
  | [] => []
  | .own c :: rest => .own c :: expose name rest
  | .slot other :: rest =>
      if other = name then .slot other :: expose name rest
      else other.map .own ++ expose name rest

def letterSlots (letter : Char) : List Piece → List Piece
  | [] => []
  | .own c :: rest =>
      (if c = letter then .slot [letter] else .own c) :: letterSlots letter rest
  | .slot name :: rest => .slot name :: letterSlots letter rest

section

variable {α : Type} [Alphabet α] {fill : List Char → List α} {name : List Char} {letter : Char}

theorem render_append (front back : List Piece) :
    render fill (front ++ back) = render fill front ++ render fill back := List.flatMap_append

theorem render_map_own (text : List Char) : render fill (text.map .own) = plain text := by
  induction text with
  | nil => rfl
  | cons c rest ih => rw [List.map_cons, render_own, ih]; rfl

theorem render_expose {pieces : List Piece}
    (waiting : ∀ other ∈ slots pieces, other ≠ name → fill other = plain other) :
    render fill (expose name pieces) = render fill pieces := by
  induction pieces with
  | nil => rfl
  | cons piece rest ih =>
      cases piece with
      | own c => rw [expose, render_own, render_own, ih waiting]
      | slot other =>
          have later := ih fun later member => waiting later (List.mem_cons_of_mem other member)
          rw [expose, render_slot, ← later]
          split
          next => rw [render_slot]
          next apart =>
            rw [render_append, render_map_own, waiting other List.mem_cons_self apart]

theorem slots_append (front back : List Piece) :
    slots (front ++ back) = slots front ++ slots back := List.filterMap_append

theorem slots_split {pieces : List Piece} (member : name ∈ slots pieces) :
    ∃ front back, pieces = front ++ .slot name :: back := by
  obtain ⟨piece, inside, here⟩ := List.mem_filterMap.mp member
  cases piece with
  | own c => cases here
  | slot other =>
      obtain rfl := Option.some.inj here
      exact List.append_of_mem inside

theorem slots_map_own (text : List Char) : slots (text.map .own) = [] := by
  induction text with
  | nil => rfl
  | cons c rest ih => exact ih

theorem slots_expose {other : List Char} {pieces : List Piece}
    (member : other ∈ slots (expose name pieces)) : other = name := by
  induction pieces with
  | nil => cases member
  | cons piece rest ih =>
      cases piece with
      | own c => exact ih member
      | slot found =>
          rw [expose] at member
          split at member
          next same =>
            rcases List.mem_cons.mp member with first | later
            · exact first.trans same
            · exact ih later
          next =>
            rw [slots_append, slots_map_own, List.nil_append] at member
            exact ih member

theorem render_letterSlots {pieces : List Piece} (waiting : fill [letter] = plain [letter]) :
    render fill (letterSlots letter pieces) = render fill pieces := by
  induction pieces with
  | nil => rfl
  | cons piece rest ih =>
      cases piece with
      | own c =>
          rw [letterSlots, render_own, ← ih]
          split
          next same => rw [render_slot, waiting, same]; rfl
          next => rw [render_own]
      | slot name => rw [letterSlots, render_slot, render_slot, ih]

theorem mem_slots_letterSlots {pieces : List Piece}
    (member : name ∈ slots (letterSlots letter pieces)) :
    name = [letter] ∨ name ∈ slots pieces := by
  induction pieces with
  | nil => exact .inr member
  | cons piece rest ih =>
      cases piece with
      | own c =>
          rw [letterSlots] at member
          split at member
          next =>
            rcases List.mem_cons.mp member with same | later
            · exact .inl same
            · exact ih later
          next => exact ih member
      | slot other =>
          rcases List.mem_cons.mp member with same | later
          · exact .inr (same ▸ List.mem_cons_self)
          · exact (ih later).imp_right (List.mem_cons_of_mem other)

theorem suited_letterSlots (pieces : List Piece) : Suited [letter] (letterSlots letter pieces) := by
  refine ⟨.inl rfl, ?_⟩
  induction pieces with
  | nil => rfl
  | cons piece rest ih =>
      cases piece with
      | own c =>
          rw [letterSlots]
          split
          next => exact ih
          next other =>
            rw [absent, ih, Bool.and_true]
            simp [ownPrefix, List.isPrefixOf, Ne.symm other]
      | slot name => exact ih

end

structure Step (σ : Type) where
  source : σ
  search : List Char

abbrev Texts (σ : Type) := σ → List Char → List Char

def Step.apply (texts : Texts σ) (code : List (Stamped σ)) (step : Step σ) : List (Stamped σ) :=
  Traced.replaceAll code step.search (stamp step.source (texts step.source (spell code)))

def run (texts : Texts σ) (steps : List (Step σ)) (code : List (Stamped σ)) : List (Stamped σ) :=
  steps.foldl (Step.apply texts) code

abbrev Filling (σ : Type) := List Char → Option (σ × List Char)

namespace Filling

def fill (f : Filling σ) (name : List Char) : List (Stamped σ) :=
  match f name with
  | none => plain name
  | some (source, text) => stamp source text

def put (f : Filling σ) (source : σ) (name text : List Char) : Filling σ :=
  Function.update f name (some ((f name).getD (source, text)))

/-- The simultaneous substitution: each slot holds the text of the first step for its name. -/
def puts (value : σ → List Char) (f : Filling σ) (steps : List (Step σ)) : Filling σ :=
  steps.foldl (fun f step => f.put step.source step.search (value step.source)) f

def Untouched (f : Filling σ) (pieces : List Piece) (search : List Char) : Prop :=
  ∀ name ∈ slots pieces, ∀ source text, f name = some (source, text) → occurs search text = false

def Fresh (f : Filling σ) (steps : List (Step σ)) : Prop :=
  ∀ name source text, f name = some (source, text) → source ∉ steps.map Step.source

def Safe (value : σ → List Char) (pieces : List Piece) : Filling σ → List (Step σ) → Prop
  | _, [] => True
  | f, step :: rest =>
      f.Untouched pieces step.search ∧
        Safe value pieces (f.put step.source step.search (value step.source)) rest

end Filling

section

variable {value : σ → List Char} {f : Filling σ} {steps : List (Step σ)} {name : List Char}

theorem put_other {source : σ} {search text : List Char} (other : name ≠ search) :
    f.put source search text name = f name := Function.update_of_ne other _ _

theorem puts_other (other : name ∉ steps.map Step.search) : f.puts value steps name = f name := by
  induction steps generalizing f with
  | nil => rfl
  | cons step rest ih =>
      rw [List.map_cons, List.mem_cons, not_or] at other
      rw [show f.puts value (step :: rest) = (f.put _ _ _).puts value rest from rfl, ih other.2,
        put_other other.1]

theorem put_source {source other : σ} {search inserted text : List Char}
    (filled : f.put other search inserted name = some (source, text)) :
    source = other ∨ f name = some (source, text) := by
  rw [Filling.put, Function.update_apply] at filled
  split at filled
  next here =>
    subst here
    cases before : f name with
    | none =>
        rw [before] at filled
        exact .inl (Prod.mk.inj (Option.some.inj filled)).1.symm
    | some entry =>
        rw [before] at filled
        exact .inr filled
  next => exact .inr filled

theorem puts_source {source : σ} {text : List Char}
    (filled : f.puts value steps name = some (source, text)) :
    source ∈ steps.map Step.source ∨ f name = some (source, text) := by
  induction steps generalizing f with
  | nil => exact .inr filled
  | cons step rest ih =>
      rcases ih (f := f.put step.source step.search (value step.source)) filled with later | before
      · exact .inl (List.mem_cons_of_mem _ later)
      · rcases put_source before with rfl | kept
        · exact .inl List.mem_cons_self
        · exact .inr kept

theorem put_filled {entry : σ × List Char} (filled : f name = some entry) (source : σ)
    (search text : List Char) : f.put source search text name = some entry := by
  rw [Filling.put, Function.update_apply]
  split
  next here => rw [← here, filled]; rfl
  next => exact filled

theorem puts_filled {entry : σ × List Char} (filled : f name = some entry) :
    f.puts value steps name = some entry := by
  induction steps generalizing f with
  | nil => exact filled
  | cons step rest ih => exact ih (put_filled filled _ _ _)

theorem puts_at {step : Step σ} (member : step ∈ steps) (waiting : f step.search = none)
    (only : ∀ other ∈ steps, other.search = step.search → other = step) :
    f.puts value steps step.search = some (step.source, value step.source) := by
  induction steps generalizing f with
  | nil => cases member
  | cons first rest ih =>
      by_cases here : first = step
      next =>
        subst here
        apply puts_filled (f := f.put _ _ _)
        rw [Filling.put, Function.update_self, waiting]
        rfl
      next =>
        have apart : step.search ≠ first.search := fun same =>
          here (only first List.mem_cons_self same.symm)
        have later := (List.mem_cons.mp member).resolve_left (Ne.symm here)
        exact ih later ((put_other apart).trans waiting) fun other inRest =>
          only other (List.mem_cons_of_mem _ inRest)

theorem safe_of_absent {pieces : List Piece}
    (filled : ∀ name ∈ slots pieces, ∀ source text, f name = some (source, text) →
      ∀ step ∈ steps, occurs step.search text = false)
    (put : ∀ step ∈ steps, step.search ∈ slots pieces →
      ∀ later ∈ steps, occurs later.search (value step.source) = false) :
    f.Safe value pieces steps := by
  induction steps generalizing f with
  | nil => trivial
  | cons step rest ih =>
      refine ⟨fun name member source text holds =>
        filled name member source text holds step List.mem_cons_self, ih ?_ ?_⟩
      · intro name member source text holds later inRest
        rw [Filling.put, Function.update_apply] at holds
        split at holds
        next here =>
          subst here
          cases before : f step.search with
          | none =>
              rw [before] at holds
              rw [← (Prod.mk.inj (Option.some.inj holds)).2]
              exact put step List.mem_cons_self member later (List.mem_cons_of_mem _ inRest)
          | some entry =>
              rw [before] at holds
              exact filled _ member source text (before.trans holds) later
                (List.mem_cons_of_mem _ inRest)
        next => exact filled name member source text holds later (List.mem_cons_of_mem _ inRest)
      · exact fun other member inside later inRest =>
          put other (List.mem_cons_of_mem _ member) inside later (List.mem_cons_of_mem _ inRest)

end

/-- A step meets the template's slots only, and puts its value into its own. -/
structure Step.Fits (step : Step σ) (texts : Texts σ) (value : σ → List Char)
    (pieces : List Piece) : Prop where
  nonempty : step.search ≠ []
  suited : Suited step.search pieces
  names : ∀ name ∈ slots pieces, name ≠ step.search → occurs step.search name = false
  honest : step.search ∈ slots pieces → ∀ f : Filling σ, f step.search = none →
    f.Untouched pieces step.search →
      texts step.source (spell (render f.fill pieces)) = value step.source

section

variable {step : Step σ} {texts : Texts σ} {value : σ → List Char} {pieces : List Piece}
variable {f : Filling σ}

theorem apply_render (fits : step.Fits texts value pieces)
    (untouched : f.Untouched pieces step.search) :
    step.apply texts (render f.fill pieces) =
      render (f.put step.source step.search (value step.source)).fill pieces := by
  rw [Step.apply, replaceAll_render fits.nonempty fits.suited]
  apply render_congr
  intro name member
  simp only [Filling.fill, Filling.put]
  by_cases here : name = step.search
  next =>
    subst here
    rw [Function.update_self]
    cases filled : f step.search with
    | none =>
        rw [fits.honest member f filled untouched, ← List.append_nil (plain step.search),
          Traced.replaceAll_hit (spell_plain step.search) fits.nonempty]
        exact List.append_nil _
    | some entry =>
        apply replaceAll_of_not_occurs
        rw [spell_stamp]
        exact untouched _ member _ _ filled
  next =>
    rw [Function.update_of_ne here]
    cases filled : f name with
    | none =>
        apply replaceAll_of_not_occurs
        rw [spell_plain]
        exact fits.names name member here
    | some entry =>
        apply replaceAll_of_not_occurs
        rw [spell_stamp]
        exact untouched _ member _ _ filled

end

section

variable [DecidableEq σ]

-- How many letters of a text come from a source; `none` is the template.
def share (source : Option σ) (code : List (Stamped σ)) : Nat :=
  code.countP fun x => x.source == source

variable {source other : σ} {from_ : Option σ} {step : Step σ} {texts : Texts σ}
variable {value : σ → List Char} {pieces : List Piece}

@[simp] theorem share_append (front back : List (Stamped σ)) :
    share from_ (front ++ back) = share from_ front + share from_ back := List.countP_append

theorem share_stamp (text : List Char) : share (some source) (stamp source text) = text.length := by
  simp [share, stamp, List.countP_eq_length]

theorem share_stamp_other (apart : from_ ≠ some other) (text : List Char) :
    share from_ (stamp other text) = 0 := by
  simp [share, stamp, List.countP_eq_zero, Ne.symm apart]

theorem share_plain (text : List Char) : share (some source) (plain text) = 0 := by
  simp [share, plain, List.countP_eq_zero, Alphabet.write]

theorem share_replaceFrom_le {search : List Char} {replacement : List (Stamped σ)}
    (foreign : share from_ replacement = 0) (skip : Nat) (subject : List (Stamped σ)) :
    share from_ (Traced.replaceFrom search replacement skip subject) ≤ share from_ subject := by
  induction subject generalizing skip with
  | nil => cases skip <;> exact Nat.le_refl _
  | cons x rest ih =>
      have more : share from_ rest ≤ share from_ (x :: rest) := by
        rw [share, share, List.countP_cons]
        omega
      cases skip with
      | succ skip => exact Nat.le_trans (ih skip) more
      | zero =>
          rw [Traced.replaceFrom]
          split
          next =>
            rw [share_append, foreign, Nat.zero_add]
            exact Nat.le_trans (ih _) more
          next =>
            have kept := ih 0
            rw [share, share, List.countP_cons, List.countP_cons]
            exact Nat.add_le_add_right kept _

theorem share_replaceAll_lt {search text : List Char} {replacement : List (Stamped σ)}
    (foreign : share (some source) replacement = 0) (nonempty : search ≠ [])
    (found : occurs search text = true) :
    share (some source) (Traced.replaceAll (stamp source text) search replacement) <
      text.length := by
  induction text with
  | nil =>
      cases search with
      | nil => exact absurd rfl nonempty
      | cons c search => cases found
  | cons c rest ih =>
      have spelled : spell (⟨c, some source⟩ :: stamp source rest) = c :: rest :=
        spell_stamp source (c :: rest)
      rw [show stamp source (c :: rest) = ⟨c, some source⟩ :: stamp source rest from rfl,
        Traced.replaceAll, Traced.replaceFrom, spelled]
      split
      next =>
        have kept : share (some source)
            (Traced.replaceFrom search replacement (search.length - 1) (stamp source rest)) ≤ _ :=
          share_replaceFrom_le foreign _ _
        rw [share_stamp] at kept
        rw [share_append, foreign, Nat.zero_add, List.length_cons]
        omega
      next miss =>
        rw [occurs, Bool.or_eq_true] at found
        have less := ih (found.resolve_left miss)
        rw [share, List.countP_cons_of_pos (by simp), List.length_cons]
        exact Nat.succ_lt_succ less

theorem share_render (fill : List Char → List (Stamped σ)) (pieces : List Piece) :
    share (some source) (render fill pieces) =
      ((slots pieces).map fun name => share (some source) (fill name)).sum := by
  induction pieces with
  | nil => rfl
  | cons piece rest ih =>
      cases piece with
      | own c =>
          rw [render_own, ← List.singleton_append, share_append, ih]
          exact Nat.zero_add _
      | slot name => rw [render_slot, share_append, ih]; rfl

theorem share_own_le (fill : List Char → List (Stamped σ)) (pieces : List Piece) :
    share from_ (render (fun _ => []) pieces) ≤ share from_ (render fill pieces) := by
  induction pieces with
  | nil => exact Nat.le_refl _
  | cons piece rest ih =>
      cases piece with
      | own c =>
          rw [render_own, render_own, ← List.singleton_append, share_append,
            ← List.singleton_append (l := render fill rest), share_append]
          exact Nat.add_le_add_left ih _
      | slot name =>
          rw [render_slot, render_slot, share_append, share_append]
          exact Nat.add_le_add (Nat.zero_le _) ih

theorem share_apply_le (apart : source ≠ step.source) (code : List (Stamped σ)) :
    share (some source) (step.apply texts code) ≤ share (some source) code :=
  share_replaceFrom_le (share_stamp_other (by simpa using apart) _) 0 code

theorem share_run_le {steps : List (Step σ)} (apart : source ∉ steps.map Step.source)
    (code : List (Stamped σ)) :
    share (some source) (run texts steps code) ≤ share (some source) code := by
  induction steps generalizing code with
  | nil => exact Nat.le_refl _
  | cons step rest ih =>
      rw [List.map_cons, List.mem_cons, not_or] at apart
      exact Nat.le_trans (ih apart.2 _) (share_apply_le apart.1 code)

theorem share_put {f : Filling σ} (apart : source ≠ other) (search text name : List Char) :
    share (some source) ((f.put other search text).fill name) =
      share (some source) (f.fill name) := by
  simp only [Filling.fill, Filling.put]
  by_cases here : name = search
  next =>
    subst here
    rw [Function.update_self]
    cases f name with
    | none => exact (share_stamp_other (by simpa using apart) text).trans (share_plain name).symm
    | some entry => rfl
  next => rw [Function.update_of_ne here]

theorem share_puts {steps : List (Step σ)} (apart : source ∉ steps.map Step.source)
    (f : Filling σ) (name : List Char) :
    share (some source) ((f.puts value steps).fill name) = share (some source) (f.fill name) := by
  induction steps generalizing f with
  | nil => rfl
  | cons step rest ih =>
      rw [List.map_cons, List.mem_cons, not_or] at apart
      exact (ih apart.2 _).trans (share_put apart.1 _ _ name)

theorem share_apply_lt {f : Filling σ} {name text : List Char}
    (fits : step.Fits texts value pieces) (member : name ∈ slots pieces)
    (filled : f name = some (source, text)) (apart : source ≠ step.source)
    (found : occurs step.search text = true) :
    share (some source) (step.apply texts (render f.fill pieces)) <
      share (some source) (render f.fill pieces) := by
  rw [Step.apply, replaceAll_render fits.nonempty fits.suited, share_render, share_render]
  have foreign (text : List Char) : share (some source) (stamp step.source text) = 0 :=
    share_stamp_other (by simpa using apart) text
  apply List.sum_lt_sum
  · exact fun later _ => share_replaceFrom_le (foreign _) 0 _
  · refine ⟨name, member, ?_⟩
    rw [Filling.fill, filled, share_stamp]
    exact share_replaceAll_lt (foreign _) fits.nonempty found

omit [DecidableEq σ] in
theorem Filling.Fresh.put {f : Filling σ} {rest : List (Step σ)}
    (fresh : f.Fresh (step :: rest)) (once : step.source ∉ rest.map Step.source)
    (text : List Char) : (f.put step.source step.search text).Fresh rest := by
  intro name source inserted filled inRest
  rcases put_source filled with rfl | kept
  · exact once inRest
  · exact fresh _ _ _ kept (List.mem_cons_of_mem _ inRest)

theorem run_iff {steps : List (Step σ)} {f : Filling σ}
    (fits : ∀ step ∈ steps, step.Fits texts value pieces)
    (distinct : (steps.map Step.source).Nodup) (fresh : f.Fresh steps) :
    run texts steps (render f.fill pieces) = render (f.puts value steps).fill pieces ↔
      f.Safe value pieces steps := by
  induction steps generalizing f with
  | nil => exact iff_of_true rfl trivial
  | cons step rest ih =>
      rw [List.map_cons, List.nodup_cons] at distinct
      have here := fits step List.mem_cons_self
      have later := ih (fun step member => fits step (List.mem_cons_of_mem _ member)) distinct.2
        (fresh.put distinct.1 (value step.source))
      change run texts rest (step.apply texts (render f.fill pieces)) =
        render ((f.put step.source step.search (value step.source)).puts value rest).fill pieces ↔ _
      constructor
      next =>
        intro same
        have untouched : f.Untouched pieces step.search := by
          intro name member source text filled
          by_contra found
          have apart := fresh name source text filled
          rw [List.map_cons, List.mem_cons, not_or] at apart
          have less := share_apply_lt here member filled apart.1
            (Bool.of_not_eq_false found)
          have kept : share (some source)
              (run texts rest (step.apply texts (render f.fill pieces))) ≤ _ :=
            share_run_le apart.2 _
          rw [same, share_render] at kept
          simp only [share_puts apart.2, share_put apart.1] at kept
          rw [← share_render] at kept
          omega
        refine ⟨untouched, later.mp ?_⟩
        rw [← apply_render here untouched, same]
      next =>
        rintro ⟨untouched, safe⟩
        rw [apply_render here untouched]
        exact later.mpr safe

end

end VitaTools.Library
