import VitaTools.Library.Template

set_option autoImplicit false

namespace VitaTools.Library

open Traced

inductive Token
  | word (text : List Char)
  | mark (c : Char)
  | slot (name : List Char)
deriving DecidableEq

def isWordChar (c : Char) : Bool := c.isAlphanum || c == '_'

def flush (word : List Char) : List Token := if word.isEmpty then [] else [.word word]

def markOf (c : Char) : List Token := if c.isWhitespace then [] else [.mark c]

-- `word` is what has been read of a word.
def lexFrom (word : List Char) : List Char → List Token
  | [] => flush word
  | c :: rest =>
      if isWordChar c then lexFrom (word ++ [c]) rest
      else flush word ++ (markOf c ++ lexFrom [] rest)

def lex (text : List Char) : List Token := lexFrom [] text

def parted : List Char → Bool
  | [] => true
  | c :: _ => !isWordChar c

theorem lexFrom_parted {back : List Char} (apart : parted back = true) (word : List Char) :
    lexFrom word back = flush word ++ lex back := by
  cases back with
  | nil => exact (List.append_nil _).symm
  | cons c rest =>
      rw [parted, Bool.not_eq_true'] at apart
      rw [lex, lexFrom, lexFrom, apart, if_neg Bool.false_ne_true, if_neg Bool.false_ne_true]
      rfl

theorem lexFrom_append {back : List Char} (apart : parted back = true) (front word : List Char) :
    lexFrom word (front ++ back) = lexFrom word front ++ lex back := by
  induction front generalizing word with
  | nil => exact lexFrom_parted apart word
  | cons c rest ih =>
      rw [List.cons_append, lexFrom, lexFrom]
      split
      next => exact ih _
      next => rw [ih, List.append_assoc, List.append_assoc]

theorem lex_append {back : List Char} (apart : parted back = true) (front : List Char) :
    lex (front ++ back) = lex front ++ lex back := lexFrom_append apart front []

theorem lex_mark {c : Char} (apart : isWordChar c = false) (visible : c.isWhitespace = false)
    (rest : List Char) : lex (c :: rest) = .mark c :: lex rest := by
  rw [lex, lexFrom, apart, if_neg Bool.false_ne_true, markOf, visible, if_neg Bool.false_ne_true]
  rfl

theorem lex_blank {c : Char} (apart : isWordChar c = false) (white : c.isWhitespace = true)
    (rest : List Char) : lex (c :: rest) = lex rest := by
  rw [lex, lexFrom, apart, if_neg Bool.false_ne_true, markOf, white, if_pos rfl]
  rfl

theorem lex_word {word : List Char} (letters : ∀ c ∈ word, isWordChar c = true)
    (nonempty : word ≠ []) : lex word = [.word word] := by
  have read (front : List Char) : lexFrom front word = flush (front ++ word) := by
    induction word generalizing front with
    | nil => rw [List.append_nil]; rfl
    | cons c rest ih =>
        rw [lexFrom, letters c List.mem_cons_self, if_pos rfl]
        by_cases last : rest = []
        next => rw [last]; rfl
        next =>
          rw [ih (fun d member => letters d (List.mem_cons_of_mem c member)) last,
            List.append_assoc]
          rfl
  rw [lex, read, List.nil_append, flush, List.isEmpty_eq_false_iff.mpr nonempty]
  rfl

def lexPieces (hole : List Char → List Token) (word : List Char) : List Piece → List Token
  | [] => flush word
  | .own c :: rest =>
      if isWordChar c then lexPieces hole (word ++ [c]) rest
      else flush word ++ (markOf c ++ lexPieces hole [] rest)
  | .slot name :: rest => flush word ++ (hole name ++ lexPieces hole [] rest)

def tokensOf (pieces : List Piece) : List Token := lexPieces (fun name => [.slot name]) [] pieces

def Token.fill (f : List Char → List Token) : Token → List Token
  | .slot name => f name
  | token => [token]

def fillTokens (f : List Char → List Token) (tokens : List Token) : List Token :=
  tokens.flatMap (Token.fill f)

def aloneIn (pieces : List Piece) : Bool := flanked (fun c => !isWordChar c) pieces

section

variable {α : Type} [Alphabet α] {fill : List Char → List α} {f : List Char → List Token}

@[simp] theorem fillTokens_nil : fillTokens f [] = [] := rfl

@[simp] theorem fillTokens_word (text : List Char) (rest : List Token) :
    fillTokens f (.word text :: rest) = .word text :: fillTokens f rest := rfl

@[simp] theorem fillTokens_mark (c : Char) (rest : List Token) :
    fillTokens f (.mark c :: rest) = .mark c :: fillTokens f rest := rfl

@[simp] theorem fillTokens_slot (name : List Char) (rest : List Token) :
    fillTokens f (.slot name :: rest) = f name ++ fillTokens f rest := rfl

theorem fillTokens_append (front back : List Token) :
    fillTokens f (front ++ back) = fillTokens f front ++ fillTokens f back := List.flatMap_append

theorem fillTokens_fillTokens {g : List Char → List Token} (tokens : List Token) :
    fillTokens f (fillTokens g tokens) = fillTokens (fun name => fillTokens f (g name)) tokens := by
  induction tokens with
  | nil => rfl
  | cons token rest ih =>
      cases token with
      | word text => rw [fillTokens_word, fillTokens_word, fillTokens_word, ih]
      | mark c => rw [fillTokens_mark, fillTokens_mark, fillTokens_mark, ih]
      | slot name => rw [fillTokens_slot, fillTokens_slot, fillTokens_append, ih]

theorem mem_fillTokens {name : List Char} {tokens : List Token}
    (member : .slot name ∈ fillTokens f tokens) :
    ∃ other, .slot other ∈ tokens ∧ .slot name ∈ f other := by
  obtain ⟨token, inside, here⟩ := List.mem_flatMap.mp member
  cases token with
  | word text => cases List.mem_singleton.mp here
  | mark c => cases List.mem_singleton.mp here
  | slot other => exact ⟨other, inside, here⟩

theorem fillTokens_flush (word : List Char) : fillTokens f (flush word) = flush word := by
  rw [flush]
  split <;> rfl

theorem fillTokens_markOf (c : Char) : fillTokens f (markOf c) = markOf c := by
  rw [markOf]
  split <;> rfl

theorem fillTokens_lexPieces (hole : List Char → List Token) (word : List Char)
    (pieces : List Piece) :
    fillTokens f (lexPieces hole word pieces) =
      lexPieces (fun name => fillTokens f (hole name)) word pieces := by
  induction pieces generalizing word with
  | nil => exact fillTokens_flush word
  | cons piece rest ih =>
      cases piece with
      | own c =>
          rw [lexPieces, lexPieces]
          split
          next => exact ih _
          next =>
            rw [fillTokens_append, fillTokens_append, fillTokens_flush, fillTokens_markOf, ih]
      | slot name =>
          rw [lexPieces, lexPieces, fillTokens_append, fillTokens_append, fillTokens_flush, ih]

theorem lexFrom_render (word : List Char) {pieces : List Piece} (alone : aloneIn pieces = true)
    (fresh : ∀ name rest, pieces = .slot name :: rest → word = []) :
    lexFrom word (spell (render fill pieces)) =
      lexPieces (fun name => lex (spell (fill name))) word pieces := by
  induction pieces generalizing word with
  | nil => rfl
  | cons piece rest ih =>
      have later : aloneIn rest = true := flanked_rest alone
      cases piece with
      | own c =>
          rw [spell_own, lexFrom, lexPieces]
          split
          next letter =>
            refine ih _ later fun name back slot => ?_
            rw [slot, aloneIn, flanked, letter] at alone
            cases alone
          next => rw [ih [] later fun _ _ _ => rfl]
      | slot name =>
          have apart : parted (spell (render fill rest)) = true := by
            cases rest with
            | nil => rfl
            | cons next rest =>
                cases next with
                | own c =>
                    rw [aloneIn, flanked, Bool.and_eq_true] at alone
                    rw [spell_own]
                    exact alone.1
                | slot other => cases alone
          rw [fresh name rest rfl, render_slot, spell_append, lexFrom_append apart, lexPieces, lex,
            ih [] later fun _ _ _ => rfl]
          rfl

theorem lex_render {pieces : List Piece} (alone : aloneIn pieces = true) :
    lex (spell (render fill pieces)) =
      fillTokens (fun name => lex (spell (fill name))) (tokensOf pieces) := by
  rw [lex, lexFrom_render [] alone fun _ _ _ => rfl, tokensOf, fillTokens_lexPieces]
  simp only [fillTokens_slot, fillTokens_nil, List.append_nil]

theorem fillTokens_congr {g : List Char → List Token} {tokens : List Token}
    (same : ∀ name, .slot name ∈ tokens → f name = g name) :
    fillTokens f tokens = fillTokens g tokens := by
  induction tokens with
  | nil => rfl
  | cons token rest ih =>
      have later := ih fun name member => same name (List.mem_cons_of_mem token member)
      cases token with
      | word text => rw [fillTokens_word, fillTokens_word, later]
      | mark c => rw [fillTokens_mark, fillTokens_mark, later]
      | slot name =>
          rw [fillTokens_slot, fillTokens_slot, later, same name List.mem_cons_self]

end

theorem mem_lexPieces {hole : List Char → List Token} {name : List Char} {word : List Char}
    {pieces : List Piece} (member : .slot name ∈ lexPieces hole word pieces) :
    ∃ other ∈ slots pieces, .slot name ∈ hole other := by
  have flushed (word : List Char) : .slot name ∉ flush word := by
    rw [flush]
    split <;> simp
  have marked (c : Char) : .slot name ∉ markOf c := by
    rw [markOf]
    split <;> simp
  induction pieces generalizing word with
  | nil => exact absurd member (flushed word)
  | cons piece rest ih =>
      cases piece with
      | own c =>
          rw [lexPieces] at member
          split at member
          next => exact ih member
          next =>
            rw [List.mem_append, List.mem_append] at member
            rcases member with before | mark | later
            · exact absurd before (flushed word)
            · exact absurd mark (marked c)
            · exact ih later
      | slot other =>
          rw [lexPieces, List.mem_append, List.mem_append] at member
          rcases member with before | here | later
          · exact absurd before (flushed word)
          · exact ⟨other, List.mem_cons_self, here⟩
          · obtain ⟨found, inside, holds⟩ := ih later
            exact ⟨found, List.mem_cons_of_mem _ inside, holds⟩

theorem mem_tokensOf {name : List Char} {pieces : List Piece}
    (member : .slot name ∈ tokensOf pieces) : name ∈ slots pieces := by
  obtain ⟨other, inside, here⟩ := mem_lexPieces member
  obtain ⟨⟩ := List.mem_singleton.mp here
  exact inside

def inPlace (letter : Char) (text : List Char) (pieces : List Piece) : List Piece :=
  pieces.flatMap fun
    | .own c => if c = letter then text.map .own else [.own c]
    | .slot name => [.slot name]

section

variable {letter : Char} {text : List Char}

theorem inPlace_own (c : Char) (rest : List Piece) :
    inPlace letter text (.own c :: rest) =
      (if c = letter then text.map .own else [.own c]) ++ inPlace letter text rest := rfl

theorem inPlace_slot (name : List Char) (rest : List Piece) :
    inPlace letter text (.slot name :: rest) = .slot name :: inPlace letter text rest := rfl

theorem render_inPlace {fill : List Char → List Char} (filled : fill [letter] = text)
    (pieces : List Piece) :
    render fill (letterSlots letter pieces) = render fill (inPlace letter text pieces) := by
  induction pieces with
  | nil => rfl
  | cons piece rest ih =>
      cases piece with
      | own c =>
          rw [letterSlots, inPlace_own, render_append, ← ih]
          split
          next => rw [render_slot, filled, render_map_own, plain_char]
          next => rfl
      | slot name => rw [letterSlots, inPlace_slot, render_slot, render_slot, ih]

theorem mem_slots_inPlace {name : List Char} {pieces : List Piece}
    (member : name ∈ slots (inPlace letter text pieces)) : name ∈ slots pieces := by
  induction pieces with
  | nil => exact member
  | cons piece rest ih =>
      cases piece with
      | own c =>
          rw [inPlace_own, slots_append, List.mem_append] at member
          refine member.elim (fun own => ?_) ih
          split at own
          next => rw [slots_map_own] at own; cases own
          next => cases own
      | slot other =>
          rw [inPlace_slot] at member
          rcases List.mem_cons.mp member with rfl | later
          · exact List.mem_cons_self
          · exact List.mem_cons_of_mem other (ih later)

theorem flanked_own {outside : Char → Bool} {c : Char} (apart : outside c = true)
    (rest : List Piece) : flanked outside (.own c :: rest) = flanked outside rest := by
  cases rest with
  | nil => rfl
  | cons piece rest =>
      cases piece with
      | own d => rfl
      | slot name => rw [flanked, apart, Bool.true_and]

theorem flanked_inPlace {outside : Char → Bool} {c : Char}
    (apart : ∀ d ∈ c :: text, outside d = true) {pieces : List Piece}
    (flanks : flanked outside pieces = true) :
    flanked outside (inPlace letter (c :: text) pieces) = true := by
  have owns {text : List Char} (apart : ∀ d ∈ text, outside d = true) {rest : List Piece}
      (flanks : flanked outside rest = true) :
      flanked outside (text.map .own ++ rest) = true := by
    induction text with
    | nil => exact flanks
    | cons d text ih =>
        rw [List.map_cons, List.cons_append, flanked_own (apart d List.mem_cons_self)]
        exact ih fun e member => apart e (List.mem_cons_of_mem d member)
  induction pieces with
  | nil => rfl
  | cons piece rest ih =>
      have later := ih (flanked_rest flanks)
      cases piece with
      | own d =>
          rw [inPlace_own]
          split
          next => exact owns apart later
          next other =>
            cases rest with
            | nil => rfl
            | cons next rest =>
                cases next with
                | slot name =>
                    rw [flanked, Bool.and_eq_true] at flanks
                    rw [List.singleton_append, flanked_own flanks.1]
                    exact later
                | own e =>
                    rw [inPlace_own] at later ⊢
                    by_cases same : e = letter
                    next =>
                      rw [if_pos same] at later ⊢
                      exact later
                    next =>
                      rw [if_neg same] at later ⊢
                      exact later
      | slot name =>
          rw [inPlace_slot]
          cases rest with
          | nil => rfl
          | cons next rest =>
              cases next with
              | slot other => cases flanks
              | own d =>
                  rw [flanked, Bool.and_eq_true] at flanks
                  rw [inPlace_own] at later ⊢
                  split
                  next same =>
                    rw [if_pos same] at later
                    rw [List.map_cons, List.cons_append, flanked, apart c List.mem_cons_self]
                    exact later
                  next other =>
                    rw [if_neg other] at later
                    rw [List.singleton_append, flanked, flanks.1]
                    exact later

theorem lexPieces_blank (hole : List Char → List Token) {c : Char} {text : List Char}
    (blank : ∀ d ∈ c :: text, d.isWhitespace = true ∧ isWordChar d = false) (word : List Char)
    (rest : List Piece) :
    lexPieces hole word ((c :: text).map .own ++ rest) = flush word ++ lexPieces hole [] rest := by
  induction text generalizing c word with
  | nil =>
      obtain ⟨white, apart⟩ := blank c List.mem_cons_self
      rw [List.map_cons, List.map_nil, List.singleton_append, lexPieces, apart,
        if_neg Bool.false_ne_true, markOf, white, if_pos rfl, List.nil_append]
  | cons d text ih =>
      obtain ⟨white, apart⟩ := blank c List.mem_cons_self
      have later := ih (fun e member => blank e (List.mem_cons_of_mem c member)) []
      rw [List.map_cons, List.cons_append, lexPieces, apart, if_neg Bool.false_ne_true, markOf,
        white, if_pos rfl, List.nil_append, later]
      rfl

theorem lexPieces_inPlace (hole : List Char → List Token) {c : Char} {text other : List Char}
    {d : Char} (first : ∀ e ∈ c :: text, e.isWhitespace = true ∧ isWordChar e = false)
    (second : ∀ e ∈ d :: other, e.isWhitespace = true ∧ isWordChar e = false) (word : List Char)
    (pieces : List Piece) :
    lexPieces hole word (inPlace letter (c :: text) pieces) =
      lexPieces hole word (inPlace letter (d :: other) pieces) := by
  induction pieces generalizing word with
  | nil => rfl
  | cons piece rest ih =>
      cases piece with
      | own e =>
          rw [inPlace_own, inPlace_own]
          split
          next => rw [lexPieces_blank hole first, lexPieces_blank hole second, ih]
          next =>
            rw [List.singleton_append, List.singleton_append, lexPieces, lexPieces]
            split
            next => exact ih _
            next => rw [ih]
      | slot name => rw [inPlace_slot, inPlace_slot, lexPieces, lexPieces, ih]

end

end VitaTools.Library
