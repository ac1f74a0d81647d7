import Mathlib.Tactic.IntervalCases
import VitaTools.Decompiler.Model

set_option autoImplicit false

namespace VitaTools.Decompiler

-- What stands on either side of an operator. `same` and `bin` are bracketed.
inductive Term
  | var (reg : Reg)
  | imm (word : Word)
  | same (body : Term)
  | bin (op : Binary) (left right : Term)
deriving DecidableEq

inductive Expr
  | term (body : Term)
  | bin (op : Binary) (left right : Term)
deriving DecidableEq

namespace Binary

def sign : Binary → Text
  | .add => ['+']
  | .sub => ['-']
  | .and => ['&']
  | .orr => ['|']
  | .eor => ['^']
  | .lsl => ['<', '<']
  | .lsr => ['>', '>']

-- C leaves a shift by 32 or more undefined.
def evalC (op : Binary) (left right : Word) : Option Word :=
  match op with
  | .add => some (left + right)
  | .sub => some (left - right)
  | .and => some (left &&& right)
  | .orr => some (left ||| right)
  | .eor => some (left ^^^ right)
  | .lsl => if right.toNat < 32 then some (left <<< right.toNat) else none
  | .lsr => if right.toNat < 32 then some (left >>> right.toNat) else none

end Binary

namespace Term

def render : Term → Text
  | .var reg => getRegName reg
  | .imm word => getImmString word false
  | .same body => '(' :: body.render ++ [')']
  | .bin op left right =>
      '(' :: left.render ++ ' ' :: op.sign ++ ' ' :: right.render ++ [')']

def eval (vars : Reg → Word) : Term → Option Word
  | .var reg => some (vars reg)
  | .imm word => some word
  | .same body => body.eval vars
  | .bin op left right => do op.evalC (← left.eval vars) (← right.eval vars)

end Term

namespace Expr

def render : Expr → Text
  | .term body => body.render
  | .bin op left right => left.render ++ ' ' :: op.sign ++ ' ' :: right.render

def eval (vars : Reg → Word) : Expr → Option Word
  | .term body => body.eval vars
  | .bin op left right => do op.evalC (← left.eval vars) (← right.eval vars)

end Expr

def regs : List Reg :=
  [.r0, .r1, .r2, .r3, .r4, .r5, .r6, .r7, .r8, .r9, .r10, .r11, .r12, .sp, .lr]

def parseReg (c1 c2 : Char) : Option Reg := regs.find? fun reg => getRegName reg = [c1, c2]

def digits : List (BitVec 4) := [0, 1, 2, 3, 4, 5, 6, 7, 8, 9, 10, 11, 12, 13, 14, 15]

def parseDigit (c : Char) : Option (BitVec 4) := digits.find? fun digit => hexChar digit = c

def parseHex : Word → Text → Word × Text
  | imm, c :: rest =>
      match parseDigit c with
      | some digit => parseHex (imm <<< 4 ||| digit.setWidth 32) rest
      | none => (imm, c :: rest)
  | imm, [] => (imm, [])

def parseDecimal (c : Char) : Option Word :=
  match parseDigit c with
  | some digit => if digit.toNat < 10 then some (digit.setWidth 32) else none
  | none => none

def parseAtom : Text → Option (Term × Text)
  | '0' :: 'x' :: c :: rest => do
      let digit ← parseDigit c
      let (imm, rest) := parseHex (digit.setWidth 32) rest
      return (.imm imm, rest)
  | '-' :: c :: rest => do return (.imm (-(← parseDecimal c)), rest)
  | c :: rest =>
      match parseDecimal c, rest with
      | some imm, rest => some (.imm imm, rest)
      | none, c2 :: rest => do return (.var (← parseReg c c2), rest)
      | none, [] => none
  | [] => none

def parseSign : Text → Option (Binary × Text)
  | '+' :: rest => some (.add, rest)
  | '-' :: rest => some (.sub, rest)
  | '&' :: rest => some (.and, rest)
  | '|' :: rest => some (.orr, rest)
  | '^' :: rest => some (.eor, rest)
  | '<' :: '<' :: rest => some (.lsl, rest)
  | '>' :: '>' :: rest => some (.lsr, rest)
  | _ => none

def expect (c : Char) : Text → Option Text
  | [] => none
  | d :: rest => if d = c then some rest else none

def parseInfix (text : Text) : Option (Binary × Text) := do
  let (op, rest) ← parseSign (← expect ' ' text)
  return (op, ← expect ' ' rest)

-- `fuel` bounds the nesting of brackets.
def parseTerm : Nat → Text → Option (Term × Text)
  | 0, _ => none
  | fuel + 1, text =>
      match expect '(' text with
      | none => parseAtom text
      | some rest => do
          let (left, rest) ← parseTerm fuel rest
          match expect ')' rest with
          | some rest => return (.same left, rest)
          | none =>
              let (op, rest) ← parseInfix rest
              let (right, rest) ← parseTerm fuel rest
              return (.bin op left right, ← expect ')' rest)

def parseStatement : Text → Option (Reg × Expr)
  | c1 :: c2 :: text => do
      let reg ← parseReg c1 c2
      let rest ← expect ' ' (← expect '=' (← expect ' ' text))
      let (left, rest) ← parseTerm rest.length rest
      if rest = [';'] then return (reg, .term left)
      else
        let (op, rest) ← parseInfix rest
        let (right, rest) ← parseTerm rest.length rest
        if rest = [';'] then return (reg, .bin op left right) else none
  | _ => none

def evalStatement (text : Text) (vars : Reg → Word) : Option (Reg × Word) := do
  let (reg, expr) ← parseStatement text
  return (reg, ← expr.eval vars)

def joinDigits (word : Word) (digits : List (BitVec 4)) : Word :=
  digits.foldl (fun word digit => word <<< 4 ||| digit.setWidth 32) word

theorem joinDigits_nibbles (word : Word) :
    joinDigits 0 ([7, 6, 5, 4, 3, 2, 1, 0].map fun k => word.extractLsb' (4 * k) 4) = word := by
  simp only [joinDigits, List.map, List.foldl]
  ext i bound
  simp only [BitVec.getElem_or, BitVec.getElem_shiftLeft, BitVec.getElem_setWidth]
  interval_cases i <;> simp

theorem joinDigits_dropWhile (digits : List (BitVec 4)) :
    joinDigits 0 (digits.dropWhile (· == 0)) = joinDigits 0 digits := by
  induction digits with
  | nil => rfl
  | cons digit rest ih =>
      by_cases zero : digit = 0
      next =>
        subst zero
        exact ih
      next => rw [List.dropWhile_cons_of_neg (by simpa using zero)]

theorem joinDigits_hexDigits (word : Word) : joinDigits 0 (hexDigits word) = word := by
  have all := (joinDigits_dropWhile _).trans (joinDigits_nibbles word)
  unfold hexDigits
  split
  next empty =>
    rw [empty] at all
    rw [← all]
    rfl
  next => exact all

def Delimited (rest : Text) : Prop :=
  ∃ c tail, rest = c :: tail ∧ (c = ' ' ∨ c = ')' ∨ c = ';')

theorem parseDigit_hexChar (digit : BitVec 4) : parseDigit (hexChar digit) = some digit := by
  revert digit
  decide

theorem parseHex_digits (digits : List (BitVec 4)) (word : Word) {rest : Text}
    (delimited : Delimited rest) :
    parseHex word (digits.map hexChar ++ rest) = (joinDigits word digits, rest) := by
  induction digits generalizing word with
  | nil =>
      obtain ⟨c, tail, rfl, rfl | rfl | rfl⟩ := delimited <;> rfl
  | cons digit later ih =>
      rw [List.map_cons, List.cons_append, parseHex, parseDigit_hexChar]
      exact ih _

theorem parseAtom_small (n : Int) (low : -9 ≤ n) (high : n ≤ 9) {rest : Text}
    (delimited : Delimited rest) :
    parseAtom ((toString n).toList ++ rest) = some (.imm (BitVec.ofInt 32 n), rest) := by
  obtain ⟨c, tail, rfl, rfl | rfl | rfl⟩ := delimited <;> interval_cases n <;> rfl

theorem parseAtom_hex (word : Word) {rest : Text} (delimited : Delimited rest) :
    parseAtom ("0x".toList ++ (hexDigits word).map hexChar ++ rest) = some (.imm word, rest) := by
  have joined := joinDigits_hexDigits word
  cases shape : hexDigits word with
  | nil =>
      unfold hexDigits at shape
      split at shape
      next => cases shape
      next some_digits => exact absurd shape some_digits
  | cons digit later =>
      rw [shape] at joined
      change parseAtom ('0' :: 'x' :: hexChar digit :: (later.map hexChar ++ rest)) = _
      rw [parseAtom, parseDigit_hexChar]
      have first : joinDigits 0 (digit :: later) = joinDigits (digit.setWidth 32) later := by
        simp [joinDigits]
      rw [first] at joined
      simp [parseHex_digits later _ delimited, joined]

theorem small_bounds {n : Int} {negative : Bool}
    (small : (-9 ≤ n ∧ n < 0) ∨ (0 ≤ n ∧ n ≤ 9) ∨ (false = true ∧ negative = true)) :
    -9 ≤ n ∧ n ≤ 9 := by
  obtain ⟨low, high⟩ | ⟨low, high⟩ | ⟨memory, -⟩ := small
  · exact ⟨low, by omega⟩
  · exact ⟨by omega, high⟩
  · cases memory

theorem parseAtom_imm (word : Word) {rest : Text} (delimited : Delimited rest) :
    parseAtom (getImmString word false ++ rest) = some (.imm word, rest) := by
  unfold getImmString
  split
  next small =>
    obtain ⟨low, high⟩ := small_bounds small
    have parsed := parseAtom_small word.toInt low high delimited
    rwa [BitVec.ofInt_toInt] at parsed
  next => exact parseAtom_hex word delimited

theorem parseAtom_var (reg : Reg) (rest : Text) :
    parseAtom (getRegName reg ++ rest) = some (.var reg, rest) := by
  cases reg <;> rfl

theorem expect_var (reg : Reg) (rest : Text) : expect '(' (getRegName reg ++ rest) = none := by
  cases reg <;> rfl

theorem expect_imm (word : Word) (rest : Text) :
    expect '(' (getImmString word false ++ rest) = none := by
  unfold getImmString
  split
  next small =>
    obtain ⟨low, high⟩ := small_bounds small
    generalize word.toInt = n at low high
    interval_cases n <;> rfl
  next => rfl

theorem parseSign_sign (op : Binary) (rest : Text) :
    parseSign (op.sign ++ rest) = some (op, rest) := by
  cases op <;> rfl

theorem parseInfix_sign (op : Binary) (rest : Text) :
    parseInfix (' ' :: op.sign ++ ' ' :: rest) = some (op, rest) := by
  change (do
    let (op, rest) ← parseSign (op.sign ++ ' ' :: rest)
    return (op, ← expect ' ' rest)) = _
  rw [parseSign_sign]
  rfl

theorem blank_delimited (rest : Text) : Delimited (' ' :: rest) := ⟨_, _, rfl, .inl rfl⟩

theorem bracket_delimited (rest : Text) : Delimited (')' :: rest) := ⟨_, _, rfl, .inr (.inl rfl)⟩

theorem end_delimited : Delimited [';'] := ⟨_, _, rfl, .inr (.inr rfl)⟩

theorem Term.render_length_pos (term : Term) : 0 < term.render.length := by
  cases term with
  | var reg => cases reg <;> decide
  | imm word =>
      by_contra empty
      have parsed := parseAtom_imm word end_delimited
      have none_left : getImmString word false = [] := by simpa [Term.render] using empty
      rw [none_left] at parsed
      have nothing : parseAtom [';'] = none := by decide
      exact absurd (nothing.symm.trans parsed) (by simp)
  | same => simp [Term.render]
  | bin => simp [Term.render]

theorem parseTerm_render (term : Term) {fuel : Nat} (enough : term.render.length ≤ fuel)
    {rest : Text} (delimited : Delimited rest) :
    parseTerm fuel (term.render ++ rest) = some (term, rest) := by
  induction term generalizing fuel rest with
  | var reg =>
      obtain ⟨fuel, rfl⟩ := Nat.exists_eq_add_of_lt (Term.render_length_pos _ |>.trans_le enough)
      simp only [Term.render, parseTerm, expect_var, parseAtom_var]
  | imm word =>
      obtain ⟨fuel, rfl⟩ := Nat.exists_eq_add_of_lt (Term.render_length_pos _ |>.trans_le enough)
      simp only [Term.render, parseTerm, expect_imm, parseAtom_imm word delimited]
  | same body ih =>
      obtain ⟨fuel, rfl⟩ := Nat.exists_eq_add_of_lt (Term.render_length_pos _ |>.trans_le enough)
      have shorter : body.render.length ≤ fuel := by simp [Term.render] at enough; omega
      have inner := ih shorter (bracket_delimited rest)
      have text : (Term.same body).render ++ rest = '(' :: (body.render ++ ')' :: rest) := by
        simp [Term.render]
      rw [text, Nat.zero_add, parseTerm]
      simp [expect, inner]
  | bin op left right ihLeft ihRight =>
      obtain ⟨fuel, rfl⟩ := Nat.exists_eq_add_of_lt (Term.render_length_pos _ |>.trans_le enough)
      have lengths : left.render.length ≤ fuel ∧ right.render.length ≤ fuel := by
        simp [Term.render] at enough
        omega
      have first := ihLeft lengths.1
        (blank_delimited (op.sign ++ ' ' :: (right.render ++ ')' :: rest)))
      have second := ihRight lengths.2 (bracket_delimited rest)
      have text : (Term.bin op left right).render ++ rest =
          '(' :: (left.render ++ ' ' :: (op.sign ++ ' ' :: (right.render ++ ')' :: rest))) := by
        simp [Term.render]
      have sign := parseInfix_sign op (right.render ++ ')' :: rest)
      rw [List.cons_append] at sign
      rw [text, Nat.zero_add, parseTerm]
      simp [expect, first, sign, second]

theorem parseTerm_whole (term : Term) {rest : Text} (delimited : Delimited rest) :
    parseTerm (term.render ++ rest).length (term.render ++ rest) = some (term, rest) :=
  parseTerm_render term (by simp) delimited

-- The assignment of `expr` to `reg`, as printed.
def statement (reg : Reg) (expr : Expr) : Text :=
  getRegName reg ++ " = ".toList ++ expr.render ++ [';']

theorem parseStatement_statement (reg : Reg) (expr : Expr) :
    parseStatement (statement reg expr) = some (reg, expr) := by
  have front : ∀ body : Text, parseStatement (getRegName reg ++ " = ".toList ++ body) = (do
      let (left, rest) ← parseTerm body.length body
      if rest = [';'] then return (reg, .term left)
      else
        let (op, rest) ← parseInfix rest
        let (right, rest) ← parseTerm rest.length rest
        if rest = [';'] then return (reg, .bin op left right) else none) := by
    intro body
    cases reg <;> rfl
  have shape : statement reg expr = getRegName reg ++ " = ".toList ++ (expr.render ++ [';']) := by
    simp [statement]
  rw [shape, front]
  cases expr with
  | term body =>
      rw [Expr.render, parseTerm_whole body end_delimited]
      simp
  | bin op left right =>
      have text : (Expr.bin op left right).render ++ [';'] =
          left.render ++ ' ' :: (op.sign ++ ' ' :: (right.render ++ [';'])) := by
        simp [Expr.render]
      have first := parseTerm_whole left
        (blank_delimited (op.sign ++ ' ' :: (right.render ++ [';'])))
      have second := parseTerm_whole right end_delimited
      have sign := parseInfix_sign op (right.render ++ [';'])
      rw [List.cons_append] at sign
      rw [text, first]
      simp [sign, second, -List.length_append]

theorem evalStatement_statement (reg : Reg) (expr : Expr) (vars : Reg → Word) :
    evalStatement (statement reg expr) vars = (expr.eval vars).map fun word => (reg, word) := by
  rw [evalStatement, parseStatement_statement]
  cases h : expr.eval vars <;> simp [h]

end VitaTools.Decompiler
