import VitaTools.Library.Expressions
import VitaTools.Library.Memory
import VitaTools.Library.Numerals

set_option autoImplicit false

namespace VitaTools.Library

namespace C

abbrev Value := BitVec 32

def isHexDigit (c : Char) : Bool := c.isDigit || ('a' ≤ c.toLower && c.toLower ≤ 'f')

def literal : List Char → Option Value
  | '0' :: 'x' :: digits =>
      if !digits.isEmpty && digits.all isHexDigit then
        some (BitVec.ofNat 32 (numeral 16 (digits.map Char.toLower)))
      else none
  | '0' :: digits =>
      if digits.all (· < '8') && digits.all Char.isDigit then
        some (BitVec.ofNat 32 (numeral 8 digits))
      else none
  | digits =>
      if digits.all Char.isDigit then some (BitVec.ofNat 32 (numeral 10 digits)) else none

def isName (text : List Char) : Bool := !text.head?.any Char.isDigit

theorem head_toDigits {n : Nat} (positive : 0 < n) : (Nat.toDigits 10 n).head? ≠ some '0' := by
  induction n using Nat.strong_induction_on with
  | h n ih =>
      rw [Nat.toDigits_eq_if (by decide)]
      split
      next single => interval_cases n <;> decide
      next more =>
        have digits := List.ne_nil_of_length_pos (Nat.length_toDigits_pos (b := 10) (n := n / 10))
        rw [List.head?_append_of_ne_nil _ digits]
        exact ih (n / 10) (by omega) (by omega)

theorem literal_toDigits (n : Nat) : literal (Nat.toDigits 10 n) = some (BitVec.ofNat 32 n) := by
  have digits : (Nat.toDigits 10 n).all Char.isDigit = true :=
    List.all_eq_true.mpr fun c member => Nat.isDigit_of_mem_toDigits (by decide) (by decide) member
  have value := numeral_toDigits (b := 10) (by decide) (by decide) n
  by_cases zero : n = 0
  next =>
    subst zero
    rfl
  next =>
    have head := head_toDigits (Nat.pos_of_ne_zero zero)
    rw [literal.eq_3]
    · rw [digits, if_pos rfl, value]
    · intro digits whole
      rw [whole] at head
      exact head rfl
    · intro digits whole
      rw [whole] at head
      exact head rfl

def Op.apply : Op → Value → Value → Option Value
  | .mul, left, right => some (left * right)
  | .add, left, right => some (left + right)
  | .sub, left, right => some (left - right)
  | .shl, left, right => if right.toNat < 32 then some (left <<< right.toNat) else none
  | .shr, left, right => if right.toNat < 32 then some (left >>> right.toNat) else none
  | .and, left, right => some (left &&& right)
  | .xor, left, right => some (left ^^^ right)
  | .or, left, right => some (left ||| right)

def Ty.convert : Ty → Value → Value
  | .uint8, v => (v.setWidth 8).setWidth 32
  | .int8, v => (v.setWidth 8).signExtend 32
  | .uint16, v => (v.setWidth 16).setWidth 32
  | .int16, v => (v.setWidth 16).signExtend 32
  | .uint32, v => v

def Ty.read (m : Memory) (a : Nat) : Ty → Value
  | .uint8 => (m a).setWidth 32
  | .int8 => (m a).signExtend 32
  | .uint16 => (m.half a).setWidth 32
  | .int16 => (m.half a).signExtend 32
  | .uint32 => m.word a

def Ty.write (m : Memory) (a : Nat) (v : Value) : Ty → Memory
  | .uint8 | .int8 => Function.update m a (v.extractLsb' 0 8)
  | .uint16 | .int16 =>
      Function.update (Function.update m a (v.extractLsb' 0 8)) (a + 1) (v.extractLsb' 8 8)
  | .uint32 => m.storeWord a v

def Swap.apply : Swap → Value → Value
  | .bswap16, v => (v.extractLsb' 0 8 ++ v.extractLsb' 8 8).setWidth 32
  | .bswap32, v =>
      v.extractLsb' 0 8 ++ v.extractLsb' 8 8 ++ v.extractLsb' 16 8 ++ v.extractLsb' 24 8

structure State where
  vars : List Char → Value
  mem : Memory

namespace State

variable (s : State)

def value : Expr → Option Value
  | .word text => if isName text then some (s.vars text) else literal text
  | .slot _ => none
  | .complement body => (value body).map (~~~ ·)
  | .negate body => (value body).map (- ·)
  | .binary op left right =>
      (value left).bind fun left => (value right).bind fun right => op.apply left right
  | .cast ty body => (value body).map ty.convert
  | .load ty address => (value address).map fun a => ty.read s.mem a.toNat
  | .swap order body => (value body).map order.apply

def assign (v : Value) : Expr → Option State
  | .word text =>
      if isName text then some { s with vars := Function.update s.vars text v } else none
  | .load ty address => (s.value address).map fun a => { s with mem := ty.write s.mem a.toNat v }
  | _ => none

def exec (a : Assignment) : Option State := (s.value a.value).bind fun v => s.assign v a.target

def run (statements : List Assignment) : Option State := statements.foldlM exec s

def address (a : Assignment) : Option Value :=
  match a.target, a.value with
  | .load _ place, _ => s.value place
  | _, .load _ place => s.value place
  | _, _ => none

def addresses : State → List Assignment → List (Option Value)
  | _, [] => []
  | s, a :: rest => s.address a :: (s.exec a).elim [] fun next => next.addresses rest

end State

end C

end VitaTools.Library
