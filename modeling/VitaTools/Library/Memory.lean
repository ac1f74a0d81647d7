import Mathlib.Data.List.Basic
import Mathlib.Tactic.IntervalCases

set_option autoImplicit false

namespace VitaTools.Library

abbrev Byte := BitVec 8

abbrev Memory := Nat → Byte

namespace Memory

/-- The little-endian word whose lowest byte is at `address`. -/
def word (m : Memory) (address : Nat) : BitVec 32 :=
  (m address).setWidth 32 ||| (m (address + 1)).setWidth 32 <<< 8 |||
    (m (address + 2)).setWidth 32 <<< 16 ||| (m (address + 3)).setWidth 32 <<< 24

def storeWord (m : Memory) (address : Nat) (value : BitVec 32) : Memory := fun a =>
  if a = address then value.extractLsb' 0 8
  else if a = address + 1 then value.extractLsb' 8 8
  else if a = address + 2 then value.extractLsb' 16 8
  else if a = address + 3 then value.extractLsb' 24 8
  else m a

variable (m : Memory) (address : Nat) (value : BitVec 32)

theorem word_bytes :
    (m.word address).extractLsb' 0 8 = m address ∧
      (m.word address).extractLsb' 8 8 = m (address + 1) ∧
      (m.word address).extractLsb' 16 8 = m (address + 2) ∧
      (m.word address).extractLsb' 24 8 = m (address + 3) := by
  unfold word
  refine ⟨?_, ?_, ?_, ?_⟩ <;>
    apply BitVec.eq_of_getLsbD_eq <;> intro i small <;> interval_cases i <;> simp

theorem storeWord_byte (k : Nat) (inside : k < 4) :
    m.storeWord address value (address + k) = value.extractLsb' (8 * k) 8 := by
  unfold storeWord
  interval_cases k <;> simp

theorem storeWord_outside (a : Nat) (outside : a < address ∨ address + 4 ≤ a) :
    m.storeWord address value a = m a := by
  unfold storeWord
  rw [if_neg (by omega), if_neg (by omega), if_neg (by omega), if_neg (by omega)]

@[simp] theorem word_storeWord : (m.storeWord address value).word address = value := by
  apply BitVec.eq_of_getLsbD_eq
  intro i small
  simp only [word, storeWord]
  interval_cases i <;> simp

@[simp] theorem storeWord_word : m.storeWord address (m.word address) = m := by
  obtain ⟨byte0, byte1, byte2, byte3⟩ := word_bytes m address
  funext a
  unfold storeWord
  split_ifs <;> simp_all

@[simp] theorem storeWord_storeWord (first : BitVec 32) :
    (m.storeWord address first).storeWord address value = m.storeWord address value := by
  funext a
  unfold storeWord
  split_ifs <;> rfl

theorem word_congr {m n : Memory} {address : Nat}
    (same : ∀ a, address ≤ a → a < address + 4 → m a = n a) : m.word address = n.word address := by
  unfold word
  rw [same address (by omega) (by omega), same (address + 1) (by omega) (by omega),
    same (address + 2) (by omega) (by omega), same (address + 3) (by omega) (by omega)]

theorem word_storeWord_apart (other : Nat) (apart : other + 4 ≤ address ∨ address + 4 ≤ other) :
    (m.storeWord address value).word other = m.word other :=
  word_congr fun a low high => storeWord_outside m address value a (by omega)

theorem storeWord_comm (other : Nat) (content : BitVec 32)
    (apart : other + 4 ≤ address ∨ address + 4 ≤ other) :
    (m.storeWord address value).storeWord other content =
      (m.storeWord other content).storeWord address value := by
  funext a
  unfold storeWord
  split_ifs <;> first | rfl | omega

def dword : BitVec 64 := m.word (address + 4) ++ m.word address

def storeDword (content : BitVec 64) : Memory :=
  (m.storeWord address (content.extractLsb' 0 32)).storeWord (address + 4)
    (content.extractLsb' 32 32)

theorem storeDword_outside (content : BitVec 64) (a : Nat)
    (outside : a < address ∨ address + 8 ≤ a) : m.storeDword address content a = m a := by
  rw [storeDword, storeWord_outside _ _ _ a (by omega), storeWord_outside _ _ _ a (by omega)]

@[simp] theorem dword_storeDword (content : BitVec 64) :
    (m.storeDword address content).dword address = content := by
  rw [dword, storeDword, word_storeWord, word_storeWord_apart _ _ _ _ (by omega), word_storeWord]
  apply BitVec.eq_of_getLsbD_eq
  intro i small
  simp only [BitVec.getLsbD_append, BitVec.getLsbD_extractLsb']
  by_cases low : i < 32
  next => simp [low]
  next => simp [low, show i - 32 < 32 by omega, Nat.add_sub_cancel' (Nat.le_of_not_lt low)]

theorem dword_congr {m n : Memory} {address : Nat}
    (same : ∀ a, address ≤ a → a < address + 8 → m a = n a) :
    m.dword address = n.dword address := by
  rw [dword, dword, word_congr fun a low high => same a (by omega) (by omega),
    word_congr fun a low high => same a low (by omega)]

theorem dword_storeDword_apart (content : BitVec 64) (other : Nat)
    (apart : other + 8 ≤ address ∨ address + 8 ≤ other) :
    (m.storeDword address content).dword other = m.dword other :=
  dword_congr fun a low high => storeDword_outside m address content a (by omega)

theorem storeDword_dword : m.storeDword address (m.dword address) = m := by
  have low : (m.dword address).extractLsb' 0 32 = m.word address := by
    apply BitVec.eq_of_getLsbD_eq
    intro i small
    rw [BitVec.getLsbD_extractLsb', dword, BitVec.getLsbD_append]
    simp [small]
  have high : (m.dword address).extractLsb' 32 32 = m.word (address + 4) := by
    apply BitVec.eq_of_getLsbD_eq
    intro i small
    rw [BitVec.getLsbD_extractLsb', dword, BitVec.getLsbD_append]
    simp [small]
  rw [storeDword, low, high, storeWord_word, storeWord_word]

theorem storeDword_apart_self (content : BitVec 64) {other : Nat}
    (apart : other + 8 ≤ address ∨ address + 8 ≤ other) :
    (m.storeDword address content).storeDword other (m.dword other) =
      m.storeDword address content := by
  rw [← dword_storeDword_apart m address content other apart, storeDword_dword]

def slice (count : Nat) : List Byte := (List.range count).map fun k => m (address + k)

@[simp] theorem slice_length (count : Nat) : (m.slice address count).length = count := by
  simp [slice]

theorem slice_append (first second : Nat) :
    m.slice address (first + second) =
      m.slice address first ++ m.slice (address + first) second := by
  simp [slice, List.range_add, Nat.add_assoc]

theorem slice_eq_iff {m n : Memory} {a b count : Nat} :
    m.slice a count = n.slice b count ↔ ∀ k < count, m (a + k) = n (b + k) := by
  rw [slice, slice, List.map_inj_left]
  exact forall_congr' fun k => imp_congr_left List.mem_range

theorem slice_congr {m n : Memory} {a b count : Nat} (same : ∀ k < count, m (a + k) = n (b + k)) :
    m.slice a count = n.slice b count := slice_eq_iff.mpr same

def copy (count : Nat) (source : Memory) : Memory := fun a =>
  if address ≤ a ∧ a < address + count then source (a - address) else m a

theorem copy_outside (count : Nat) (source : Memory) (a : Nat) (outside : a < address) :
    m.copy address count source a = m a := by
  rw [copy, if_neg (by omega)]

theorem word_copy_below (count : Nat) (source : Memory) {a : Nat} (below : a + 4 ≤ address) :
    (m.copy address count source).word a = m.word a :=
  word_congr fun b _ high => copy_outside m address count source b (by omega)

theorem word_copy (count : Nat) (source : Memory) {k : Nat} (inside : k + 4 ≤ count) :
    (m.copy address count source).word (address + k) = source.word k := by
  have byte (j : Nat) (small : j < 4) :
      m.copy address count source (address + k + j) = source (k + j) := by
    rw [copy, if_pos (by omega), Nat.add_assoc, Nat.add_sub_cancel_left]
  have first := byte 0 (by decide)
  rw [Nat.add_zero, Nat.add_zero] at first
  rw [word, word, first, byte 1 (by decide), byte 2 (by decide), byte 3 (by decide)]

theorem slice_copy_below {start length : Nat} (below : start + length ≤ address) (count : Nat)
    (source : Memory) : (m.copy address count source).slice start length = m.slice start length :=
  slice_congr fun k inside => copy_outside m address count source (start + k) (by omega)

theorem slice_copy (source : List Byte) :
    (m.copy address source.length fun k => source.getD k 0).slice address source.length =
      source := by
  refine List.ext_getElem (slice_length _ _ _) fun k _ inside => ?_
  simp only [slice, List.getElem_map, List.getElem_range]
  rw [copy, if_pos (by omega), Nat.add_sub_cancel_left, List.getD_eq_getElem?_getD,
    List.getElem?_eq_getElem inside, Option.getD_some]

def half : BitVec 16 :=
  (m address).setWidth 16 ||| (m (address + 1)).setWidth 16 <<< 8

theorem word_low : (m.word address).extractLsb' 0 16 = m.half address := by
  apply BitVec.eq_of_getLsbD_eq
  intro i small
  simp only [word, half]
  interval_cases i <;> simp

theorem word_high : (m.word address).extractLsb' 16 16 = m.half (address + 2) := by
  apply BitVec.eq_of_getLsbD_eq
  intro i small
  simp only [word, half]
  interval_cases i <;> simp

theorem half_congr {m n : Memory} {address : Nat} (first : m address = n address)
    (second : m (address + 1) = n (address + 1)) : m.half address = n.half address := by
  unfold half
  rw [first, second]

end Memory

end VitaTools.Library
