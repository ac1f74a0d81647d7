import VitaTools.Library.Memory

set_option autoImplicit false

namespace VitaTools.Unarzl

open VitaTools.Library

-- `(data & 0xF800F800) == 0xF800F000`: the word is a Thumb BL pair.
def isBl (data : BitVec 32) : Bool := data &&& 0xF800F800 == 0xF800F000

def changeStride (data : BitVec 32) : BitVec 32 := (data &&& 0xF800F800) >>> 27

def isMovt (data : BitVec 32) : Bool := data &&& 0x8000FBF0 == 0x0000F2C0

def displacement (data : BitVec 32) : BitVec 32 :=
  ((data >>> 16) &&& 0xFFC007FF) ||| ((data &&& 0x7FF) <<< 11)

def blPair (v14 : BitVec 32) : BitVec 32 :=
  ((((v14 &&& 0x7FF) <<< 16) ||| 0xF800F000) &&& 0xFFFFF800) ||| ((v14 >>> 11) &&& 0x7FF)

def movtSwap (data : BitVec 32) : BitVec 32 :=
  (data &&& 0xF0FFFFF0) ||| ((data &&& 0xF) <<< 24) ||| ((data >>> 24) &&& 0xF)

-- `(buf - buffer) >> 1`.
def halfOffset (buf : Nat) : BitVec 32 := BitVec.ofNat 32 (buf / 2)

structure Scan where
  mem : Memory
  words : List Nat

namespace Scan

-- `data = *(uint32_t *)buf` is noted in `words`.
def visit (s : Scan) (buf : Nat) : Scan := { s with words := s.words ++ [buf] }

-- `*((uint32_t *)buf - 1) = value`.
def storeBefore (s : Scan) (buf : Nat) (value : BitVec 32) : Scan :=
  { s with mem := s.mem.storeWord (buf - 4) value }

-- One pass of the loop of version 2: the state and the next `buf`.
def body2 (s : Scan) (start : Nat) : Scan × Nat :=
  let data := s.mem.word start
  let s := s.visit start
  let buf := start + 4
  if isBl data then (s.storeBefore buf (blPair (displacement data - halfOffset buf)), buf)
  else if isMovt data then (s.storeBefore buf (movtSwap data), buf)
  else if changeStride data = 30 then (s, buf - 2)
  else (s, buf)

-- One pass of the loop of the versions other than 1 and 2.
def body0 (s : Scan) (start : Nat) : Scan × Nat :=
  let data := s.mem.word start
  let s := s.visit start
  let buf := start + 4
  if isBl data then (s.storeBefore buf (blPair (displacement data - halfOffset buf)), buf)
  else if changeStride data = 30 then (s, buf - 2)
  else (s, buf)

theorem body2_next (s : Scan) (start : Nat) :
    (s.body2 start).2 = start + 2 ∨ (s.body2 start).2 = start + 4 := by
  dsimp only [body2]
  split_ifs <;> simp

theorem body0_next (s : Scan) (start : Nat) :
    (s.body0 start).2 = start + 2 ∨ (s.body0 start).2 = start + 4 := by
  dsimp only [body0]
  split_ifs <;> simp

-- `do { ... } while (bufend > buf)` of version 2.
def loop2 (len : Int) (s : Scan) (buf : Nat) : Scan :=
  if ((s.body2 buf).2 : Int) < len then loop2 len (s.body2 buf).1 (s.body2 buf).2
  else (s.body2 buf).1
termination_by (len - buf).toNat
decreasing_by
  have := s.body2_next buf
  omega

-- `do { ... } while (bufend > buf)` of the other versions.
def loop0 (len : Int) (s : Scan) (buf : Nat) : Scan :=
  if ((s.body0 buf).2 : Int) < len then loop0 len (s.body0 buf).1 (s.body0 buf).2
  else (s.body0 buf).1
termination_by (len - buf).toNat
decreasing_by
  have := s.body0_next buf
  omega

def label13 (s : Scan) (buf1 : Nat) (v10 : BitVec 32) : Scan :=
  s.storeBefore buf1 (blPair (displacement v10 + halfOffset buf1))

-- `LABEL_9`: `buf_1` after the stride test.
def label9 (buf1 : Nat) (v11 : BitVec 32) : Nat := if v11 = 30 then buf1 - 2 else buf1

-- The `while (buf_1 < bufend)` of version 1, entered at its test.
def loop1 (len : Int) (s : Scan) (buf1 : Nat) : Scan :=
  if (buf1 : Int) < len then
    let v12 := s.mem.word buf1
    if isBl v12 then loop1 len ((s.visit buf1).label13 (buf1 + 4) v12) (buf1 + 4)
    else loop1 len (s.visit buf1) (label9 (buf1 + 4) (changeStride v12))
  else s
termination_by (len - buf1).toNat
decreasing_by
  · omega
  · unfold label9
    split <;> omega

-- Version 1: the first word is handled before the loop is entered.
def version1 (len : Int) (s : Scan) : Scan :=
  let v10 := s.mem.word 0
  if isBl v10 then loop1 len ((s.visit 0).label13 4 v10) 4
  else loop1 len (s.visit 0) (label9 4 (changeStride v10))

end Scan

-- `arzl_deobfuscate(buffer, len, version)` on a memory addressed from `buffer`.
def arzlDeobfuscate (mem : Memory) (len : Int) (version : Int) : Scan :=
  let s : Scan := ⟨mem, []⟩
  if len = 0 then s
  else if version = 2 then s.loop2 len 0
  else if version = 1 then s.version1 len
  else s.loop0 len 0

end VitaTools.Unarzl
