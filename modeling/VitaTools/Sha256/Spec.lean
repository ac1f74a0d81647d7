import Mathlib.NumberTheory.PrimeCounting
import VitaTools.Library.Blocks
import VitaTools.Library.Memory

set_option autoImplicit false

namespace VitaTools.Sha256

open VitaTools.Library

abbrev Word := BitVec 32

structure Words where
  a : Word
  b : Word
  c : Word
  d : Word
  e : Word
  f : Word
  g : Word
  h : Word
  deriving DecidableEq

namespace Words

def add (v w : Words) : Words :=
  ⟨v.a + w.a, v.b + w.b, v.c + w.c, v.d + w.d, v.e + w.e, v.f + w.f, v.g + w.g, v.h + w.h⟩

def toList (v : Words) : List Word := [v.a, v.b, v.c, v.d, v.e, v.f, v.g, v.h]

end Words

namespace Standard

def ch (x y z : Word) : Word := (x &&& y) ^^^ (~~~x &&& z)

def maj (x y z : Word) : Word := (x &&& y) ^^^ (x &&& z) ^^^ (y &&& z)

def bigSigma0 (x : Word) : Word := x.rotateRight 2 ^^^ x.rotateRight 13 ^^^ x.rotateRight 22

def bigSigma1 (x : Word) : Word := x.rotateRight 6 ^^^ x.rotateRight 11 ^^^ x.rotateRight 25

def smallSigma0 (x : Word) : Word := x.rotateRight 7 ^^^ x.rotateRight 18 ^^^ x >>> 3

def smallSigma1 (x : Word) : Word := x.rotateRight 17 ^^^ x.rotateRight 19 ^^^ x >>> 10

/-- The first 32 bits of the fractional part of a root of `n`. -/
def rootFraction (degree n : Nat) : Word :=
  BitVec.ofNat 32 (Nat.findGreatest (fun root => root ^ degree ≤ n * 2 ^ (32 * degree))
    (n * 2 ^ (32 * degree)))

noncomputable def constant (t : Nat) : Word := rootFraction 3 (Nat.nth Nat.Prime t)

noncomputable def initial : Words :=
  let word (t : Nat) : Word := rootFraction 2 (Nat.nth Nat.Prime t)
  ⟨word 0, word 1, word 2, word 3, word 4, word 5, word 6, word 7⟩

-- Word `t` of a block.
def blockWord (block : List Byte) (t : Nat) : Word :=
  block.getD (4 * t) 0 ++ block.getD (4 * t + 1) 0 ++ block.getD (4 * t + 2) 0 ++
    block.getD (4 * t + 3) 0

def schedule (block : List Byte) (t : Nat) : Word :=
  if t < 16 then blockWord block t
  else smallSigma1 (schedule block (t - 2)) + schedule block (t - 7) +
    smallSigma0 (schedule block (t - 15)) + schedule block (t - 16)
termination_by t

def round (constant word : Word) (v : Words) : Words :=
  let t1 := v.h + bigSigma1 v.e + ch v.e v.f v.g + constant + word
  let t2 := bigSigma0 v.a + maj v.a v.b v.c
  ⟨t1 + t2, v.a, v.b, v.c, v.d + t1, v.e, v.f, v.g⟩

noncomputable def compress (v : Words) (block : List Byte) : Words :=
  v.add ((List.range 64).foldl (fun u t => round (constant t) (schedule block t) u) v)

def bigEndian (count : Nat) {width : Nat} (value : BitVec width) : List Byte :=
  (List.range count).map fun i => value.extractLsb' (8 * (count - 1 - i)) 8

def pad (message : List Byte) : List Byte :=
  message ++ 0x80 :: (List.replicate ((119 - message.length % 64) % 64) 0 ++
    bigEndian 8 (BitVec.ofNat 64 (8 * message.length)))

noncomputable def digest (message : List Byte) : List Byte :=
  ((fullBlocks 64 (pad message)).foldl compress initial).toList.flatMap (bigEndian 4)

theorem bigEndian_length (count : Nat) {width : Nat} (value : BitVec width) :
    (bigEndian count value).length = count := by
  simp [bigEndian]

theorem rootFraction_eq {degree n root : Nat} (positive : degree ≠ 0)
    (below : root ^ degree ≤ n * 2 ^ (32 * degree))
    (above : n * 2 ^ (32 * degree) < (root + 1) ^ degree) :
    rootFraction degree n = BitVec.ofNat 32 root := by
  have greatest : Nat.findGreatest (fun root => root ^ degree ≤ n * 2 ^ (32 * degree))
      (n * 2 ^ (32 * degree)) = root := by
    rw [Nat.findGreatest_eq_iff]
    refine ⟨(Nat.le_self_pow positive root).trans below, fun _ => below, ?_⟩
    intro larger more _ holds
    have grows : (root + 1) ^ degree ≤ larger ^ degree := Nat.pow_le_pow_left more degree
    exact absurd (grows.trans holds) (Nat.not_le_of_lt above)
  rw [rootFraction, greatest]

end Standard

end VitaTools.Sha256
