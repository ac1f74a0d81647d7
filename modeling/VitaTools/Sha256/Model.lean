import Mathlib.Logic.Function.Basic
import VitaTools.Sha256.Spec

set_option autoImplicit false

namespace VitaTools.Sha256

open VitaTools.Library

-- `DBL_INT_ADD(a,b,c)`: `a` and `b` behind it.
def dblIntAdd (a b c : Word) : Word × Word :=
  (a + c, if 0xffffffff - c < a then b + 1 else b)

def rotright (a : Word) (b : Nat) : Word := a >>> b ||| a <<< (32 - b)

def ch (x y z : Word) : Word := (x &&& y) ^^^ (~~~x &&& z)

def maj (x y z : Word) : Word := (x &&& y) ^^^ (x &&& z) ^^^ (y &&& z)

def ep0 (x : Word) : Word := rotright x 2 ^^^ rotright x 13 ^^^ rotright x 22

def ep1 (x : Word) : Word := rotright x 6 ^^^ rotright x 11 ^^^ rotright x 25

def sig0 (x : Word) : Word := rotright x 7 ^^^ rotright x 18 ^^^ x >>> 3

def sig1 (x : Word) : Word := rotright x 17 ^^^ rotright x 19 ^^^ x >>> 10

def k : List Word :=
  [0x428a2f98, 0x71374491, 0xb5c0fbcf, 0xe9b5dba5, 0x3956c25b, 0x59f111f1, 0x923f82a4, 0xab1c5ed5,
    0xd807aa98, 0x12835b01, 0x243185be, 0x550c7dc3, 0x72be5d74, 0x80deb1fe, 0x9bdc06a7, 0xc19bf174,
    0xe49b69c1, 0xefbe4786, 0x0fc19dc6, 0x240ca1cc, 0x2de92c6f, 0x4a7484aa, 0x5cb0a9dc, 0x76f988da,
    0x983e5152, 0xa831c66d, 0xb00327c8, 0xbf597fc7, 0xc6e00bf3, 0xd5a79147, 0x06ca6351, 0x14292967,
    0x27b70a85, 0x2e1b2138, 0x4d2c6dfc, 0x53380d13, 0x650a7354, 0x766a0abb, 0x81c2c92e, 0x92722c85,
    0xa2bfe8a1, 0xa81a664b, 0xc24b8b70, 0xc76c51a3, 0xd192e819, 0xd6990624, 0xf40e3585, 0x106aa070,
    0x19a4c116, 0x1e376c08, 0x2748774c, 0x34b0bcb5, 0x391c0cb3, 0x4ed8aa4a, 0x5b9cca4f, 0x682e6ff3,
    0x748f82ee, 0x78a5636f, 0x84c87814, 0x8cc70208, 0x90befffa, 0xa4506ceb, 0xbef9a3f7, 0xc67178f2]

structure Sha256Ctx where
  data : Memory
  datalen : Nat
  bitlen0 : Word
  bitlen1 : Word
  state : Words

-- `m[i]`, of the words below it.
def mWord (data : Memory) (m : List Word) (i : Nat) : Word :=
  if i < 16 then
    let j := 4 * i
    (data j).setWidth 32 <<< 24 ||| (data (j + 1)).setWidth 32 <<< 16 |||
      (data (j + 2)).setWidth 32 <<< 8 ||| (data (j + 3)).setWidth 32
  else sig1 (m.getD (i - 2) 0) + m.getD (i - 7) 0 + sig0 (m.getD (i - 15) 0) + m.getD (i - 16) 0

-- `m` behind both loops that fill it.
def mWords (data : Memory) : List Word :=
  (List.range 64).foldl (fun m i => m ++ [mWord data m i]) []

-- The pass of the last loop for `i`.
def transformRound (m : List Word) (v : Words) (i : Nat) : Words :=
  let t1 := v.h + ep1 v.e + ch v.e v.f v.g + k.getD i 0 + m.getD i 0
  let t2 := ep0 v.a + maj v.a v.b v.c
  { h := v.g, g := v.f, f := v.e, e := v.d + t1, d := v.c, c := v.b, b := v.a, a := t1 + t2 }

def sha256Transform (ctx : Sha256Ctx) (data : Memory) : Sha256Ctx :=
  let v := (List.range 64).foldl (transformRound (mWords data)) ctx.state
  { ctx with state := ctx.state.add v }

-- The buffer is not set.
def sha256Init (data : Memory) : Sha256Ctx where
  data := data
  datalen := 0
  bitlen0 := 0
  bitlen1 := 0
  state := ⟨0x6a09e667, 0xbb67ae85, 0x3c6ef372, 0xa54ff53a,
    0x510e527f, 0x9b05688c, 0x1f83d9ab, 0x5be0cd19⟩

-- The pass of `sha256_update` for one byte.
def updateByte (ctx : Sha256Ctx) (byte : Byte) : Sha256Ctx :=
  let ctx :=
    { ctx with data := Function.update ctx.data ctx.datalen byte, datalen := ctx.datalen + 1 }
  if ctx.datalen = 64 then
    let ctx := sha256Transform ctx ctx.data
    let bitlen := dblIntAdd ctx.bitlen0 ctx.bitlen1 512
    { ctx with bitlen0 := bitlen.1, bitlen1 := bitlen.2, datalen := 0 }
  else ctx

def sha256Update (ctx : Sha256Ctx) (data : Memory) (len : BitVec 32) : Sha256Ctx :=
  (List.range len.toNat).foldl (fun ctx i => updateByte ctx (data i)) ctx

-- `while (i < bound) data[i++] = 0x00`.
def zeroFrom (data : Memory) (i bound : Nat) : Memory :=
  (List.range' i (bound - i)).foldl (fun data j => Function.update data j 0) data

def appendLength (data : Memory) (bitlen0 bitlen1 : Word) : Memory :=
  let data := Function.update data 63 (bitlen0.setWidth 8)
  let data := Function.update data 62 ((bitlen0 >>> 8).setWidth 8)
  let data := Function.update data 61 ((bitlen0 >>> 16).setWidth 8)
  let data := Function.update data 60 ((bitlen0 >>> 24).setWidth 8)
  let data := Function.update data 59 (bitlen1.setWidth 8)
  let data := Function.update data 58 ((bitlen1 >>> 8).setWidth 8)
  let data := Function.update data 57 ((bitlen1 >>> 16).setWidth 8)
  Function.update data 56 ((bitlen1 >>> 24).setWidth 8)

-- The buffer padded, with a block of its own for the length when there is no room for it.
def padBuffer (ctx : Sha256Ctx) : Sha256Ctx :=
  let i := ctx.datalen
  let data := Function.update ctx.data i 0x80
  if ctx.datalen < 56 then { ctx with data := zeroFrom data (i + 1) 56 }
  else
    let ctx := { ctx with data := zeroFrom data (i + 1) 64 }
    let ctx := sha256Transform ctx ctx.data
    { ctx with data := ctx.data.copy 0 56 fun _ => 0 }

-- The pass of the last loop of `sha256_final` for `i`.
def storeBytes (state : Words) (hash : Memory) (i : Nat) : Memory :=
  let byte (word : Word) : Byte := ((word >>> (24 - i * 8)) &&& 0xff).setWidth 8
  let hash := Function.update hash i (byte state.a)
  let hash := Function.update hash (i + 4) (byte state.b)
  let hash := Function.update hash (i + 8) (byte state.c)
  let hash := Function.update hash (i + 12) (byte state.d)
  let hash := Function.update hash (i + 16) (byte state.e)
  let hash := Function.update hash (i + 20) (byte state.f)
  let hash := Function.update hash (i + 24) (byte state.g)
  Function.update hash (i + 28) (byte state.h)

def sha256Final (ctx : Sha256Ctx) (hash : Memory) : Memory :=
  let ctx := padBuffer ctx
  let bitlen := dblIntAdd ctx.bitlen0 ctx.bitlen1 (BitVec.ofNat 32 (ctx.datalen * 8))
  let ctx := { ctx with
    bitlen0 := bitlen.1, bitlen1 := bitlen.2, data := appendLength ctx.data bitlen.1 bitlen.2 }
  let ctx := sha256Transform ctx ctx.data
  (List.range 4).foldl (storeBytes ctx.state) hash

-- An element of the data vector; a `size_t` has 64 bits.
structure Element where
  addr : Memory
  len : BitVec 64

-- `stack` is what the context's buffer holds before it is set.
def sha256Vector (stack : Memory) (elements : List Element) (mac : Memory) : Memory :=
  let ctx := elements.foldl (fun ctx e => sha256Update ctx e.addr (e.len.setWidth 32))
    (sha256Init stack)
  sha256Final ctx mac

end VitaTools.Sha256
