import VitaTools.Unarzl.RangeCoder

set_option autoImplicit false

/-!
The function as a machine whose program points are the labels of its gotos.
Pointers into `buffer` and `input` are offsets.
-/

namespace VitaTools.Unarzl

open VitaTools.Library

-- The arguments: the memory at `input`, the address of `buffer` and `buflen`.
structure Args where
  input : Memory
  buffer : Nat
  buflen : Nat

def badDistance : Nat := 0x80560200
def outOfSpace : Nat := 0x80560201

-- Where the function stands. `done` holds the returned `int`, read as unsigned.
inductive Point
  -- The test `v8 != v5` of the outer loop.
  | literal
  -- The head of the inner loop.
  | store
  -- `LABEL_32`.
  | length
  -- `LABEL_83`.
  | position
  -- The body of `if (v61 != v105)`.
  | distance
  -- The two tests after the distance and the copy loop.
  | copy
  | done (ret : Nat)
deriving DecidableEq, Repr

inductive Access
  | store (index : Nat)
  | load (index : Nat)
deriving DecidableEq, Repr

structure Decoder where
  pc : Point
  coder : Coder
  out : Memory
  -- Accesses to `buffer`, newest first.
  accesses : List Access
  -- What is stored through a non-null `endptr`.
  endptr : Nat
  v8 : Nat
  i : Nat
  v9 : Nat
  v11 : Nat
  v28 : Int
  v35 : Nat
  -- `v34 - v109`.
  v34 : Int
  v105 : Nat
  v66 : Nat

namespace Args

variable (p : Args)

def v6 : Nat := (p.input 0).toNat &&& 7

-- `__builtin_bswap32(*(uint32_t *)(input + 1))`.
def header : Nat :=
  (p.input 1).toNat * 2 ^ 24 + (p.input 2).toNat * 2 ^ 16 + (p.input 3).toNat * 2 ^ 8 +
    (p.input 4).toNat

def compressed : Bool := (p.input 0).toNat &&& 0x80 == 0

-- The byte `memset` fills `v109` with.
def initialProb : Nat := 16 * (8 - (((p.input 0).toNat >>> 3) &&& 3)) &&& 0xF0

def initialCoder : Coder where
  v7 := p.header
  v10 := 2 ^ 32 - 1
  input1 := 0
  v109 := fun _ => p.initialProb
  touched := []
  fetched := [4, 3, 2, 1, 0]
  decoded := []

-- `out` is what `buffer` holds at the call.
def start (out : Memory) : Decoder where
  pc := .literal
  coder := p.initialCoder
  out := out
  accesses := []
  endptr := 0
  v8 := 0
  i := 0
  v9 := 0
  v11 := 0
  v28 := 0
  v35 := 0
  v34 := 0
  v105 := 0
  v66 := 0

end Args

namespace Decoder

variable (p : Args) (s : Decoder)

-- `v13 - v109`: the literal tree for the last byte and the output address.
def literalTree : Nat :=
  let v12 := (s.v9 &&& 0xFFFFF8FF) ||| (((p.buffer + s.v8) &&& 7) <<< 8)
  255 * ((v12 >>> p.v6) &&& 7)

-- `v36 - v109`; here `v28` is not negative.
def lengthCell : Nat :=
  32 * s.v28.toNat |||
    8 * ((((p.buffer + s.v8) % 2 ^ 32) <<< s.v28.toNat) % 2 ^ 32 &&& 3) ||| (s.v11 &&& 7)

def slot : Nat := s.v66 >>> 3

-- `v69 - v109`.
def distanceCell : Nat :=
  let v67 := if s.v35 ≤ 2 then 0 else 1
  8 * ((v67 <<< (s.slot - 1)) &&& 3) ||| 32 * (s.slot - 1) ||| (s.v28 % 8).toNat

def stepLiteral : Decoder :=
  if s.v8 = p.buflen then { s with pc := .done outOfSpace }
  else
    let r := s.coder.literalLoop p.input (s.literalTree p) 8 1
    { s with pc := .store, coder := r.2, v9 := r.1, i := s.v8 }

-- `*i = v9; v8 = i + 1;`, the match flag and, after a set flag, the length class.
def stepStore : Decoder :=
  let s := { s with
    out := Function.update s.out s.i (BitVec.ofNat 8 s.v9)
    accesses := .store s.i :: s.accesses
    v8 := s.i + 1 }
  let flag := s.coder.flagBit p.input (s.v11 + 2920)
  if flag.1 then
    let r := flag.2.classLoop p.input s.v11 7 (-1)
    if r.1 = -1 then
      { s with
        pc := .position, coder := r.2, v28 := r.1, v35 := 1, v34 := r.1 + 248, v105 := 64 }
    else { s with pc := .length, coder := r.2, v28 := r.1, v34 := r.1 }
  else { s with pc := .literal, coder := flag.2, v11 := s.v11 - 1 }

def stepLength : Decoder :=
  let r := s.coder.lengthCode p.input (s.lengthCell p) s.v28
  if r.1 = 255 then
    { s with pc := .done s.v8, coder := r.2, v35 := r.1, endptr := r.2.input1 + 5 }
  else if r.1 ≠ 2 then { s with pc := .position, coder := r.2, v35 := r.1, v105 := 256 }
  else { s with pc := .position, coder := r.2, v35 := r.1, v34 := s.v34 + 248, v105 := 64 }

def stepPosition : Decoder :=
  let r := s.coder.positionLoop p.input s.v34 s.v105 5 8
  { s with
    pc := if r.1 ≠ s.v105 then .distance else .copy
    coder := r.2
    v66 := r.1 - s.v105 }

def stepDistance : Decoder :=
  let r := s.coder.distanceCode p.input s.distanceCell s.slot
  { s with pc := .copy, coder := r.2, v66 := r.1 - 1 }

-- `*v95++ = v9; v9 = *(v95 + v97);`, once for every byte up to `v96`.
def copyLoop : Nat → Nat → Decoder → Decoder
  | 0, _, s => s
  | count + 1, v95, s =>
      let s := { s with
        out := Function.update s.out v95 (BitVec.ofNat 8 s.v9)
        accesses := .load (v95 + 1 - (s.v66 + 1)) :: .store v95 :: s.accesses }
      copyLoop count (v95 + 1) { s with v9 := (s.out (v95 + 1 - (s.v66 + 1))).toNat }

-- The byte at `v8[v97]` is read before the second test. Only the low byte of `v9` is
-- used afterwards.
def stepCopy : Decoder :=
  if s.v8 ≤ s.v66 then { s with pc := .done badDistance }
  else
    let v96 := s.v8 + s.v35
    let s := { s with
      v9 := (s.out (s.v8 - (s.v66 + 1))).toNat
      accesses := .load (s.v8 - (s.v66 + 1)) :: s.accesses }
    if v96 < p.buflen then
      { copyLoop s.v35 s.v8 s with pc := .store, v11 := 7, i := v96 }
    else { s with pc := .done outOfSpace }

def step : Decoder :=
  match s.pc with
  | .literal => s.stepLiteral p
  | .store => s.stepStore p
  | .length => s.stepLength p
  | .position => s.stepPosition p
  | .distance => s.stepDistance p
  | .copy => s.stepCopy p
  | .done _ => s

def run : Nat → Decoder → Decoder
  | 0, s => s
  | n + 1, s => run n (s.step p)

end Decoder

def storedCopy (p : Args) (out : Memory) : Memory := fun k =>
  if k < p.header then p.input (k + 5) else out k

-- The branch for `*input & 0x80`.
def storedMode (p : Args) (out : Memory) : Decoder :=
  if p.buflen < p.header then { p.start out with pc := .done outOfSpace }
  else
    { p.start out with
      pc := .done p.header
      coder := { p.initialCoder with
        fetched := ((List.range p.header).map (· + 5)).reverse ++ p.initialCoder.fetched }
      out := storedCopy p out
      accesses := ((List.range p.header).map Access.store).reverse
      -- With 32-bit pointers; `v7` is an `int`.
      endptr := p.header + 5 }

-- `arzl_decompress(buffer, buflen, input, endptr)`: its last state.
def arzlDecompress (p : Args) (out : Memory) : Decoder :=
  if p.compressed then (p.start out).run p (6 * (p.buflen + 1)) else storedMode p out

end VitaTools.Unarzl
