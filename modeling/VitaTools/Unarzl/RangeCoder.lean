import Mathlib.Data.Nat.Basic
import VitaTools.Library.Memory

set_option autoImplicit false

namespace VitaTools.Unarzl

open VitaTools.Library

-- A modelled bit: the cell of `v109` it used, the cell's value and the range after
-- renormalisation.
structure Touch where
  index : Int
  prob : Nat
  range : Nat

-- The registers of the range decoder. The 32-bit registers are kept below 2^32 by
-- hand. A cell outside `v109` is noted in `touched` like any other.
structure Coder where
  -- The code word, compared as unsigned everywhere.
  v7 : Nat
  v10 : Nat
  -- `input_1 - input`.
  input1 : Nat
  v109 : Int → Nat
  -- The modelled bits so far, newest first.
  touched : List Touch
  -- The offsets of the input bytes read so far, newest first.
  fetched : List Nat
  decoded : List Bool

namespace Coder

variable (input : Memory)

-- `if (!(v10 >> 24)) { v10 <<= 8; v7 = (input_1++)[5] + (v7 << 8); }`
def renorm (c : Coder) : Coder :=
  if c.v10 / 2 ^ 24 = 0 then
    { c with
      v10 := c.v10 * 2 ^ 8 % 2 ^ 32
      v7 := ((input (c.input1 + 5)).toNat + c.v7 * 2 ^ 8) % 2 ^ 32
      input1 := c.input1 + 1
      fetched := (c.input1 + 5) :: c.fetched }
  else c

-- Decode one bit with cell `index`. A set bit keeps the lower part of the range.
def decodeBit (c : Coder) (index : Int) (shift step : Nat) : Bool × Coder :=
  let prob := c.v109 index
  let c := c.renorm input
  let bound := prob * (c.v10 / 2 ^ 8) % 2 ^ 32
  let smaller := prob - prob / 2 ^ shift
  let c := { c with touched := ⟨index, prob, c.v10⟩ :: c.touched }
  if bound ≤ c.v7 then
    (false, { c with
      v10 := (c.v10 + 2 ^ 32 - bound) % 2 ^ 32
      v7 := c.v7 - bound
      v109 := Function.update c.v109 index smaller
      decoded := false :: c.decoded })
  else
    (true, { c with
      v10 := bound
      v109 := Function.update c.v109 index ((smaller + step) % 2 ^ 8)
      decoded := true :: c.decoded })

-- The blocks with `v - (v >> 3)` and `+ 31`.
def treeBit (c : Coder) (index : Int) : Bool × Coder := c.decodeBit input index 3 31

-- The blocks with `v - (v >> 4)` and `+ 15`.
def flagBit (c : Coder) (index : Int) : Bool × Coder := c.decodeBit input index 4 15

-- `v10 >>= 1; v35 = (v7 < v10) + 2 * v35; if (v7 >= v10) v7 -= v10;`, `count` times.
def directBits : Nat → Nat → Coder → Nat × Coder
  | 0, value, c => (value, c)
  | count + 1, value, c =>
      let half := c.v10 / 2
      if half ≤ c.v7 then
        directBits count (2 * value)
          { c with v10 := half, v7 := c.v7 - half, decoded := false :: c.decoded }
      else directBits count (2 * value + 1) { c with v10 := half, decoded := true :: c.decoded }

def append (index : Int) (p : Nat × Coder) : Nat × Coder :=
  let r := p.2.flagBit input index
  (2 * p.1 + r.1.toNat, r.2)

-- `do { ... } while (v9 <= 255);` over the literal tree at `v13`. It leaves within `fuel`
-- passes: `v9` starts at 1 and doubles.
def literalLoop (v13 : Int) : Nat → Nat → Coder → Nat × Coder
  | 0, v9, c => (v9, c)
  | fuel + 1, v9, c =>
      let r := c.treeBit input (v13 + v9 - 1)
      let v9 := 2 * v9 + r.1.toNat
      if v9 ≤ 255 then literalLoop v13 fuel v9 r.2 else (v9, r.2)

-- `while (1)` over the length classes: it breaks on a clear bit and when `v28 == 6`.
def classLoop (v19 : Int) : Nat → Int → Coder → Int × Coder
  | 0, v28, c => (v28, c)
  | fuel + 1, v28, c =>
      let r := c.flagBit input (v19 + 2928)
      if r.1 then
        if v28 + 1 = 6 then (v28 + 1, r.2) else classLoop (v19 + 8) fuel (v28 + 1) r.2
      else (v28, r.2)

-- `do { ... } while (v66 < 0);` over the position tree at `v34`, where `v66` is
-- `v61 - v105`. It leaves within `fuel` passes: `v61` starts at 8 and doubles.
def positionLoop (v34 : Int) (v105 : Nat) : Nat → Nat → Coder → Nat × Coder
  | 0, v61, c => (v61, c)
  | fuel + 1, v61, c =>
      let r := c.treeBit input (v34 + v61 + 2033)
      let v61 := 2 * v61 + 8 * r.1.toNat
      if v61 < v105 then positionLoop v34 v105 fuel v61 r.2 else (v61, r.2)

-- The bits of a length or distance code with `n + 1` bits: one or two from the first
-- cell, direct ones, then up to three more.
def codeBits (cell : Int) (n : Nat) (c : Coder) : Nat × Coder :=
  let p := append input cell (1, c)
  let p :=
    if 3 ≤ n then
      let p :=
        if n ≠ 3 then
          let p := append input cell p
          if n ≠ 4 then directBits (n - 4) p.1 (p.2.renorm input) else p
        else p
      append input (cell + 24) p
    else p
  if n ≠ 0 then
    let p := append input (cell + 8) p
    if n ≠ 1 then append input (cell + 16) p else p
  else p

-- `v35`, from `LABEL_32` to the test for the end code.
def lengthCode (v36 : Int) (v28 : Int) (c : Coder) : Nat × Coder :=
  c.codeBits input (v36 + 2984) v28.toNat

def distanceCode (v69 : Int) (v106 : Nat) (c : Coder) : Nat × Coder :=
  c.codeBits input (v69 + 2344) (v106 - 1)

end Coder

end VitaTools.Unarzl
