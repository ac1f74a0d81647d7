import Mathlib.Data.List.Basic
import VitaTools.Library.Machine
import VitaTools.Library.Memory

set_option autoImplicit false

/-!
`ringbuf.c` of PrincessLog and its identical copy in PSMLogUSB. Pointers are
32-bit addresses; the bodies run under the mutex, one at a time.
-/

namespace VitaTools.RingBuf

open VitaTools.Library

def evfNonEmpty : BitVec 32 := 0x00000001

-- The static variables of `ringbuf.c`, the memory they point into and the event
-- flag's pattern. `touched` records the address of every byte read or written.
structure LogBuffer where
  bufLen : Nat
  basePtr : Nat
  getPtr : Nat
  putPtr : Nat
  mem : Memory
  evf : BitVec 32
  touched : List Nat

-- A memory block the kernel can hand out: `len` is a positive `int`, and the
-- block does not run past the end of the address space.
structure Block where
  base : Nat
  len : Nat
  lenInt : len < 2 ^ 31
  inSpace : base + len ≤ 2 ^ 32

namespace LogBuffer

-- `(unsigned int)ptr % buf_len`.
def idx (s : LogBuffer) (ptr : Nat) : Nat := ptr % 2 ^ 32 % s.bufLen

def inc (s : LogBuffer) (ptr : Nat) : Nat := s.basePtr + s.idx (ptr + 1)

def empty (s : LogBuffer) : Bool := s.getPtr == s.putPtr

def full (s : LogBuffer) : Bool := s.idx (s.putPtr + 1) == s.idx s.getPtr

-- `*put_ptr = c; inc(&put_ptr);`
def store (s : LogBuffer) (c : Byte) : LogBuffer :=
  { s with
    mem := Function.update s.mem s.putPtr c
    putPtr := s.inc s.putPtr
    touched := s.touched ++ [s.putPtr] }

-- `none` is the return value -1.
def put (s : LogBuffer) (c : Byte) : Option LogBuffer :=
  if s.full then none else some (s.store c)

def putClobber (s : LogBuffer) (c : Byte) : LogBuffer :=
  (if s.full then { s with getPtr := s.inc s.getPtr } else s).store c

-- `none` is the return value -1.
def get (s : LogBuffer) : Option (Byte × LogBuffer) :=
  if s.empty then none
  else some (s.mem s.getPtr,
    { s with getPtr := s.inc s.getPtr, touched := s.touched ++ [s.getPtr] })

-- `ringbuf_init(size)` once the three kernel objects were created.
def ringbufInit (block : Block) (mem : Memory) : LogBuffer where
  bufLen := block.len
  basePtr := block.base
  getPtr := block.base
  putPtr := block.base
  mem := mem
  evf := 0
  touched := []

def setEventFlag (s : LogBuffer) (bits : BitVec 32) : LogBuffer := { s with evf := s.evf ||| bits }

-- `ksceKernelClearEventFlag` keeps the bits of its argument.
def clearEventFlag (s : LogBuffer) (bits : BitVec 32) : LogBuffer :=
  { s with evf := s.evf &&& bits }

-- What a call hands back: its return value and the bytes it stored through `c`.
structure Reply where
  count : Nat
  bytes : List Byte
deriving DecidableEq, Repr

-- The bytes `c[0]`, ..., `c[size - 1]`; none when `size` is not positive.
def source (c : Nat → Byte) (size : Int) : List Byte := (List.range size.toNat).map c

-- `while (size-- > 0)` of `ringbuf_put`, over the bytes it would read from `c`.
def putLoop : List Byte → LogBuffer → Nat → LogBuffer × Nat
  | [], s, nPut => (s, nPut)
  | c :: rest, s, nPut =>
      match s.put c with
      | some s' => putLoop rest s' (nPut + 1)
      | none => (s, nPut)

def putClobberLoop : List Byte → LogBuffer → Nat → LogBuffer × Nat
  | [], s, nPut => (s, nPut)
  | c :: rest, s, nPut => putClobberLoop rest (s.putClobber c) (nPut + 1)

-- The loop of `ringbuf_get`; `out` holds the bytes stored through `c` so far.
def getLoop : Nat → LogBuffer → List Byte → LogBuffer × List Byte
  | 0, s, out => (s, out)
  | size + 1, s, out =>
      match s.get with
      | some (c, s') => getLoop size s' (out ++ [c])
      | none => (s, out)

def ringbufPut (s : LogBuffer) (c : Nat → Byte) (size : Int) : LogBuffer × Reply :=
  let (s, nPut) := putLoop (source c size) s 0
  (if 0 < nPut then s.setEventFlag evfNonEmpty else s, ⟨nPut, []⟩)

def ringbufPutClobber (s : LogBuffer) (c : Nat → Byte) (size : Int) : LogBuffer × Reply :=
  let (s, nPut) := putClobberLoop (source c size) s 0
  (if 0 < nPut then s.setEventFlag evfNonEmpty else s, ⟨nPut, []⟩)

def ringbufGet (s : LogBuffer) (size : Int) : LogBuffer × Reply :=
  let (s, out) := getLoop size.toNat s []
  (if s.empty then s.clearEventFlag (~~~ evfNonEmpty) else s, ⟨out.length, out⟩)

-- `ret` is what `ksceKernelWaitEventFlag` returned.
def ringbufGetWait (s : LogBuffer) (ret : Int) (size : Int) : LogBuffer × Reply :=
  if ret < 0 then (s, ⟨0, []⟩)
  else
    let (s, out) := getLoop size.toNat s []
    (if s.empty then s.clearEventFlag (~~~ evfNonEmpty) else s, ⟨out.length, out⟩)

end LogBuffer

inductive Call
  | put (c : Nat → Byte) (size : Int)
  | putClobber (c : Nat → Byte) (size : Int)
  | get (size : Int)
  | getWait (ret : Int) (size : Int)

def LogBuffer.call (s : LogBuffer) : Call → LogBuffer × LogBuffer.Reply
  | .put c size => s.ringbufPut c size
  | .putClobber c size => s.ringbufPutClobber c size
  | .get size => s.ringbufGet size
  | .getWait ret size => s.ringbufGetWait ret size

def ringbuf : Machine LogBuffer Call LogBuffer.Reply := ⟨LogBuffer.call⟩

end VitaTools.RingBuf
