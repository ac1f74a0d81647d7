import VitaTools.Library.Memory

set_option autoImplicit false

namespace VitaTools.Relocate

open VitaTools.Library

abbrev Word := BitVec 32

structure Phdr where
  pVaddr : Word
  pMemsz : Word

-- The codes of `relocate.h`; all others are unknown.
inductive Code
  | none
  | abs32
  | rel32
  | thmCall
  | call
  | jump24
  | target1
  | v4bx
  | target2
  | prel31
  | movwAbsNc
  | movtAbs
  | thmMovwAbsNc
  | thmMovtAbs
  | unknown
deriving DecidableEq, Repr

def Code.ofWord (code : Word) : Code :=
  if code = 0 then .none
  else if code = 2 then .abs32
  else if code = 3 then .rel32
  else if code = 10 then .thmCall
  else if code = 28 then .call
  else if code = 29 then .jump24
  else if code = 38 then .target1
  else if code = 40 then .v4bx
  else if code = 41 then .target2
  else if code = 42 then .prel31
  else if code = 43 then .movwAbsNc
  else if code = 44 then .movtAbs
  else if code = 47 then .thmMovwAbsNc
  else if code = 48 then .thmMovtAbs
  else .unknown

structure Entry where
  code : Code
  symseg : Nat
  datseg : Nat
  offset : Word
  addend : Word
deriving DecidableEq

-- `SCE_RELOC_IS_SHORT`.
def isShort (type : Word) : Bool := type &&& 0xF != 0

def entryAt (reloc : Memory) (pos : Nat) : Entry × Nat :=
  let type := reloc.word pos
  let code := Code.ofWord ((type >>> 8) &&& 0xFF)
  let symseg := ((type >>> 4) &&& 0xF).toNat
  let datseg := ((type >>> 16) &&& 0xF).toNat
  if isShort type then
    let opt2 := reloc.word (pos + 4)
    (⟨code, symseg, datseg, (type >>> 20) ||| ((opt2 &&& 0x3FF) <<< 12), opt2 >>> 10⟩, 8)
  else (⟨code, symseg, datseg, reloc.word (pos + 8), reloc.word (pos + 4)⟩, 12)

-- The entries of the first `passes` passes of `while (pos < size)`.
def entries (reloc : Memory) (size : Word) : Nat → Nat → List Entry
  | 0, _ => []
  | passes + 1, pos =>
      if pos < size.toNat then
        let (entry, length) := entryAt reloc pos
        entry :: entries reloc size passes ((pos + length) % 2 ^ 32)
      else []

-- The range test of a branch, on an `int`.
def branchFits (offset bound : Word) : Bool := (-bound).slt offset && offset.slt bound

-- The Thumb-2 halfwords of a BL or B.W, for `R_ARM_THM_CALL`.
def thmCallValue (upper lower offset : Word) : Word :=
  let sign := (offset.sshiftRight 24) &&& 1
  let j1 := sign ^^^ (~~~ (offset.sshiftRight 23) &&& 1)
  let j2 := sign ^^^ (~~~ (offset.sshiftRight 22) &&& 1)
  let upper := ((upper &&& 0xf800) ||| (sign <<< 10) |||
    ((offset.sshiftRight 12) &&& 0x03ff)) &&& 0xFFFF
  let lower := ((lower &&& 0xd000) ||| (j1 <<< 13) ||| (j2 <<< 11) |||
    ((offset.sshiftRight 1) &&& 0x07ff)) &&& 0xFFFF
  (lower <<< 16) ||| upper

def movValue (value offset : Word) : Word :=
  (value &&& 0xfff0f000) ||| (((offset &&& 0xf000) <<< 4) ||| (offset &&& 0x0fff))

-- The Thumb-2 MOVW or MOVT with a new immediate.
def thmMovValue (upper lower offset : Word) : Word :=
  let upper := ((upper &&& 0xfbf0) ||| ((offset &&& 0xf000) >>> 12) |||
    ((offset &&& 0x0800) >>> 1)) &&& 0xFFFF
  let lower := ((lower &&& 0x8f00) ||| ((offset &&& 0x0700) <<< 4) |||
    (offset &&& 0x00ff)) &&& 0xFFFF
  (lower <<< 16) ||| upper

-- The `switch` of `uvl_relocate`, for the instruction at `target`: the new `value`; `none`
-- when a branch is out of range and `value` stays what it was.
def newValue (code : Code) (seg : Memory) (target : Nat) (symval addend loc : Word) :
    Option Word :=
  let word := seg.word target
  let upper := (seg.half target).setWidth 32
  let lower := (seg.half (target + 2)).setWidth 32
  match code with
  | .v4bx => some ((word &&& 0xf000000f) ||| 0x01a0f000)
  | .abs32 | .target1 => some (addend + symval)
  | .rel32 | .target2 => some (addend + symval - loc)
  | .thmCall =>
      let offset := addend + symval - loc
      if branchFits offset 0x01000000 then some (thmCallValue upper lower offset) else none
  | .call | .jump24 =>
      let offset := addend + symval - loc
      if branchFits offset 0x02000000 then
        some ((word &&& 0xff000000) ||| ((offset.sshiftRight 2) &&& 0x00ffffff))
      else none
  | .prel31 => some ((addend + symval - loc) &&& 0x7fffffff)
  | .movwAbsNc => some (movValue word (symval + addend))
  | .movtAbs => some (movValue word ((symval + addend).sshiftRight 16))
  | .thmMovwAbsNc => some (thmMovValue upper lower (addend + symval))
  | .thmMovtAbs => some (thmMovValue upper lower ((addend + symval).sshiftRight 16))
  | .none | .unknown => none

inductive Segment
  | text
  | data
deriving DecidableEq, Repr

-- The segments and the local variable `value`, which lives across the passes.
structure Image where
  seg : Segment → Memory
  value : Word

-- `curr_data_seg`: only data segment 0 is the text segment.
def Entry.segment (entry : Entry) : Segment := if entry.datseg ≠ 0 then .data else .text

-- The memory `uvl_segment_write` leaves; `none` is its error.
def uvlSegmentWrite (seg : Phdr) (offset value : Word) (segmentData : Memory) : Option Memory :=
  if seg.pMemsz < offset + 4 then none else some (segmentData.storeWord offset.toNat value)

inductive Outcome
  -- `if(r_offset > size) continue;`
  | skipped
  -- `R_ARM_NONE` and the unknown codes.
  | ignored
  | overflows
  | written
deriving DecidableEq, Repr

variable (size : Word) (segs : Nat → Phdr)

def Entry.symval (entry : Entry) : Word :=
  if entry.symseg = 15 then 0 else (segs entry.symseg).pVaddr

def Entry.loc (entry : Entry) : Word := (segs entry.datseg).pVaddr + entry.offset

-- The value the switch computes for an entry in the current image. `curr_data_seg + loc -
-- p_vaddr` is taken modulo 2^32; on a 64-bit host the old word is read elsewhere when
-- `p_vaddr + r_offset` wraps (`Entry.readAt`).
def Entry.computed (entry : Entry) (image : Image) : Option Word :=
  newValue entry.code (image.seg entry.segment)
    (entry.loc segs - (segs entry.datseg).pVaddr).toNat (entry.symval segs) entry.addend
    (entry.loc segs)

def relocateEntry (image : Image) (entry : Entry) : Image × Outcome :=
  if size < entry.offset then (image, .skipped)
  else if entry.code = .none ∨ entry.code = .unknown then (image, .ignored)
  else
    let value := (entry.computed segs image).getD image.value
    let image := { image with value := value }
    match uvlSegmentWrite (segs entry.datseg) entry.offset value (image.seg entry.segment) with
    | none => (image, .overflows)
    | some memory =>
        ({ image with seg := Function.update image.seg entry.segment memory }, .written)

def relocateAll (image : Image) (table : List Entry) : Image :=
  table.foldl (fun image entry => (relocateEntry size segs image entry).1) image

-- `uvl_relocate(reloc, size, segs, data_seg, text_seg)`: every pass advances by 8 bytes
-- at least. `image.value` is what the uninitialised variable holds.
def uvlRelocate (reloc : Memory) (image : Image) : Image :=
  relocateAll size segs image (entries reloc size (size.toNat / 8 + 1) 0)

end VitaTools.Relocate
