import Mathlib.Logic.Function.Basic
import VitaTools.Library.Transition
import VitaTools.Self.Model

set_option autoImplicit false

/-!
The passes of `decompressThread` over the segments that the kernel plugin hands over, one file for
each segment. Files are written and memory is there, but for the padding of an empty segment.
-/

namespace VitaTools.FagDec

open VitaTools.Library VitaTools.Self

-- What a segment is unpacked with. `largeInflate` is the buffer behind `test_large_inflate`.
structure Unpacker where
  zlib : Zlib
  largeInflate : List Byte → Nat → Option Memory
  -- What `malloc` leaves behind a segment's file and in its `dest_buf`.
  fileHeap : Nat → Memory
  destHeap : Nat → Memory
  mallocs : BitVec 32 → Bool

-- What a pass of `decompressThread` keeps in variables.
structure Pass where
  ehdr : Nat
  phdrs : Nat
  i : Nat

structure Rebuild where
  -- The segments that the plugin has still to hand over.
  coming : List Nat
  segs : Nat → Option (List Byte)
  -- The pass that is made, if any.
  visit : Option Pass
  currentElf : File
  currentFile : File
  currentSelf : Memory

namespace Rebuild

def writeFileSeek (file : File) (source : Memory) (seek size : BitVec 32) : File :=
  (file.seek (seek.setWidth 64)).write size.toNat source

-- `dest_buf` and `seg_sz`.
def unpack (unpacker : Unpacker) (i : Nat) (file : List Byte) (filesz : Nat) :
    Option (Memory × Nat) :=
  match unpacker.zlib.uncompress file filesz with
  | some data => some (fun k => data.getD k (unpacker.destHeap i k), data.length)
  | none => (unpacker.largeInflate file filesz).map fun dest => (dest, filesz)

def padding (unpacker : Unpacker) (elf : File) (before here : Phdr) : File :=
  let paddingOff := before.pOffset + before.pFilesz
  let paddingSz := here.pOffset - paddingOff
  if 0 < paddingSz ∧ unpacker.mallocs paddingSz = true then
    writeFileSeek elf (fun _ => 0) paddingOff paddingSz
  else elf

-- The part of a pass that is for `DUMP_SELF`. `none` is the failure of `compress`.
def recompress (unpacker : Unpacker) (s : Rebuild) (i : Nat) (file : List Byte)
    (dest : Memory × Nat) : Option Rebuild :=
  (unpacker.zlib.compress (dest.1.slice 0 dest.2) file.length).map fun packed =>
    let seg := (sceHeader s.currentSelf).sectionInfoOffset.toNat
    let header := s.currentSelf.storeDword (seg + 32 * i + 24) 2
    { s with
      currentSelf := header
      currentFile := writeFileSeek s.currentFile (fun k => packed.getD k (unpacker.fileHeap i k))
        ((infoAt header seg i).offset.setWidth 32) (BitVec.ofNat 32 packed.length) }

-- The segment loop's body for segment `i`, and whether the loop goes on.
def segmentPass (unpacker : Unpacker) (dumpSelf : Bool) (phdrs : Nat) (s : Rebuild) (i : Nat) :
    Rebuild × Bool :=
  match s.segs i with
  | none => (s, true)
  | some file =>
      let here := phdrAt s.currentSelf phdrs i
      let removed := Function.update s.segs i none
      if here.pFilesz = 0 then
        let elf :=
          if 0 < i then padding unpacker s.currentElf (phdrAt s.currentSelf phdrs (i - 1)) here
          else s.currentElf
        ({ s with currentElf := elf, segs := removed }, true)
      else
        match unpack unpacker i file here.pFilesz.toNat with
        | none =>
            -- written as it is, and left where it is
            let raw : Memory := fun k => file.getD k (unpacker.fileHeap i k)
            ({ s with
              currentElf := writeFileSeek s.currentElf raw here.pOffset here.pFilesz }, false)
        | some dest =>
            match if dumpSelf then recompress unpacker s i file dest else some s with
            | none => (s, false)
            | some s =>
                let here := phdrAt s.currentSelf phdrs i
                ({ s with
                  currentElf := writeFileSeek s.currentElf dest.1 here.pOffset here.pFilesz
                  segs := removed }, true)

-- The plugin renames its next file, and `decompressThread` makes a step of its own.
inductive Action
  | segmentDone
  | decompress
deriving DecidableEq

def threadStep (unpacker : Unpacker) (dumpSelf : Bool) (s : Rebuild) : Rebuild :=
  match s.visit with
  | none =>
      let shdr := sceHeader s.currentSelf
      { s with visit := some ⟨shdr.elfOffset.toNat, shdr.phdrOffset.toNat, 0⟩ }
  | some pass =>
      if pass.i < (ehdrAt s.currentSelf pass.ehdr).phnum.toNat then
        let passed := segmentPass unpacker dumpSelf pass.phdrs s pass.i
        { passed.1 with visit := if passed.2 then some { pass with i := pass.i + 1 } else none }
      else { s with visit := none }

def step (unpacker : Unpacker) (dumpSelf : Bool) (content : Nat → List Byte) (s : Rebuild) :
    Action → Option Rebuild
  | .segmentDone =>
      match s.coming with
      | [] => none
      | i :: coming => some { s with coming, segs := Function.update s.segs i (some (content i)) }
  | .decompress => some (threadStep unpacker dumpSelf s)

end Rebuild

def rebuild (unpacker : Unpacker) (dumpSelf : Bool) (content : Nat → List Byte) :
    Transitions Rebuild Rebuild.Action :=
  ⟨Rebuild.step unpacker dumpSelf content⟩

end VitaTools.FagDec
