import VitaTools.Library.Cycle
import VitaTools.Library.Memory
import VitaTools.Library.Replace

set_option autoImplicit false

/-!
From where the format is known: the checks before it decide only whether a file is walked and
which segment holds its table. A `long` has 64 bits.
-/

namespace VitaTools.Bootimage

open VitaTools.Library

abbrev Word := BitVec 32

structure Image where
  bytes : Memory
  size : Nat

abbrev Buffer (n : Nat) := Fin n → Byte

def Buffer.memory {n : Nat} (buffer : Buffer n) : Memory := fun k =>
  if inside : k < n then buffer ⟨k, inside⟩ else 0

/-- `fseek` and `fread`: where the file has ended the memory is left as it is. -/
def Image.read (image : Image) (pos : Nat) (memory : Memory) : Memory := fun k =>
  if pos + k < image.size then image.bytes (pos + k) else memory k

def Image.fread {n : Nat} (image : Image) (pos : Nat) (buffer : Buffer n) : Buffer n := fun k =>
  image.read pos buffer.memory k

-- The entries have 12 bytes. What is done with one moves neither the index nor the buffer.
structure Table (Result : Type) where
  image : Image
  base : Word
  last : Buffer 12 → Bool
  use : Buffer 12 → Result

structure Listing (Result : Type) where
  i : Word
  entry : Buffer 12
  results : List Result

namespace Table

variable {Result : Type} (table : Table Result)

def fetch (i : Word) (entry : Buffer 12) : Buffer 12 :=
  table.image.fread (table.base.toNat + 12 * i.toNat) entry

def loop : Loop (Listing Result) where
  more s := !table.last s.entry
  pass s :=
    { i := s.i + 1
      entry := table.fetch (s.i + 1) s.entry
      results := s.results ++ [table.use s.entry] }

-- The first pass of `do ... while` is made in any case.
def start (blank : Buffer 12) : Listing Result := table.loop.pass ⟨0, table.fetch 0 blank, []⟩

end Table

structure Host where
  outDir : List Byte
  -- What a block for a module header holds, given what the one freed last held.
  recycle : Buffer 260 → Buffer 260
  -- What other blocks hold.
  heap : Memory

/-- A call of `extract_file`. -/
structure Extracted where
  path : List Byte
  bytes : List Byte

-- `BOOTIMAGE_ELF_BASE_VADDR`
def baseVaddr : Word := 0x81000000

-- "os0:kd", ".skprx" and ".elf"
def os0kd : List Byte := [0x6F, 0x73, 0x30, 0x3A, 0x6B, 0x64]
def skprx : List Byte := [0x2E, 0x73, 0x6B, 0x70, 0x72, 0x78]
def elf : List Byte := [0x2E, 0x65, 0x6C, 0x66]

def pathOf (memory : Memory) : List Byte := (memory.slice 0 256).takeWhile (· != 0)

def outputPath (outDir path : List Byte) : List Byte :=
  replaceAll (replaceAll path os0kd outDir) skprx elf

section

variable (host : Host) (image : Image)

def elfBuffer (pos size : Nat) : List Byte := (image.read pos host.heap).slice 0 size

/-- A word of the header chunk; `none` outside of it. -/
def chunkWord (address : Nat) : Option Word :=
  if address + 4 ≤ 0x400 then some ((image.read 0 host.heap).word address) else none

structure OldWalk where
  offset : Word
  header : Buffer 260
  saved : List Extracted

-- The size comes first in `MODULE_HEADER_OLD`, the path behind it.
def oldLoop (textSegOffset size : Word) : Loop OldWalk where
  more s := textSegOffset + s.offset < size
  pass s :=
    let pos := (textSegOffset + s.offset).toNat
    let header := image.fread pos (host.recycle s.header)
    let fileSize := header.memory.word 0
    { offset := s.offset + (260 + fileSize)
      header := header
      saved := s.saved ++ [{
        path := outputPath host.outDir (pathOf fun k => header.memory (4 + k))
        bytes := elfBuffer host image (pos + 260) fileSize.toNat }] }

def newTable (pcff : Bool) (segOffset : Word) : Table Extracted where
  image := image
  base := segOffset + if pcff then 0 else 0xE4
  last entry := entry.memory.word 0 == 0
  use entry :=
    let first := image.fread (segOffset + if pcff then 0 else 0xE4).toNat
      fun k : Fin 12 => host.heap k
    let slide := if pcff then first.memory.word 0 &&& 0xFFFF0000 else baseVaddr
    let path := pathOf (image.read (segOffset + entry.memory.word 0 - slide).toNat host.heap)
    { path := if pcff then (host.outDir ++ 0x2F :: path).take 255 else outputPath host.outDir path
      bytes := elfBuffer host image (segOffset + entry.memory.word 4 - slide).toNat
        (entry.memory.word 8).toNat }

/-- The files that are written, one after the other; `none` when the passes do not suffice or the
header chunk is left. -/
def main (fuel : Nat) (pcff : Bool) : Option (List Extracted) := do
  let phoff ← chunkWord host image 0x1C
  let textSegOffset ← chunkWord host image (phoff.toNat + 4)
  let boot ← chunkWord host image (textSegOffset.toNat + 0xC0)
  let filesz ← chunkWord host image (phoff.toNat + 16)
  if boot - baseVaddr = filesz then
    let start ← chunkWord host image (textSegOffset.toNat + 0xC4)
    let final ← (oldLoop host image textSegOffset (boot - baseVaddr)).run fuel
      ⟨start - baseVaddr, fun k => host.heap k, []⟩
    some final.saved
  else
    let segOffset ← chunkWord host image (phoff.toNat + (if pcff then 32 else 0) + 4)
    let table := newTable host image pcff segOffset
    let final ← table.loop.run fuel (table.start fun k => host.heap k)
    some final.results

end

end VitaTools.Bootimage
