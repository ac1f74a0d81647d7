import VitaTools.Self.Model

set_option autoImplicit false

/-!
`handleSegments` of THGN, the first pass of the extractor's segment loop, and
`handleSegments` of the decompiler behind the first pass of the loop in its `main`.
Allocations succeed.
-/

namespace VitaTools.Self

open VitaTools.Library

/-- What a reader's pointer leads to: `size` bytes of its own. -/
structure Block where
  bytes : Memory
  size : Nat

def Block.first (block : Block) (count : Nat) : Option (List Byte) :=
  if count ≤ block.size then some (block.bytes.slice 0 count) else none

-- A buffer from `calloc` that begins with these bytes.
def callocated (data : List Byte) : Memory := fun k => data.getD k 0

namespace Thgn

-- The room given to `uncompress` is the length of the stream. `spoiled` is what a failing
-- `uncompress` leaves in the buffer, which is returned all the same.
def handleSegments (zlib : Zlib) (spoiled heap : Memory) (fin : File) (seg : Nat) : Block :=
  let input := fin.image heap
  let info := infoAt input (sceHeader input).sectionInfoOffset.toNat seg
  if info.compression = 2 then
    match zlib.uncompress (input.slice info.offset.toNat info.length.toNat)
        info.length.toNat with
    | some data => ⟨callocated data, info.length.toNat⟩
    | none => ⟨spoiled, info.length.toNat⟩
  else ⟨fun k => input (info.offset.toNat + k), fin.size - info.offset.toNat⟩

end Thgn

namespace Unmake

-- The headers as `main` leaves them before the segment loop.
structure Start where
  input : Memory
  ehdr : Nat
  phdrs : Nat

def start (file : Memory) : Start :=
  let shdr := sceHeader file
  let copied := isElf file shdr.headerLen.toNat
  let ehdr := if copied then shdr.headerLen.toNat else shdr.elfOffset.toNat
  let input := if copied then clearSections file ehdr else file
  let phdrs :=
    if copied then shdr.headerLen.toNat + (ehdrAt input ehdr).phoff.toNat
    else shdr.phdrOffset.toNat
  ⟨input, ehdr, phdrs⟩

theorem unmake_start (zlib : Zlib) (heap : Memory) (fin : File) : unmake zlib heap fin =
    if (fin.image heap).word 0 ≠ SCE_MAGIC then none
    else
      let sinfo := (sceHeader (fin.image heap)).sectionInfoOffset.toNat
      let ⟨input, ehdr, phdrs⟩ := start (fin.image heap)
      let fout := (File.empty.seek 0).write (ehdrAt input ehdr).ehsize.toNat fun k =>
        input (ehdr + k)
      let (input, fout) := extractLoop zlib sinfo ehdr phdrs 65536 0 (input, fout)
      let last := ehdrAt input ehdr
      some ((fout.seek (last.phoff.setWidth 64)).write (last.phentsize.toNat * last.phnum.toNat)
        fun k => input (phdrs + k)) := rfl

def firstSegment (zlib : Zlib) (heap : Memory) (fin : File) : Option (List Byte) :=
  let file := fin.image heap
  let ⟨input, ehdr, phdrs⟩ := start file
  if (ehdrAt input ehdr).phnum = 0 then none
  else
    let (input, fout) :=
      extractSegment zlib (sceHeader file).sectionInfoOffset.toNat phdrs input File.empty 0
    let phdr := phdrAt input phdrs 0
    some (fout.bytes.slice phdr.pOffset.toNat phdr.pFilesz.toNat)

end Unmake

namespace Vitadecompiler

def HEADER_LEN : Nat := 0x1000

-- `fseek` and `fread` into a buffer from `calloc`.
def fread (fin : File) (offset count : Nat) : Memory := fun k =>
  if k < count ∧ offset + k < fin.size then fin.bytes (offset + k) else 0

-- `compression` is an `int`.
def handleSegments (zlib : Zlib) (compression : BitVec 32) (fin : File)
    (pOffset pFilesz pMemsz : BitVec 32) : Block :=
  let sz := max pMemsz.toNat pFilesz.toNat
  let input := fread fin pOffset.toNat pFilesz.toNat
  if compression = 2 then
    match zlib.uncompress (input.slice 0 pFilesz.toNat) sz with
    | some data => ⟨callocated data, sz⟩
    | none => ⟨input, sz⟩
  else ⟨input, sz⟩

-- The program header `i` gets the place and the length of the stored segment. The length is
-- compared with that of header 0.
def adjust (input : Memory) (sinfo phdrs i : Nat) : Memory :=
  let input := input.storeWord (phdrs + 32 * i + 4) ((infoAt input sinfo i).offset.setWidth 32)
  let length := (infoAt input sinfo i).length
  if (phdrAt input phdrs 0).pFilesz.setWidth 64 < length then
    input.storeWord (phdrs + 32 * i + 16) (length.setWidth 32)
  else input

def firstSegment (zlib : Zlib) (fin : File) : Option Block :=
  let header := fin.bytes
  let shdr := sceHeader header
  let sinfo := shdr.sectionInfoOffset.toNat
  let phdrs := shdr.phdrOffset.toNat
  if fin.size < HEADER_LEN then none
  else if HEADER_LEN < shdr.elfOffset.toNat + 46 ∨ HEADER_LEN < phdrs + 24 ∨
      HEADER_LEN < sinfo + 24 then none
  else if (ehdrAt header shdr.elfOffset.toNat).phnum = 0 then none
  else
    let header := adjust header sinfo phdrs 0
    let phdr := phdrAt header phdrs 0
    some (handleSegments zlib ((infoAt header sinfo 0).compression.setWidth 32) fin phdr.pOffset
      phdr.pFilesz (header.word (phdrs + 20)))

end Vitadecompiler

end VitaTools.Self
