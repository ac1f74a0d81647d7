import VitaTools.Library.File

set_option autoImplicit false

/-!
`main.c` of the injector and `main.c` of the extractor, on files held in memory.
Allocations succeed.
-/

namespace VitaTools.Self

open VitaTools.Library

def SCE_MAGIC : BitVec 32 := 0x454353

-- The fields of `SCE_header` that are read.
structure SceHeader where
  headerLen : BitVec 64
  elfOffset : BitVec 64
  phdrOffset : BitVec 64
  sectionInfoOffset : BitVec 64
  controlinfoOffset : BitVec 64

def sceHeader (file : Memory) : SceHeader where
  headerLen := file.dword 16
  elfOffset := file.dword 64
  phdrOffset := file.dword 72
  sectionInfoOffset := file.dword 88
  controlinfoOffset := file.dword 104

structure Ehdr where
  phoff : BitVec 32
  ehsize : BitVec 16
  phentsize : BitVec 16
  phnum : BitVec 16

def ehdrAt (file : Memory) (ehdr : Nat) : Ehdr where
  phoff := file.word (ehdr + 28)
  ehsize := file.half (ehdr + 40)
  phentsize := file.half (ehdr + 42)
  phnum := file.half (ehdr + 44)

structure Phdr where
  pOffset : BitVec 32
  pFilesz : BitVec 32

def phdrAt (file : Memory) (phdrs i : Nat) : Phdr where
  pOffset := file.word (phdrs + 32 * i + 4)
  pFilesz := file.word (phdrs + 32 * i + 16)

-- `segment_info`, but for its encryption.
structure SegmentInfo where
  offset : BitVec 64
  length : BitVec 64
  compression : BitVec 64

def infoAt (file : Memory) (sinfo i : Nat) : SegmentInfo where
  offset := file.dword (sinfo + 32 * i)
  length := file.dword (sinfo + 32 * i + 8)
  compression := file.dword (sinfo + 32 * i + 16)

-- `memcmp(file + at, "\177ELF\1\1\1", 8) == 0`.
def isElf (file : Memory) (start : Nat) : Bool :=
  file.slice start 8 == [0x7F, 0x45, 0x4C, 0x46, 1, 1, 1, 0]

-- `compress` and `uncompress` with the room at the destination; `none` is any result
-- but `Z_OK`.
structure Zlib where
  compress : List Byte → Nat → Option (List Byte)
  uncompress : List Byte → Nat → Option (List Byte)

def segment (elf : Memory) (phdrs i : Nat) : List Byte :=
  let phdr := phdrAt elf phdrs i
  elf.slice phdr.pOffset.toNat phdr.pFilesz.toNat

structure Injection where
  selfFile : Memory
  fout : File
  offsetCorrection : BitVec 64

-- The pass of the segment loop for segment `i`; `heap i` is what `malloc` leaves in
-- `dest`.
def injectSegment (zlib : Zlib) (heap : Nat → Memory) (elfFile : Memory) (phdrs sinfo : Nat)
    (st : Injection) (i : Nat) : Injection :=
  let info := infoAt st.selfFile sinfo i
  let offset := info.offset + st.offsetCorrection
  let selfFile := st.selfFile.storeDword (sinfo + 32 * i) offset
  match zlib.compress (segment elfFile phdrs i) (phdrAt elfFile phdrs i).pFilesz.toNat with
  | none => { st with selfFile }
  | some dest =>
      let segSz := BitVec.ofNat 64 dest.length
      let length := if info.length < segSz then segSz else info.length
      { selfFile := selfFile.storeDword (sinfo + 32 * i + 8) length
        fout := (st.fout.seek offset).write length.toNat fun k => dest.getD k (heap i k)
        offsetCorrection :=
          if info.length < segSz then st.offsetCorrection + (segSz - info.length)
          else st.offsetCorrection }

-- The loop over the control infos. Without `fuel` left it has not ended.
def controlLoop (elfDigest : Memory) : Nat → Memory → Nat → Option Memory
  | 0, _, _ => none
  | fuel + 1, selfFile, info =>
      if selfFile.dword (info + 8) = 0 then some selfFile
      else
        let type := selfFile.word info
        let selfFile :=
          if type = 4 then selfFile.copy (info + 36) 0x20 elfDigest
          else if type = 5 then selfFile.copy (info + 16) 0x100 fun _ => 0
          else selfFile
        controlLoop elfDigest fuel selfFile (info + (selfFile.word (info + 4)).toNat)

def writeHeaders (selfFile elfFile : Memory) (fout : File) : File :=
  let shdr := sceHeader selfFile
  let ehdr := ehdrAt elfFile 0
  let fout := (fout.seek 0).write shdr.headerLen.toNat selfFile
  let fout := (fout.seek shdr.headerLen).write 52 fun k => selfFile (shdr.elfOffset.toNat + k)
  (fout.seek (shdr.headerLen + ehdr.phoff.setWidth 64)).write
    (ehdr.phnum.toNat * ehdr.phentsize.toNat) fun k => selfFile (shdr.phdrOffset.toNat + k)

-- `main` of the injector: the file written when it exits with 0.
def inject (zlib : Zlib) (heap : Nat → Memory) (elfDigest : Memory) (fuel : Nat)
    (selfFile elfFile : Memory) : Option File :=
  let shdr := sceHeader selfFile
  let ehdr := ehdrAt elfFile 0
  if selfFile.word 0 ≠ SCE_MAGIC ∨ isElf elfFile 0 = false then none
  else if ehdr.phnum ≠ (ehdrAt selfFile shdr.elfOffset.toNat).phnum then none
  else
    let start : Injection := ⟨selfFile, File.empty, 0⟩
    let st := (List.range ehdr.phnum.toNat).foldl
      (injectSegment zlib heap elfFile ehdr.phoff.toNat shdr.sectionInfoOffset.toNat) start
    let controlInfo := (sceHeader st.selfFile).controlinfoOffset.toNat
    (controlLoop elfDigest fuel st.selfFile controlInfo).map fun selfFile =>
      writeHeaders selfFile elfFile st.fout

-- Clear `e_shoff`, `e_shnum` and `e_shstrndx` of an ELF header.
def clearSections (buffer : Memory) (ehdr : Nat) : Memory :=
  if isElf buffer ehdr then (buffer.storeWord (ehdr + 32) 0).storeWord (ehdr + 48) 0 else buffer

def extractSegment (zlib : Zlib) (sinfo phdrs : Nat) (input : Memory) (fout : File) (i : Nat) :
    Memory × File :=
  let info := infoAt input sinfo i
  let unpacked :=
    if info.compression = 2 then
      zlib.uncompress (input.slice info.offset.toNat info.length.toNat)
        (phdrAt input phdrs i).pFilesz.toNat
    else none
  let (input, destination) : Memory × Memory :=
    match unpacked with
    | some data => (input, clearSections (fun k => data.getD k 0) 0)
    | none =>
        -- the segment is copied as it stands, and cleared where it stands
        let input := clearSections input info.offset.toNat
        (input, fun k => input (info.offset.toNat + k))
  let phdr := phdrAt input phdrs i
  (input, (fout.seek (phdr.pOffset.setWidth 64)).write phdr.pFilesz.toNat destination)

-- The segment loop from segment `i` on; `e_phnum` is read again before each pass.
def extractLoop (zlib : Zlib) (sinfo ehdr phdrs : Nat) :
    Nat → Nat → Memory × File → Memory × File
  | 0, _, st => st
  | fuel + 1, i, (input, fout) =>
      if i < (ehdrAt input ehdr).phnum.toNat then
        extractLoop zlib sinfo ehdr phdrs fuel (i + 1)
          (extractSegment zlib sinfo phdrs input fout i)
      else (input, fout)

-- `main` of the extractor: the ELF file written when it exits with 0. The loop makes at
-- most 65535 passes.
def unmake (zlib : Zlib) (heap : Memory) (fin : File) : Option File :=
  let input := fin.image heap
  let shdr := sceHeader input
  if input.word 0 ≠ SCE_MAGIC then none
  else
    let copied := isElf input shdr.headerLen.toNat
    let ehdr := if copied then shdr.headerLen.toNat else shdr.elfOffset.toNat
    let input := if copied then clearSections input ehdr else input
    let phdrs :=
      if copied then shdr.headerLen.toNat + (ehdrAt input ehdr).phoff.toNat
      else shdr.phdrOffset.toNat
    let fout := (File.empty.seek 0).write (ehdrAt input ehdr).ehsize.toNat fun k =>
      input (ehdr + k)
    let (input, fout) := extractLoop zlib shdr.sectionInfoOffset.toNat ehdr phdrs 65536 0
      (input, fout)
    let last := ehdrAt input ehdr
    some ((fout.seek (last.phoff.setWidth 64)).write (last.phentsize.toNat * last.phnum.toNat)
      fun k => input (phdrs + k))

end VitaTools.Self
