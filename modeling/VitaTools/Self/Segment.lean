import VitaTools.Self.Readers
import VitaTools.Self.RoundTrip

set_option autoImplicit false

namespace VitaTools.Self

open VitaTools.Library

-- `uncompress` succeeds on a stream whose expansion has room.
def Zlib.Completes (zlib : Zlib) (expands : List Byte → Option (List Byte)) : Prop :=
  ∀ source room data, zlib.uncompress source room = some data ↔
    expands source = some data ∧ data.length ≤ room

theorem sectionField_add (ehdr k : Nat) : SectionField ehdr (ehdr + k) ↔ SectionField 0 k := by
  unfold SectionField
  omega

structure Image where
  fin : File
  heap : Memory

namespace Image

variable (image : Image)

def file : Memory := image.fin.image image.heap

def headerLen : Nat := (sceHeader image.file).headerLen.toNat

def elfOffset : Nat := (sceHeader image.file).elfOffset.toNat

def sinfo : Nat := (sceHeader image.file).sectionInfoOffset.toNat

def phdrs : Nat := (sceHeader image.file).phdrOffset.toNat

def info : SegmentInfo := infoAt image.file image.sinfo 0

def place : Nat := image.info.offset.toNat

def length : Nat := image.info.length.toNat

-- `p_filesz` of segment 0.
def count : Nat := (phdrAt image.file image.phdrs 0).pFilesz.toNat

def stored : List Byte := image.file.slice image.place image.length

def started : Unmake.Start := Unmake.start image.file

end Image

/-- A SELF with a segment 0 that is stored plain or as a stream of its `p_filesz` bytes. -/
structure SelfFile (expands : List Byte → Option (List Byte)) extends Image where
  magic : toImage.file.word 0 = SCE_MAGIC
  segments : (ehdrAt toImage.file toImage.elfOffset).phnum ≠ 0
  marked : toImage.info.compression = 1 ∨ toImage.info.compression = 2
  plain : toImage.info.compression = 1 → toImage.place + toImage.count ≤ fin.size
  stream : toImage.info.compression = 2 → toImage.place + toImage.length ≤ fin.size ∧
    ∃ data, expands toImage.stored = some data ∧ data.length = toImage.count
  -- The headers that the extractor uses tell the same.
  segmentsCopied : (ehdrAt toImage.started.input toImage.started.ehdr).phnum ≠ 0
  sameCount : (phdrAt toImage.started.input toImage.started.phdrs 0).pFilesz =
    (phdrAt toImage.file toImage.phdrs 0).pFilesz
  -- The section info, the program headers, a stream and the cleared ELF headers lie apart.
  tables : toImage.sinfo + 24 ≤ toImage.phdrs + 4 ∨ toImage.phdrs + 20 ≤ toImage.sinfo
  infoApart : isElf toImage.file toImage.headerLen = true →
    toImage.sinfo + 24 ≤ toImage.headerLen + 32 ∨ toImage.headerLen + 52 ≤ toImage.sinfo
  streamApart : isElf toImage.file toImage.headerLen = true → toImage.info.compression = 2 →
    toImage.place + toImage.length ≤ toImage.headerLen + 32 ∨
      toImage.headerLen + 52 ≤ toImage.place
  ownApart : isElf toImage.started.input toImage.place = true → toImage.info.compression = 1 →
    toImage.started.phdrs + 20 ≤ toImage.place + 32 ∨
      toImage.place + 52 ≤ toImage.started.phdrs + 16

theorem clearSections_keeps_iff (m : Memory) (ehdr start count : Nat) :
    (∀ k < count, clearSections m ehdr (start + k) = m (start + k)) ↔
      (isElf m ehdr = true → ∀ k < count, SectionField ehdr (start + k) → m (start + k) = 0) := by
  constructor
  · intro keeps elf k inside field
    rw [← keeps k inside, clearSections_apply, if_pos ⟨elf, field⟩]
  · intro zero k inside
    rw [clearSections_apply]
    split
    next cleared => exact (zero cleared.1 k inside cleared.2).symm
    next => rfl

-- Section fields lie behind the magic: clearing the header `other` first makes no difference
-- to whether there is a header at `start`, as long as it changes nothing that is looked at.
theorem isElf_clearSections {m : Memory} {other start count k : Nat}
    (keeps : ∀ k < count, clearSections m other (start + k) = m (start + k)) (inside : k < count)
    (field : SectionField start (start + k)) :
    isElf (clearSections m other) start = isElf m start := by
  unfold SectionField at field
  exact isElf_congr fun j small => keeps j (by omega)

theorem clearSections_twice_iff (m : Memory) (other start count : Nat) :
    (∀ k < count, clearSections (clearSections m other) start (start + k) = m (start + k)) ↔
      (∀ k < count, clearSections m other (start + k) = m (start + k)) ∧
        ∀ k < count, clearSections m start (start + k) = m (start + k) := by
  constructor
  · intro keeps
    have first : ∀ k < count, clearSections m other (start + k) = m (start + k) := by
      intro k inside
      have same := keeps k inside
      rw [clearSections_apply] at same
      split at same
      next =>
        rw [clearSections_apply, ← same]
        split <;> rfl
      next => exact same
    refine ⟨first, (clearSections_keeps_iff m start start count).mpr fun elf k inside field => ?_⟩
    rw [← isElf_clearSections first inside field] at elf
    rw [← keeps k inside, clearSections_apply, if_pos ⟨elf, field⟩]
  · intro ⟨first, second⟩ k inside
    rw [clearSections_apply]
    split
    next cleared =>
      rw [isElf_clearSections first inside cleared.2] at cleared
      rw [← second k inside, clearSections_apply, if_pos cleared]
    next => exact first k inside

namespace Unmake

section

variable (zlib : Zlib) (sinfo phdrs : Nat) (input : Memory) (i : Nat)

def unpacked : Option (List Byte) :=
  let info := infoAt input sinfo i
  if info.compression = 2 then
    zlib.uncompress (input.slice info.offset.toNat info.length.toNat)
      (phdrAt input phdrs i).pFilesz.toNat
  else none

def destination : Memory :=
  match unpacked zlib sinfo phdrs input i with
  | some data => clearSections (callocated data) 0
  | none =>
      let offset := (infoAt input sinfo i).offset.toNat
      fun k => clearSections input offset (offset + k)

def passed : Memory :=
  match unpacked zlib sinfo phdrs input i with
  | some _ => input
  | none => clearSections input (infoAt input sinfo i).offset.toNat

theorem extractSegment_eq (fout : File) : extractSegment zlib sinfo phdrs input fout i =
    (passed zlib sinfo phdrs input i,
      (fout.seek ((phdrAt (passed zlib sinfo phdrs input i) phdrs i).pOffset.setWidth 64)).write
        (phdrAt (passed zlib sinfo phdrs input i) phdrs i).pFilesz.toNat
          (destination zlib sinfo phdrs input i)) := by
  simp only [extractSegment, passed, destination, unpacked]
  cases (if (infoAt input sinfo i).compression = 2 then
    zlib.uncompress (input.slice (infoAt input sinfo i).offset.toNat
      (infoAt input sinfo i).length.toNat) (phdrAt input phdrs i).pFilesz.toNat else none) <;> rfl

end

end Unmake

namespace SelfFile

variable {expands : List Byte → Option (List Byte)} (fself : SelfFile expands) (zlib : Zlib)

def content : Memory :=
  if fself.info.compression = 2 then callocated ((expands fself.stored).getD [])
  else fun k => fself.file (fself.place + k)

/-- All three readers obtain the same `p_filesz` bytes. -/
def Agree (spoiled : Memory) : Prop :=
  ∃ bytes,
    (Thgn.handleSegments zlib spoiled fself.heap fself.fin 0).first fself.count = some bytes ∧
      Unmake.firstSegment zlib fself.heap fself.fin = some bytes ∧
      ((Vitadecompiler.firstSegment zlib fself.fin).bind fun block => block.first fself.count) =
        some bytes

/-- The extractor clears the section fields of every ELF header it meets; where they lie in
the segment they are zero. -/
structure Kept : Prop where
  own : isElf fself.content 0 = true → ∀ k < fself.count, SectionField 0 k → fself.content k = 0
  copied : isElf fself.file fself.headerLen = true → fself.info.compression = 1 →
    ∀ k < fself.count, SectionField fself.headerLen (fself.place + k) → fself.content k = 0

/-- The decompiler reads the headers into a buffer of its own. -/
structure InHeader : Prop where
  size : Vitadecompiler.HEADER_LEN ≤ fself.fin.size
  ehdr : fself.elfOffset + 46 ≤ Vitadecompiler.HEADER_LEN
  phdr : fself.phdrs + 24 ≤ Vitadecompiler.HEADER_LEN
  info : fself.sinfo + 24 ≤ Vitadecompiler.HEADER_LEN

-- THGN gives a stream the room of its own length.
def Roomy : Prop := fself.info.compression = 2 → fself.count ≤ fself.length

variable {zlib}

theorem plain_of_ne (other : fself.info.compression ≠ 2) : fself.info.compression = 1 :=
  fself.marked.resolve_right other

theorem uncompress_stored (complete : zlib.Completes expands)
    (compressed : fself.info.compression = 2) : ∃ data, fself.content = callocated data ∧
      data.length = fself.count ∧ ∀ room, fself.count ≤ room →
        zlib.uncompress fself.stored room = some data := by
  obtain ⟨_, data, expanded, size⟩ := fself.stream compressed
  refine ⟨data, ?_, size, fun room fits => ?_⟩
  · rw [content, if_pos compressed, expanded, Option.getD_some]
  · rw [complete]
    exact ⟨expanded, size ▸ fits⟩

section

variable (spoiled : Memory)

theorem thgn_eq : Thgn.handleSegments zlib spoiled fself.heap fself.fin 0 =
    if fself.info.compression = 2 then
      match zlib.uncompress fself.stored fself.length with
      | some data => ⟨callocated data, fself.length⟩
      | none => ⟨spoiled, fself.length⟩
    else ⟨fun k => fself.file (fself.place + k), fself.fin.size - fself.place⟩ := rfl

theorem thgn_obtains (complete : zlib.Completes expands)
    (room : fself.Roomy) :
    (Thgn.handleSegments zlib spoiled fself.heap fself.fin 0).first fself.count =
      some (fself.content.slice 0 fself.count) := by
  rw [thgn_eq]
  by_cases compressed : fself.info.compression = 2
  next =>
    obtain ⟨data, content, _, unpacks⟩ := fself.uncompress_stored complete compressed
    rw [if_pos compressed, unpacks _ (room compressed), content]
    exact if_pos (room compressed)
  next =>
    have inside := fself.plain (fself.plain_of_ne compressed)
    rw [if_neg compressed, content, if_neg compressed]
    exact if_pos (Nat.le_sub_of_add_le' inside)

theorem thgn_short (compressed : fself.info.compression = 2) (short : fself.length < fself.count) :
    (Thgn.handleSegments zlib spoiled fself.heap fself.fin 0).first fself.count = none := by
  rw [thgn_eq, if_pos compressed]
  split <;> exact if_neg (Nat.not_le.mpr short)

end

theorem started_input : fself.started.input = clearSections fself.file fself.headerLen := by
  simp only [Image.started, Unmake.start, Image.headerLen]
  split
  next copied => rfl
  next missing => rw [clearSections, if_neg missing]

theorem started_outside {a : Nat} (outside : isElf fself.file fself.headerLen = true →
    a < fself.headerLen + 32 ∨ fself.headerLen + 52 ≤ a) :
    fself.started.input a = fself.file a := by
  rw [started_input, clearSections_apply, if_neg]
  intro ⟨copied, field⟩
  have apart := outside copied
  unfold SectionField at field
  omega

theorem started_info : infoAt fself.started.input fself.sinfo 0 = fself.info := by
  refine infoAt_congr fun a low high => fself.started_outside fun copied => ?_
  have apart := fself.infoApart copied
  omega

theorem started_stored (compressed : fself.info.compression = 2) :
    fself.started.input.slice fself.place fself.length = fself.stored := by
  refine Memory.slice_congr fun k inside => fself.started_outside fun copied => ?_
  have apart := fself.streamApart copied compressed
  omega

section

variable (complete : zlib.Completes expands)
include complete

theorem unpacked_stream (compressed : fself.info.compression = 2) : ∃ data,
    fself.content = callocated data ∧
      Unmake.unpacked zlib fself.sinfo fself.started.phdrs fself.started.input 0 = some data := by
  obtain ⟨data, content, _, unpacks⟩ := fself.uncompress_stored complete compressed
  refine ⟨data, content, ?_⟩
  simp only [Unmake.unpacked, fself.started_info, fself.sameCount, if_pos compressed]
  rw [← unpacks _ (le_refl _), ← fself.started_stored compressed]
  rfl

omit complete in
theorem unpacked_plain (plain : fself.info.compression ≠ 2) :
    Unmake.unpacked zlib fself.sinfo fself.started.phdrs fself.started.input 0 = none := by
  simp only [Unmake.unpacked, fself.started_info, if_neg plain]

theorem passed_count : (phdrAt (Unmake.passed zlib fself.sinfo fself.started.phdrs
    fself.started.input 0) fself.started.phdrs 0).pFilesz.toNat = fself.count := by
  have same : (phdrAt fself.started.input fself.started.phdrs 0).pFilesz.toNat = fself.count :=
    congrArg BitVec.toNat fself.sameCount
  by_cases compressed : fself.info.compression = 2
  next =>
    obtain ⟨data, _, unpacked⟩ := fself.unpacked_stream complete compressed
    rwa [Unmake.passed, unpacked]
  next =>
    have apart := fun elf => fself.ownApart elf (fself.plain_of_ne compressed)
    rw [Unmake.passed, fself.unpacked_plain compressed, fself.started_info, ← same]
    refine congrArg BitVec.toNat (Memory.word_congr fun a low high => ?_)
    change clearSections fself.started.input fself.place a = fself.started.input a
    rw [clearSections_apply, if_neg]
    intro ⟨elf, field⟩
    have outside := apart elf
    unfold SectionField at field
    omega

theorem unmake_eq : Unmake.firstSegment zlib fself.heap fself.fin =
    some ((Unmake.destination zlib fself.sinfo fself.started.phdrs fself.started.input 0).slice 0
      fself.count) := by
  let pass := extractSegment zlib fself.sinfo fself.started.phdrs fself.started.input File.empty 0
  let phdr := phdrAt pass.1 fself.started.phdrs 0
  have written : Unmake.firstSegment zlib fself.heap fself.fin =
      if (ehdrAt fself.started.input fself.started.ehdr).phnum = 0 then none
      else some (pass.2.bytes.slice phdr.pOffset.toNat phdr.pFilesz.toNat) := rfl
  have count : phdr.pFilesz.toNat = fself.count := by
    rw [← fself.passed_count complete]
    simp only [phdr, pass, Unmake.extractSegment_eq]
  obtain ⟨wide, positive⟩ := Pair.wide_range phdr.pOffset
  have data : pass.2 = (File.empty.seek (phdr.pOffset.setWidth 64)).write phdr.pFilesz.toNat
      (Unmake.destination zlib fself.sinfo fself.started.phdrs fself.started.input 0) := by
    simp only [phdr, pass, Unmake.extractSegment_eq]
  rw [written, if_neg fself.segmentsCopied, data, ← wide, File.slice_write positive, count]

theorem destination_stream (compressed : fself.info.compression = 2) :
    Unmake.destination zlib fself.sinfo fself.started.phdrs fself.started.input 0 =
      clearSections fself.content 0 := by
  obtain ⟨data, content, unpacked⟩ := fself.unpacked_stream complete compressed
  rw [Unmake.destination, unpacked, content]

omit complete in
theorem destination_plain (plain : fself.info.compression ≠ 2) :
    Unmake.destination zlib fself.sinfo fself.started.phdrs fself.started.input 0 =
      fun k => clearSections fself.started.input fself.place (fself.place + k) := by
  rw [Unmake.destination, fself.unpacked_plain plain, fself.started_info]
  rfl

end

theorem unmake_obtains_iff (complete : zlib.Completes expands) :
    Unmake.firstSegment zlib fself.heap fself.fin = some (fself.content.slice 0 fself.count) ↔
      fself.Kept := by
  rw [fself.unmake_eq complete, Option.some.injEq, Memory.slice_eq_iff]
  by_cases compressed : fself.info.compression = 2
  next =>
    rw [fself.destination_stream complete compressed, clearSections_keeps_iff]
    have marked : fself.info.compression ≠ 1 := by
      rw [compressed]
      decide
    simp only [Nat.zero_add]
    exact ⟨fun own => ⟨own, fun _ plain => absurd plain marked⟩, Kept.own⟩
  next =>
    have plain := fself.plain_of_ne compressed
    have content : fself.content = fun k => fself.file (fself.place + k) := if_neg compressed
    have same : isElf fself.content 0 = isElf fself.file fself.place := by
      rw [content]
      exact isElf_congr fun k _ => by rw [Nat.zero_add]
    rw [fself.destination_plain compressed, fself.started_input]
    simp only [content, Nat.zero_add]
    rw [clearSections_twice_iff, clearSections_keeps_iff, clearSections_keeps_iff]
    simp only [sectionField_add, ← same]
    constructor
    · intro ⟨copied, own⟩
      refine ⟨?_, ?_⟩
      next => simpa only [content] using own
      next => simpa only [content, plain, forall_const] using copied
    · intro kept
      have own := kept.own
      have copied := kept.copied
      simp only [content, plain, forall_const] at own copied ⊢
      exact ⟨copied, own⟩

end SelfFile

end VitaTools.Self
