import VitaTools.Self.Segment

set_option autoImplicit false

namespace VitaTools.Self

open VitaTools.Library

namespace Vitadecompiler

theorem adjust_spec {m : Memory} {sinfo phdrs : Nat}
    (tables : sinfo + 24 ≤ phdrs + 4 ∨ phdrs + 20 ≤ sinfo) :
    infoAt (adjust m sinfo phdrs 0) sinfo 0 = infoAt m sinfo 0 ∧
      phdrAt (adjust m sinfo phdrs 0) phdrs 0 =
        ⟨(infoAt m sinfo 0).offset.setWidth 32,
          if (phdrAt m phdrs 0).pFilesz.setWidth 64 < (infoAt m sinfo 0).length then
            (infoAt m sinfo 0).length.setWidth 32
          else (phdrAt m phdrs 0).pFilesz⟩ := by
  have infoKept (n : Memory) (field : Nat) (value : BitVec 32) (low : 4 ≤ field)
      (high : field ≤ 16) :
      infoAt (n.storeWord (phdrs + field) value) sinfo 0 = infoAt n sinfo 0 :=
    infoAt_congr fun a above below => Memory.storeWord_outside _ _ _ a (by omega)
  have placed := infoKept m 4 ((infoAt m sinfo 0).offset.setWidth 32) (by decide) (by decide)
  have filesz : (phdrAt (m.storeWord (phdrs + 4) ((infoAt m sinfo 0).offset.setWidth 32)) phdrs
      0).pFilesz = (phdrAt m phdrs 0).pFilesz :=
    Memory.word_storeWord_apart _ _ _ _ (by omega)
  simp only [adjust, Nat.mul_zero, Nat.add_zero, placed, filesz]
  split
  next longer =>
    refine ⟨(infoKept _ 16 _ (by decide) (by decide)).trans placed, ?_⟩
    simp only [phdrAt, Nat.mul_zero, Nat.add_zero, Memory.word_storeWord]
    rw [Memory.word_storeWord_apart _ _ _ _ (by omega), Memory.word_storeWord]
  next =>
    refine ⟨placed, ?_⟩
    rw [← filesz]
    simp only [phdrAt, Nat.mul_zero, Nat.add_zero, Memory.word_storeWord]

end Vitadecompiler

namespace SelfFile

variable {expands : List Byte → Option (List Byte)} (fself : SelfFile expands) {zlib : Zlib}

theorem bytes_eq {a : Nat} (size : Vitadecompiler.HEADER_LEN ≤ fself.fin.size)
    (inside : a < Vitadecompiler.HEADER_LEN) : fself.fin.bytes a = fself.file a :=
  (if_pos (inside.trans_le size)).symm

theorem sceHeader_bytes (size : Vitadecompiler.HEADER_LEN ≤ fself.fin.size) :
    sceHeader fself.fin.bytes = sceHeader fself.file :=
  sceHeader_congr fun a small =>
    fself.bytes_eq size (small.trans (by decide : 128 < Vitadecompiler.HEADER_LEN))

theorem decompiler_none (outside : ¬ fself.InHeader) :
    Vitadecompiler.firstSegment zlib fself.fin = none := by
  simp only [Vitadecompiler.firstSegment]
  split
  next => rfl
  next long =>
    rw [fself.sceHeader_bytes (Nat.le_of_not_lt long)]
    refine if_pos ?_
    by_contra within
    rw [not_or, not_or] at within
    obtain ⟨ehdr, phdr, info⟩ := within
    exact outside ⟨Nat.le_of_not_lt long, Nat.le_of_not_lt ehdr, Nat.le_of_not_lt phdr,
      Nat.le_of_not_lt info⟩

-- `p_filesz` after the adjustment.
def filesz : BitVec 32 :=
  if (phdrAt fself.file fself.phdrs 0).pFilesz.setWidth 64 < fself.info.length then
    fself.info.length.setWidth 32
  else (phdrAt fself.file fself.phdrs 0).pFilesz

theorem decompiler_eq (zlib : Zlib) (inHeader : fself.InHeader) : ∃ pMemsz,
    Vitadecompiler.firstSegment zlib fself.fin = some (Vitadecompiler.handleSegments zlib
      (fself.info.compression.setWidth 32) fself.fin (fself.info.offset.setWidth 32) fself.filesz
        pMemsz) := by
  obtain ⟨size, ehdr, phdr, info⟩ := inHeader
  have stored : infoAt fself.fin.bytes fself.sinfo 0 = fself.info :=
    infoAt_congr fun a _ high => fself.bytes_eq size (by omega)
  have word (field : Nat) (small : field ≤ 16) :
      fself.fin.bytes.word (fself.phdrs + 32 * 0 + field) =
        fself.file.word (fself.phdrs + 32 * 0 + field) :=
    Memory.word_congr fun a _ high => fself.bytes_eq size (by omega)
  have program : phdrAt fself.fin.bytes fself.phdrs 0 = phdrAt fself.file fself.phdrs 0 := by
    rw [phdrAt, word 4 (by decide), word 16 (by decide)]
    rfl
  have segments : (ehdrAt fself.fin.bytes fself.elfOffset).phnum ≠ 0 := by
    have same : (ehdrAt fself.fin.bytes fself.elfOffset).phnum =
        (ehdrAt fself.file fself.elfOffset).phnum :=
      Memory.half_congr (fself.bytes_eq size (by omega)) (fself.bytes_eq size (by omega))
    rw [same]
    exact fself.segments
  obtain ⟨infoKept, phdrAdjusted⟩ := Vitadecompiler.adjust_spec (m := fself.fin.bytes) fself.tables
  have within : ¬ (Vitadecompiler.HEADER_LEN < fself.elfOffset + 46 ∨
      Vitadecompiler.HEADER_LEN < fself.phdrs + 24 ∨
        Vitadecompiler.HEADER_LEN < fself.sinfo + 24) := by
    omega
  rw [stored] at infoKept phdrAdjusted
  rw [program] at phdrAdjusted
  let header := Vitadecompiler.adjust fself.fin.bytes fself.sinfo fself.phdrs 0
  have block : Vitadecompiler.firstSegment zlib fself.fin = some (Vitadecompiler.handleSegments zlib
      ((infoAt header fself.sinfo 0).compression.setWidth 32) fself.fin
        (phdrAt header fself.phdrs 0).pOffset (phdrAt header fself.phdrs 0).pFilesz
          (header.word (fself.phdrs + 20))) := by
    simp only [Vitadecompiler.firstSegment, fself.sceHeader_bytes size,
      if_neg (Nat.not_lt.mpr size)]
    exact (if_neg within).trans (if_neg segments)
  rw [infoKept, phdrAdjusted] at block
  exact ⟨_, block⟩

/-- The place and the length of segment 0 are 32-bit numbers. -/
structure Narrow : Prop where
  place : fself.place < 2 ^ 32
  length : fself.length < 2 ^ 32

theorem filesz_toNat (narrow : fself.Narrow) :
    fself.filesz.toNat = max fself.count fself.length := by
  have wide : ((phdrAt fself.file fself.phdrs 0).pFilesz.setWidth 64).toNat = fself.count := by
    rw [BitVec.toNat_setWidth]
    exact Nat.mod_eq_of_lt ((phdrAt fself.file fself.phdrs 0).pFilesz.isLt.trans (by decide))
  have length : (fself.info.length.setWidth 32).toNat = fself.length := by
    rw [BitVec.toNat_setWidth]
    exact Nat.mod_eq_of_lt narrow.length
  unfold filesz
  split
  next longer =>
    rw [BitVec.lt_def, wide] at longer
    rw [length]
    exact (max_eq_right longer.le).symm
  next shorter =>
    rw [BitVec.lt_def, wide, not_lt] at shorter
    exact (max_eq_left shorter).symm

theorem fread_first {size count : Nat} (inside : fself.place + size ≤ fself.fin.size)
    (enough : size ≤ count) :
    (Vitadecompiler.fread fself.fin fself.place count).slice 0 size =
      fself.file.slice fself.place size := by
  refine Memory.slice_congr fun k small => ?_
  have within : fself.place + k < fself.fin.size := by omega
  rw [Nat.zero_add, Vitadecompiler.fread, if_pos ⟨by omega, within⟩]
  exact (if_pos within).symm

theorem decompiler_obtains (complete : zlib.Completes expands) (inHeader : fself.InHeader)
    (narrow : fself.Narrow) (room : fself.Roomy) :
    ((Vitadecompiler.firstSegment zlib fself.fin).bind fun block => block.first fself.count) =
      some (fself.content.slice 0 fself.count) := by
  obtain ⟨pMemsz, obtained⟩ := fself.decompiler_eq zlib inHeader
  have place : (fself.info.offset.setWidth 32).toNat = fself.place := by
    rw [BitVec.toNat_setWidth]
    exact Nat.mod_eq_of_lt narrow.place
  have filesz := fself.filesz_toNat narrow
  have enough : fself.count ≤ max pMemsz.toNat fself.filesz.toNat := by
    rw [filesz]
    exact le_max_of_le_right (le_max_left _ _)
  rw [obtained, Option.bind_some]
  simp only [Vitadecompiler.handleSegments, place]
  by_cases compressed : fself.info.compression = 2
  next =>
    have stored : (Vitadecompiler.fread fself.fin fself.place fself.filesz.toNat).slice 0
        fself.filesz.toNat = fself.stored := by
      rw [filesz, max_eq_right (room compressed)]
      exact fself.fread_first (fself.stream compressed).1 (le_refl _)
    obtain ⟨data, content, _, unpacks⟩ := fself.uncompress_stored complete compressed
    rw [compressed, if_pos (by decide), stored, unpacks _ enough, content]
    exact if_pos enough
  next =>
    have plain := fself.plain_of_ne compressed
    have read := fself.fread_first (fself.plain plain) (filesz ▸ le_max_left _ _)
    rw [plain, if_neg (by decide), Block.first, if_pos enough, read, content, if_neg compressed]
    exact congrArg some (Memory.slice_congr fun k _ => by rw [Nat.zero_add])

/-- The three readers agree on segment 0 only if a stream is at least as long as what it expands
to, the extractor clears nothing in the segment and the headers lie at the front of the file;
for a segment with a 32-bit place and length they then do. -/
theorem readers_agree (complete : zlib.Completes expands) (spoiled : Memory) :
    (fself.Agree zlib spoiled → fself.Roomy ∧ fself.Kept ∧ fself.InHeader) ∧
      (fself.Narrow →
        (fself.Agree zlib spoiled ↔ fself.Roomy ∧ fself.Kept ∧ fself.InHeader)) := by
  have needed : fself.Agree zlib spoiled → fself.Roomy ∧ fself.Kept ∧ fself.InHeader := by
    intro ⟨bytes, hooker, extractor, decompiler⟩
    have room : fself.Roomy := by
      intro compressed
      by_contra short
      rw [fself.thgn_short spoiled compressed (Nat.lt_of_not_le short)] at hooker
      contradiction
    have inHeader : fself.InHeader := by
      by_contra outside
      rw [fself.decompiler_none outside] at decompiler
      contradiction
    rw [fself.thgn_obtains spoiled complete room] at hooker
    rw [← hooker, fself.unmake_obtains_iff complete] at extractor
    exact ⟨room, extractor, inHeader⟩
  refine ⟨needed, fun narrow => ⟨needed, fun ⟨room, kept, inHeader⟩ => ?_⟩⟩
  exact ⟨fself.content.slice 0 fself.count, fself.thgn_obtains spoiled complete room,
    (fself.unmake_obtains_iff complete).mpr kept,
    fself.decompiler_obtains complete inHeader narrow room⟩

end SelfFile

open Pair (blank sampleSelf zeros zeroStream)

def letters : List Byte := [0x61, 0x62, 0x63, 0x64]

def letterStream : List Byte :=
  [0x78, 0x9C, 0x4B, 0x4C, 0x4A, 0x4E, 0x01, 0x00, 0x03, 0xD8, 0x01, 0x8B]

def expandsSample (source : List Byte) : Option (List Byte) :=
  if zeroStream.isPrefixOf source then some zeros
  else if letterStream.isPrefixOf source then some letters
  else none

def sampleZlib : Zlib where
  compress _ _ := none
  uncompress source room := (expandsSample source).filter fun data => data.length ≤ room

theorem sampleZlib_completes : sampleZlib.Completes expandsSample := by
  intro source room data
  simp [sampleZlib, Option.filter_eq_some_iff]

def sampleImage (data stream : List Byte) : Image where
  fin := ⟨((sampleSelf data).storeDword 256 (BitVec.ofNat 64 stream.length)).copy 512
    stream.length (callocated stream), 0x1000, 0⟩
  heap := blank

def zeroFile : SelfFile expandsSample where
  toImage := sampleImage zeros zeroStream
  magic := by decide +kernel
  segments := by decide +kernel
  marked := by decide +kernel
  plain := by decide +kernel
  stream := fun _ => ⟨by decide +kernel, zeros, by decide +kernel, by decide +kernel⟩
  segmentsCopied := by decide +kernel
  sameCount := by decide +kernel
  tables := by decide +kernel
  infoApart := by decide +kernel
  streamApart := by decide +kernel
  ownApart := by decide +kernel

def letterFile : SelfFile expandsSample where
  toImage := sampleImage letters letterStream
  magic := by decide +kernel
  segments := by decide +kernel
  marked := by decide +kernel
  plain := by decide +kernel
  stream := fun _ => ⟨by decide +kernel, letters, by decide +kernel, by decide +kernel⟩
  segmentsCopied := by decide +kernel
  sameCount := by decide +kernel
  tables := by decide +kernel
  infoApart := by decide +kernel
  streamApart := by decide +kernel
  ownApart := by decide +kernel

theorem readers_agree_letters : letterFile.Agree sampleZlib blank := by
  have narrow : letterFile.Narrow := ⟨by decide +kernel, by decide +kernel⟩
  refine ((letterFile.readers_agree sampleZlib_completes blank).2 narrow).mpr ⟨?_, ⟨?_, ?_⟩, ?_⟩
  next => exact fun _ => by decide +kernel
  next => exact fun elf => absurd elf (by decide +kernel)
  next => exact fun elf => absurd elf (by decide +kernel)
  next => constructor <;> decide +kernel

/-- 32 zeros in a stream of 11 bytes. -/
theorem zeroFile_not_agree :
    (Thgn.handleSegments sampleZlib blank zeroFile.heap zeroFile.fin 0).first 32 = none ∧
      Unmake.firstSegment sampleZlib zeroFile.heap zeroFile.fin = some zeros ∧
      ((Vitadecompiler.firstSegment sampleZlib zeroFile.fin).bind fun block => block.first 32) =
        some zeros ∧ ¬ zeroFile.Agree sampleZlib blank := by
  have short : (Thgn.handleSegments sampleZlib blank zeroFile.heap zeroFile.fin 0).first 32 =
      none := by decide +kernel
  refine ⟨short, by decide +kernel, by decide +kernel, fun ⟨bytes, hooker, _⟩ => ?_⟩
  have count : zeroFile.count = 32 := by decide +kernel
  rw [count, short] at hooker
  contradiction

end VitaTools.Self
