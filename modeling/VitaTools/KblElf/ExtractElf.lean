import VitaTools.Library.Memory

set_option autoImplicit false

/-!
The extractor of the kernel boot loader saves the ELF images that it finds. Addresses are relative
to the image.
-/

namespace VitaTools.KblElf

open VitaTools.Library

abbrev Word := BitVec 32

section

variable (addr : Memory)

-- The fields of `Elf32_Ehdr`.
def eType : BitVec 16 := addr.half 0x10
def eEntry : Word := addr.word 0x18
def ePhoff : Word := addr.word 0x1C
def eShoff : Word := addr.word 0x20
def ePhnum : Nat := (addr.half 0x2C).toNat
def eShnum : Nat := (addr.half 0x30).toNat
def eShstrndx : Nat := (addr.half 0x32).toNat

structure ProgramHeader where
  pOffset : Word
  pPaddr : Word
  pFilesz : Word

def phdrs (i : Nat) : ProgramHeader :=
  let place := (ePhoff addr).toNat + 32 * i
  ⟨addr.word (place + 4), addr.word (place + 12), addr.word (place + 16)⟩

structure SectionHeader where
  shName : Word
  shType : Word
  shOffset : Word
  shSize : Word

def shdrs (i : Nat) : SectionHeader :=
  let place := (eShoff addr).toNat + 40 * i
  ⟨addr.word place, addr.word (place + 4), addr.word (place + 16), addr.word (place + 20)⟩

-- ".sceModuleInfo.rodata" with its terminator.
def moduleInfoName : List Byte :=
  [0x2E, 0x73, 0x63, 0x65, 0x4D, 0x6F, 0x64, 0x75, 0x6C, 0x65, 0x49, 0x6E, 0x66, 0x6F, 0x2E, 0x72,
    0x6F, 0x64, 0x61, 0x74, 0x61, 0]

/-- The search of the section; `none` where the function returns 0 at once. -/
def searchSections : List Nat → Option Word
  | [] => some 0
  | i :: rest =>
      let names := (shdrs addr (eShstrndx addr)).shOffset
      if 0x40000 < names ∨ 0x4000 < (shdrs addr i).shName then none
      else if addr.slice (names.toNat + (shdrs addr i).shName.toNat) moduleInfoName.length =
          moduleInfoName then
        some (shdrs addr i).shOffset
      else searchSections rest

def getModuleInfoOffset : Word :=
  match searchSections addr (List.range (eShnum addr)) with
  | none => 0
  | some ret =>
      if ret = 0 then
        -- ET_SCE_RELEXEC and ET_SCE_EXEC
        if eType addr = 0xFE04 ∨ eType addr = 0xFE00 ∧ eEntry addr ≠ 0 then
          (phdrs addr 0).pOffset + eEntry addr
        else (phdrs addr 0).pPaddr
      else ret

-- A sum in an `unsigned int`.
def segmentEnd (i : Nat) : Word := (phdrs addr i).pOffset + (phdrs addr i).pFilesz
def sectionEnd (i : Nat) : Word := (shdrs addr i).shOffset + (shdrs addr i).shSize

def larger (size newSize : Word) : Word := if size < newSize then newSize else size

def elfSize : Word :=
  if 0 < eShnum addr then sectionEnd addr (eShnum addr - 1)
  else
    let size : Word := BitVec.ofNat 32 ((ePhoff addr).toNat + ePhnum addr * 32)
    let size := size + (0x10 - (size &&& 0xF))
    (List.range (ePhnum addr)).foldl (fun size i => larger size (segmentEnd addr i)) size

structure Saved where
  path : List Byte
  bytes : List Byte

-- ".elf"
def extension : List Byte := [0x2E, 0x65, 0x6C, 0x66]

/-- The file saved; `none` when there is no module info. -/
def extractElf (outputPath : List Byte) : Option Saved :=
  let moduleInfoOffset := getModuleInfoOffset addr
  if moduleInfoOffset = 0 then none
  else
    let modname := (addr.slice (moduleInfoOffset.toNat + 4) 255).takeWhile (· != 0)
    some {
      path := (outputPath ++ 0x2F :: modname ++ extension).take 255
      bytes := addr.slice 0 (elfSize addr).toNat }

def tableEnd : Nat := (ePhoff addr).toNat + ePhnum addr * 32

abbrev Occupies (i : Nat) : Prop := (shdrs addr i).shType ≠ 0 ∧ (shdrs addr i).shType ≠ 8

def segmentEnds : List Nat := (List.range (ePhnum addr)).map fun i =>
  (phdrs addr i).pOffset.toNat + (phdrs addr i).pFilesz.toNat

def sectionEnds : List Nat :=
  if eShnum addr = 0 then []
  else
    ((eShoff addr).toNat + eShnum addr * 40) ::
      ((List.range (eShnum addr)).filter fun i => Occupies addr i).map fun i =>
        (shdrs addr i).shOffset.toNat + (shdrs addr i).shSize.toNat

def ends : List Nat := tableEnd addr :: (segmentEnds addr ++ sectionEnds addr)

def roundUp (e : Nat) : Nat := (e + 15) / 16 * 16

/-- Everything is in the file, and behind the last of it at most padding. -/
structure Whole (saved : Saved) : Prop where
  covers : ∀ e ∈ ends addr, e ≤ saved.bytes.length
  tight : ∃ e ∈ ends addr, saved.bytes.length ≤ roundUp e
  copied : saved.bytes = addr.slice 0 saved.bytes.length

/-- With sections: the last one ends last. -/
def SectionsFit : Prop :=
  (∀ e ∈ ends addr, e ≤ (sectionEnd addr (eShnum addr - 1)).toNat) ∧
    (Occupies addr (eShnum addr - 1) ∨
      ∃ e ∈ ends addr, (sectionEnd addr (eShnum addr - 1)).toNat ≤ roundUp e)

/-- Without sections: a segment ends behind the program headers, or these do not end at a multiple
of 16. -/
def SegmentsFit : Prop :=
  (∀ e ∈ ends addr, e < 2 ^ 32) ∧
    ((∃ e ∈ segmentEnds addr, tableEnd addr < e) ∨
      tableEnd addr % 16 ≠ 0 ∧ roundUp (tableEnd addr) < 2 ^ 32 ∨
      2 ^ 32 ≤ tableEnd addr + 16 ∧ tableEnd addr ∈ segmentEnds addr)

end

variable {addr : Memory}

theorem roundUp_mono {e f : Nat} (less : e ≤ f) : roundUp e ≤ roundUp f :=
  Nat.mul_le_mul_right 16 (Nat.div_le_div_right (Nat.add_le_add_right less 15))

theorem le_roundUp (e : Nat) : e ≤ roundUp e := by
  unfold roundUp
  omega

theorem elfSize_sections (sections : eShnum addr ≠ 0) :
    elfSize addr = sectionEnd addr (eShnum addr - 1) := if_pos (Nat.pos_of_ne_zero sections)

theorem sections_fit_iff (sections : eShnum addr ≠ 0) :
    ((∀ e ∈ ends addr, e ≤ (elfSize addr).toNat) ∧
      ∃ e ∈ ends addr, (elfSize addr).toNat ≤ roundUp e) ↔ SectionsFit addr := by
  rw [elfSize_sections sections, SectionsFit]
  refine and_congr_right fun covers => ⟨.inr, ?_⟩
  rintro (occupies | tight)
  · let i := eShnum addr - 1
    have member : (shdrs addr i).shOffset.toNat + (shdrs addr i).shSize.toNat ∈ ends addr := by
      refine List.mem_cons_of_mem _ (List.mem_append_right _ ?_)
      rw [sectionEnds, if_neg sections]
      refine List.mem_cons_of_mem _ (List.mem_map_of_mem ?_)
      exact List.mem_filter.mpr
        ⟨List.mem_range.mpr (Nat.sub_one_lt sections), decide_eq_true occupies⟩
    refine ⟨_, member, ?_⟩
    have cut : (sectionEnd addr i).toNat ≤
        (shdrs addr i).shOffset.toNat + (shdrs addr i).shSize.toNat := by
      rw [sectionEnd, BitVec.toNat_add]
      exact Nat.mod_le _ _
    exact cut.trans (le_roundUp _)
  · exact tight

theorem larger_toNat (size newSize : Word) :
    (larger size newSize).toNat = max size.toNat newSize.toNat := by
  unfold larger
  split
  case isTrue less => exact (Nat.max_eq_right (BitVec.lt_def.mp less).le).symm
  case isFalse most => exact (Nat.max_eq_left (Nat.le_of_not_lt most)).symm

theorem foldl_larger (newSize : Nat → Word) (indices : List Nat) (size : Word) :
    (indices.foldl (fun size i => larger size (newSize i)) size).toNat =
      (indices.map fun i => (newSize i).toNat).foldl max size.toNat := by
  induction indices generalizing size with
  | nil => rfl
  | cons i rest ih => rw [List.foldl_cons, ih, larger_toNat, List.map_cons, List.foldl_cons]

theorem foldl_max_le_iff (sizes : List Nat) (first bound : Nat) :
    sizes.foldl max first ≤ bound ↔ first ≤ bound ∧ ∀ size ∈ sizes, size ≤ bound := by
  induction sizes generalizing first with
  | nil => simp
  | cons size rest ih => simp [ih, and_assoc]

theorem foldl_max_eq (sizes : List Nat) (first : Nat) :
    sizes.foldl max first = first ∨ sizes.foldl max first ∈ sizes := by
  induction sizes generalizing first with
  | nil => exact .inl rfl
  | cons size rest ih =>
      rw [List.foldl_cons]
      rcases ih (max first size) with same | later
      · rw [same]
        rcases Nat.le_total first size with less | more
        · rw [Nat.max_eq_right less]
          exact .inr List.mem_cons_self
        · exact .inl (Nat.max_eq_left more)
      · exact .inr (List.mem_cons_of_mem size later)

theorem paddedEnd (small : tableEnd addr < 2 ^ 32) :
    ((BitVec.ofNat 32 (tableEnd addr) : Word) +
        (0x10 - (BitVec.ofNat 32 (tableEnd addr) &&& 0xF))).toNat =
      (tableEnd addr + 16 - tableEnd addr % 16) % 2 ^ 32 := by
  have value : (BitVec.ofNat 32 (tableEnd addr)).toNat = tableEnd addr := by
    rw [BitVec.toNat_ofNat, Nat.mod_eq_of_lt small]
  have rest : (BitVec.ofNat 32 (tableEnd addr) &&& 0xF).toNat = tableEnd addr % 16 := by
    rw [BitVec.toNat_and, value]
    exact Nat.and_two_pow_sub_one_eq_mod _ 4
  have room : (BitVec.ofNat 32 (tableEnd addr) &&& 0xF).toNat ≤ (0x10 : Word).toNat := by
    rw [rest]
    exact (Nat.mod_lt _ (by decide)).le
  rw [BitVec.toNat_add, BitVec.toNat_sub_of_le (BitVec.le_def.mpr room), rest, value,
    show (0x10 : Word).toNat = 16 from rfl]
  omega

theorem elfSize_segments (none : eShnum addr = 0) (small : ∀ e ∈ ends addr, e < 2 ^ 32) :
    (elfSize addr).toNat =
      (segmentEnds addr).foldl max ((tableEnd addr + 16 - tableEnd addr % 16) % 2 ^ 32) := by
  rw [elfSize, if_neg (by omega), foldl_larger, ← tableEnd, paddedEnd (small _ List.mem_cons_self)]
  refine congrArg (List.foldl max _) (List.map_congr_left fun i member => ?_)
  rw [segmentEnd, BitVec.toNat_add]
  refine Nat.mod_eq_of_lt (small _ (List.mem_cons_of_mem _ (List.mem_append_left _ ?_)))
  exact List.mem_map_of_mem member

theorem ends_segments (none : eShnum addr = 0) :
    ends addr = tableEnd addr :: segmentEnds addr := by
  rw [ends, sectionEnds, if_pos none, List.append_nil]

theorem segmentsFit_of_bounds (none : eShnum addr = 0)
    (covers : ∀ e ∈ ends addr, e ≤ (elfSize addr).toNat)
    (tight : ∃ e ∈ ends addr, (elfSize addr).toNat ≤ roundUp e) : SegmentsFit addr := by
  have small : ∀ e ∈ ends addr, e < 2 ^ 32 := fun e inside =>
    Nat.lt_of_le_of_lt (covers e inside) (elfSize addr).isLt
  refine ⟨small, ?_⟩
  have size := elfSize_segments none small
  have least := (foldl_max_le_iff (segmentEnds addr) _ _).mp (Nat.le_of_eq size.symm)
  by_cases beyond : ∃ e ∈ segmentEnds addr, tableEnd addr < e
  next => exact .inl beyond
  next =>
    push Not at beyond
    have table := covers (tableEnd addr) List.mem_cons_self
    have range := small (tableEnd addr) List.mem_cons_self
    -- No end lies behind the table's.
    obtain ⟨last, member, padded⟩ := tight
    have below : last ≤ tableEnd addr := by
      rw [ends_segments none] at member
      rcases List.mem_cons.mp member with rfl | segment
      · exact Nat.le_refl _
      · exact beyond last segment
    replace padded := padded.trans (roundUp_mono below)
    unfold roundUp at padded
    by_cases room : tableEnd addr + 16 - tableEnd addr % 16 < 2 ^ 32
    next =>
      have odd : tableEnd addr % 16 ≠ 0 := by omega
      exact .inr (.inl ⟨odd, by unfold roundUp; omega⟩)
    next =>
      have start : (tableEnd addr + 16 - tableEnd addr % 16) % 2 ^ 32 = 0 := by omega
      rw [start] at size
      refine .inr (.inr ⟨by omega, ?_⟩)
      rcases foldl_max_eq (segmentEnds addr) 0 with zero | segment
      · omega
      · rw [← size] at segment
        rwa [Nat.le_antisymm table (beyond _ segment)]

theorem SegmentsFit.padded (fit : SegmentsFit addr) : ∃ e ∈ ends addr,
    (tableEnd addr + 16 - tableEnd addr % 16) % 2 ^ 32 ≤ roundUp e := by
  obtain ⟨small, fits⟩ := fit
  have range := small (tableEnd addr) List.mem_cons_self
  rcases fits with ⟨e, member, beyond⟩ | ⟨odd, room⟩ | ⟨wraps, member⟩
  · refine ⟨e, List.mem_cons_of_mem _ (List.mem_append_left _ member), ?_⟩
    have := roundUp_mono (Nat.succ_le_of_lt beyond)
    unfold roundUp at this ⊢
    omega
  · refine ⟨_, List.mem_cons_self, ?_⟩
    unfold roundUp at room ⊢
    omega
  · refine ⟨_, List.mem_cons_self, ?_⟩
    omega

theorem SegmentsFit.bounds (none : eShnum addr = 0) (fit : SegmentsFit addr) :
    (∀ e ∈ ends addr, e ≤ (elfSize addr).toNat) ∧
      ∃ e ∈ ends addr, (elfSize addr).toNat ≤ roundUp e := by
  obtain ⟨small, fits⟩ := fit
  have size := elfSize_segments none small
  obtain ⟨first, segments⟩ :=
    (foldl_max_le_iff (segmentEnds addr) _ _).mp (Nat.le_of_eq size.symm)
  have range := small (tableEnd addr) List.mem_cons_self
  have table : tableEnd addr ≤ (elfSize addr).toNat := by
    rcases fits with ⟨e, member, beyond⟩ | ⟨odd, room⟩ | ⟨wraps, member⟩
    · exact beyond.le.trans (segments e member)
    · unfold roundUp at room
      omega
    · exact segments _ member
  constructor
  · rw [ends_segments none]
    exact List.forall_mem_cons.mpr ⟨table, segments⟩
  · rcases foldl_max_eq (segmentEnds addr) ((tableEnd addr + 16 - tableEnd addr % 16) % 2 ^ 32)
      with same | segment
    · rw [size, same]
      exact SegmentsFit.padded ⟨small, fits⟩
    · rw [← size] at segment
      exact ⟨_, List.mem_cons_of_mem _ (List.mem_append_left _ segment), le_roundUp _⟩

theorem segments_fit_iff (none : eShnum addr = 0) :
    ((∀ e ∈ ends addr, e ≤ (elfSize addr).toNat) ∧
      ∃ e ∈ ends addr, (elfSize addr).toNat ≤ roundUp e) ↔ SegmentsFit addr :=
  ⟨fun both => segmentsFit_of_bounds none both.1 both.2, SegmentsFit.bounds none⟩

/-- Exactly when the file that is saved is whole. -/
theorem extractElf_whole_iff (addr : Memory) (outputPath : List Byte) :
    (∃ saved, extractElf addr outputPath = some saved ∧ Whole addr saved) ↔
      getModuleInfoOffset addr ≠ 0 ∧
        if eShnum addr = 0 then SegmentsFit addr else SectionsFit addr := by
  have bounds : ((∀ e ∈ ends addr, e ≤ (elfSize addr).toNat) ∧
      ∃ e ∈ ends addr, (elfSize addr).toNat ≤ roundUp e) ↔
        if eShnum addr = 0 then SegmentsFit addr else SectionsFit addr := by
    split
    case isTrue none => exact segments_fit_iff none
    case isFalse sections => exact sections_fit_iff sections
  rw [← bounds]
  constructor
  · rintro ⟨saved, extracted, covers, tight, -⟩
    simp only [extractElf] at extracted
    split at extracted
    case isTrue => cases extracted
    case isFalse found =>
      cases extracted
      simp only [Memory.slice_length] at covers tight
      exact ⟨found, covers, tight⟩
  · rintro ⟨found, covers, tight⟩
    refine ⟨_, if_neg found, ?_⟩
    constructor
    · simpa only [Memory.slice_length] using covers
    · simpa only [Memory.slice_length] using tight
    · rw [Memory.slice_length]

-- One segment of four bytes, one section that is the same, and the section table behind it.
def sectioned : Memory :=
  Memory.storeWord (fun _ => 0) 0x00 0x464C457F
    |>.storeWord 0x04 0x00010101
    |>.storeWord 0x1C 0x34
    |>.storeWord 0x20 0x60
    |>.storeWord 0x2C 0x00280001
    |>.storeWord 0x30 1
    |>.storeWord 0x38 0x54
    |>.storeWord 0x40 0x54
    |>.storeWord 0x44 4
    |>.storeWord 0x64 1
    |>.storeWord 0x70 0x54
    |>.storeWord 0x74 4

theorem section_table_lost :
    (extractElf sectioned []).isSome = true ∧
      ¬ ∃ saved, extractElf sectioned [] = some saved ∧ Whole sectioned saved := by
  refine ⟨by decide +kernel, ?_⟩
  rintro ⟨saved, extracted, whole⟩
  have size : (extractElf sectioned []).map (fun saved => saved.bytes.length) = some 0x58 := by
    decide +kernel
  rw [extracted] at size
  have length : saved.bytes.length = 0x58 := Option.some.inj size
  have table := whole.covers 0x88 (by decide +kernel)
  rw [length] at table
  exact absurd table (by decide)

end VitaTools.KblElf
