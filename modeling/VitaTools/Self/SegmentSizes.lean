import VitaTools.Self.Readers
import VitaTools.Self.Inject

set_option autoImplicit false

namespace VitaTools.Self

open VitaTools.Library

namespace Vitadecompiler

/-- A SELF header with its two tables for `count` segments, which lie apart. -/
structure Tables where
  header : Memory
  sinfo : Nat
  phdrs : Nat
  count : Nat
  apart : sinfo + 32 * count ≤ phdrs ∨ phdrs + 32 * count ≤ sinfo

namespace Tables

variable (tables : Tables)

def info (i : Nat) : SegmentInfo := infoAt tables.header tables.sinfo i

def filesz (i : Nat) : BitVec 32 := (phdrAt tables.header tables.phdrs i).pFilesz

def memsz (i : Nat) : BitVec 32 := tables.header.word (tables.phdrs + 32 * i + 20)

def adjusted (passes : Nat) : Memory :=
  (List.range passes).foldl (fun input i => adjust input tables.sinfo tables.phdrs i)
    tables.header

def phdrBehind (passes i : Nat) : Phdr := phdrAt (tables.adjusted passes) tables.phdrs i

-- What the pass for segment `i` loads.
def loaded (zlib : Zlib) (fin : File) (i : Nat) : Block :=
  let header := tables.adjusted (i + 1)
  let phdr := tables.phdrBehind (i + 1) i
  handleSegments zlib ((infoAt header tables.sinfo i).compression.setWidth 32) fin phdr.pOffset
    phdr.pFilesz (header.word (tables.phdrs + 32 * i + 20))

/-- The size that the length of segment `i` is compared with. -/
def firstFilesz (i : Nat) : BitVec 32 :=
  if i = 0 then tables.filesz 0
  else if (tables.filesz 0).setWidth 64 < (tables.info 0).length then
    (tables.info 0).length.setWidth 32
  else tables.filesz 0

variable {tables} {m : Memory} {i : Nat}

theorem adjust_outside (sinfo phdrs i a : Nat)
    (outside : a < phdrs + 32 * i + 4 ∨ phdrs + 32 * i + 8 ≤ a ∧ a < phdrs + 32 * i + 16 ∨
      phdrs + 32 * i + 20 ≤ a) : adjust m sinfo phdrs i a = m a := by
  rw [adjust]
  split
  · rw [Memory.storeWord_outside _ _ _ a (by omega), Memory.storeWord_outside _ _ _ a (by omega)]
  · rw [Memory.storeWord_outside _ _ _ a (by omega)]

theorem adjust_info (bound : i < tables.count) {j : Nat} (inside : j < tables.count) :
    infoAt (adjust m tables.sinfo tables.phdrs i) tables.sinfo j = infoAt m tables.sinfo j := by
  have apart := tables.apart
  exact infoAt_congr fun a low high => adjust_outside _ _ _ _ (by omega)

theorem adjust_other {phdrs sinfo j : Nat} (other : j ≠ i) :
    phdrAt (adjust m sinfo phdrs i) phdrs j = phdrAt m phdrs j := by
  have word (field : Nat) (small : field ≤ 28) :
      (adjust m sinfo phdrs i).word (phdrs + 32 * j + field) = m.word (phdrs + 32 * j + field) :=
    Memory.word_congr fun a low high => adjust_outside _ _ _ _ (by omega)
  rw [phdrAt, phdrAt, word 4 (by decide), word 16 (by decide)]

theorem adjust_own (bound : i < tables.count) :
    phdrAt (adjust m tables.sinfo tables.phdrs i) tables.phdrs i =
      ⟨(infoAt m tables.sinfo i).offset.setWidth 32,
        if (phdrAt m tables.phdrs 0).pFilesz.setWidth 64 < (infoAt m tables.sinfo i).length then
          (infoAt m tables.sinfo i).length.setWidth 32
        else (phdrAt m tables.phdrs i).pFilesz⟩ := by
  have apart := tables.apart
  have kept (value : BitVec 32) :
      infoAt (m.storeWord (tables.phdrs + 32 * i + 4) value) tables.sinfo i =
        infoAt m tables.sinfo i :=
    infoAt_congr fun a low high => Memory.storeWord_outside _ _ _ a (by omega)
  have sizes (value : BitVec 32) (j : Nat) :
      (phdrAt (m.storeWord (tables.phdrs + 32 * i + 4) value) tables.phdrs j).pFilesz =
        (phdrAt m tables.phdrs j).pFilesz :=
    Memory.word_storeWord_apart _ _ _ _ (by omega)
  simp only [adjust, kept, sizes]
  split
  next longer =>
    simp only [phdrAt, Memory.word_storeWord]
    rw [Memory.word_storeWord_apart _ _ _ _ (by omega), Memory.word_storeWord]
  next =>
    rw [← sizes ((infoAt m tables.sinfo i).offset.setWidth 32) i]
    simp only [phdrAt, Memory.word_storeWord]

theorem adjusted_succ (passes : Nat) : tables.adjusted (passes + 1) =
    adjust (tables.adjusted passes) tables.sinfo tables.phdrs passes := by
  rw [adjusted, List.range_succ, List.foldl_append]
  rfl

theorem adjusted_info {passes : Nat} (few : passes ≤ tables.count) (inside : i < tables.count) :
    infoAt (tables.adjusted passes) tables.sinfo i = tables.info i := by
  induction passes with
  | zero => rfl
  | succ passes ih => rw [adjusted_succ, adjust_info (by omega) inside, ih (by omega)]

theorem adjusted_memsz (passes : Nat) :
    (tables.adjusted passes).word (tables.phdrs + 32 * i + 20) = tables.memsz i := by
  induction passes with
  | zero => rfl
  | succ passes ih =>
      rw [adjusted_succ, ← ih]
      exact Memory.word_congr fun a low high => adjust_outside _ _ _ _ (by omega)

theorem phdrBehind_later {passes : Nat} (later : passes ≤ i) :
    tables.phdrBehind passes i = phdrAt tables.header tables.phdrs i := by
  induction passes with
  | zero => rfl
  | succ passes ih =>
      rw [phdrBehind, adjusted_succ, adjust_other (by omega)]
      exact ih (by omega)

theorem phdrBehind_own {passes : Nat} (inside : i < passes) :
    tables.phdrBehind passes i = tables.phdrBehind (i + 1) i := by
  induction passes with
  | zero => omega
  | succ passes ih =>
      by_cases last : i = passes
      next => rw [last]
      next =>
        rw [phdrBehind, adjusted_succ, adjust_other last]
        exact ih (by omega)

theorem phdrBehind_first {passes : Nat} (few : passes ≤ tables.count) :
    (tables.phdrBehind passes 0).pFilesz = tables.firstFilesz passes := by
  rw [firstFilesz]
  by_cases zero : passes = 0
  next =>
    subst zero
    rfl
  next =>
    rw [if_neg zero, phdrBehind_own (Nat.pos_of_ne_zero zero), phdrBehind, adjusted_succ,
      adjust_own (by omega)]
    rfl

theorem phdrBehind_eq {passes : Nat} (few : passes ≤ tables.count) (inside : i < passes) :
    tables.phdrBehind passes i =
      ⟨(tables.info i).offset.setWidth 32,
        if (tables.firstFilesz i).setWidth 64 < (tables.info i).length then
          (tables.info i).length.setWidth 32
        else tables.filesz i⟩ := by
  have first : (phdrAt (tables.adjusted i) tables.phdrs 0).pFilesz = tables.firstFilesz i :=
    phdrBehind_first (by omega)
  have own : phdrAt (tables.adjusted i) tables.phdrs i =
      phdrAt tables.header tables.phdrs i := phdrBehind_later (le_refl i)
  rw [phdrBehind_own inside, phdrBehind, adjusted_succ, adjust_own (by omega),
    adjusted_info (by omega) (by omega), first, own]
  rfl

-- The bytes of the header that pass `i` looks at.
variable (tables) in
inductive Touched (i : Nat) : Nat → Prop
  | info (k : Nat) (small : k < 24) : Touched i (tables.sinfo + 32 * i + k)
  | phdr (k : Nat) (low : 4 ≤ k) (small : k < 24) : Touched i (tables.phdrs + 32 * i + k)
  | first (k : Nat) (low : 16 ≤ k) (small : k < 20) : Touched i (tables.phdrs + k)

variable (tables) in
/-- The tables lie in the buffer for the header. -/
structure InHeader : Prop where
  sinfo : tables.sinfo + 32 * tables.count ≤ HEADER_LEN + 8
  phdrs : tables.phdrs + 32 * tables.count ≤ HEADER_LEN + 8

theorem inHeader_iff (some : 0 < tables.count) : tables.InHeader ↔
    ∀ pass < tables.count, ∀ a, tables.Touched pass a → a < HEADER_LEN := by
  constructor
  next =>
    rintro ⟨sinfo, phdrs⟩ pass inside a touched
    cases touched <;> omega
  next =>
    intro touched
    have last : tables.count - 1 < tables.count := by omega
    have info := touched _ last _ (.info 23 (by decide))
    have phdr := touched _ last _ (.phdr 23 (by decide) (by decide))
    constructor <;> omega

variable (tables) in
/-- The loop keeps to the header, and segment `i` is found where its info says, with the larger
of both sizes. All of its stored bytes are read, into a buffer with room for what they expand
to. -/
structure Right (zlib : Zlib) (fin : File) (i : Nat) : Prop where
  touched : ∀ pass < tables.count, ∀ a, tables.Touched pass a → a < HEADER_LEN
  offset : (tables.phdrBehind tables.count i).pOffset.toNat = (tables.info i).offset.toNat
  filesz : (tables.phdrBehind tables.count i).pFilesz.toNat =
    max (tables.filesz i).toNat (tables.info i).length.toNat
  read : (tables.info i).length.toNat ≤ (tables.phdrBehind (i + 1) i).pFilesz.toNat
  stored : (tables.info i).compression.setWidth 32 ≠ (2 : BitVec 32) →
    ∀ k < (tables.info i).length.toNat, (tables.info i).offset.toNat + k < fin.size →
      (tables.loaded zlib fin i).bytes k = fin.bytes ((tables.info i).offset.toNat + k)
  room : (tables.filesz i).toNat ≤ (tables.loaded zlib fin i).size

variable (tables) in
/-- The first segment's size and its own give the same answer for segment `i`, and its place and
length are small enough for a program header. -/
structure SameAnswer (i : Nat) : Prop where
  offset : (tables.info i).offset.toNat < 2 ^ 32
  length : (tables.info i).length.toNat < 2 ^ 32
  answer : (tables.info i).length.toNat = (tables.filesz i).toNat ∨
    ((tables.firstFilesz i).toNat < (tables.info i).length.toNat ↔
      (tables.filesz i).toNat < (tables.info i).length.toNat)

theorem loaded_size (zlib : Zlib) (fin : File) (i : Nat) : (tables.loaded zlib fin i).size =
    max (tables.memsz i).toNat (tables.phdrBehind (i + 1) i).pFilesz.toNat := by
  have memsz : (tables.adjusted (i + 1)).word (tables.phdrs + 32 * i + 20) = tables.memsz i :=
    adjusted_memsz (i + 1)
  rw [← memsz]
  simp only [loaded, handleSegments]
  split
  · split <;> rfl
  · rfl

theorem setWidth_toNat_eq_iff {n : BitVec 64} :
    (n.setWidth 32).toNat = n.toNat ↔ n.toNat < 2 ^ 32 := by
  rw [BitVec.toNat_setWidth]
  constructor
  · intro same
    rw [← same]
    exact Nat.mod_lt _ (by decide)
  · exact Nat.mod_eq_of_lt

end Tables

def twoSegments : Tables where
  header := ((((Memory.storeDword (fun _ => 0) 0 0x1000).storeDword 8 80).storeDword 32
    0x2000).storeDword 40 60).storeWord 80 200 |>.storeWord 112 10
  sinfo := 0
  phdrs := 64
  count := 2
  apart := .inl (by decide)

def noZlib : Zlib := ⟨fun _ _ => none, fun _ _ => none⟩

def farTables : Tables where
  header := fun _ => 0
  sinfo := 0x80
  phdrs := 0x1000
  count := 1
  apart := .inl (by decide)

end Vitadecompiler

end VitaTools.Self
