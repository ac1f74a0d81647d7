import VitaTools.Self.Inject
import VitaTools.Self.Readers

set_option autoImplicit false

namespace VitaTools.Self

open VitaTools.Library

-- `e_shoff`, `e_shnum` and `e_shstrndx` of an ELF header.
def SectionField (ehdr a : Nat) : Prop :=
  (ehdr + 32 ≤ a ∧ a < ehdr + 36) ∨ (ehdr + 48 ≤ a ∧ a < ehdr + 52)

instance (ehdr a : Nat) : Decidable (SectionField ehdr a) :=
  inferInstanceAs (Decidable ((ehdr + 32 ≤ a ∧ a < ehdr + 36) ∨ (ehdr + 48 ≤ a ∧ a < ehdr + 52)))

theorem clearSections_apply (m : Memory) (ehdr a : Nat) :
    clearSections m ehdr a = if isElf m ehdr = true ∧ SectionField ehdr a then 0 else m a := by
  unfold clearSections
  by_cases elf : isElf m ehdr = true
  next =>
    simp only [elf, if_true, true_and, Memory.storeWord, SectionField]
    split_ifs <;> first | rfl | omega
  next => simp [elf]

def elfMagic : List Byte := [0x7F, 0x45, 0x4C, 0x46, 1, 1, 1, 0]

theorem isElf_byte {m : Memory} {start : Nat} (elf : isElf m start = true) {k : Nat}
    (small : k < 8) : m (start + k) = elfMagic.getD k 0 := by
  have same : m.slice start 8 = elfMagic := by simpa [isElf, elfMagic] using elf
  have byte := congrArg (·[k]?) same
  simp only [Memory.slice, List.getElem?_map, List.getElem?_range small, Option.map_some] at byte
  rw [List.getD_eq_getElem?_getD, ← byte, Option.getD_some]

theorem isElf_congr {m n : Memory} {a b : Nat} (same : ∀ k < 8, m (a + k) = n (b + k)) :
    isElf m a = isElf n b := by
  rw [isElf, isElf, Memory.slice_congr same]

def EhdrField (k : Nat) : Prop := (28 ≤ k ∧ k < 32) ∨ (40 ≤ k ∧ k < 46)

theorem ehdrAt_fields {m n : Memory} {a b : Nat}
    (same : ∀ k, EhdrField k → m (a + k) = n (b + k)) : ehdrAt m a = ehdrAt n b := by
  have half : ∀ field, 40 ≤ field → field < 45 → m.half (a + field) = n.half (b + field) :=
    fun field low high => by
      rw [Memory.half, Memory.half, same field (.inr (by omega)), Nat.add_assoc, Nat.add_assoc,
        same (field + 1) (.inr (by omega))]
  have phoff : m.word (a + 28) = n.word (b + 28) := by
    simp only [Memory.word, Nat.add_assoc, same 28 (.inl (by decide)),
      same (28 + 1) (.inl (by decide)), same (28 + 2) (.inl (by decide)),
      same (28 + 3) (.inl (by decide))]
  simp only [ehdrAt, phoff, half 40 (by decide) (by decide), half 42 (by decide) (by decide),
    half 44 (by decide) (by decide)]

theorem ehdrAt_congr {m n : Memory} {a b : Nat} (same : ∀ k < 52, m (a + k) = n (b + k)) :
    ehdrAt m a = ehdrAt n b :=
  ehdrAt_fields fun k field => same k (by unfold EhdrField at field; omega)

theorem phdrAt_congr {m n : Memory} {a b i : Nat}
    (same : ∀ k, 32 * i ≤ k → k < 32 * i + 32 → m (a + k) = n (b + k)) :
    phdrAt m a i = phdrAt n b i := by
  have word : ∀ field ≤ 28, m.word (a + 32 * i + field) = n.word (b + 32 * i + field) := by
    intro field small
    simp only [Memory.word, Nat.add_assoc, same (32 * i + field) (by omega) (by omega),
      same (32 * i + (field + 1)) (by omega) (by omega),
      same (32 * i + (field + 2)) (by omega) (by omega),
      same (32 * i + (field + 3)) (by omega) (by omega)]
  simp only [phdrAt, word 4 (by decide), word 16 (by decide)]

namespace Pair

section Layout

variable (pair : Pair) (zlib : Zlib)

def Filled (i : Nat) : Prop := 0 < (pair.phdr i).pFilesz.toNat

instance (i : Nat) : Decidable (pair.Filled i) :=
  inferInstanceAs (Decidable (0 < (pair.phdr i).pFilesz.toNat))

def Header (a : Nat) : Prop :=
  (pair.sinfo ≤ a ∧ a < pair.sinfo + 32 * pair.phnum) ∨
    (pair.elfOffset ≤ a ∧ a < pair.elfOffset + 52) ∨
    (pair.phdrOffset ≤ a ∧ a < pair.phdrOffset + 32 * pair.phnum)

/-- Nothing that the injector writes is at position `a`. -/
structure Unwritten (a : Nat) : Prop where
  behindEhdr : pair.headerLen + 52 ≤ a
  phdrs : a < pair.headerLen + pair.phoff ∨ pair.headerLen + pair.phoff + pair.tableSize ≤ a
  segments : ∀ i < pair.phnum, (pair.stream zlib i).isSome = true →
    a < pair.placed zlib i ∨ pair.placed zlib i + pair.written zlib i ≤ a

/-- The byte that the injector leaves at a position, whatever is on its heap. -/
inductive Known : Nat → Byte → Prop
  | header {a : Nat} : a < pair.headerLen → a < 96 ∨ pair.Header a →
      Known a (pair.updatedSelf zlib pair.phnum a)
  | ehdr {x : Nat} : x < 52 → Known (pair.headerLen + x) (pair.selfFile (pair.elfOffset + x))
  | table {x : Nat} : x < 32 * pair.phnum → x < pair.tableSize →
      Known (pair.headerLen + pair.phoff + x) (pair.elfFile (pair.phoff + x))
  | stream {i x : Nat} : i < pair.phnum → pair.Filled i → x < pair.stored zlib i →
      Known (pair.placed zlib i + x) (((pair.stream zlib i).getD []).getD x 0)

-- The extractor takes the ELF header behind the SELF header if it has its magic there.
def readEhdr : Nat :=
  if isElf pair.selfFile pair.elfOffset = true then pair.headerLen else pair.elfOffset

def readPhdrs : Nat :=
  if isElf pair.selfFile pair.elfOffset = true then pair.headerLen + pair.phoff
  else pair.phdrOffset

/-- What the extractor reads from segment `i` on. -/
inductive Awaited (i : Nat) : Nat → Prop
  | info {a : Nat} : pair.sinfo + 32 * i ≤ a → a < pair.sinfo + 32 * pair.phnum → Awaited i a
  | phdrs {x : Nat} : x < 32 * pair.phnum → Awaited i (pair.readPhdrs + x)
  | ehdr {x : Nat} : EhdrField x → Awaited i (pair.readEhdr + x)
  | stream {j x : Nat} : i ≤ j → j < pair.phnum → pair.Filled j → x < pair.stored zlib j →
      Awaited i (pair.placed zlib j + x)

def place (i : Nat) : Nat := (BitVec.ofNat 64 (pair.placed zlib i)).toNat

/-- The extractor takes the place of an empty segment for no ELF header, or clears there only what
it does not read again. -/
def Harmless (i : Nat) : Prop :=
  (∀ a, SectionField (pair.place zlib i) a → ¬ pair.Awaited zlib (i + 1) a) ∨
    ∃ k < 7, ∃ byte, byte ≠ elfMagic.getD k 0 ∧
      (pair.Known zlib (pair.place zlib i + k) byte ∨
        byte = 0 ∧ pair.Unwritten zlib (pair.place zlib i + k))

-- Without the magic the extractor reads the headers where the SELF has them.
structure InPlace : Prop where
  ehdr : pair.elfOffset + 52 ≤ pair.headerLen ∨ pair.elfOffset = pair.headerLen
  phdrs : pair.phdrOffset + 32 * pair.phnum ≤ pair.headerLen ∨
    pair.phdrOffset = pair.headerLen + pair.phoff ∧ 32 * pair.phnum ≤ pair.tableSize

/-- The two programs agree on every segment: each that has bytes is compressed into its own size
and marked as compressed, nothing is written over what the extractor reads, the ELF headers say the
same, and clearing section fields leaves the segments as they are. -/
structure Intact : Prop where
  sinfo_header : pair.sinfo + 32 * pair.phnum ≤ pair.headerLen
  ehdr_sinfo : pair.elfOffset + 52 ≤ pair.sinfo ∨
    pair.sinfo + 32 * pair.phnum ≤ pair.elfOffset
  phdrs_sinfo : pair.phdrOffset + 32 * pair.phnum ≤ pair.sinfo ∨
    pair.sinfo + 32 * pair.phnum ≤ pair.phdrOffset
  control : ∀ elfDigest fuel, Spares pair.Header elfDigest fuel
    (pair.updatedSelf zlib pair.phnum)
    (sceHeader (pair.updatedSelf zlib pair.phnum)).controlinfoOffset.toNat
  gap : 52 ≤ pair.phoff
  copied : isElf pair.selfFile pair.elfOffset = true →
    (ehdrAt pair.selfFile pair.elfOffset).phoff = pair.ehdr.phoff ∧
      32 * pair.phnum ≤ pair.tableSize
  inPlace : isElf pair.selfFile pair.elfOffset = false → pair.InPlace
  spaced : pair.Spaced zlib
  behind : ∀ i < pair.phnum, pair.Filled i → ∀ x < pair.stored zlib i,
    pair.headerLen + 52 ≤ pair.placed zlib i + x ∧
      (pair.placed zlib i + x < pair.headerLen + pair.phoff ∨
        pair.headerLen + pair.phoff + pair.tableSize ≤ pair.placed zlib i + x)
  packs : ∀ i < pair.phnum, pair.Filled i → (pair.stream zlib i).isSome = true
  marked : ∀ i < pair.phnum, pair.Filled i → (pair.info i).compression = 2
  plain : ∀ i < pair.phnum, ∀ x < (pair.data i).length,
    clearSections (fun k => (pair.data i).getD k 0) 0 x = (pair.data i).getD x 0
  empties : ∀ i < pair.phnum, ¬ pair.Filled i → pair.Harmless zlib i
  -- the program headers, which the extractor writes last, meet a segment only where they are own
  last : ∀ i < pair.phnum, ∀ x < (pair.phdr i).pFilesz.toNat,
    let ehdr := ehdrAt pair.selfFile pair.elfOffset
    ehdr.phoff.toNat ≤ (pair.phdr i).pOffset.toNat + x →
      (pair.phdr i).pOffset.toNat + x <
          ehdr.phoff.toNat + ehdr.phentsize.toNat * ehdr.phnum.toNat →
        ehdr.phoff = pair.ehdr.phoff ∧
          (pair.phdr i).pOffset.toNat + x < pair.phoff + 32 * pair.phnum

/-- The SCE header is a part of the header that is written, and lies apart from the section infos
and from what the loop over the control infos writes. -/
structure Framed : Prop where
  front : 96 ≤ pair.headerLen
  sinfo_low : 96 ≤ pair.sinfo ∨ pair.phnum = 0
  control : ∀ elfDigest fuel, Spares (· < 96) elfDigest fuel
    (pair.updatedSelf zlib pair.phnum)
    (sceHeader (pair.updatedSelf zlib pair.phnum)).controlinfoOffset.toNat
  range : pair.headerLen + pair.phoff < 2 ^ 63

end Layout

variable {pair : Pair} {zlib : Zlib}

theorem Spares.mono {kept own : Nat → Prop} (sub : ∀ a, own a → kept a) {elfDigest : Memory}
    {fuel : Nat} {m : Memory} {info : Nat} (spares : Spares kept elfDigest fuel m info) :
    Spares own elfDigest fuel m info := by
  induction fuel generalizing m info with
  | zero => trivial
  | succ fuel ih =>
      intro more
      obtain ⟨same, later⟩ := spares more
      exact ⟨fun a inside => same a (sub a inside), ih later⟩

theorem spares_behind {own : Nat → Prop} {m : Memory}
    (behind : ∀ a, own a → a < (sceHeader m).controlinfoOffset.toNat + 16) (elfDigest : Memory)
    (fuel : Nat) : Spares own elfDigest fuel m (sceHeader m).controlinfoOffset.toNat :=
  (spares_below elfDigest fuel m _).mono behind

section Written

variable {heap : Nat → Memory} {elfDigest header : Memory} {fuel : Nat}

theorem Framed.updated_front (framed : pair.Framed zlib) {a : Nat} (low : a < 96) :
    pair.updatedSelf zlib pair.phnum a = pair.selfFile a := by
  refine updatedSelf_outside ?_
  rcases framed.sinfo_low with behind | none
  · exact .inl (by omega)
  · omega

theorem writtenHeader_spared (undoes : zlib.Undoes) {kept : Nat → Prop}
    (spares : Spares kept elfDigest fuel (pair.updatedSelf zlib pair.phnum)
      (sceHeader (pair.updatedSelf zlib pair.phnum)).controlinfoOffset.toNat)
    (written : pair.writtenHeader zlib heap elfDigest fuel = some header) {a : Nat}
    (own : kept a) : header a = pair.updatedSelf zlib pair.phnum a := by
  simp only [writtenHeader, segmentsDone_eq undoes] at written
  exact controlLoop_spares spares written own

theorem Framed.header_front (framed : pair.Framed zlib) (undoes : zlib.Undoes)
    (written : pair.writtenHeader zlib heap elfDigest fuel = some header) {a : Nat}
    (low : a < 96) : header a = pair.selfFile a :=
  (writtenHeader_spared undoes (framed.control elfDigest fuel) written low).trans
    (framed.updated_front low)

theorem known_kept (undoes : zlib.Undoes) (phdrs : pair.SamePhdrs) (framed : pair.Framed zlib)
    (intact : pair.Intact zlib)
    (written : pair.writtenHeader zlib heap elfDigest fuel = some header) {a : Nat} {byte : Byte}
    (known : pair.Known zlib a byte) :
    ((pair.writes zlib heap header).foldl File.put File.empty).get? a = some byte := by
  have front : ∀ a < 96, header a = pair.selfFile a := fun a low =>
    framed.header_front undoes written low
  have spared : ∀ {a}, a < 96 ∨ pair.Header a →
      header a = pair.updatedSelf zlib pair.phnum a := by
    rintro a (low | own)
    · rw [front a low, framed.updated_front low]
    · exact writtenHeader_spared undoes (intact.control elfDigest fuel) written own
  rw [writes, List.foldl_append]
  obtain ⟨first, second, third, outside⟩ := headerWrites_get? front framed.range
    ((pair.segmentWrites zlib heap pair.phnum).foldl File.put File.empty)
  cases known with
  | header inside own => rw [first a inside, spared own]
  | @ehdr x inside =>
      have apart := intact.ehdr_sinfo
      rw [second intact.gap x inside, spared (.inr (.inr (.inl (by omega)))),
        updatedSelf_outside (by omega)]
  | @table x inside own =>
      have apart := intact.phdrs_sinfo
      rw [third x own, spared (.inr (.inr (.inr (by omega)))), updatedSelf_outside (by omega),
        phdrs x inside]
  | @stream i x bound filled inside =>
      obtain ⟨behindEhdr, clear⟩ := intact.behind i bound filled x inside
      exact (outside _ behindEhdr clear).2 _
        (stream_written intact.spaced le_rfl bound inside)

theorem unwritten_zero (undoes : zlib.Undoes) (framed : pair.Framed zlib)
    (intact : pair.Intact zlib)
    (written : pair.writtenHeader zlib heap elfDigest fuel = some header) {a : Nat}
    (unwritten : pair.Unwritten zlib a) :
    ((pair.writes zlib heap header).foldl File.put File.empty).bytes a = 0 := by
  have front : ∀ a < 96, header a = pair.selfFile a := fun a low =>
    framed.header_front undoes written low
  rw [writes, List.foldl_append, ((headerWrites_get? front framed.range _).2.2.2 a
    unwritten.behindEhdr unwritten.phdrs).1]
  exact hole_unwritten intact.spaced le_rfl unwritten.segments

end Written

theorem Intact.awaited_known (intact : pair.Intact zlib) {i a : Nat}
    (awaited : pair.Awaited zlib i a) : ∃ byte, pair.Known zlib a byte := by
  cases awaited with
  | info low high =>
      have inHeader := intact.sinfo_header
      exact ⟨_, .header (by omega) (.inr (.inl ⟨by omega, high⟩))⟩
  | @phdrs x inside =>
      unfold readPhdrs
      by_cases magic : isElf pair.selfFile pair.elfOffset = true
      next =>
        rw [if_pos magic]
        exact ⟨_, .table inside (inside.trans_le (intact.copied magic).2)⟩
      next =>
        rw [if_neg magic]
        rcases (intact.inPlace (by simpa using magic)).phdrs with inHeader | ⟨same, covers⟩
        · exact ⟨_, .header (by omega) (.inr (.inr (.inr (by omega))))⟩
        · rw [same]
          exact ⟨_, .table inside (inside.trans_le covers)⟩
  | @ehdr x field =>
      have small : x < 52 := by unfold EhdrField at field; omega
      unfold readEhdr
      by_cases magic : isElf pair.selfFile pair.elfOffset = true
      next =>
        rw [if_pos magic]
        exact ⟨_, .ehdr small⟩
      next =>
        rw [if_neg magic]
        rcases (intact.inPlace (by simpa using magic)).ehdr with inHeader | same
        · exact ⟨_, .header (by omega) (.inr (.inr (.inl (by omega))))⟩
        · rw [same]
          exact ⟨_, .ehdr small⟩
  | stream _ bound filled inside => exact ⟨_, .stream bound filled inside⟩

variable (pair zlib) in
structure Loaded (fin : File) : Prop where
  known : ∀ {a : Nat} {byte : Byte}, pair.Known zlib a byte → fin.get? a = some byte
  unwritten : ∀ {a : Nat}, pair.Unwritten zlib a → fin.bytes a = 0

section Reading

variable {fin : File} {behind : Memory}

theorem Loaded.byte (loaded : pair.Loaded zlib fin) {a : Nat} {byte : Byte}
    (known : pair.Known zlib a byte) : fin.image behind a = byte :=
  File.image_of_get? (loaded.known known) behind

theorem Loaded.info (loaded : pair.Loaded zlib fin) (intact : pair.Intact zlib) {i : Nat}
    (bound : i < pair.phnum) : infoAt (fin.image behind) pair.sinfo i =
      ⟨BitVec.ofNat 64 (pair.placed zlib i), BitVec.ofNat 64 (pair.written zlib i),
        (pair.info i).compression⟩ := by
  have inHeader := intact.sinfo_header
  rw [← infoAt_updatedSelf bound]
  exact infoAt_congr fun a low high =>
    loaded.byte (.header (by omega) (.inr (.inl (by omega))))

theorem Loaded.ehdr (loaded : pair.Loaded zlib fin) (intact : pair.Intact zlib) {x : Nat}
    (inside : x < 52) :
    fin.image behind (pair.readEhdr + x) = pair.selfFile (pair.elfOffset + x) := by
  unfold readEhdr
  by_cases magic : isElf pair.selfFile pair.elfOffset = true
  next =>
    rw [if_pos magic]
    exact loaded.byte (.ehdr inside)
  next =>
    rw [if_neg magic]
    rcases (intact.inPlace (by simpa using magic)).ehdr with inHeader | same
    · have apart := intact.ehdr_sinfo
      rw [loaded.byte (.header (by omega) (.inr (.inr (.inl (by omega))))),
        updatedSelf_outside (by omega)]
    · rw [same]
      exact (loaded.byte (.ehdr inside)).trans (by rw [same])

theorem Loaded.phdrs (loaded : pair.Loaded zlib fin) (intact : pair.Intact zlib)
    (same : pair.SamePhdrs) {x : Nat} (inside : x < 32 * pair.phnum) :
    fin.image behind (pair.readPhdrs + x) = pair.elfFile (pair.phoff + x) := by
  unfold readPhdrs
  by_cases magic : isElf pair.selfFile pair.elfOffset = true
  next =>
    rw [if_pos magic]
    exact loaded.byte (.table inside (inside.trans_le (intact.copied magic).2))
  next =>
    rw [if_neg magic]
    rcases (intact.inPlace (by simpa using magic)).phdrs with inHeader | ⟨place, covers⟩
    · have apart := intact.phdrs_sinfo
      rw [loaded.byte (.header (by omega) (.inr (.inr (.inr (by omega))))),
        updatedSelf_outside (by omega), same x inside]
    · rw [place]
      exact loaded.byte (.table inside (inside.trans_le covers))

theorem Loaded.magic (loaded : pair.Loaded zlib fin) :
    isElf (fin.image behind) pair.headerLen = isElf pair.selfFile pair.elfOffset :=
  isElf_congr fun k small => loaded.byte (.ehdr (small.trans (by decide)))

theorem Loaded.front (loaded : pair.Loaded zlib fin) (framed : pair.Framed zlib) {a : Nat}
    (low : a < 96) : fin.image behind a = pair.selfFile a := by
  have inHeader := framed.front
  rw [loaded.byte (.header (by omega) (.inl low)), framed.updated_front low]

variable (pair zlib) in
/-- The input in memory when segment `i` is next: what is still read is that of the file, and no
byte was changed but to 0. -/
structure Readable (image : Memory) (i : Nat) (input : Memory) : Prop where
  own : ∀ a, pair.Awaited zlib i a → input a = image a
  cleared : ∀ a, input a = image a ∨ input a = 0

theorem Awaited.later {i a : Nat} (awaited : pair.Awaited zlib (i + 1) a) :
    pair.Awaited zlib i a := by
  cases awaited with
  | info low high => exact .info (by omega) high
  | phdrs inside => exact .phdrs inside
  | ehdr field => exact .ehdr field
  | stream later bound filled inside => exact .stream (by omega) bound filled inside

theorem Readable.next {image input : Memory} {i : Nat}
    (readable : pair.Readable zlib image i input) :
    pair.Readable zlib image (i + 1) input :=
  ⟨fun a awaited => readable.own a awaited.later, readable.cleared⟩

theorem Readable.clear {image input : Memory} {i : Nat}
    (readable : pair.Readable zlib image i input) {start : Nat}
    (harmless : isElf input start = true →
      ∀ a, SectionField start a → ¬ pair.Awaited zlib i a) :
    pair.Readable zlib image i (clearSections input start) := by
  constructor
  case own =>
    intro a awaited
    rw [clearSections_apply, if_neg fun cleared => harmless cleared.1 a cleared.2 awaited]
    exact readable.own a awaited
  case cleared =>
    intro a
    rw [clearSections_apply]
    split
    next => exact .inr rfl
    next => exact readable.cleared a

theorem Intact.readable (intact : pair.Intact zlib) :
    pair.Readable zlib (fin.image behind) 0
      (if isElf pair.selfFile pair.elfOffset = true then
        clearSections (fin.image behind) pair.headerLen else fin.image behind) := by
  have start : pair.Readable zlib (fin.image behind) 0 (fin.image behind) :=
    ⟨fun _ _ => rfl, fun _ => .inl rfl⟩
  split
  next magic =>
    refine start.clear fun _ a field awaited => ?_
    unfold SectionField at field
    cases awaited with
    | info low high =>
        have inHeader := intact.sinfo_header
        omega
    | phdrs inside =>
        have gap := intact.gap
        rw [readPhdrs, if_pos magic] at field
        omega
    | ehdr own =>
        unfold EhdrField at own
        rw [readEhdr, if_pos magic] at field
        omega
    | stream _ bound filled inside =>
        have behindEhdr := (intact.behind _ bound filled _ inside).1
        omega
  next => exact start

theorem Readable.info_eq {input : Memory} {i : Nat} (loaded : pair.Loaded zlib fin)
    (intact : pair.Intact zlib) (readable : pair.Readable zlib (fin.image behind) i input)
    (bound : i < pair.phnum) : infoAt input pair.sinfo i =
      ⟨BitVec.ofNat 64 (pair.placed zlib i), BitVec.ofNat 64 (pair.written zlib i),
        (pair.info i).compression⟩ := by
  rw [← @Loaded.info pair zlib fin behind loaded intact i bound]
  exact infoAt_congr fun a low high => readable.own a (.info low (by omega))

theorem Readable.ehdr_eq {input : Memory} {i : Nat} (loaded : pair.Loaded zlib fin)
    (intact : pair.Intact zlib) (readable : pair.Readable zlib (fin.image behind) i input) :
    ehdrAt input pair.readEhdr = ehdrAt pair.selfFile pair.elfOffset :=
  ehdrAt_fields fun x field => (readable.own _ (.ehdr field)).trans
    (loaded.ehdr intact (by unfold EhdrField at field; omega))

theorem Readable.phdr_eq {input : Memory} {i j : Nat} (loaded : pair.Loaded zlib fin)
    (intact : pair.Intact zlib) (same : pair.SamePhdrs)
    (readable : pair.Readable zlib (fin.image behind) i input) (bound : j < pair.phnum) :
    phdrAt input pair.readPhdrs j = pair.phdr j :=
  phdrAt_congr fun x _ high =>
    (readable.own _ (.phdrs (by omega))).trans (loaded.phdrs intact same (by omega))

theorem Readable.slice {input : Memory} {i : Nat} (loaded : pair.Loaded zlib fin)
    (readable : pair.Readable zlib (fin.image behind) i input) (bound : i < pair.phnum)
    (filled : pair.Filled i) {dest : List Byte} (found : pair.stream zlib i = some dest) :
    ∃ rest, input.slice (pair.placed zlib i) (pair.written zlib i) = dest ++ rest := by
  have size : dest.length = pair.stored zlib i := by
    rw [stored, found, Option.getD_some]
  have split : pair.written zlib i = dest.length + (pair.written zlib i - dest.length) := by
    have bounded : pair.stored zlib i ≤ pair.written zlib i := le_max_right _ _
    omega
  have front : input.slice (pair.placed zlib i) dest.length = dest := by
    refine List.ext_getElem (by simp [Memory.slice]) fun x _ inside => ?_
    have byte := (readable.own _ (.stream le_rfl bound filled (by omega))).trans
      (loaded.byte (.stream bound filled (by omega : x < pair.stored zlib i)))
    rw [found, Option.getD_some] at byte
    simp [Memory.slice, byte, List.getD_eq_getElem?_getD, inside]
  rw [split, Memory.slice_append, front]
  exact ⟨_, rfl⟩

theorem extractSegment_filled (undoes : zlib.Undoes) (loaded : pair.Loaded zlib fin)
    (intact : pair.Intact zlib) (same : pair.SamePhdrs) {input : Memory} {i : Nat}
    (readable : pair.Readable zlib (fin.image behind) i input) (fout : File)
    (bound : i < pair.phnum) (filled : pair.Filled i) :
    extractSegment zlib pair.sinfo pair.readPhdrs input fout i =
      (input, (fout.seek ((pair.phdr i).pOffset.setWidth 64)).write (pair.phdr i).pFilesz.toNat
        (clearSections (fun k => (pair.data i).getD k 0) 0)) := by
  have packed := intact.packs i bound filled
  obtain ⟨dest, found⟩ := Option.isSome_iff_exists.mp packed
  obtain ⟨rest, slice⟩ := readable.slice loaded bound filled found
  have length : (pair.data i).length = (pair.phdr i).pFilesz.toNat := by
    simp [data, segment, Memory.slice, Pair.phdr]
  have unpacked : zlib.uncompress (dest ++ rest) (pair.phdr i).pFilesz.toNat =
      some (pair.data i) := by
    rw [← length]
    exact (undoes _ _ _ found).2 rest
  simp only [extractSegment, readable.info_eq loaded intact bound, intact.marked i bound filled,
    if_true, readable.phdr_eq loaded intact same bound,
    (placed_range intact.spaced bound packed).1, toNat_ofNat_small (written_lt undoes i), slice,
    unpacked]

theorem Harmless.clears (loaded : pair.Loaded zlib fin) (intact : pair.Intact zlib) {i : Nat}
    (harmless : pair.Harmless zlib i) {input : Memory}
    (readable : pair.Readable zlib (fin.image behind) i input)
    (elf : isElf input (pair.place zlib i) = true) (a : Nat)
    (field : SectionField (pair.place zlib i) a) : ¬ pair.Awaited zlib (i + 1) a := by
  rcases harmless with none | ⟨k, small, byte, foreign, leaves⟩
  · exact none a field
  intro awaited
  obtain ⟨_, known⟩ := intact.awaited_known awaited
  have inside : a < fin.size := by
    have found := loaded.known known
    rw [File.get?] at found
    split at found
    next below => exact below
    next => cases found
  have image : fin.image behind (pair.place zlib i + k) = byte := by
    rcases leaves with known | ⟨rfl, hole⟩
    · exact loaded.byte known
    · unfold SectionField at field
      rw [File.image, if_pos (by omega), loaded.unwritten hole]
  have taken : input (pair.place zlib i + k) = elfMagic.getD k 0 := isElf_byte elf (by omega)
  have nonzero : ∀ k < 7, elfMagic.getD k 0 ≠ 0 := by decide
  rcases readable.cleared (pair.place zlib i + k) with same | zero
  · exact foreign (image.symm.trans (same.symm.trans taken))
  · exact nonzero k small (taken.symm.trans zero)

theorem extractSegment_empty (loaded : pair.Loaded zlib fin) (intact : pair.Intact zlib)
    (same : pair.SamePhdrs) {input : Memory} {i : Nat}
    (readable : pair.Readable zlib (fin.image behind) i input) (fout : File)
    (bound : i < pair.phnum) (empty : ¬ pair.Filled i) :
    ∃ input', pair.Readable zlib (fin.image behind) (i + 1) input' ∧
      ∃ source, extractSegment zlib pair.sinfo pair.readPhdrs input fout i =
        (input', (fout.seek ((pair.phdr i).pOffset.setWidth 64)).write 0 source) := by
  have size : (pair.phdr i).pFilesz.toNat = 0 := Nat.eq_zero_of_not_pos empty
  have harmless := (intact.empties i bound empty).clears loaded intact readable
  have cleared := readable.next.clear harmless
  unfold place at cleared
  simp only [extractSegment, readable.info_eq loaded intact bound,
    readable.phdr_eq loaded intact same bound]
  split
  next =>
    dsimp only
    rw [readable.phdr_eq loaded intact same bound, size]
    exact ⟨input, readable.next, _, rfl⟩
  next =>
    dsimp only
    rw [cleared.phdr_eq loaded intact same bound, size]
    exact ⟨_, cleared, _, rfl⟩

theorem wide_range (offset : BitVec 32) :
    (offset.setWidth 64).toNat = offset.toNat ∧ (offset.setWidth 64).msb = false := by
  have wide : (offset.setWidth 64).toNat = offset.toNat := by
    rw [BitVec.toNat_setWidth]
    exact Nat.mod_eq_of_lt (offset.isLt.trans (by decide))
  exact ⟨wide, msb_small (wide ▸ offset.isLt.trans (by decide))⟩

def Extracted (pair : Pair) (k : Nat) (fout : File) : Prop :=
  ∀ i < k, ∀ x < (pair.phdr i).pFilesz.toNat,
    fout.get? ((pair.phdr i).pOffset.toNat + x) =
      some (pair.elfFile ((pair.phdr i).pOffset.toNat + x))

theorem segment_getD (i : Nat) {x : Nat} (inside : x < (pair.phdr i).pFilesz.toNat) :
    (pair.data i).getD x 0 = pair.elfFile ((pair.phdr i).pOffset.toNat + x) := by
  have length : x < (pair.data i).length := by
    simpa [data, segment, Memory.slice, Pair.phdr] using inside
  simp [List.getD_eq_getElem?_getD, data, segment, Memory.slice, Pair.phdr] at length ⊢
  simp [length]

theorem segment_own (intact : pair.Intact zlib) {i : Nat} (bound : i < pair.phnum) :
    ∀ x < (pair.phdr i).pFilesz.toNat, clearSections (fun k => (pair.data i).getD k 0) 0 x =
      pair.elfFile (((pair.phdr i).pOffset.setWidth 64).toNat + x) := by
  intro x inside
  have length : x < (pair.data i).length := by
    simpa [data, segment, Memory.slice, Pair.phdr] using inside
  rw [intact.plain i bound x length, segment_getD i inside, (wide_range _).1]

theorem Extracted.filled (intact : pair.Intact zlib) {k : Nat} (bound : k < pair.phnum)
    {fout : File} (extracted : Extracted pair k fout) :
    Extracted pair (k + 1) ((fout.seek ((pair.phdr k).pOffset.setWidth 64)).write
      (pair.phdr k).pFilesz.toNat (clearSections (fun x => (pair.data k).getD x 0) 0)) := by
  obtain ⟨wide, positive⟩ := wide_range (pair.phdr k).pOffset
  have own := segment_own intact bound
  intro i before x inside
  rcases Nat.lt_succ_iff_lt_or_eq.mp before with earlier | rfl
  · exact File.get?_write_own positive own (extracted i earlier x inside)
  · rw [File.get?_write_at (k := x) (by rw [wide]) inside positive, own x inside, wide]

theorem Extracted.empty {k : Nat} (empty : ¬ pair.Filled k) {fout : File}
    (extracted : Extracted pair k fout) (source : Memory) :
    Extracted pair (k + 1) ((fout.seek ((pair.phdr k).pOffset.setWidth 64)).write 0 source) := by
  obtain ⟨_, positive⟩ := wide_range (pair.phdr k).pOffset
  intro i before x inside
  rcases Nat.lt_succ_iff_lt_or_eq.mp before with earlier | rfl
  · exact File.get?_write_outside (by omega) positive (extracted i earlier x inside)
  · exact absurd (Nat.zero_lt_of_lt inside) empty

theorem extractLoop_extracted (undoes : zlib.Undoes) (loaded : pair.Loaded zlib fin)
    (intact : pair.Intact zlib) (same : pair.SamePhdrs)
    (phnum : (ehdrAt pair.selfFile pair.elfOffset).phnum = pair.ehdr.phnum) (fuel i : Nat)
    (enough : pair.phnum < fuel + i) (bound : i ≤ pair.phnum) {input : Memory}
    (readable : pair.Readable zlib (fin.image behind) i input) {fout : File}
    (extracted : Extracted pair i fout) :
    ∃ last result, extractLoop zlib pair.sinfo pair.readEhdr pair.readPhdrs fuel i (input, fout) =
        (last, result) ∧
      pair.Readable zlib (fin.image behind) pair.phnum last ∧
      Extracted pair pair.phnum result := by
  induction fuel generalizing i input fout with
  | zero => omega
  | succ fuel ih =>
      have count : (ehdrAt input pair.readEhdr).phnum.toNat = pair.phnum := by
        rw [readable.ehdr_eq loaded intact, phnum]
        rfl
      rw [extractLoop, count]
      by_cases more : i < pair.phnum
      next =>
        rw [if_pos more]
        by_cases filled : pair.Filled i
        next =>
          rw [extractSegment_filled undoes loaded intact same readable fout more filled]
          exact ih (i + 1) (by omega) more readable.next (extracted.filled intact more)
        next =>
          obtain ⟨next, rest, source, pass⟩ :=
            extractSegment_empty loaded intact same readable fout more filled
          rw [pass]
          exact ih (i + 1) (by omega) more rest (extracted.empty filled source)
      next =>
        obtain rfl : i = pair.phnum := by omega
        rw [if_neg more]
        exact ⟨input, fout, rfl, readable, extracted⟩

/-- Whenever the injector exits with 0, the extractor brings back every segment. -/
def RoundTrip (pair : Pair) (zlib : Zlib) : Prop :=
  ∀ heap elfDigest fuel fin behind,
    inject zlib heap elfDigest fuel pair.selfFile pair.elfFile = some fin →
      ∃ fout, unmake zlib behind fin = some fout ∧ Extracted pair pair.phnum fout

theorem start_loaded (loaded : pair.Loaded zlib fin) (intact : pair.Intact zlib)
    (framed : pair.Framed zlib) : Unmake.start (fin.image behind) =
      ⟨if isElf pair.selfFile pair.elfOffset = true then
        clearSections (fin.image behind) pair.headerLen else fin.image behind,
        pair.readEhdr, pair.readPhdrs⟩ := by
  obtain ⟨headerLen, elfOffset, phdrOffset, -⟩ :=
    @sceHeader_front (fin.image behind) pair.selfFile fun a low => loaded.front framed low
  have copied : isElf (fin.image behind) pair.shdr.headerLen.toNat =
      isElf pair.selfFile pair.elfOffset := loaded.magic
  have header := (@Intact.readable pair zlib fin behind intact).ehdr_eq loaded intact
  simp only [shdr] at copied
  simp only [Unmake.start, headerLen, elfOffset, phdrOffset, copied]
  by_cases elf : isElf pair.selfFile pair.elfOffset = true
  next =>
    rw [if_pos elf, readEhdr, if_pos elf] at header
    have phoff : (ehdrAt (clearSections (fin.image behind) pair.shdr.headerLen.toNat)
        pair.shdr.headerLen.toNat).phoff.toNat = pair.phoff := by
      change (ehdrAt (clearSections (fin.image behind) pair.headerLen)
        pair.headerLen).phoff.toNat = _
      rw [header, (intact.copied elf).1]
      rfl
    simp only [shdr] at phoff
    simp only [if_pos elf, phoff, readEhdr, readPhdrs]
    rfl
  next =>
    simp only [if_neg elf, readEhdr, readPhdrs]
    rfl

theorem unmake_loaded (loaded : pair.Loaded zlib fin) (intact : pair.Intact zlib)
    (framed : pair.Framed zlib) (magic : pair.selfFile.word 0 = SCE_MAGIC) :
    let start := if isElf pair.selfFile pair.elfOffset = true then
      clearSections (fin.image behind) pair.headerLen else fin.image behind
    ∃ first : File, unmake zlib behind fin =
      let st := extractLoop zlib pair.sinfo pair.readEhdr pair.readPhdrs 65536 0 (start, first)
      let last := ehdrAt st.1 pair.readEhdr
      some ((st.2.seek (last.phoff.setWidth 64)).write
        (last.phentsize.toNat * last.phnum.toNat) fun k => st.1 (pair.readPhdrs + k)) := by
  intro start
  have sinfo := (@sceHeader_front (fin.image behind) pair.selfFile
    fun a low => loaded.front framed low).2.2.2
  have selfMagic : (fin.image behind).word 0 = SCE_MAGIC := by
    rw [← magic]
    exact Memory.word_congr fun a _ high => loaded.front framed (by omega)
  rw [Unmake.unmake_start, if_neg (not_not.mpr selfMagic), start_loaded loaded intact framed, sinfo]
  exact ⟨_, rfl⟩

theorem Extracted.table (loaded : pair.Loaded zlib fin) (intact : pair.Intact zlib)
    (same : pair.SamePhdrs) {input : Memory}
    (readable : pair.Readable zlib (fin.image behind) pair.phnum input) {fout : File}
    (extracted : Extracted pair pair.phnum fout) :
    let last := ehdrAt pair.selfFile pair.elfOffset
    Extracted pair pair.phnum ((fout.seek (last.phoff.setWidth 64)).write
      (last.phentsize.toNat * last.phnum.toNat) fun k => input (pair.readPhdrs + k)) := by
  intro last i bound x inside
  obtain ⟨wide, positive⟩ := wide_range last.phoff
  by_cases inTable : last.phoff.toNat ≤ (pair.phdr i).pOffset.toNat + x ∧
      (pair.phdr i).pOffset.toNat + x <
        last.phoff.toNat + last.phentsize.toNat * last.phnum.toNat
  next =>
    obtain ⟨phoff, own⟩ := intact.last i bound x inside inTable.1 inTable.2
    have start : last.phoff.toNat = pair.phoff := congrArg BitVec.toNat phoff
    obtain ⟨k, place⟩ := Nat.exists_eq_add_of_le inTable.1
    have small : k < 32 * pair.phnum := by omega
    have byte : input (pair.readPhdrs + k) = pair.elfFile (pair.phoff + k) :=
      (readable.own _ (.phdrs small)).trans (loaded.phdrs intact same small)
    rw [File.get?_write_at (k := k) (by omega) (by omega) positive, byte, place, start]
  next => exact File.get?_write_outside (by omega) positive (extracted i bound x inside)

end Reading

theorem roundTrip_of_intact (undoes : zlib.Undoes) (same : pair.SamePhdrs)
    (framed : pair.Framed zlib) (intact : pair.Intact zlib) : pair.RoundTrip zlib := by
  intro heap elfDigest fuel fin behind exits
  obtain ⟨magic, phnum, header, written, rfl⟩ := inject_writes undoes exits
  have loaded : pair.Loaded zlib ((pair.writes zlib heap header).foldl File.put File.empty) :=
    ⟨known_kept undoes same framed intact written,
      unwritten_zero undoes framed intact written⟩
  obtain ⟨first, output⟩ := @unmake_loaded pair zlib _ behind loaded intact framed magic
  have few : pair.phnum < 65536 + 0 := pair.ehdr.phnum.isLt
  -- what stands at the front of the output before the loop does not matter
  have nothing : Extracted pair 0 first := fun i early => absurd early (Nat.not_lt_zero i)
  obtain ⟨last, result, loop, readable, extracted⟩ := extractLoop_extracted undoes loaded intact
    same phnum 65536 0 few (Nat.zero_le _) intact.readable nothing
  refine ⟨_, output, ?_⟩
  rw [loop, readable.ehdr_eq loaded intact]
  exact extracted.table loaded intact same readable

theorem roundTrip_of_empty (undoes : zlib.Undoes) (framed : pair.Framed zlib)
    (empty : ∀ i < pair.phnum, ¬ pair.Filled i) : pair.RoundTrip zlib := by
  intro heap elfDigest fuel fin behind exits
  obtain ⟨magic, -, header, written, rfl⟩ := inject_writes undoes exits
  have front : ∀ a < 96, header a = pair.selfFile a := fun a low =>
    framed.header_front undoes written low
  have selfMagic : (((pair.writes zlib heap header).foldl File.put File.empty).image
      behind).word 0 = SCE_MAGIC := by
    rw [← magic]
    refine Memory.word_congr fun a _ high => ?_
    have inHeader := framed.front
    rw [← front a (by omega), writes, List.foldl_append]
    exact File.image_of_get? ((headerWrites_get? front framed.range _).1 a (by omega)) behind
  refine ⟨_, by simp only [unmake]; rw [if_neg (not_not.mpr selfMagic)], ?_⟩
  exact fun i bound x inside => absurd (Nat.zero_lt_of_lt inside) (empty i bound)

/-- The injector sees of the segments only what `compress` makes of them. -/
structure Alike (first second : Pair) (zlib : Zlib) : Prop where
  selfFile : first.selfFile = second.selfFile
  magic : isElf first.elfFile 0 = isElf second.elfFile 0
  ehdr : ehdrAt first.elfFile 0 = ehdrAt second.elfFile 0
  phdr : ∀ i < first.phnum, first.phdr i = second.phdr i
  stream : ∀ i < first.phnum, first.stream zlib i = second.stream zlib i

theorem Alike.inject_eq {first second : Pair} (alike : Alike first second zlib)
    (heap : Nat → Memory) (elfDigest : Memory) (fuel : Nat) :
    inject zlib heap elfDigest fuel first.selfFile first.elfFile =
      inject zlib heap elfDigest fuel second.selfFile second.elfFile := by
  have segments : ∀ (sinfo : Nat) (start : Injection),
      (List.range first.phnum).foldl
        (injectSegment zlib heap first.elfFile first.phoff sinfo) start =
      (List.range first.phnum).foldl
        (injectSegment zlib heap second.elfFile second.phoff sinfo) start := by
    intro sinfo start
    refine List.foldl_ext _ _ _ fun st i member => ?_
    have same : zlib.compress (segment first.elfFile first.phoff i)
        (phdrAt first.elfFile first.phoff i).pFilesz.toNat =
      zlib.compress (segment second.elfFile second.phoff i)
        (phdrAt second.elfFile second.phoff i).pFilesz.toNat :=
      alike.stream i (List.mem_range.mp member)
    simp only [injectSegment, same]
  have start := segments (sceHeader second.selfFile).sectionInfoOffset.toNat
    ⟨second.selfFile, File.empty, 0⟩
  simp only [phnum, phoff, Pair.ehdr, alike.ehdr] at start
  simp only [inject, writeHeaders, alike.selfFile, alike.magic, alike.ehdr, start]

theorem Alike.not_both {first second : Pair} (alike : Alike first second zlib)
    {heap : Nat → Memory} {elfDigest : Memory} {fuel : Nat}
    (exits : (inject zlib heap elfDigest fuel first.selfFile first.elfFile).isSome = true)
    {i : Nat} (bound : i < first.phnum) (differ : first.data i ≠ second.data i) :
    ¬ (first.RoundTrip zlib ∧ second.RoundTrip zlib) := by
  rintro ⟨firstBack, secondBack⟩
  obtain ⟨fin, found⟩ := Option.isSome_iff_exists.mp exits
  obtain ⟨fout, unmade, extracted⟩ := firstBack _ _ _ fin (fun _ => 0) found
  rw [alike.inject_eq] at found
  obtain ⟨fout', unmade', extracted'⟩ := secondBack _ _ _ fin (fun _ => 0) found
  obtain rfl : fout = fout' := Option.some.inj (unmade.symm.trans unmade')
  have phdr := alike.phdr i bound
  have same : first.phnum = second.phnum := by
    simp only [phnum, Pair.ehdr, alike.ehdr]
  refine differ ?_
  change first.elfFile.slice (first.phdr i).pOffset.toNat (first.phdr i).pFilesz.toNat =
    second.elfFile.slice (second.phdr i).pOffset.toNat (second.phdr i).pFilesz.toNat
  rw [← phdr]
  refine Memory.slice_congr fun x inside => ?_
  have one := extracted i bound x inside
  have other := extracted' i (same ▸ bound) x (phdr ▸ inside)
  rw [← phdr, one] at other
  exact Option.some.inj other

/-- The round trip holds for every pair that is intact, if any of its segments has bytes at all.
Nothing comes back of a segment that does not compress: of two ELF files that differ only there, at
most one does. -/
theorem unmake_inject (pair : Pair) (zlib : Zlib) (undoes : zlib.Undoes) :
    (pair.SamePhdrs → pair.Framed zlib → ((∃ i < pair.phnum, pair.Filled i) → pair.Intact zlib) →
      pair.RoundTrip zlib) ∧
    ∀ (second : Pair) (heap : Nat → Memory) (elfDigest : Memory) (fuel i : Nat),
      pair.Alike second zlib →
      (inject zlib heap elfDigest fuel pair.selfFile pair.elfFile).isSome = true →
      i < pair.phnum → pair.data i ≠ second.data i →
        ¬ (pair.RoundTrip zlib ∧ second.RoundTrip zlib) := by
  refine ⟨fun same framed intact => ?_, fun second heap elfDigest fuel i alike exits bound differ =>
    alike.not_both exits bound differ⟩
  by_cases filled : ∃ i < pair.phnum, pair.Filled i
  next => exact roundTrip_of_intact undoes same framed (intact filled)
  next =>
    exact roundTrip_of_empty undoes framed fun i bound own => filled ⟨i, bound, own⟩

def zeros : List Byte := List.replicate 32 0

def zeroStream : List Byte := [0x78, 0x9C, 0x63, 0x60, 0xC0, 0x0F, 0x00, 0x00, 0x20, 0x00, 0x01]

def zeroZlib : Zlib where
  compress source room :=
    if source = zeros ∧ zeroStream.length ≤ room then some zeroStream else none
  uncompress source room :=
    if zeroStream.isPrefixOf source = true ∧ zeros.length ≤ room then some zeros else none

theorem zeroZlib_undoes : zeroZlib.Undoes := by
  intro source room dest found
  simp only [zeroZlib] at found ⊢
  split at found
  next fits =>
    cases found
    refine ⟨fits.2, fun behind => ?_⟩
    rw [fits.1, if_pos ⟨List.isPrefixOf_iff_prefix.mpr (List.prefix_append _ _), le_rfl⟩]
  next => cases found

def blank : Memory := fun _ => 0

/-- An ELF header with two program headers, for the first of `size` bytes. -/
def sampleHeaders (file : Memory) (ehdr phdrs : Nat) (size : BitVec 32) : Memory :=
  (((((((file.storeDword ehdr 0x00010101464C457F).storeWord (ehdr + 28) 52).storeWord (ehdr + 40)
    0x00200034).storeWord (ehdr + 44) 2).storeWord (phdrs + 4) 128).storeWord (phdrs + 16)
      size).storeWord (phdrs + 36) 160).storeWord (phdrs + 48) 32

def sampleElf (first : List Byte) : Memory :=
  (sampleHeaders blank 0 52 (BitVec.ofNat 32 first.length)).copy 128 first.length fun k =>
    first.getD k 0

def sampleSelf (first : List Byte) : Memory :=
  let front := (((((blank.storeWord 0 SCE_MAGIC).storeDword 16 336).storeDword 64
    128).storeDword 72 184).storeDword 88 248).storeDword 104 312
  let infos := (((((front.storeDword 248 512).storeDword 256 11).storeDword 264 2).storeDword 280
    544).storeDword 288 11).storeDword 296 2
  sampleHeaders infos 128 184 (BitVec.ofNat 32 first.length)

def sample (first : List Byte) : Pair := ⟨sampleSelf first, sampleElf first⟩

theorem sample_intact {first : List Byte} (choice : first = zeros ∨ first = []) :
    (sample first).SamePhdrs ∧ (sample first).Framed zeroZlib ∧
      (sample first).Intact zeroZlib := by
  have infos : (sceHeader ((sample first).updatedSelf zeroZlib
      (sample first).phnum)).controlinfoOffset.toNat = 312 := by
    rcases choice with rfl | rfl <;> decide +kernel
  have headers : ∀ a, (sample first).Header a → a < 312 := by
    have sinfo : (sample first).sinfo + 32 * (sample first).phnum ≤ 312 := by
      rcases choice with rfl | rfl <;> decide +kernel
    have ehdr : (sample first).elfOffset + 52 ≤ 312 := by
      rcases choice with rfl | rfl <;> decide +kernel
    have phdrs : (sample first).phdrOffset + 32 * (sample first).phnum ≤ 312 := by
      rcases choice with rfl | rfl <;> decide +kernel
    intro a own
    unfold Header at own
    omega
  have later : ∀ j < (sample first).phnum, ∀ i < j,
      ((sample first).stream zeroZlib j).isSome = true →
      ∀ x < (sample first).stored zeroZlib i,
        (sample first).placed zeroZlib i + x < (sample first).placed zeroZlib j ∨
          (sample first).placed zeroZlib j + (sample first).written zeroZlib j ≤
            (sample first).placed zeroZlib i + x := by
    rcases choice with rfl | rfl <;> decide +kernel
  have hole : ∀ i < (sample first).phnum, ¬ (sample first).Filled i →
      (sample first).Unwritten zeroZlib ((sample first).place zeroZlib i + 0) := by
    intro i bound empty
    constructor
    case behindEhdr => revert i; rcases choice with rfl | rfl <;> decide +kernel
    case phdrs => revert i; rcases choice with rfl | rfl <;> decide +kernel
    case segments => revert i; rcases choice with rfl | rfl <;> decide +kernel
  have magic : isElf (sample first).selfFile (sample first).elfOffset = true := by
    rcases choice with rfl | rfl <;> decide +kernel
  refine ⟨?_, ⟨?_, ?_, spares_behind fun a low => by omega, ?_⟩, ?_⟩
  case refine_5 =>
    constructor
    case control => exact spares_behind fun a own => by have := headers a own; omega
    case inPlace => exact fun plain => absurd (magic.symm.trans plain) (by decide)
    case empties =>
      exact fun i bound empty => .inr ⟨0, by decide, 0, by decide, .inr ⟨rfl, hole i bound empty⟩⟩
    case spaced =>
      refine ⟨?_, fun i j less bound => later j bound i less⟩
      rcases choice with rfl | rfl <;> decide +kernel
    all_goals rcases choice with rfl | rfl <;> decide +kernel
  all_goals
    rcases choice with rfl | rfl <;> first | decide +kernel | unfold SamePhdrs; decide +kernel

theorem unmake_inject_zeros :
    (sample zeros).RoundTrip zeroZlib ∧ (sample []).RoundTrip zeroZlib := by
  obtain ⟨same, framed, intact⟩ := sample_intact (.inl rfl)
  obtain ⟨emptySame, emptyFramed, emptyIntact⟩ := sample_intact (.inr rfl)
  exact ⟨(unmake_inject (sample zeros) zeroZlib zeroZlib_undoes).1 same framed fun _ => intact,
    (unmake_inject (sample []) zeroZlib zeroZlib_undoes).1 emptySame emptyFramed
      fun _ => emptyIntact⟩

/-- Four bytes that do not get shorter: the injector skips them and exits with 0. -/
theorem incompressible_lost :
    zeroZlib.Undoes ∧ (sample [0x61, 0x62, 0x63, 0x64]).SamePhdrs ∧
      ¬ (sample [0x61, 0x62, 0x63, 0x64]).RoundTrip zeroZlib := by
  refine ⟨zeroZlib_undoes, by unfold SamePhdrs; decide +kernel, fun roundTrip => ?_⟩
  let fin := inject zeroZlib (fun _ => blank) blank 1 (sampleSelf [0x61, 0x62, 0x63, 0x64])
    (sampleElf [0x61, 0x62, 0x63, 0x64])
  have exits : fin.isSome = true := by decide +kernel
  have output : ((fin.bind (unmake zeroZlib blank)).bind fun fout => fout.get? 128) = some 0 := by
    decide +kernel
  obtain ⟨file, found⟩ := Option.isSome_iff_exists.mp exits
  obtain ⟨fout, unmade, extracted⟩ := roundTrip _ _ _ file blank found
  have first := extracted 0 (by decide +kernel) 0 (by decide +kernel)
  have place : ((sample [0x61, 0x62, 0x63, 0x64]).phdr 0).pOffset.toNat = 128 := by
    decide +kernel
  rw [place] at first
  rw [found, Option.bind_some, unmade, Option.bind_some, first] at output
  exact absurd output (by decide +kernel)

end Pair

end VitaTools.Self
