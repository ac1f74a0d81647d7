import VitaTools.Library.Writes
import VitaTools.Self.ControlInfo

set_option autoImplicit false

namespace VitaTools.Self

open VitaTools.Library

theorem infoAt_congr {m n : Memory} {sinfo i : Nat}
    (same : ∀ a, sinfo + 32 * i ≤ a → a < sinfo + 32 * i + 24 → m a = n a) :
    infoAt m sinfo i = infoAt n sinfo i := by
  have offset := Memory.dword_congr fun a low high => same a low (by omega)
  have length : m.dword (sinfo + 32 * i + 8) = n.dword (sinfo + 32 * i + 8) :=
    Memory.dword_congr fun a low high => same a (by omega) (by omega)
  have compression : m.dword (sinfo + 32 * i + 16) = n.dword (sinfo + 32 * i + 16) :=
    Memory.dword_congr fun a low high => same a (by omega) (by omega)
  rw [infoAt, infoAt, offset, length, compression]

theorem sceHeader_congr {m n : Memory} (same : ∀ a < 128, m a = n a) :
    sceHeader m = sceHeader n := by
  have field : ∀ at8 ≤ 120, m.dword at8 = n.dword at8 := fun at8 small =>
    Memory.dword_congr fun a _ high => same a (by omega)
  simp only [sceHeader, field 16 (by decide), field 64 (by decide), field 72 (by decide),
    field 88 (by decide), field 104 (by decide)]

/-- What is relied on of zlib. Bytes behind a stream do not matter. -/
def Zlib.Undoes (zlib : Zlib) : Prop :=
  ∀ source room dest, zlib.compress source room = some dest →
    dest.length ≤ room ∧ ∀ behind, zlib.uncompress (dest ++ behind) source.length = some source

structure Pair where
  selfFile : Memory
  elfFile : Memory

namespace Pair

section Layout

variable (pair : Pair)

def shdr : SceHeader := sceHeader pair.selfFile

def headerLen : Nat := pair.shdr.headerLen.toNat

def elfOffset : Nat := pair.shdr.elfOffset.toNat

def phdrOffset : Nat := pair.shdr.phdrOffset.toNat

def sinfo : Nat := pair.shdr.sectionInfoOffset.toNat

def ehdr : Ehdr := ehdrAt pair.elfFile 0

def phoff : Nat := pair.ehdr.phoff.toNat

def phnum : Nat := pair.ehdr.phnum.toNat

def info (i : Nat) : SegmentInfo := infoAt pair.selfFile pair.sinfo i

def phdr (i : Nat) : Phdr := phdrAt pair.elfFile pair.phoff i

def data (i : Nat) : List Byte := segment pair.elfFile pair.phoff i

def SamePhdrs : Prop :=
  ∀ k < 32 * pair.phnum, pair.selfFile (pair.phdrOffset + k) = pair.elfFile (pair.phoff + k)

variable (zlib : Zlib)

/-- What `compress` makes of segment `i`, when it fits. -/
def stream (i : Nat) : Option (List Byte) :=
  zlib.compress (pair.data i) (pair.phdr i).pFilesz.toNat

def stored (i : Nat) : Nat := ((pair.stream zlib i).getD []).length

/-- How far the segments before segment `i` move it. -/
def growth : Nat → Nat
  | 0 => 0
  | i + 1 => growth i + (pair.stored zlib i - (pair.info i).length.toNat)

def placed (i : Nat) : Nat := (pair.info i).offset.toNat + pair.growth zlib i

/-- The length that is written, which is that of the SELF when it is larger. -/
def written (i : Nat) : Nat := max (pair.info i).length.toNat (pair.stored zlib i)

structure Spaced : Prop where
  range : ∀ i < pair.phnum, (pair.stream zlib i).isSome = true → pair.placed zlib i < 2 ^ 63
  segments : ∀ i j, i < j → j < pair.phnum → (pair.stream zlib j).isSome = true →
    ∀ x < pair.stored zlib i, pair.placed zlib i + x < pair.placed zlib j ∨
      pair.placed zlib j + pair.written zlib j ≤ pair.placed zlib i + x

-- Of segment `i`, unless it is skipped.
def segmentWrite (heap : Nat → Memory) (i : Nat) : Option Write :=
  (pair.stream zlib i).map fun dest =>
    ⟨BitVec.ofNat 64 (pair.placed zlib i), pair.written zlib i, fun x => dest.getD x (heap i x)⟩

def segmentWrites (heap : Nat → Memory) (k : Nat) : List Write :=
  (List.range k).filterMap (pair.segmentWrite zlib heap)

end Layout

/-- The section info of segment `i` after both updates. -/
def updated (m : Memory) (sinfo i : Nat) (offset length : BitVec 64) : Memory :=
  (m.storeDword (sinfo + 32 * i) offset).storeDword (sinfo + 32 * i + 8) length

theorem updated_outside (m : Memory) (sinfo i : Nat) (offset length : BitVec 64) (a : Nat)
    (outside : a < sinfo + 32 * i ∨ sinfo + 32 * i + 16 ≤ a) :
    updated m sinfo i offset length a = m a := by
  rw [updated, Memory.storeDword_outside _ _ _ a (by omega),
    Memory.storeDword_outside _ _ _ a (by omega)]

theorem infoAt_updated (m : Memory) (sinfo i : Nat) (offset length : BitVec 64) :
    infoAt (updated m sinfo i offset length) sinfo i =
      ⟨offset, length, (infoAt m sinfo i).compression⟩ := by
  have compression : (updated m sinfo i offset length).dword (sinfo + 32 * i + 16) =
      m.dword (sinfo + 32 * i + 16) :=
    Memory.dword_congr fun a low high => updated_outside m sinfo i offset length a (by omega)
  rw [infoAt, compression, updated, Memory.dword_storeDword,
    Memory.dword_storeDword_apart _ _ _ _ (by omega), Memory.dword_storeDword]
  rfl

section Loop

variable {pair : Pair} {zlib : Zlib}

theorem toNat_ofNat_small {n : Nat} (small : n < 2 ^ 64) : (BitVec.ofNat 64 n).toNat = n :=
  (BitVec.toNat_ofNat n 64).trans (Nat.mod_eq_of_lt small)

theorem stored_lt (undoes : zlib.Undoes) (i : Nat) : pair.stored zlib i < 2 ^ 32 := by
  unfold stored
  cases found : pair.stream zlib i with
  | none => simp
  | some dest =>
      have room := (undoes _ _ _ found).1
      have size := (pair.phdr i).pFilesz.isLt
      simp only [Option.getD_some]
      omega

theorem written_lt (undoes : zlib.Undoes) (i : Nat) : pair.written zlib i < 2 ^ 64 := by
  have stored : pair.stored zlib i < 2 ^ 32 := stored_lt undoes i
  have length := (pair.info i).length.isLt
  unfold written
  omega

theorem grown (pair : Pair) (undoes : zlib.Undoes) (i : Nat) :
    let segSz := BitVec.ofNat 64 (pair.stored zlib i)
    let length := (pair.info i).length
    (if length < segSz then segSz else length) = BitVec.ofNat 64 (pair.written zlib i) ∧
      (if length < segSz then BitVec.ofNat 64 (pair.growth zlib i) + (segSz - length)
        else BitVec.ofNat 64 (pair.growth zlib i)) =
          BitVec.ofNat 64 (pair.growth zlib (i + 1)) := by
  intro segSz length
  have small : segSz.toNat = pair.stored zlib i :=
    toNat_ofNat_small ((stored_lt undoes i).trans (by decide))
  have next : pair.growth zlib (i + 1) =
      pair.growth zlib i + (pair.stored zlib i - length.toNat) := rfl
  have largest : pair.written zlib i = max length.toNat (pair.stored zlib i) := rfl
  by_cases short : length < segSz
  next =>
    have less : length.toNat < pair.stored zlib i := small ▸ BitVec.lt_def.mp short
    have difference : segSz - length = BitVec.ofNat 64 (pair.stored zlib i - length.toNat) := by
      apply BitVec.eq_of_toNat_eq
      have bound : pair.stored zlib i < 2 ^ 32 := stored_lt undoes i
      rw [BitVec.toNat_sub_of_le (BitVec.le_of_lt short), small, toNat_ofNat_small (by omega)]
    rw [if_pos short, if_pos short, largest, next, max_eq_right less.le, difference,
      BitVec.ofNat_add]
    exact ⟨rfl, rfl⟩
  next =>
    have enough : pair.stored zlib i ≤ length.toNat := by
      rw [BitVec.lt_def, small] at short
      omega
    rw [if_neg short, if_neg short, largest, next, max_eq_left enough, Nat.sub_eq_zero_of_le enough]
    exact ⟨by simp [length], rfl⟩

theorem offset_placed (i : Nat) :
    (pair.info i).offset + BitVec.ofNat 64 (pair.growth zlib i) =
      BitVec.ofNat 64 (pair.placed zlib i) := by
  rw [placed, BitVec.ofNat_add]
  simp

variable (pair zlib) in
/-- The SELF with the section infos of its first `k` segments updated. -/
def updatedSelf (k : Nat) : Memory :=
  (List.range k).foldl (fun m i => updated m pair.sinfo i (BitVec.ofNat 64 (pair.placed zlib i))
    (BitVec.ofNat 64 (pair.written zlib i))) pair.selfFile

theorem updatedSelf_succ (k : Nat) : pair.updatedSelf zlib (k + 1) =
    updated (pair.updatedSelf zlib k) pair.sinfo k (BitVec.ofNat 64 (pair.placed zlib k))
      (BitVec.ofNat 64 (pair.written zlib k)) := by
  rw [updatedSelf, List.range_succ, List.foldl_append]
  rfl

theorem updatedSelf_outside {k a : Nat} (outside : a < pair.sinfo ∨ pair.sinfo + 32 * k ≤ a) :
    pair.updatedSelf zlib k a = pair.selfFile a := by
  induction k with
  | zero => rfl
  | succ k ih =>
      rw [updatedSelf_succ, updated_outside _ _ _ _ _ a (by omega)]
      exact ih (by omega)

theorem infoAt_coming {k i : Nat} (coming : k ≤ i) :
    infoAt (pair.updatedSelf zlib k) pair.sinfo i = pair.info i :=
  infoAt_congr fun _ low _ => updatedSelf_outside (.inr (by omega))

theorem infoAt_updatedSelf {k i : Nat} (passed : i < k) :
    infoAt (pair.updatedSelf zlib k) pair.sinfo i =
      ⟨BitVec.ofNat 64 (pair.placed zlib i), BitVec.ofNat 64 (pair.written zlib i),
        (pair.info i).compression⟩ := by
  induction k with
  | zero => exact absurd passed (Nat.not_lt_zero i)
  | succ k ih =>
      rw [updatedSelf_succ]
      rcases Nat.lt_succ_iff_lt_or_eq.mp passed with earlier | rfl
      · rw [← ih earlier]
        exact infoAt_congr fun a low high => updated_outside _ _ _ _ _ a (by omega)
      · rw [infoAt_updated, infoAt_coming (le_refl _)]

theorem updatedSelf_skipped {k : Nat} (skipped : pair.stream zlib k = none) :
    (pair.updatedSelf zlib k).storeDword (pair.sinfo + 32 * k)
        (BitVec.ofNat 64 (pair.placed zlib k)) = pair.updatedSelf zlib (k + 1) := by
  have length : (pair.info k).length = BitVec.ofNat 64 (pair.written zlib k) := by
    have nothing : pair.stored zlib k = 0 := by rw [stored, skipped]; rfl
    rw [written, nothing, Nat.max_zero, BitVec.ofNat_toNat, BitVec.setWidth_eq]
  have there : (pair.updatedSelf zlib k).dword (pair.sinfo + 32 * k + 8) =
      BitVec.ofNat 64 (pair.written zlib k) := by
    rw [← length]
    exact congrArg SegmentInfo.length (infoAt_coming (le_refl k))
  rw [updatedSelf_succ, updated, ← there]
  exact (Memory.storeDword_apart_self _ _ _ (by omega)).symm

theorem injectSegment_eq (undoes : zlib.Undoes) (heap : Nat → Memory) (k : Nat) (fout : File) :
    injectSegment zlib heap pair.elfFile pair.phoff pair.sinfo
        ⟨pair.updatedSelf zlib k, fout, BitVec.ofNat 64 (pair.growth zlib k)⟩ k =
      ⟨pair.updatedSelf zlib (k + 1), (pair.segmentWrite zlib heap k).elim fout fout.put,
        BitVec.ofNat 64 (pair.growth zlib (k + 1))⟩ := by
  have here := @infoAt_coming pair zlib k k (le_refl k)
  cases found : pair.stream zlib k with
  | none =>
      have compressed : zlib.compress (segment pair.elfFile pair.phoff k)
          (phdrAt pair.elfFile pair.phoff k).pFilesz.toNat = none := found
      have same : pair.growth zlib (k + 1) = pair.growth zlib k := by
        simp [growth, stored, found]
      simp only [injectSegment, compressed, here, offset_placed, updatedSelf_skipped found,
        segmentWrite, found, same]
      rfl
  | some dest =>
      have size : dest.length = pair.stored zlib k := by
        rw [stored, found, Option.getD_some]
      have compressed : zlib.compress (segment pair.elfFile pair.phoff k)
          (phdrAt pair.elfFile pair.phoff k).pFilesz.toNat = some dest := found
      obtain ⟨length, correction⟩ : _ ∧ _ := pair.grown undoes k
      simp only [injectSegment, here, compressed, size, offset_placed, length, correction,
        toNat_ofNat_small (written_lt undoes k), updatedSelf_succ, updated, segmentWrite, found]
      rfl

theorem segmentWrites_succ {heap : Nat → Memory} {k : Nat} (file : File) :
    (pair.segmentWrites zlib heap (k + 1)).foldl File.put file =
      (pair.segmentWrite zlib heap k).elim ((pair.segmentWrites zlib heap k).foldl File.put file)
        ((pair.segmentWrites zlib heap k).foldl File.put file).put := by
  rw [segmentWrites, List.range_succ, List.filterMap_append, List.foldl_append]
  cases wrote : pair.segmentWrite zlib heap k <;> simp [wrote, segmentWrites]

theorem segmentLoop_eq (undoes : zlib.Undoes) (heap : Nat → Memory) (k : Nat) :
    (List.range k).foldl (injectSegment zlib heap pair.elfFile pair.phoff pair.sinfo)
        ⟨pair.selfFile, File.empty, 0⟩ =
      ⟨pair.updatedSelf zlib k, (pair.segmentWrites zlib heap k).foldl File.put File.empty,
        BitVec.ofNat 64 (pair.growth zlib k)⟩ := by
  induction k with
  | zero => rfl
  | succ k ih =>
      rw [List.range_succ, List.foldl_append, ih, List.foldl_cons, List.foldl_nil,
        injectSegment_eq undoes, segmentWrites_succ]

theorem placed_range (spaced : pair.Spaced zlib) {i : Nat} (bound : i < pair.phnum)
    (packed : (pair.stream zlib i).isSome = true) :
    (BitVec.ofNat 64 (pair.placed zlib i)).toNat = pair.placed zlib i ∧
      (BitVec.ofNat 64 (pair.placed zlib i)).msb = false := by
  have range := spaced.range i bound packed
  have place : (BitVec.ofNat 64 (pair.placed zlib i)).toNat = pair.placed zlib i :=
    toNat_ofNat_small (by omega)
  refine ⟨place, ?_⟩
  rw [BitVec.msb_eq_decide, place]
  simpa using range

theorem stream_written (spaced : pair.Spaced zlib) {heap : Nat → Memory} {k : Nat}
    (bound : k ≤ pair.phnum) {i : Nat} (passed : i < k) {x : Nat}
    (inside : x < pair.stored zlib i) :
    ((pair.segmentWrites zlib heap k).foldl File.put File.empty).get? (pair.placed zlib i + x) =
      some (((pair.stream zlib i).getD []).getD x 0) := by
  induction k with
  | zero => exact absurd passed (Nat.not_lt_zero i)
  | succ k ih =>
      rw [segmentWrites_succ]
      rcases Nat.lt_succ_iff_lt_or_eq.mp passed with earlier | rfl
      · have before := ih (by omega) earlier
        cases found : pair.stream zlib k with
        | none => rwa [segmentWrite, found]
        | some dest =>
            have packed : (pair.stream zlib k).isSome = true := by rw [found]; rfl
            obtain ⟨place, positive⟩ := placed_range spaced bound packed
            have clear := spaced.segments i k earlier bound packed x inside
            rw [segmentWrite, found]
            exact File.get?_write_outside (by rw [place]; exact clear) positive before
      · cases found : pair.stream zlib i with
        | none =>
            rw [stored, found] at inside
            exact absurd inside (Nat.not_lt_zero x)
        | some dest =>
            obtain ⟨place, positive⟩ := placed_range spaced bound (by rw [found]; rfl)
            have size : dest.length = pair.stored zlib i := by
              rw [stored, found, Option.getD_some]
            have bounded : pair.stored zlib i ≤ pair.written zlib i := le_max_right _ _
            have byte : dest.getD x (heap i x) = dest.getD x 0 := by
              simp [List.getD_eq_getElem?_getD, show x < dest.length by omega]
            rw [segmentWrite, found, Option.getD_some, ← byte]
            exact File.get?_write_at (by rw [place]) (Nat.lt_of_lt_of_le inside bounded) positive

theorem hole_unwritten (spaced : pair.Spaced zlib) {heap : Nat → Memory} {k a : Nat}
    (bound : k ≤ pair.phnum) (outside : ∀ i < pair.phnum, (pair.stream zlib i).isSome = true →
      a < pair.placed zlib i ∨ pair.placed zlib i + pair.written zlib i ≤ a) :
    ((pair.segmentWrites zlib heap k).foldl File.put File.empty).bytes a = 0 := by
  induction k with
  | zero => rfl
  | succ k ih =>
      rw [segmentWrites_succ]
      cases found : pair.stream zlib k with
      | none =>
          rw [segmentWrite, found]
          exact ih (by omega)
      | some dest =>
          have packed : (pair.stream zlib k).isSome = true := by rw [found]; rfl
          obtain ⟨place, positive⟩ := placed_range spaced bound packed
          rw [segmentWrite, found]
          exact (File.seek_write_bytes_outside (by rw [place]; exact outside k bound packed)
            positive).trans (ih (by omega))

end Loop

def segmentsDone (pair : Pair) (zlib : Zlib) (heap : Nat → Memory) : Injection :=
  (List.range pair.phnum).foldl (injectSegment zlib heap pair.elfFile pair.phoff pair.sinfo)
    ⟨pair.selfFile, File.empty, 0⟩

-- The header as it is written, behind both loops.
def writtenHeader (pair : Pair) (zlib : Zlib) (heap : Nat → Memory) (elfDigest : Memory)
    (fuel : Nat) : Option Memory :=
  let selfFile := (pair.segmentsDone zlib heap).selfFile
  controlLoop elfDigest fuel selfFile (sceHeader selfFile).controlinfoOffset.toNat

def headerWrites (header elfFile : Memory) : List Write :=
  let shdr := sceHeader header
  let ehdr := ehdrAt elfFile 0
  [⟨0, shdr.headerLen.toNat, header⟩,
    ⟨shdr.headerLen, 52, fun k => header (shdr.elfOffset.toNat + k)⟩,
    ⟨shdr.headerLen + ehdr.phoff.setWidth 64, ehdr.phnum.toNat * ehdr.phentsize.toNat,
      fun k => header (shdr.phdrOffset.toNat + k)⟩]

theorem writeHeaders_eq (header elfFile : Memory) (fout : File) :
    writeHeaders header elfFile fout = (headerWrites header elfFile).foldl File.put fout := rfl

section Headers

variable {pair : Pair} {zlib : Zlib}

theorem segmentsDone_eq (undoes : zlib.Undoes) (heap : Nat → Memory) :
    pair.segmentsDone zlib heap = ⟨pair.updatedSelf zlib pair.phnum,
      (pair.segmentWrites zlib heap pair.phnum).foldl File.put File.empty,
      BitVec.ofNat 64 (pair.growth zlib pair.phnum)⟩ :=
  segmentLoop_eq undoes heap pair.phnum

variable (pair zlib) in
/-- All that is written to the output when the injector exits with 0. -/
def writes (heap : Nat → Memory) (header : Memory) : List Write :=
  pair.segmentWrites zlib heap pair.phnum ++ headerWrites header pair.elfFile

theorem inject_writes (undoes : zlib.Undoes) {heap : Nat → Memory} {elfDigest : Memory}
    {fuel : Nat} {fin : File}
    (exits : inject zlib heap elfDigest fuel pair.selfFile pair.elfFile = some fin) :
    pair.selfFile.word 0 = SCE_MAGIC ∧
      (ehdrAt pair.selfFile pair.elfOffset).phnum = pair.ehdr.phnum ∧
      ∃ header, pair.writtenHeader zlib heap elfDigest fuel = some header ∧
        fin = (pair.writes zlib heap header).foldl File.put File.empty := by
  simp only [inject] at exits
  split at exits
  next => cases exits
  next magic =>
    split at exits
    next => cases exits
    next same =>
      obtain ⟨header, ended, rfl⟩ := Option.map_eq_some_iff.mp exits
      refine ⟨by simpa using fun wrong => magic (.inl wrong), (not_not.mp same).symm, header,
        ended, ?_⟩
      have written := congrArg Injection.fout (@segmentsDone_eq pair zlib undoes heap)
      rw [writes, List.foldl_append, ← writeHeaders_eq]
      exact congrArg (writeHeaders header pair.elfFile) written

def Spares (kept : Nat → Prop) (elfDigest : Memory) : Nat → Memory → Nat → Prop
  | 0, _, _ => True
  | fuel + 1, m, info =>
      m.dword (info + 8) ≠ 0 →
        (∀ a, kept a → injectInfo elfDigest m info a = m a) ∧
          Spares kept elfDigest fuel (injectInfo elfDigest m info)
            (info + ((injectInfo elfDigest m info).word (info + 4)).toNat)

theorem controlLoop_spares {kept : Nat → Prop} {elfDigest : Memory} {fuel : Nat}
    {m result : Memory} {info : Nat} (spares : Spares kept elfDigest fuel m info)
    (ended : controlLoop elfDigest fuel m info = some result) {a : Nat} (own : kept a) :
    result a = m a := by
  induction fuel generalizing m info with
  | zero => cases ended
  | succ fuel ih =>
      rw [controlLoop] at ended
      split at ended
      next =>
        cases ended
        rfl
      next more =>
        obtain ⟨same, later⟩ := spares more
        exact (ih later ended).trans (same a own)

theorem injectInfo_below (elfDigest m : Memory) {info a : Nat} (below : a < info + 16) :
    injectInfo elfDigest m info a = m a := by
  rw [injectInfo]
  split
  next => exact Memory.copy_outside _ _ _ _ a (by omega)
  next =>
    split
    next => exact Memory.copy_outside _ _ _ _ a (by omega)
    next => rfl

theorem spares_below (elfDigest : Memory) (fuel : Nat) (m : Memory) (info : Nat) :
    Spares (· < info + 16) elfDigest fuel m info := by
  suffices every : ∀ limit, limit ≤ info + 16 → Spares (· < limit) elfDigest fuel m info from
    every _ (le_refl _)
  induction fuel generalizing m info with
  | zero => exact fun _ _ => trivial
  | succ fuel ih =>
      intro limit low more
      exact ⟨fun a below => injectInfo_below elfDigest m (by omega), ih _ _ limit (by omega)⟩

theorem sceHeader_front {m n : Memory} (same : ∀ a < 96, m a = n a) :
    (sceHeader m).headerLen = (sceHeader n).headerLen ∧
      (sceHeader m).elfOffset = (sceHeader n).elfOffset ∧
      (sceHeader m).phdrOffset = (sceHeader n).phdrOffset ∧
      (sceHeader m).sectionInfoOffset = (sceHeader n).sectionInfoOffset := by
  have field : ∀ at8 ≤ 88, m.dword at8 = n.dword at8 := fun at8 small =>
    Memory.dword_congr fun a _ high => same a (by omega)
  exact ⟨field 16 (by decide), field 64 (by decide), field 72 (by decide), field 88 (by decide)⟩

theorem msb_small {word : BitVec 64} (small : word.toNat < 2 ^ 63) : word.msb = false := by
  rw [BitVec.msb_eq_decide]
  simpa using small

theorem phdrs_place (range : pair.headerLen + pair.phoff < 2 ^ 63) :
    (pair.shdr.headerLen + pair.ehdr.phoff.setWidth 64).toNat = pair.headerLen + pair.phoff := by
  have wide : (pair.ehdr.phoff.setWidth 64).toNat = pair.phoff := by
    rw [BitVec.toNat_setWidth]
    exact Nat.mod_eq_of_lt (pair.ehdr.phoff.isLt.trans (by decide))
  rw [BitVec.toNat_add, wide]
  exact Nat.mod_eq_of_lt (range.trans (by decide))

variable (pair) in
def tableSize : Nat := pair.ehdr.phnum.toNat * pair.ehdr.phentsize.toNat

theorem headerWrites_get? {header : Memory} (front : ∀ a < 96, header a = pair.selfFile a)
    (range : pair.headerLen + pair.phoff < 2 ^ 63) (fout : File) :
    let fin := (headerWrites header pair.elfFile).foldl File.put fout
    (∀ a < pair.headerLen, fin.get? a = some (header a)) ∧
    (52 ≤ pair.phoff →
      (∀ x < 52, fin.get? (pair.headerLen + x) = some (header (pair.elfOffset + x)))) ∧
    (∀ x < pair.tableSize,
      fin.get? (pair.headerLen + pair.phoff + x) = some (header (pair.phdrOffset + x))) ∧
    ∀ a, pair.headerLen + 52 ≤ a → a < pair.headerLen + pair.phoff ∨
      pair.headerLen + pair.phoff + pair.tableSize ≤ a →
        fin.bytes a = fout.bytes a ∧ ∀ byte, fout.get? a = some byte → fin.get? a = some byte := by
  obtain ⟨headerLen, elfOffset, phdrOffset, -⟩ := sceHeader_front front
  have place := phdrs_place range
  have positive : (pair.shdr.headerLen + pair.ehdr.phoff.setWidth 64).msb = false :=
    msb_small (place ▸ range)
  have headerPositive : pair.shdr.headerLen.msb = false :=
    msb_small ((Nat.le_add_right _ _).trans_lt range)
  have shape : (headerWrites header pair.elfFile).foldl File.put fout =
      ((((((fout.seek 0).write pair.headerLen header).seek pair.shdr.headerLen).write 52
        fun k => header (pair.elfOffset + k)).seek
          (pair.shdr.headerLen + pair.ehdr.phoff.setWidth 64)).write pair.tableSize
            fun k => header (pair.phdrOffset + k)) := by
    simp only [headerWrites, headerLen, elfOffset, phdrOffset]
    rfl
  have length : pair.shdr.headerLen.toNat = pair.headerLen := rfl
  have zero : (0 : BitVec 64).toNat = 0 := rfl
  intro fin
  rw [show fin = _ from shape]
  refine ⟨fun a inside => ?_, fun gap x inside => ?_, fun x inside => ?_,
    fun a behind clear => ⟨?_, fun byte found => ?_⟩⟩
  · exact File.get?_write_outside (by omega) positive
      (File.get?_write_outside (by omega) headerPositive
        (File.get?_write_at (by omega) inside rfl))
  · exact File.get?_write_outside (by omega) positive
      (File.get?_write_at (k := x) (by omega) inside headerPositive)
  · exact File.get?_write_at (k := x) (by omega) inside positive
  · rw [File.seek_write_bytes_outside (by omega) positive,
      File.seek_write_bytes_outside (by omega) headerPositive,
      File.seek_write_bytes_outside (by omega) rfl]
  · exact File.get?_write_outside (by omega) positive
      (File.get?_write_outside (by omega) headerPositive
        (File.get?_write_outside (by omega) rfl found))

end Headers

end Pair

end VitaTools.Self
