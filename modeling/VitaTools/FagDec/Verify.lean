import VitaTools.FagDec.RebuildRuns
import VitaTools.Self.ControlInfo
import VitaTools.Sha256.Digest

set_option autoImplicit false

namespace VitaTools.FagDec

open VitaTools.Library VitaTools.Self

-- What the calls find: the results of `malloc`, and what the buffers on the stack hold.
structure Surroundings where
  malloc : BitVec 32 → Option Memory
  context : Memory
  elfDigest : Memory
  origElfDigest : Memory

-- `dumpVerifyElf` for a file that can be opened and read.
def dumpVerifyElf (around : Surroundings) (file : File) (origElfDigest : Memory) : Bool :=
  let sz := BitVec.ofNat 32 file.size
  match around.malloc sz with
  | none => false
  | some heap =>
      let elf : Memory := fun k => if k < sz.toNat ∧ k < file.size then file.bytes k else heap k
      let elfDigest := Sha256.sha256Vector around.context [⟨elf, sz.setWidth 64⟩] around.elfDigest
      decide (origElfDigest.slice 0 0x20 = elfDigest.slice 0 0x20)

-- The headers written over the ELF, and the control infos read. Without `fuel` left the loop over
-- them has not ended.
def finish (around : Surroundings) (fuel : Nat) (s : Rebuild) : Option (File × Stripping) :=
  let shdr := sceHeader s.currentSelf
  let ehdr := shdr.elfOffset.toNat
  let cleared := s.currentSelf.copy (ehdr + 48) 2 fun _ => 0
  let currentSelf := cleared.storeWord (ehdr + 32) 0
  let elf := Rebuild.writeFileSeek s.currentElf (fun k => currentSelf (ehdr + k)) 0 52
  let fields := ehdrAt currentSelf ehdr
  let elf := Rebuild.writeFileSeek elf (fun k => currentSelf (shdr.phdrOffset.toNat + k))
    fields.phoff (fields.phentsize.setWidth 32 * fields.phnum.setWidth 32)
  (stripLoop fuel ⟨currentSelf, around.origElfDigest⟩ shdr.controlinfoOffset.toNat).map
    fun stripping => (elf, stripping)

def verified (around : Surroundings) (fuel : Nat) (s : Rebuild) : Option Bool :=
  (finish around fuel s).map fun done => dumpVerifyElf around done.1 done.2.origElfDigest

theorem dumpVerifyElf_iff {around : Surroundings} {file : File} (small : file.size < 2 ^ 32)
    {heap : Memory} (allocated : around.malloc (BitVec.ofNat 32 file.size) = some heap)
    (origElfDigest : Memory) :
    dumpVerifyElf around file origElfDigest = true ↔
      origElfDigest.slice 0 0x20 = Sha256.Standard.digest (file.bytes.slice 0 file.size) := by
  have counted : (BitVec.ofNat 32 file.size).toNat = file.size := by
    rw [BitVec.toNat_ofNat, Nat.mod_eq_of_lt small]
  have hashed (elf : Memory) (same : ∀ k < file.size, elf k = file.bytes k) :
      [(⟨elf, (BitVec.ofNat 32 file.size).setWidth 64⟩ : Sha256.Element)].flatMap
        Sha256.Element.bytes = file.bytes.slice 0 file.size := by
    have length : ((BitVec.ofNat 32 file.size).setWidth 64).setWidth 32 =
        BitVec.ofNat 32 file.size := by simp
    rw [List.flatMap_singleton, Sha256.Element.bytes, length, counted]
    exact Memory.slice_congr fun k inside => by rw [Nat.zero_add]; exact same k inside
  rw [dumpVerifyElf, allocated]
  dsimp only
  rw [decide_eq_true_iff, Sha256.vector_digest, hashed]
  intro k inside
  rw [counted, if_pos ⟨inside, inside⟩]

namespace Rebuild

section Assembled

variable {unpacker : Unpacker} {dumpSelf : Bool} {content : Nat → List Byte} {header : Memory}

variable (unpacker content header) in
/-- The segments that were taken stand in the ELF, and no byte outside of the segments is set. -/
structure Assembled (begun s : Rebuild) : Prop where
  reading : Reading content header s
  order : InOrder header s
  stands : ∀ i ∈ begun.coming, i ∉ s.coming → s.segs i = none →
    Stands unpacker content header i s.currentElf
  blank : ∀ a, (∀ i < segmentCount header,
    a < place header i ∨ place header i + size header i ≤ a) → s.currentElf.bytes a = 0
  short : ∀ bound, (∀ i < segmentCount header, place header i + size header i ≤ bound) →
    s.currentElf.size ≤ bound

theorem size_le_of_get? {elf later : File} {bound start : Nat} (short : elf.size ≤ bound)
    (low : start ≤ bound) (behind : ∀ a, start ≤ a → later.get? a = elf.get? a) :
    later.size ≤ bound := by
  by_contra long
  have same := behind bound low
  rw [File.get?, File.get?, if_pos (by omega), if_neg (by omega)] at same
  cases same

theorem Assembled.step (laid : Laid header) {begun s t : Rebuild}
    (within : ∀ i ∈ begun.coming, i < segmentCount header)
    (assembled : Assembled unpacker content header begun s) {action : Action}
    (stepped : Rebuild.step unpacker dumpSelf content s action = some t) :
    Assembled unpacker content header begun t := by
  have reading := assembled.reading.step laid stepped
  have order := assembled.order.step laid assembled.reading stepped
  cases action with
  | segmentDone =>
      rw [Rebuild.step] at stepped
      split at stepped
      next => cases stepped
      next k coming list =>
        cases stepped
        refine ⟨reading, order, ?_, assembled.blank, assembled.short⟩
        intro i member handed gone
        dsimp only at handed gone
        by_cases own : i = k
        next =>
          rw [own, Function.update_self] at gone
          cases gone
        next =>
          rw [Function.update_of_ne own] at gone
          refine assembled.stands i member ?_ gone
          rw [list, List.mem_cons]
          rintro (same | rest)
          · exact own same
          · exact handed rest
  | decompress =>
      cases stepped
      rcases threadStep_cases laid assembled.reading with
        ⟨visit, next, -⟩ |
        ⟨p, -, inside, -, -, currentElf, currentFile, currentSelf, next, -, touches, stands⟩ |
        ⟨p, -, inside, there, -, currentElf, next, touches⟩
      · rw [next] at reading order ⊢
        exact ⟨reading, order, assembled.stands, assembled.blank, assembled.short⟩
      · rw [next] at reading order ⊢
        refine ⟨reading, order, ?_, ?_, ?_⟩
        · intro i member handed gone
          dsimp only at gone
          by_cases own : i = p.i
          next =>
            rw [own]
            exact stands
          next =>
            rw [Function.update_of_ne own] at gone
            exact touches.stands laid (Ne.symm own) (within i member) inside
              (assembled.stands i member handed gone)
        · intro a outside
          rcases touches.blank a (outside p.i inside) with kept | cleared
          · exact kept.trans (assembled.blank a outside)
          · exact cleared
        · exact fun bound ends =>
            size_le_of_get? (assembled.short bound ends) (ends p.i inside) touches.behind
      · rw [next] at reading order ⊢
        refine ⟨reading, order, ?_, ?_, ?_⟩
        · intro i member handed gone
          have other : p.i ≠ i := by
            intro own
            rw [own] at there
            cases gone.symm.trans there
          exact touches.stands laid other (within i member) inside
            (assembled.stands i member handed gone)
        · intro a outside
          rcases touches.blank a (outside p.i inside) with kept | cleared
          · exact kept.trans (assembled.blank a outside)
          · exact cleared
        · exact fun bound ends =>
            size_le_of_get? (assembled.short bound ends) (ends p.i inside) touches.behind

theorem Started.assembled (laid : Laid header) {begun s : Rebuild}
    (started : Started header begun) (empty : begun.currentElf = File.empty)
    (reached : (rebuild unpacker dumpSelf content).Reachable (fun _ _ => True) begun s) :
    Assembled unpacker content header begun s := by
  refine reached.invariant (Assembled unpacker content header begun) ?_
    fun _ _ _ assembled _ stepped => assembled.step laid started.inside stepped
  obtain ⟨reading, order⟩ : Reading content header begun ∧ InOrder header begun :=
    started.reach laid (.start : (rebuild unpacker dumpSelf content).Reachable _ begun begun)
  refine ⟨reading, order, fun i member handed _ => absurd member handed, ?_, ?_⟩
  · intro a _
    rw [empty]
    rfl
  · intro bound _
    rw [empty]
    exact Nat.zero_le _

end Assembled

end Rebuild

open Rebuild

section Verified

variable {unpacker : Unpacker} {dumpSelf : Bool} {content : Nat → List Byte} {header : Memory}

-- `e_shnum` and `e_shoff` cleared.
def clearSectionCount (m : Memory) (ehdr : Nat) : Memory :=
  (m.copy (ehdr + 48) 2 fun _ => 0).storeWord (ehdr + 32) 0

-- `e_phoff`.
def tableStart (header : Memory) : Nat := (ehdrAt header (ehdrOf header)).phoff.toNat

def InPart (header : Memory) (a : Nat) : Prop :=
  a < 52 ∨ (tableStart header ≤ a ∧ a < tableStart header + 32 * segmentCount header) ∨
    ∃ i < segmentCount header, place header i ≤ a ∧ a < place header i + size header i

variable (unpacker content header) in
/-- The SELF was made from this ELF, which has no sections and ends with its last part. -/
structure MadeFrom (original : File) : Prop where
  ehdr : ∀ k < 52, clearSectionCount header (ehdrOf header) (ehdrOf header + k) = original.bytes k
  phentsize : (ehdrAt header (ehdrOf header)).phentsize = 32
  phdrs : ∀ k < 32 * segmentCount header,
    header (phdrsOf header + k) = original.bytes (tableStart header + k)
  segments : ∀ i < segmentCount header, ∀ k < size header i,
    data unpacker content header i k = original.bytes (place header i + k)
  rest : ∀ a < original.size, ¬ InPart header a → original.bytes a = 0
  inside : 52 ≤ original.size ∧ tableStart header + 32 * segmentCount header ≤ original.size ∧
    ∀ i < segmentCount header, place header i + size header i ≤ original.size
  ends : InPart header (original.size - 1)
  small : original.size < 2 ^ 32

/-- Where the control infos lie, and the digest they hold. -/
structure Recorded (header : Memory) (digest : List Byte) : Prop where
  ehdr_apart : 128 ≤ ehdrOf header
  phdrs_apart : ehdrOf header + 52 ≤ phdrsOf header ∨
    phdrsOf header + 32 * segmentCount header ≤ ehdrOf header
  infos_behind : ehdrOf header + 52 ≤ (sceHeader header).controlinfoOffset.toNat ∧
    sinfoOf header + 32 * segmentCount header ≤ (sceHeader header).controlinfoOffset.toNat
  found : ∃ records last r, Rewriting.Chain (· % 2 ^ 32) header
      (sceHeader header).controlinfoOffset.toNat records last ∧
    Rewriting.Inside header records last 0x1000 ∧
    (∀ r ∈ records, (header.word r = 4 → 80 ≤ Rewriting.sizeAt header r) ∧
      (header.word r = 5 → 0x110 ≤ Rewriting.sizeAt header r)) ∧
    digestRecord header records = some r ∧ header.slice (r + 36) 0x20 = digest

theorem clearSectionCount_outside (m : Memory) {ehdr a : Nat}
    (outside : a < ehdr + 32 ∨ (ehdr + 36 ≤ a ∧ a < ehdr + 48) ∨ ehdr + 50 ≤ a) :
    clearSectionCount m ehdr a = m a := by
  rw [clearSectionCount, Memory.storeWord_outside _ _ _ a (by omega), Memory.copy,
    if_neg (by omega)]

theorem clearSectionCount_congr {m n : Memory} {ehdr a : Nat} (same : m a = n a) :
    clearSectionCount m ehdr a = clearSectionCount n ehdr a := by
  simp only [clearSectionCount, Memory.storeWord, Memory.copy, same]

theorem ehdrAt_clearSectionCount (m : Memory) (ehdr : Nat) :
    ehdrAt (clearSectionCount m ehdr) ehdr = ehdrAt m ehdr := by
  have phoff : (clearSectionCount m ehdr).word (ehdr + 28) = m.word (ehdr + 28) :=
    Memory.word_congr fun a low high => clearSectionCount_outside m (by omega)
  have half : ∀ field, 36 ≤ field → field < 47 →
      (clearSectionCount m ehdr).half (ehdr + field) = m.half (ehdr + field) :=
    fun field low high => Memory.half_congr (clearSectionCount_outside m (by omega))
      (clearSectionCount_outside m (by omega))
  simp only [ehdrAt, phoff, half 40 (by decide) (by decide), half 42 (by decide) (by decide),
    half 44 (by decide) (by decide)]

theorem writeFileSeek_size (file : File) (source : Memory) (seek size : BitVec 32) :
    (writeFileSeek file source seek size).size =
      if size.toNat = 0 then file.size else max file.size (seek.toNat + size.toNat) := by
  obtain ⟨range, same⟩ := wide_place seek
  have moved : file.seek (seek.setWidth 64) = { file with pos := seek.toNat } := by
    rw [File.seek, if_neg (by rw [range]; exact Bool.false_ne_true), same]
  rw [writeFileSeek, moved]
  rfl

theorem bytes_of_get? {file : File} {a : Nat} {byte : Byte} (found : file.get? a = some byte) :
    a < file.size ∧ file.bytes a = byte := by
  rw [File.get?] at found
  split at found
  next inside => exact ⟨inside, Option.some.inj found⟩
  next => cases found

def withHeaders (s : Rebuild) : File :=
  let shdr := sceHeader s.currentSelf
  let currentSelf := clearSectionCount s.currentSelf shdr.elfOffset.toNat
  let fields := ehdrAt currentSelf shdr.elfOffset.toNat
  writeFileSeek (writeFileSeek s.currentElf (fun k => currentSelf (shdr.elfOffset.toNat + k)) 0 52)
    (fun k => currentSelf (shdr.phdrOffset.toNat + k)) fields.phoff
    (fields.phentsize.setWidth 32 * fields.phnum.setWidth 32)

theorem finish_eq (around : Surroundings) (fuel : Nat) (s : Rebuild) :
    finish around fuel s = (stripLoop fuel
      ⟨clearSectionCount s.currentSelf (sceHeader s.currentSelf).elfOffset.toNat,
        around.origElfDigest⟩ (sceHeader s.currentSelf).controlinfoOffset.toNat).map
      fun stripping => (withHeaders s, stripping) := rfl

theorem withHeaders_original (laid : Laid header) {original : File} {digest : List Byte}
    (made : MadeFrom unpacker content header original) (recorded : Recorded header digest)
    {begun s : Rebuild} (all : begun.coming = List.range (segmentCount header))
    (assembled : Assembled unpacker content header begun s) (none_coming : s.coming = [])
    (none_there : ∀ i, s.segs i = none) :
    (withHeaders s).size = original.size ∧
      ∀ a < original.size, (withHeaders s).bytes a = original.bytes a := by
  have marked := assembled.reading.marked
  have scesame := marked.sceHeader_eq laid
  have stands (i : Nat) (inside : i < segmentCount header) :
      Stands unpacker content header i s.currentElf :=
    assembled.stands i (by rw [all]; exact List.mem_range.mpr inside)
      (by rw [none_coming]; exact List.not_mem_nil) (none_there i)
  have fields : ehdrAt (clearSectionCount s.currentSelf (ehdrOf header)) (ehdrOf header) =
      ehdrAt header (ehdrOf header) := by
    rw [ehdrAt_clearSectionCount, marked.ehdr_eq laid]
  have counted : ((ehdrAt header (ehdrOf header)).phentsize.setWidth 32 *
      (ehdrAt header (ehdrOf header)).phnum.setWidth 32 : BitVec 32).toNat =
        32 * segmentCount header := by
    have small := (ehdrAt header (ehdrOf header)).phnum.isLt
    rw [made.phentsize, BitVec.toNat_mul, BitVec.toNat_setWidth_of_le (by decide),
      BitVec.toNat_setWidth_of_le (by decide)]
    exact Nat.mod_eq_of_lt (by rw [show (32 : BitVec 16).toNat = 32 from rfl]; omega)
  have whole : withHeaders s = writeFileSeek
      (writeFileSeek s.currentElf
        (fun k => clearSectionCount s.currentSelf (ehdrOf header) (ehdrOf header + k)) 0 52)
      (fun k => clearSectionCount s.currentSelf (ehdrOf header) (phdrsOf header + k))
      (ehdrAt header (ehdrOf header)).phoff ((ehdrAt header (ehdrOf header)).phentsize.setWidth 32 *
        (ehdrAt header (ehdrOf header)).phnum.setWidth 32) := by
    rw [withHeaders, scesame]
    rw [show (sceHeader header).elfOffset.toNat = ehdrOf header from rfl, fields]
    rfl
  have start : (ehdrAt header (ehdrOf header)).phoff.toNat = tableStart header := rfl
  have ehdr (k : Nat) (small : k < 52) :
      clearSectionCount s.currentSelf (ehdrOf header) (ehdrOf header + k) = original.bytes k := by
    have apart := laid.marks_ehdr
    rw [← made.ehdr k small]
    exact clearSectionCount_congr (marked _ (by omega))
  have phdrs (k : Nat) (small : k < 32 * segmentCount header) :
      clearSectionCount s.currentSelf (ehdrOf header) (phdrsOf header + k) =
        original.bytes (tableStart header + k) := by
    have apart := laid.marks_phdrs
    have clear := recorded.phdrs_apart
    rw [clearSectionCount_outside _ (by omega), ← made.phdrs k small]
    exact marked _ (by omega)
  obtain ⟨head_inside, table_inside, segments_inside⟩ := made.inside
  rw [whole]
  constructor
  · have short := assembled.short _ segments_inside
    have last : 52 ≤ original.size - 1 → original.size - 1 < s.currentElf.size ∨
        0 < segmentCount header ∧
          original.size ≤ tableStart header + 32 * segmentCount header := by
      intro high
      rcases made.ends with low | table | ⟨i, inside, low, high⟩
      · omega
      · exact .inr ⟨by omega, by omega⟩
      · obtain ⟨k, place⟩ := Nat.exists_eq_add_of_le low
        have stood := stands i inside k (by omega)
        rw [← place] at stood
        exact .inl (bytes_of_get? stood).1
    have width : (52 : BitVec 32).toNat = 52 := rfl
    have zero : (0 : BitVec 32).toNat = 0 := rfl
    rw [writeFileSeek_size, writeFileSeek_size, counted, start, width, zero]
    simp only [show ¬ 52 = 0 by decide, if_false]
    split <;> omega
  · intro a inside
    have width : (52 : BitVec 32).toNat = 52 := rfl
    have zero : (0 : BitVec 32).toNat = 0 := rfl
    rw [writeFileSeek_bytes, writeFileSeek_bytes, counted, start, width, zero]
    by_cases table : tableStart header ≤ a ∧ a < tableStart header + 32 * segmentCount header
    next =>
      rw [if_pos table, phdrs _ (by omega), Nat.add_sub_cancel' table.1]
    next =>
      rw [if_neg table]
      by_cases head : a < 52
      next =>
        rw [if_pos (by omega), Nat.sub_zero, ehdr a head]
      next =>
        rw [if_neg (by omega)]
        by_cases segment : ∃ i < segmentCount header,
            place header i ≤ a ∧ a < place header i + size header i
        next =>
          obtain ⟨i, within, low, high⟩ := segment
          obtain ⟨k, rfl⟩ := Nat.exists_eq_add_of_le low
          rw [(bytes_of_get? (stands i within k (by omega))).2]
          exact made.segments i within k (by omega)
        next =>
          have outside : ¬ InPart header a := by
            rintro (low | mid | high)
            · exact head low
            · exact table mid
            · exact segment high
          rw [made.rest a inside outside]
          refine assembled.blank a fun i within => ?_
          by_contra meets
          exact segment ⟨i, within, by omega⟩

theorem stripLoop_digest {digest : List Byte} (recorded : Recorded header digest) {m : Memory}
    (marked : Marked header m) (origElfDigest : Memory) :
    let start : Stripping := ⟨clearSectionCount m (ehdrOf header), origElfDigest⟩
    let info := (sceHeader header).controlinfoOffset.toNat
    (∃ fuel fin, stripLoop fuel start info = some fin) ∧
      ∀ fuel fin, stripLoop fuel start info = some fin →
        fin.origElfDigest.slice 0 0x20 = digest := by
  intro start info
  obtain ⟨records, last, r, chain, inside, room, holds, stored⟩ := recorded.found
  obtain ⟨head_low, marks_low⟩ := recorded.infos_behind
  have straight : ∀ a ≤ 0x1000, stripper.address a = a := fun a low => Nat.mod_eq_of_lt (by omega)
  have fits : ∀ r ∈ records, stripper.Fits header r := fun r member =>
    (@storedAt_fits 76 4 (fun _ => 0) _ _ (by decide)).mpr (room r member)
  have same : ∀ b, info ≤ b → start.header b = header b := by
    intro b low
    have behind : (sceHeader header).controlinfoOffset.toNat ≤ b := low
    show clearSectionCount m (ehdrOf header) b = header b
    rw [clearSectionCount_outside _ (by omega)]
    exact marked b (by omega)
  have gives := Rewriting.run_gives (s := start) straight chain inside.ends fits same
  constructor
  next =>
    refine ⟨records.length + 1, records.foldl stripInfo start, ?_⟩
    exact (stripLoop_eq_run _ _ _).trans
      (congrArg (Option.map Prod.fst) ((gives _).some (Nat.lt_succ_self _)))
  next =>
    intro fuel fin ran
    rw [stripLoop_eq_run] at ran
    obtain ⟨both, has, rfl⟩ := Option.map_eq_some_iff.mp ran
    rw [(gives fuel).only both has, ← stored]
    refine Memory.slice_congr fun k small => ?_
    have read := fold_digest (s := start) straight chain inside.ends fits same small
    rw [holds] at read
    rw [Nat.zero_add]
    exact read

end Verified

def twoOriginal : File := ⟨Pair.sampleHeaders (fun _ => 0) 0 52 32, 192, 0⟩

theorem digest_length (message : List Byte) : (Sha256.Standard.digest message).length = 32 := by
  simp [Sha256.Standard.digest, Sha256.Words.toList, Sha256.Standard.bigEndian]

noncomputable def recordedHeaders : Memory :=
  ((((twoHeaders.storeWord 312 4).storeWord 316 80).storeWord 320 1).copy 348 32
    fun k => (Sha256.Standard.digest (twoOriginal.bytes.slice 0 192)).getD k 0)

instance (header : Memory) (a : Nat) : Decidable (InPart header a) :=
  inferInstanceAs (Decidable (a < 52 ∨ _ ∨ _))

theorem recordedHeaders_laid : Laid recordedHeaders where
  inside := by decide
  marks_header := by decide
  marks_ehdr := by decide
  marks_phdrs := by decide
  ordered := by
    have count : segmentCount recordedHeaders = 2 := by decide
    intro i inside
    have first : i = 0 := by omega
    subst first
    decide

theorem recordedHeaders_made : MadeFrom zeroUnpacker (fun _ => Pair.zeroStream) recordedHeaders
    twoOriginal where
  ehdr := by decide +kernel
  phentsize := by decide
  phdrs := by decide +kernel
  segments := by decide +kernel
  rest := by decide +kernel
  inside := by decide +kernel
  ends := by decide +kernel
  small := by decide

theorem recordedHeaders_recorded : Recorded recordedHeaders
    (Sha256.Standard.digest (twoOriginal.bytes.slice 0 twoOriginal.size)) where
  ehdr_apart := by decide
  phdrs_apart := by decide
  infos_behind := by decide
  found := by
    have info : (sceHeader recordedHeaders).controlinfoOffset.toNat = 312 := by decide
    rw [info]
    refine ⟨[312], 392, 312, ?_, ⟨?_, ?_⟩, ?_, ?_, ?_⟩
    · refine .next (by decide) ?_
      have next : (312 + Rewriting.sizeAt recordedHeaders 312) % 2 ^ 32 = 392 := by decide
      rw [next]
      exact .last (by decide)
    · decide
    · decide
    · decide
    · decide
    · apply List.ext_getElem
      · rw [Memory.slice_length, digest_length]
      · intro k inside within
        rw [Memory.slice_length] at inside
        simp only [Memory.slice, List.getElem_map, List.getElem_range]
        have stored : recordedHeaders (312 + 36 + k) = (Sha256.Standard.digest
            (twoOriginal.bytes.slice 0 192)).getD (312 + 36 + k - 348) 0 := by
          rw [recordedHeaders, Memory.copy, if_pos (by omega)]
        rw [stored, show 312 + 36 + k - 348 = k by omega]
        exact List.getD_eq_getElem _ 0 within

noncomputable def recordedComing : Rebuild where
  coming := [0, 1]
  segs _ := none
  visit := none
  currentElf := File.empty
  currentFile := File.empty
  currentSelf := recordedHeaders

theorem recordedComing_started : Started recordedHeaders recordedComing where
  ascending := by decide
  inside := by decide
  none_there _ := rfl
  visit := rfl
  currentSelf := rfl

noncomputable def recordedThere : Rebuild :=
  { recordedComing with
    coming := []
    segs := Function.update (Function.update (fun _ => none) 0 (some Pair.zeroStream)) 1
      (some Pair.zeroStream) }

noncomputable def recordedPut : Rebuild :=
  threadStep zeroUnpacker true (threadStep zeroUnpacker true
    (threadStep zeroUnpacker true recordedThere))

theorem recordedPut_reached :
    (rebuild zeroUnpacker true fun _ => Pair.zeroStream).Reachable (fun _ _ => True)
      recordedComing recordedPut := by
  have first : (rebuild zeroUnpacker true fun _ => Pair.zeroStream).Reachable (fun _ _ => True)
      recordedComing { recordedComing with
        coming := [1], segs := Function.update (fun _ => none) 0 (some Pair.zeroStream) } :=
    Transitions.Reachable.start.next Action.segmentDone trivial rfl
  have both : (rebuild zeroUnpacker true fun _ => Pair.zeroStream).Reachable (fun _ _ => True)
      recordedComing recordedThere :=
    first.next Action.segmentDone trivial rfl
  exact ((both.next .decompress trivial rfl).next .decompress trivial rfl).next .decompress
    trivial rfl

theorem recordedPut_segs : recordedPut.coming = [] ∧ ∀ i, recordedPut.segs i = none := by
  have coming : recordedPut.coming = [] := by rfl
  have segs : recordedPut.segs =
    Function.update (Function.update recordedThere.segs 0 none) 1 none := by rfl
  refine ⟨coming, fun i => ?_⟩
  rw [segs, recordedThere]
  by_cases second : i = 1
  next => rw [second, Function.update_self]
  next =>
    rw [Function.update_of_ne second]
    by_cases first : i = 0
    next => rw [first, Function.update_self]
    next =>
      rw [Function.update_of_ne first]
      dsimp only
      rw [Function.update_of_ne second, Function.update_of_ne first]

def roomy : Surroundings := ⟨fun _ => some fun _ => 0, fun _ => 0, fun _ => 0, fun _ => 0⟩

end VitaTools.FagDec
