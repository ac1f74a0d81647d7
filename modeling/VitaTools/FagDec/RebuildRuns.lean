import VitaTools.FagDec.Rebuild
import VitaTools.Self.RoundTrip

set_option autoImplicit false

namespace VitaTools.FagDec

open VitaTools.Library VitaTools.Self

namespace Rebuild

section Headers

variable (header : Memory)

def ehdrOf : Nat := (sceHeader header).elfOffset.toNat

def phdrsOf : Nat := (sceHeader header).phdrOffset.toNat

def sinfoOf : Nat := (sceHeader header).sectionInfoOffset.toNat

def segmentCount : Nat := (ehdrAt header (ehdrOf header)).phnum.toNat

def place (i : Nat) : Nat := (phdrAt header (phdrsOf header) i).pOffset.toNat

def size (i : Nat) : Nat := (phdrAt header (phdrsOf header) i).pFilesz.toNat

def lower (i : Nat) : Nat :=
  if i = 0 then place header 0 else place header (i - 1) + size header (i - 1)

/-- The headers lie in the `HEADER_LEN` bytes that are read and apart from the section infos, and
the segments stand in the ELF in their order. -/
structure Laid : Prop where
  inside : ehdrOf header + 52 ≤ 0x1000 ∧ phdrsOf header + 32 * segmentCount header ≤ 0x1000 ∧
    sinfoOf header + 32 * segmentCount header ≤ 0x1000
  marks_header : 128 ≤ sinfoOf header
  marks_ehdr : ehdrOf header + 52 ≤ sinfoOf header ∨
    sinfoOf header + 32 * segmentCount header ≤ ehdrOf header
  marks_phdrs : phdrsOf header + 32 * segmentCount header ≤ sinfoOf header ∨
    sinfoOf header + 32 * segmentCount header ≤ phdrsOf header
  ordered : ∀ i, i + 1 < segmentCount header →
    place header i + size header i ≤ place header (i + 1)

def Marked (m : Memory) : Prop :=
  ∀ a, a < sinfoOf header ∨ sinfoOf header + 32 * segmentCount header ≤ a → m a = header a

variable {header} (laid : Laid header)
include laid

theorem Laid.ends {i j : Nat} (less : i < j) (inside : j < segmentCount header) :
    place header i + size header i ≤ lower header j := by
  obtain ⟨k, rfl⟩ := Nat.exists_eq_add_of_lt less
  induction k with
  | zero => exact le_of_eq (by rw [lower, if_neg (by omega), Nat.add_zero, Nat.add_sub_cancel])
  | succ k ih =>
      have before := ih (by omega) (by omega)
      have next := laid.ordered (i + k) (by omega)
      have last : lower header (i + (k + 1) + 1) =
          place header (i + k + 1) + size header (i + k + 1) := by
        rw [lower, if_neg (by omega)]
        rfl
      have first : lower header (i + k + 1) = place header (i + k) + size header (i + k) := by
        rw [lower, if_neg (by omega)]
        rfl
      omega

theorem Laid.lower_le {i : Nat} (inside : i < segmentCount header) :
    lower header i ≤ place header i := by
  rw [lower]
  split
  next first => rw [first]
  next later =>
    have next := laid.ordered (i - 1) (by omega)
    rwa [Nat.sub_add_cancel (by omega)] at next

theorem Marked.sceHeader_eq {m : Memory} (marked : Marked header m) :
    sceHeader m = sceHeader header := by
  have low := laid.marks_header
  exact sceHeader_congr fun a small => marked a (by omega)

theorem Marked.ehdr_eq {m : Memory} (marked : Marked header m) :
    ehdrAt m (ehdrOf header) = ehdrAt header (ehdrOf header) := by
  have apart := laid.marks_ehdr
  exact ehdrAt_congr fun k small => marked _ (by omega)

theorem Marked.phdr_eq {m : Memory} (marked : Marked header m) {i : Nat}
    (inside : i < segmentCount header) :
    phdrAt m (phdrsOf header) i = phdrAt header (phdrsOf header) i := by
  have apart := laid.marks_phdrs
  exact phdrAt_congr fun k low high => marked _ (by omega)

omit laid in
theorem Marked.mark {m : Memory} (marked : Marked header m) {i : Nat}
    (inside : i < segmentCount header) :
    Marked header (m.storeDword (sinfoOf header + 32 * i + 24) 2) := by
  intro a outside
  rw [Memory.storeDword_outside _ _ _ a (by omega), marked a outside]

end Headers

section Segment

variable (unpacker : Unpacker) (dumpSelf : Bool) (content : Nat → List Byte) (header : Memory)

/-- What is written for segment `i`. -/
def data (i : Nat) : Memory :=
  match unpack unpacker i (content i) (size header i) with
  | some dest => dest.1
  | none => fun _ => 0

/-- The loop goes on behind segment `i`. -/
def Opens (i : Nat) : Prop :=
  size header i = 0 ∨ ∃ dest, unpack unpacker i (content i) (size header i) = some dest ∧
    (dumpSelf = true →
      (unpacker.zlib.compress (dest.1.slice 0 dest.2) (content i).length).isSome = true)

/-- The ELF is written to at most where segment `i` is and where the padding in front of it is. -/
structure Touches (i : Nat) (elf later : File) : Prop where
  outside : ∀ a byte, a < lower header i ∨ place header i + size header i ≤ a →
    elf.get? a = some byte → later.get? a = some byte
  behind : ∀ a, place header i + size header i ≤ a → later.get? a = elf.get? a
  blank : ∀ a, a < place header i ∨ place header i + size header i ≤ a →
    later.bytes a = elf.bytes a ∨ later.bytes a = 0

/-- What segment `i` holds stands in the ELF. -/
def Stands (i : Nat) (elf : File) : Prop :=
  ∀ k < size header i,
    elf.get? (place header i + k) = some (data unpacker content header i k)

structure Reading (s : Rebuild) : Prop where
  marked : Marked header s.currentSelf
  contents : ∀ i file, s.segs i = some file → file = content i
  pass : ∀ p, s.visit = some p → p.ehdr = ehdrOf header ∧ p.phdrs = phdrsOf header

variable {unpacker dumpSelf content header}

theorem Touches.refl (i : Nat) (elf : File) : Touches header i elf elf :=
  ⟨fun _ _ _ found => found, fun _ _ => rfl, fun _ _ => .inl rfl⟩

theorem wide_place (offset : BitVec 32) :
    (offset.setWidth 64).msb = false ∧ (offset.setWidth 64).toNat = offset.toNat := by
  refine ⟨?_, BitVec.toNat_setWidth_of_le (by decide)⟩
  rw [BitVec.msb_eq_false_iff_two_mul_lt, BitVec.toNat_setWidth_of_le (by decide)]
  have small := offset.isLt
  omega

theorem writeFileSeek_bytes (file : File) (source : Memory) (seek size : BitVec 32) (a : Nat) :
    (writeFileSeek file source seek size).bytes a =
      if seek.toNat ≤ a ∧ a < seek.toNat + size.toNat then source (a - seek.toNat)
      else file.bytes a := by
  obtain ⟨range, same⟩ := wide_place seek
  have moved : file.seek (seek.setWidth 64) = { file with pos := seek.toNat } := by
    rw [File.seek, if_neg (by rw [range]; exact Bool.false_ne_true), same]
  rw [writeFileSeek, moved]
  rfl

theorem touches_write {i : Nat} {elf : File} {source : Memory} {offset count : BitVec 32}
    (low : lower header i ≤ offset.toNat)
    (high : offset.toNat + count.toNat ≤ place header i + size header i)
    (own : ∀ k, offset.toNat + k < place header i → source k = 0) :
    Touches header i elf (writeFileSeek elf source offset count) := by
  obtain ⟨range, same⟩ := wide_place offset
  constructor
  case outside =>
    intro a byte outside found
    exact File.get?_write_outside (by omega) range found
  case behind =>
    intro a behind
    exact File.get?_write_behind (by omega) range
  case blank =>
    intro a outside
    rw [writeFileSeek_bytes]
    split
    next => exact .inr (own _ (by omega))
    next => exact .inl rfl

theorem touches_padding (laid : Laid header) {i : Nat} (inside : i < segmentCount header)
    (later : 0 < i) (elf : File) :
    Touches header i elf (padding unpacker elf (phdrAt header (phdrsOf header) (i - 1))
      (phdrAt header (phdrsOf header) i)) := by
  have order := laid.ordered (i - 1) (by omega)
  rw [Nat.sub_add_cancel later] at order
  have start : lower header i = place header (i - 1) + size header (i - 1) := by
    rw [lower, if_neg (by omega)]
  have here := (phdrAt header (phdrsOf header) i).pOffset.isLt
  have ends : ((phdrAt header (phdrsOf header) (i - 1)).pOffset +
      (phdrAt header (phdrsOf header) (i - 1)).pFilesz).toNat =
        place header (i - 1) + size header (i - 1) := by
    rw [BitVec.toNat_add]
    exact Nat.mod_eq_of_lt (lt_of_le_of_lt order here)
  have room : ((phdrAt header (phdrsOf header) i).pOffset -
      ((phdrAt header (phdrsOf header) (i - 1)).pOffset +
        (phdrAt header (phdrsOf header) (i - 1)).pFilesz)).toNat =
      place header i - (place header (i - 1) + size header (i - 1)) := by
    rw [BitVec.toNat_sub_of_le (BitVec.le_def.mpr (by rw [ends]; exact order)), ends]
    rfl
  rw [padding]
  split
  next =>
    apply touches_write
    · rw [ends, start]
    · rw [ends, room]
      omega
    · exact fun _ _ => rfl
  next => exact Touches.refl i elf

theorem own_place {i : Nat} (source : Memory) (k : Nat)
    (front : (phdrAt header (phdrsOf header) i).pOffset.toNat + k < place header i) :
    source k = 0 := by
  rw [place] at front
  omega

theorem stands_write {i : Nat} {elf : File} {dest : Memory × Nat}
    (unpacked : unpack unpacker i (content i) (size header i) = some dest) :
    Stands unpacker content header i (writeFileSeek elf dest.1
      (phdrAt header (phdrsOf header) i).pOffset (phdrAt header (phdrsOf header) i).pFilesz) := by
  intro k small
  obtain ⟨range, same⟩ := wide_place (phdrAt header (phdrsOf header) i).pOffset
  have stored : data unpacker content header i = dest.1 := by rw [data, unpacked]
  rw [stored]
  exact File.get?_write_at (by rw [same]; rfl) small range

theorem Reading.recompress (laid : Laid header) {s t : Rebuild}
    (reading : Reading content header s) {i : Nat} (inside : i < segmentCount header)
    {file : List Byte} {dest : Memory × Nat}
    (done : s.recompress unpacker i file dest = some t) :
    ∃ currentSelf currentFile, t = { s with currentSelf, currentFile } ∧
      Marked header currentSelf := by
  rw [Rebuild.recompress] at done
  obtain ⟨packed, -, rfl⟩ := Option.map_eq_some_iff.mp done
  refine ⟨_, _, rfl, ?_⟩
  rw [reading.marked.sceHeader_eq laid]
  exact reading.marked.mark inside

theorem segmentPass_cases (laid : Laid header) {s : Rebuild} (reading : Reading content header s)
    {i : Nat} (inside : i < segmentCount header) (there : s.segs i = some (content i)) :
    (Opens unpacker dumpSelf content header i ∧ ∃ currentElf currentFile currentSelf,
      segmentPass unpacker dumpSelf (phdrsOf header) s i = ({ s with
        currentElf, currentFile, currentSelf, segs := Function.update s.segs i none }, true) ∧
      Marked header currentSelf ∧ Touches header i s.currentElf currentElf ∧
      Stands unpacker content header i currentElf) ∨
    (¬ Opens unpacker dumpSelf content header i ∧ ∃ currentElf,
      segmentPass unpacker dumpSelf (phdrsOf header) s i = ({ s with currentElf }, false) ∧
      Touches header i s.currentElf currentElf) := by
  have here := reading.marked.phdr_eq laid inside
  have low := laid.lower_le inside
  have filesz : (phdrAt header (phdrsOf header) i).pFilesz.toNat = size header i := rfl
  rw [segmentPass, there]
  dsimp only
  rw [here]
  by_cases empty : (phdrAt header (phdrsOf header) i).pFilesz = 0
  next =>
    have nothing : size header i = 0 := by rw [← filesz, empty]; rfl
    rw [if_pos empty]
    refine .inl ⟨.inl nothing, _, _, _, rfl, reading.marked, ?_, fun k small => by omega⟩
    split
    next later =>
      rw [reading.marked.phdr_eq laid (by omega)]
      exact touches_padding laid inside later _
    next => exact Touches.refl i _
  next =>
    have some_bytes : size header i ≠ 0 := fun nothing =>
      empty (BitVec.eq_of_toNat_eq (filesz.trans nothing))
    rw [if_neg empty, filesz]
    cases unpacked : unpack unpacker i (content i) (size header i) with
    | none =>
        refine .inr ⟨?_, _, rfl, touches_write low (le_refl _) (own_place _)⟩
        rintro (nothing | ⟨dest, opened, -⟩)
        · exact some_bytes nothing
        · rw [unpacked] at opened
          cases opened
    | some dest =>
        dsimp only
        cases packed : (if dumpSelf = true then s.recompress unpacker i (content i) dest
          else some s) with
        | none =>
            refine .inr ⟨?_, _, rfl, Touches.refl i _⟩
            rintro (nothing | ⟨other, opened, fits⟩)
            · exact some_bytes nothing
            · cases unpacked.symm.trans opened
              split at packed
              next self =>
                rw [Rebuild.recompress, Option.map_eq_none_iff] at packed
                have fit := fits self
                rw [packed] at fit
                cases fit
              next => cases packed
        | some t =>
            obtain ⟨currentSelf, currentFile, rfl, marked⟩ : ∃ currentSelf currentFile,
                t = { s with currentSelf, currentFile } ∧ Marked header currentSelf := by
              split at packed
              next => exact reading.recompress laid inside packed
              next =>
                cases packed
                exact ⟨_, _, rfl, reading.marked⟩
            refine .inl ⟨.inr ⟨dest, unpacked, ?_⟩, _, _, _, rfl, marked, ?_, ?_⟩
            · intro self
              rw [if_pos self, Rebuild.recompress] at packed
              obtain ⟨stream, compressed, -⟩ := Option.map_eq_some_iff.mp packed
              rw [compressed]
              rfl
            · dsimp only
              rw [marked.phdr_eq laid inside]
              exact touches_write low (le_refl _) (own_place _)
            · dsimp only
              rw [marked.phdr_eq laid inside]
              exact stands_write unpacked

end Segment

section Runs

variable {unpacker : Unpacker} {dumpSelf : Bool} {content : Nat → List Byte} {header : Memory}

theorem threadStep_cases (laid : Laid header) {s : Rebuild} (reading : Reading content header s) :
    (∃ visit, threadStep unpacker dumpSelf s = { s with visit } ∧
      (∀ p, visit = some p → p.ehdr = ehdrOf header ∧ p.phdrs = phdrsOf header) ∧
      (s.visit = none → ∃ p, visit = some p ∧ p.i = 0) ∧
      ∀ p, s.visit = some p → p.i < segmentCount header →
        s.segs p.i = none ∧ visit = some { p with i := p.i + 1 }) ∨
    (∃ p, s.visit = some p ∧ p.i < segmentCount header ∧ s.segs p.i = some (content p.i) ∧
      Opens unpacker dumpSelf content header p.i ∧ ∃ currentElf currentFile currentSelf,
        threadStep unpacker dumpSelf s = { s with
          currentElf, currentFile, currentSelf, segs := Function.update s.segs p.i none,
          visit := some { p with i := p.i + 1 } } ∧
        Marked header currentSelf ∧ Touches header p.i s.currentElf currentElf ∧
        Stands unpacker content header p.i currentElf) ∨
    (∃ p, s.visit = some p ∧ p.i < segmentCount header ∧ s.segs p.i = some (content p.i) ∧
      ¬ Opens unpacker dumpSelf content header p.i ∧ ∃ currentElf,
        threadStep unpacker dumpSelf s = { s with currentElf, visit := none } ∧
        Touches header p.i s.currentElf currentElf) := by
  rw [threadStep]
  cases visited : s.visit with
  | none =>
      refine .inl ⟨_, rfl, ?_, fun _ => ⟨_, rfl, rfl⟩, fun p other => by cases other⟩
      intro p made
      cases made
      rw [reading.marked.sceHeader_eq laid]
      exact ⟨rfl, rfl⟩
  | some p =>
      obtain ⟨ehdr, phdrs⟩ := reading.pass p visited
      have counted : (ehdrAt s.currentSelf p.ehdr).phnum.toNat = segmentCount header := by
        rw [ehdr, reading.marked.ehdr_eq laid]
        rfl
      dsimp only
      rw [counted, phdrs]
      by_cases inside : p.i < segmentCount header
      next =>
        rw [if_pos inside]
        cases there : s.segs p.i with
        | none =>
            have skipped : segmentPass unpacker dumpSelf (phdrsOf header) s p.i = (s, true) := by
              rw [segmentPass, there]
            refine .inl ⟨some { p with i := p.i + 1 }, ?_, ?_, (fun other => by cases other), ?_⟩
            · rw [skipped, ← phdrs]
              rfl
            · intro q same
              cases same
              exact ⟨ehdr, phdrs⟩
            · intro q same _
              cases same
              exact ⟨there, rfl⟩
        | some file =>
            have own := reading.contents p.i file there
            rw [own] at there
            rcases segmentPass_cases laid reading inside there with
              ⟨opens, currentElf, currentFile, currentSelf, done, marked, touches, stands⟩ |
              ⟨stuck, currentElf, done, touches⟩
            · refine .inr (.inl ⟨p, rfl, inside, own ▸ there, opens, currentElf, currentFile,
                currentSelf, ?_, marked, touches, stands⟩)
              rw [done, ← phdrs]
              rfl
            · refine .inr (.inr ⟨p, rfl, inside, own ▸ there, stuck, currentElf, ?_, touches⟩)
              rw [done]
              rfl
      next =>
        rw [if_neg inside]
        refine .inl ⟨none, rfl, (fun q other => by cases other), (fun other => by cases other), ?_⟩
        intro q same within
        cases same
        exact absurd within inside

theorem Reading.step (laid : Laid header) {s t : Rebuild} (reading : Reading content header s)
    {action : Action} (stepped : Rebuild.step unpacker dumpSelf content s action = some t) :
    Reading content header t := by
  cases action with
  | segmentDone =>
      rw [Rebuild.step] at stepped
      split at stepped
      next => cases stepped
      next i coming _ =>
        cases stepped
        refine ⟨reading.marked, ?_, reading.pass⟩
        intro j file there
        by_cases same : j = i
        next =>
          subst same
          dsimp only at there
          rw [Function.update_self] at there
          exact (Option.some.inj there).symm
        next =>
          dsimp only at there
          rw [Function.update_of_ne same] at there
          exact reading.contents j file there
  | decompress =>
      cases stepped
      have emptied (i : Nat) : ∀ j file, Function.update s.segs i none j = some file →
          file = content j := by
        intro j file there
        by_cases same : j = i
        next =>
          subst same
          rw [Function.update_self] at there
          cases there
        next =>
          rw [Function.update_of_ne same] at there
          exact reading.contents j file there
      rcases threadStep_cases laid reading with
        ⟨visit, next, passes, -⟩ |
        ⟨p, visited, -, -, -, currentElf, currentFile, currentSelf, next, marked, -⟩ |
        ⟨p, visited, -, -, -, currentElf, next, -⟩
      · rw [next]
        exact ⟨reading.marked, reading.contents, passes⟩
      · rw [next]
        refine ⟨marked, emptied p.i, fun q same => ?_⟩
        cases same
        exact reading.pass p visited
      · rw [next]
        exact ⟨reading.marked, reading.contents, fun q other => by cases other⟩

theorem Touches.stands (laid : Laid header) {i j : Nat} (other : j ≠ i)
    (inside : i < segmentCount header) (also_inside : j < segmentCount header)
    {elf later : File} (touches : Touches header j elf later)
    (stands : Stands unpacker content header i elf) : Stands unpacker content header i later := by
  intro k small
  refine touches.outside _ _ ?_ (stands k small)
  rcases Nat.lt_or_gt_of_ne other with before | behind
  · have apart := laid.ends before inside
    have low := laid.lower_le inside
    omega
  · have apart := laid.ends behind also_inside
    omega

variable (unpacker dumpSelf content header)

/-- Segment `i` was handed over, and the pass that is made or comes next gets to it. -/
structure Awaited (i : Nat) (s : Rebuild) : Prop where
  reading : Reading content header s
  there : s.segs i = some (content i)
  opens : ∀ j ≤ i, s.segs j ≠ none → Opens unpacker dumpSelf content header j
  later : ∀ j ∈ s.coming, i < j
  visit : ∀ p, s.visit = some p → p.i ≤ i

/-- Segment `i` has been put into the ELF. -/
structure Delivered (i : Nat) (s : Rebuild) : Prop where
  reading : Reading content header s
  gone : s.segs i = none
  later : ∀ j ∈ s.coming, i < j
  stands : Stands unpacker content header i s.currentElf

/-- The steps of `decompressThread` until segment `i` is in the ELF. -/
def due (i : Nat) (s : Rebuild) : Nat :=
  match s.visit with
  | none => i + 2
  | some p => i + 1 - p.i

variable {unpacker dumpSelf content header}

theorem Delivered.step (laid : Laid header) {i : Nat} (inside : i < segmentCount header)
    {s t : Rebuild} (delivered : Delivered unpacker content header i s) {action : Action}
    (stepped : Rebuild.step unpacker dumpSelf content s action = some t) :
    Delivered unpacker content header i t := by
  have reading := delivered.reading.step laid stepped
  cases action with
  | segmentDone =>
      rw [Rebuild.step] at stepped
      split at stepped
      next => cases stepped
      next j coming list =>
        have more := delivered.later
        rw [list] at more
        have behind := more j List.mem_cons_self
        cases stepped
        refine ⟨reading, ?_, fun k member => more k (List.mem_cons_of_mem _ member),
          delivered.stands⟩
        dsimp only
        rw [Function.update_of_ne (by omega)]
        exact delivered.gone
  | decompress =>
      cases stepped
      rcases threadStep_cases laid delivered.reading with
        ⟨visit, next, -⟩ |
        ⟨p, -, within, there, -, currentElf, currentFile, currentSelf, next, -, touches, -⟩ |
        ⟨p, -, within, there, -, currentElf, next, touches⟩
      · rw [next] at reading ⊢
        exact ⟨reading, delivered.gone, delivered.later, delivered.stands⟩
      · have other : p.i ≠ i := by
          intro same
          rw [same, delivered.gone] at there
          cases there
        rw [next] at reading ⊢
        refine ⟨reading, ?_, delivered.later,
          touches.stands laid other inside within delivered.stands⟩
        dsimp only
        rw [Function.update_of_ne other.symm]
        exact delivered.gone
      · have other : p.i ≠ i := by
          intro same
          rw [same, delivered.gone] at there
          cases there
        rw [next] at reading ⊢
        exact ⟨reading, delivered.gone, delivered.later,
          touches.stands laid other inside within delivered.stands⟩

theorem Awaited.handOver (laid : Laid header) {i : Nat} {s t : Rebuild}
    (awaited : Awaited unpacker dumpSelf content header i s)
    (stepped : Rebuild.step unpacker dumpSelf content s .segmentDone = some t) :
    Awaited unpacker dumpSelf content header i t ∧ due i t = due i s := by
  have reading := awaited.reading.step laid stepped
  rw [Rebuild.step] at stepped
  split at stepped
  next => cases stepped
  next j coming list =>
    have more := awaited.later
    rw [list] at more
    have behind := more j List.mem_cons_self
    cases stepped
    refine ⟨⟨reading, ?_, ?_, fun k member => more k (List.mem_cons_of_mem _ member),
      awaited.visit⟩, rfl⟩
    · dsimp only
      rw [Function.update_of_ne (by omega)]
      exact awaited.there
    · intro k low there
      dsimp only at there
      rw [Function.update_of_ne (by omega)] at there
      exact awaited.opens k low there

theorem Awaited.pass (laid : Laid header) {i : Nat} (inside : i < segmentCount header)
    {s : Rebuild} (awaited : Awaited unpacker dumpSelf content header i s) :
    Delivered unpacker content header i (threadStep unpacker dumpSelf s) ∨
      Awaited unpacker dumpSelf content header i (threadStep unpacker dumpSelf s) ∧
        due i (threadStep unpacker dumpSelf s) + 1 = due i s := by
  have stepped : Rebuild.step unpacker dumpSelf content s .decompress =
    some (threadStep unpacker dumpSelf s) := rfl
  have reading := awaited.reading.step laid stepped
  have before := awaited.visit
  rcases threadStep_cases laid awaited.reading with
    ⟨visit, next, -, wakes, skips⟩ |
    ⟨p, visited, within, there, opens, currentElf, currentFile, currentSelf, next, -, -, stands⟩ |
    ⟨p, visited, within, there, stuck, -⟩
  · rw [next] at reading ⊢
    refine .inr ?_
    cases visited : s.visit with
    | none =>
        obtain ⟨p, rfl, first⟩ := wakes visited
        refine ⟨⟨reading, awaited.there, awaited.opens, awaited.later, fun q same => ?_⟩, ?_⟩
        · cases same
          omega
        · simp only [due, visited, first]
          omega
    | some p =>
        have low := before p visited
        obtain ⟨nothing, rfl⟩ := skips p visited (by omega)
        have other : p.i ≠ i := by
          intro same
          rw [same, awaited.there] at nothing
          cases nothing
        refine ⟨⟨reading, awaited.there, awaited.opens, awaited.later, fun q same => ?_⟩, ?_⟩
        · cases same
          dsimp only
          omega
        · simp only [due, visited]
          omega
  · rw [next] at reading ⊢
    have low := before p visited
    by_cases own : p.i = i
    next =>
      subst own
      exact .inl ⟨reading, Function.update_self .., awaited.later, stands⟩
    next =>
      refine .inr ⟨⟨reading, ?_, ?_, awaited.later, fun q same => ?_⟩, ?_⟩
      · dsimp only
        rw [Function.update_of_ne (Ne.symm own)]
        exact awaited.there
      · intro j small present
        dsimp only at present
        by_cases taken : j = p.i
        next =>
          subst taken
          exact opens
        next =>
          rw [Function.update_of_ne taken] at present
          exact awaited.opens j small present
      · cases same
        dsimp only
        omega
      · simp only [due, visited]
        omega
  · have low := before p visited
    exact absurd (awaited.opens p.i low (by rw [there]; exact Option.some_ne_none _)) stuck

theorem Delivered.follow (laid : Laid header) {i : Nat} (inside : i < segmentCount header)
    {s t : Rebuild} (delivered : Delivered unpacker content header i s) {actions : List Action}
    (followed : (rebuild unpacker dumpSelf content).follow (fun _ _ => True) s actions = some t) :
    Delivered unpacker content header i t := by
  induction actions generalizing s with
  | nil =>
      cases followed
      exact delivered
  | cons action rest ih =>
      rw [Transitions.follow, if_pos trivial] at followed
      obtain ⟨next, stepped, later⟩ := Option.bind_eq_some_iff.mp followed
      exact ih (delivered.step laid inside stepped) later

theorem Awaited.follow (laid : Laid header) {i : Nat} (inside : i < segmentCount header)
    {s t : Rebuild} (awaited : Awaited unpacker dumpSelf content header i s)
    {actions : List Action} (enough : due i s ≤ actions.count .decompress)
    (followed : (rebuild unpacker dumpSelf content).follow (fun _ _ => True) s actions = some t) :
    Delivered unpacker content header i t := by
  induction actions generalizing s with
  | nil =>
      have before := awaited.visit
      rw [List.count_nil, due] at enough
      split at enough
      next => omega
      next p visited =>
        have low := before p visited
        omega
  | cons action rest ih =>
      rw [Transitions.follow, if_pos trivial] at followed
      obtain ⟨next, stepped, later⟩ := Option.bind_eq_some_iff.mp followed
      cases action with
      | segmentDone =>
          obtain ⟨still, same⟩ := awaited.handOver laid stepped
          rw [List.count_cons_of_ne (by decide)] at enough
          exact ih still (by rw [same]; exact enough) later
      | decompress =>
          cases stepped
          rw [List.count_cons_self] at enough
          rcases awaited.pass laid inside with delivered | ⟨still, lower⟩
          · exact delivered.follow laid inside later
          · exact ih still (by omega) later

variable (unpacker dumpSelf content header)

structure Held (j : Nat) (s : Rebuild) : Prop where
  reading : Reading content header s
  there : s.segs j = some (content j)
  stuck : ¬ Opens unpacker dumpSelf content header j

structure Blocked (j : Nat) (s : Rebuild) : Prop
    extends Held unpacker dumpSelf content header j s where
  inside : j < segmentCount header
  later : ∀ i ∈ s.coming, j < i
  visit : ∀ p, s.visit = some p → p.i ≤ j

/-- Nothing behind segment `j` is put into the ELF or taken away. -/
structure Untouched (j : Nat) (s t : Rebuild) : Prop where
  there : ∀ i, j < i → s.segs i ≠ none → t.segs i ≠ none
  coming : ∀ i ∈ s.coming, t.segs i ≠ none ∨ i ∈ t.coming
  elf : ∀ a, place header j + size header j ≤ a → t.currentElf.get? a = s.currentElf.get? a

variable {unpacker dumpSelf content header}

theorem Untouched.refl (j : Nat) (s : Rebuild) : Untouched header j s s :=
  ⟨fun _ _ waits => waits, fun _ member => .inr member, fun _ _ => rfl⟩

theorem Held.step (laid : Laid header) {j : Nat} {s t : Rebuild}
    (held : Held unpacker dumpSelf content header j s) {action : Action}
    (stepped : Rebuild.step unpacker dumpSelf content s action = some t) :
    Held unpacker dumpSelf content header j t := by
  refine ⟨held.reading.step laid stepped, ?_, held.stuck⟩
  cases action with
  | segmentDone =>
      rw [Rebuild.step] at stepped
      split at stepped
      next => cases stepped
      next k coming list =>
        cases stepped
        by_cases own : j = k
        next =>
          rw [own]
          exact Function.update_self _ _ _
        next => exact (Function.update_of_ne own _ _).trans held.there
  | decompress =>
      cases stepped
      rcases threadStep_cases laid held.reading with
        ⟨visit, next, -⟩ | ⟨p, -, -, -, opens, currentElf, currentFile, currentSelf, next, -⟩ |
        ⟨p, -, -, -, -, currentElf, next, -⟩
      · rw [next]
        exact held.there
      · have other : j ≠ p.i := by
          intro own
          rw [← own] at opens
          exact held.stuck opens
        rw [next]
        exact (Function.update_of_ne other _ _).trans held.there
      · rw [next]
        exact held.there

theorem Held.reach (laid : Laid header) {j : Nat} {s t : Rebuild}
    (held : Held unpacker dumpSelf content header j s)
    (reached : (rebuild unpacker dumpSelf content).Reachable (fun _ _ => True) s t) :
    Held unpacker dumpSelf content header j t :=
  reached.invariant _ held fun _ _ _ still _ stepped => still.step laid stepped

theorem Blocked.step (laid : Laid header) {j : Nat} {s t : Rebuild}
    (blocked : Blocked unpacker dumpSelf content header j s) {action : Action}
    (stepped : Rebuild.step unpacker dumpSelf content s action = some t) :
    Blocked unpacker dumpSelf content header j t ∧ Untouched header j s t := by
  have held := blocked.toHeld.step laid stepped
  have before := blocked.visit
  have behind {i : Nat} (low : i ≤ j) :
      place header i + size header i ≤ place header j + size header j := by
    rcases Nat.lt_or_eq_of_le low with less | rfl
    · have apart := laid.ends less blocked.inside
      have start := laid.lower_le blocked.inside
      omega
    · exact le_refl _
  cases action with
  | segmentDone =>
      rw [Rebuild.step] at stepped
      split at stepped
      next => cases stepped
      next k coming list =>
        have more := blocked.later
        rw [list] at more
        have less := more k List.mem_cons_self
        have kept (i : Nat) (waits : s.segs i ≠ none ∨ i = k) :
            Function.update s.segs k (some (content k)) i ≠ none := by
          by_cases own : i = k
          next =>
            subst own
            rw [Function.update_self]
            exact Option.some_ne_none _
          next =>
            rw [Function.update_of_ne own]
            exact waits.resolve_right own
        cases stepped
        refine ⟨⟨held, blocked.inside, fun i member => more i (List.mem_cons_of_mem _ member),
          before⟩, ⟨?_, ?_, fun _ _ => rfl⟩⟩
        · intro i _ waits
          exact kept i (.inl waits)
        · intro i member
          rw [list, List.mem_cons] at member
          rcases member with rfl | rest
          · exact .inl (kept i (.inr rfl))
          · exact .inr rest
  | decompress =>
      cases stepped
      rcases threadStep_cases laid blocked.reading with
        ⟨visit, next, -, wakes, skips⟩ |
        ⟨p, visited, within, there, opens, currentElf, currentFile, currentSelf, next, -, touches,
          -⟩ |
        ⟨p, visited, within, there, stuck, currentElf, next, touches⟩
      · rw [next] at held ⊢
        refine ⟨⟨held, blocked.inside, blocked.later, fun q same => ?_⟩,
          ⟨fun _ _ waits => waits, fun _ member => .inr member, fun _ _ => rfl⟩⟩
        dsimp only at same
        cases visited : s.visit with
        | none =>
            obtain ⟨p, rfl, first⟩ := wakes visited
            cases same
            omega
        | some p =>
            have low := before p visited
            obtain ⟨nothing, rfl⟩ := skips p visited (lt_of_le_of_lt low blocked.inside)
            have other : p.i ≠ j := by
              intro own
              rw [own, blocked.there] at nothing
              cases nothing
            cases same
            dsimp only
            omega
      · have low := before p visited
        have other : p.i ≠ j := by
          intro own
          rw [own] at opens
          exact blocked.stuck opens
        rw [next] at held ⊢
        refine ⟨⟨held, blocked.inside, blocked.later, fun q same => ?_⟩,
          ⟨fun i less waits => ?_, fun i member => .inr member,
            fun a high => touches.behind a ((behind low).trans high)⟩⟩
        · cases same
          dsimp only
          omega
        · dsimp only
          rw [Function.update_of_ne (by omega)]
          exact waits
      · have low := before p visited
        rw [next] at held ⊢
        exact ⟨⟨held, blocked.inside, blocked.later, fun q other => by cases other⟩,
          ⟨fun _ _ waits => waits, fun i member => .inr member,
            fun a high => touches.behind a ((behind low).trans high)⟩⟩

theorem Blocked.reach (laid : Laid header) {j : Nat} {s t : Rebuild}
    (blocked : Blocked unpacker dumpSelf content header j s)
    (reached : (rebuild unpacker dumpSelf content).Reachable (fun _ _ => True) s t) :
    Blocked unpacker dumpSelf content header j t ∧ Untouched header j s t := by
  refine reached.invariant (fun t => Blocked unpacker dumpSelf content header j t ∧
    Untouched header j s t) ⟨blocked, Untouched.refl j s⟩ ?_
  rintro u action v ⟨still, untouched⟩ - stepped
  obtain ⟨after, more⟩ := still.step laid stepped
  refine ⟨after, fun i less waits => more.there i less (untouched.there i less waits), ?_,
    fun a high => (more.elf a high).trans (untouched.elf a high)⟩
  intro i member
  rcases untouched.coming i member with waits | coming
  · exact .inl (more.there i (blocked.later i member) waits)
  · exact more.coming i coming

/-- The plugin hands the segments over in their order, and none is left from another module. -/
structure Started (header : Memory) (s : Rebuild) : Prop where
  ascending : s.coming.Pairwise (· < ·)
  inside : ∀ i ∈ s.coming, i < segmentCount header
  none_there : ∀ i, s.segs i = none
  visit : s.visit = none
  currentSelf : s.currentSelf = header

structure InOrder (header : Memory) (s : Rebuild) : Prop where
  ascending : s.coming.Pairwise (· < ·)
  inside : ∀ i ∈ s.coming, i < segmentCount header
  there : ∀ i, s.segs i ≠ none → i < segmentCount header ∧ ∀ j ∈ s.coming, i < j

theorem InOrder.step (laid : Laid header) {s t : Rebuild} (reading : Reading content header s)
    (order : InOrder header s) {action : Action}
    (stepped : Rebuild.step unpacker dumpSelf content s action = some t) : InOrder header t := by
  cases action with
  | segmentDone =>
      rw [Rebuild.step] at stepped
      split at stepped
      next => cases stepped
      next k coming list =>
        obtain ⟨ascending, inside, there⟩ := order
        rw [list] at ascending inside there
        obtain ⟨first, rest⟩ := List.pairwise_cons.mp ascending
        cases stepped
        refine ⟨rest, fun i member => inside i (List.mem_cons_of_mem _ member), ?_⟩
        intro i present
        dsimp only at present ⊢
        by_cases own : i = k
        next =>
          subst own
          exact ⟨inside i List.mem_cons_self, first⟩
        next =>
          rw [Function.update_of_ne own] at present
          obtain ⟨within, before⟩ := there i present
          exact ⟨within, fun j member => before j (List.mem_cons_of_mem _ member)⟩
  | decompress =>
      cases stepped
      rcases threadStep_cases laid reading with
        ⟨visit, next, -⟩ | ⟨p, -, -, -, -, currentElf, currentFile, currentSelf, next, -⟩ |
        ⟨p, -, -, -, -, currentElf, next, -⟩
      · rw [next]
        exact ⟨order.ascending, order.inside, order.there⟩
      · rw [next]
        refine ⟨order.ascending, order.inside, fun i present => ?_⟩
        dsimp only at present
        by_cases own : i = p.i
        next =>
          rw [own, Function.update_self] at present
          exact absurd rfl present
        next =>
          rw [Function.update_of_ne own] at present
          exact order.there i present
      · rw [next]
        exact ⟨order.ascending, order.inside, order.there⟩

theorem Started.reach (laid : Laid header) {begun s : Rebuild} (started : Started header begun)
    (reached : (rebuild unpacker dumpSelf content).Reachable (fun _ _ => True) begun s) :
    Reading content header s ∧ InOrder header s := by
  refine reached.invariant (fun s => Reading content header s ∧ InOrder header s) ?_ ?_
  · refine ⟨⟨?_, ?_, ?_⟩, ⟨started.ascending, started.inside, ?_⟩⟩
    · rw [started.currentSelf]
      exact fun _ _ => rfl
    · intro i file there
      rw [started.none_there] at there
      cases there
    · intro p visited
      rw [started.visit] at visited
      cases visited
    · exact fun i present => absurd (started.none_there i) present
  · rintro u action v ⟨reading, order⟩ - stepped
    exact ⟨reading.step laid stepped, order.step laid reading stepped⟩

theorem Reading.there {s : Rebuild} (reading : Reading content header s) {i : Nat}
    (present : s.segs i ≠ none) : s.segs i = some (content i) := by
  obtain ⟨file, there⟩ := Option.ne_none_iff_exists'.mp present
  rw [there, reading.contents i file there]

/-- A segment that does not open keeps its file. While no pass is behind it, no segment behind it
that waits or is still to come is put into the ELF. -/
theorem stuck_segment_blocks (laid : Laid header) {begun s t : Rebuild}
    (started : Started header begun)
    (reached : (rebuild unpacker dumpSelf content).Reachable (fun _ _ => True) begun s)
    {j : Nat} (present : s.segs j ≠ none)
    (stuck : ¬ Opens unpacker dumpSelf content header j)
    (later : (rebuild unpacker dumpSelf content).Reachable (fun _ _ => True) s t) :
    t.segs j = some (content j) ∧
      ((∀ p, s.visit = some p → p.i ≤ j) → Untouched header j s t) := by
  obtain ⟨reading, order⟩ := started.reach laid reached
  obtain ⟨inside, before⟩ := order.there j present
  have held : Held unpacker dumpSelf content header j s :=
    ⟨reading, reading.there present, stuck⟩
  exact ⟨(held.reach laid later).there,
    fun visit => (Blocked.reach laid ⟨held, inside, before, visit⟩ later).2⟩

theorem follow_thread (unpacker : Unpacker) (dumpSelf : Bool) (content : Nat → List Byte)
    (s : Rebuild) (steps : Nat) : ∃ t,
    (rebuild unpacker dumpSelf content).follow (fun _ _ => True) s
      (List.replicate steps .decompress) = some t := by
  induction steps generalizing s with
  | zero => exact ⟨s, rfl⟩
  | succ steps ih =>
      obtain ⟨t, followed⟩ := ih (threadStep unpacker dumpSelf s)
      refine ⟨t, ?_⟩
      rw [List.replicate_succ, Transitions.follow, if_pos trivial]
      exact followed

/-- Between two passes, a segment that was handed over gets into the ELF as a whole exactly when it
and all that wait in front of it open. -/
theorem passes_deliver_iff (laid : Laid header) {begun s : Rebuild}
    (started : Started header begun)
    (reached : (rebuild unpacker dumpSelf content).Reachable (fun _ _ => True) begun s)
    (visit : s.visit = none) {i : Nat} (present : s.segs i ≠ none) :
    (∀ j ≤ i, s.segs j ≠ none → Opens unpacker dumpSelf content header j) ↔
    ∀ actions t, (rebuild unpacker dumpSelf content).follow (fun _ _ => True) s actions = some t →
      i + 2 ≤ actions.count .decompress →
      t.segs i = none ∧ Stands unpacker content header i t.currentElf := by
  obtain ⟨reading, order⟩ := started.reach laid reached
  obtain ⟨inside, before⟩ := order.there i present
  have idle : ∀ k p, s.visit = some p → p.i ≤ k := by
    intro k p visited
    rw [visit] at visited
    cases visited
  constructor
  next =>
    intro opens actions t followed enough
    have awaited : Awaited unpacker dumpSelf content header i s :=
      ⟨reading, reading.there present, opens, before, idle i⟩
    have steps : due i s = i + 2 := by rw [due, visit]
    have delivered := awaited.follow laid inside (by rw [steps]; exact enough) followed
    exact ⟨delivered.gone, delivered.stands⟩
  next =>
    intro delivers j low waiting
    by_contra stuck
    obtain ⟨t, followed⟩ := follow_thread unpacker dumpSelf content s (i + 2)
    have gone := (delivers _ t followed (by rw [List.count_replicate_self])).1
    have later := Transitions.reachable_of_follow .start _ followed
    obtain ⟨within, ahead⟩ := order.there j waiting
    obtain ⟨blocked, untouched⟩ :=
      Blocked.reach laid ⟨⟨reading, reading.there waiting, stuck⟩, within, ahead, idle j⟩ later
    rcases Nat.lt_or_eq_of_le low with less | rfl
    · exact untouched.there i less present gone
    · rw [blocked.there] at gone
      cases gone

end Runs

def zeroUnpacker : Unpacker where
  zlib := Pair.zeroZlib
  largeInflate _ _ := none
  fileHeap _ _ := 0
  destHeap _ _ := 0
  mallocs _ := true

def twoHeaders : Memory := Pair.sampleSelf Pair.zeros

theorem twoHeaders_laid : Laid twoHeaders where
  inside := by decide
  marks_header := by decide
  marks_ehdr := by decide
  marks_phdrs := by decide
  ordered := by
    have count : segmentCount twoHeaders = 2 := by decide
    intro i inside
    have first : i = 0 := by omega
    subst first
    decide

def twoComing (segs : Nat → Option (List Byte)) (coming : List Nat) : Rebuild where
  coming := coming
  segs := segs
  visit := none
  currentElf := File.empty
  currentFile := File.empty
  currentSelf := twoHeaders

theorem twoComing_started : Started twoHeaders (twoComing (fun _ => none) [0, 1]) where
  ascending := by decide
  inside := by decide
  none_there _ := rfl
  visit := rfl
  currentSelf := rfl

def bothThere (content : Nat → List Byte) : Rebuild :=
  twoComing (Function.update (Function.update (fun _ => none) 0 (some (content 0))) 1
    (some (content 1))) []

theorem bothThere_reached (content : Nat → List Byte) :
    (rebuild zeroUnpacker true content).Reachable (fun _ _ => True)
      (twoComing (fun _ => none) [0, 1]) (bothThere content) :=
  (Transitions.Reachable.start.next (t := twoComing (Function.update (fun _ => none) 0
    (some (content 0))) [1]) Action.segmentDone trivial rfl).next Action.segmentDone trivial rfl

theorem passes_deliver_both :
    (∀ j ≤ 1, (bothThere fun _ => Pair.zeroStream).segs j ≠ none →
      Opens zeroUnpacker true (fun _ => Pair.zeroStream) twoHeaders j) ↔
    ∀ actions t, (rebuild zeroUnpacker true fun _ => Pair.zeroStream).follow (fun _ _ => True)
        (bothThere fun _ => Pair.zeroStream) actions = some t →
      1 + 2 ≤ actions.count .decompress →
      t.segs 1 = none ∧ Stands zeroUnpacker (fun _ => Pair.zeroStream) twoHeaders 1 t.currentElf :=
  passes_deliver_iff twoHeaders_laid twoComing_started (bothThere_reached _) rfl
    (by simp [bothThere, twoComing])

theorem empty_stuck : ¬ Opens zeroUnpacker true (fun _ => []) twoHeaders 0 := by
  rintro (empty | ⟨dest, opened, -⟩)
  · exact absurd empty (by decide)
  · have closed : unpack zeroUnpacker 0 [] (size twoHeaders 0) = none := by decide
    rw [closed] at opened
    cases opened

def firstTried : Rebuild :=
  threadStep zeroUnpacker true (threadStep zeroUnpacker true (bothThere fun _ => []))

theorem empty_segment_blocks : firstTried.segs 0 = some [] ∧
    ((∀ p, (bothThere fun _ => []).visit = some p → p.i ≤ 0) →
      Untouched twoHeaders 0 (bothThere fun _ => []) firstTried) :=
  stuck_segment_blocks twoHeaders_laid twoComing_started (bothThere_reached fun _ => [])
    (by simp [bothThere, twoComing]) empty_stuck
    ((Transitions.Reachable.start.next .decompress trivial rfl).next .decompress trivial rfl)

end Rebuild

end VitaTools.FagDec
