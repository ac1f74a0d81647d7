import VitaTools.Bootimage.Model

set_option autoImplicit false

namespace VitaTools.Bootimage

open VitaTools.Library

/-- Records of these sizes lie one behind the other from offset `r` of the segment to `stop`. -/
def Records (image : Image) (textSeg : Nat) : Nat → List Nat → Nat → Prop
  | r, [], stop => r = stop
  | r, size :: rest, stop =>
      (image.bytes.word (textSeg + r)).toNat = size ∧
        Records image textSeg (r + 260 + size) rest stop

def contents (image : Image) (textSeg : Nat) : Nat → List Nat → List (List Byte)
  | _, [] => []
  | r, size :: rest =>
      image.bytes.slice (textSeg + r + 260) size ::
        contents image textSeg (r + 260 + size) rest

namespace Image

variable (image : Image)

def phoff : Nat := (image.bytes.word 0x1C).toNat
def textSeg : Word := image.bytes.word (image.phoff + 4)
def textSize : Word := image.bytes.word (image.phoff + 16)

def start : Word := image.bytes.word (image.textSeg.toNat + 0xC4) - baseVaddr

end Image

/-- The words in the text segment of an old bootimage name its size and where its records start,
and the records fill it up to its end. -/
structure OldBootimage where
  image : Image
  sizes : List Nat
  header : 0x34 ≤ image.size
  programHeader : image.phoff + 32 ≤ image.size
  segment : image.textSeg.toNat + image.textSize.toNat ≤ image.size
  words : 0xC8 ≤ image.textSize.toNat
  boot : image.bytes.word (image.textSeg.toNat + 0xC0) - baseVaddr = image.textSize
  records : Records image image.textSeg.toNat image.start.toNat sizes image.textSize.toNat

/-- One file for each record, holding what follows its header. -/
def OldBootimage.ExtractsAll (old : OldBootimage) (host : Host) : Prop :=
  ∃ fuel saved, main host old.image fuel false = some saved ∧
    saved.map Extracted.bytes =
      contents old.image old.image.textSeg.toNat old.image.start.toNat old.sizes

variable {host : Host} {image : Image} {textSeg size : Word}

theorem Records.le {r stop : Nat} {sizes : List Nat}
    (records : Records image textSeg.toNat r sizes stop) : r ≤ stop := by
  induction sizes generalizing r with
  | nil => exact Nat.le_of_eq records
  | cons size rest ih =>
      have := ih records.2
      omega

theorem Records.last {r stop last : Nat} {sizes : List Nat}
    (records : Records image textSeg.toNat r sizes stop) (member : last ∈ sizes.getLast?) :
    r + 260 + last ≤ stop := by
  induction sizes generalizing r with
  | nil => cases member
  | cons size rest ih =>
      cases rest with
      | nil =>
          obtain rfl : size = last := by simpa using member
          exact Nat.le_of_eq records.2
      | cons next rest =>
          rw [List.getLast?_cons_cons] at member
          have := ih records.2 member
          omega

theorem Image.read_inside {pos k : Nat} {memory : Memory} (inside : pos + k < image.size) :
    image.read pos memory k = image.bytes (pos + k) := if_pos inside

theorem Image.read_word {pos k : Nat} {memory : Memory} (inside : pos + k + 4 ≤ image.size) :
    (image.read pos memory).word k = image.bytes.word (pos + k) := by
  have byte (j : Nat) (small : j < 4) :
      image.read pos memory (k + j) = image.bytes (pos + k + j) := by
    rw [Image.read_inside (by omega), Nat.add_assoc]
  have first := byte 0 (by decide)
  rw [Nat.add_zero, Nat.add_zero] at first
  rw [Memory.word, Memory.word, first, byte 1 (by decide), byte 2 (by decide), byte 3 (by decide)]

theorem Buffer.memory_word {n k : Nat} {buffer : Buffer n} {memory : Memory}
    (same : ∀ j : Fin n, buffer j = memory j) (inside : k + 4 ≤ n) :
    buffer.memory.word k = memory.word k :=
  Memory.word_congr fun a _ high => by
    rw [Buffer.memory, dif_pos (by omega)]
    exact same ⟨a, by omega⟩

theorem fread_word {n pos k : Nat} {buffer : Buffer n} (inside : k + 4 ≤ n)
    (file : pos + k + 4 ≤ image.size) :
    (image.fread pos buffer).memory.word k = image.bytes.word (pos + k) := by
  have copied : ∀ j : Fin n, image.fread pos buffer j = image.read pos buffer.memory j :=
    fun _ => rfl
  rw [Buffer.memory_word copied inside, Image.read_word file]

theorem chunkWord_inside {address : Nat} (inside : address + 4 ≤ image.size) :
    chunkWord host image address =
      if address + 4 ≤ 0x400 then some (image.bytes.word address) else none := by
  rw [chunkWord, Image.read_word (by omega), Nat.zero_add]

theorem elfBuffer_inside {pos count : Nat} (inside : pos + count ≤ image.size) :
    elfBuffer host image pos count = image.bytes.slice pos count :=
  Memory.slice_congr fun k small => by
    rw [Nat.zero_add, Image.read_inside (by omega)]

theorem elfBuffer_length {pos count : Nat} : (elfBuffer host image pos count).length = count :=
  Memory.slice_length _ _ _

section

variable {fuel : Nat} {s t : OldWalk}

theorem oldLoop_more : (oldLoop host image textSeg size).more s = true ↔
    (textSeg.toNat + s.offset.toNat) % 2 ^ 32 < size.toNat := by
  rw [← BitVec.toNat_add, ← BitVec.lt_def]
  exact decide_eq_true_iff

theorem oldLoop_saved (returned : (oldLoop host image textSeg size).run fuel s = some t) :
    ∃ later, t.saved = s.saved ++ later := by
  induction fuel generalizing s with
  | zero => cases returned
  | succ fuel ih =>
      rw [Loop.run] at returned
      split at returned
      case isTrue =>
        obtain ⟨later, saved⟩ := ih returned
        exact ⟨_, by rw [saved, oldLoop, List.append_assoc]⟩
      case isFalse =>
        obtain rfl := Option.some.inj returned
        exact ⟨[], (List.append_nil _).symm⟩

def sizeAt (host : Host) (image : Image) (textSeg : Word) (s : OldWalk) : Word :=
  (image.fread (textSeg + s.offset).toNat (host.recycle s.header)).memory.word 0

theorem oldLoop_pass :
    ((oldLoop host image textSeg size).pass s).offset =
        s.offset + (260 + sizeAt host image textSeg s) ∧
      ((oldLoop host image textSeg size).pass s).saved.map Extracted.bytes =
        s.saved.map Extracted.bytes ++
          [elfBuffer host image ((textSeg + s.offset).toNat + 260)
            (sizeAt host image textSeg s).toNat] :=
  ⟨rfl, List.map_append⟩

theorem oldLoop_next (returned : (oldLoop host image textSeg size).run fuel s = some t)
    {first : List Byte} {others : List (List Byte)}
    (files : t.saved.map Extracted.bytes = s.saved.map Extracted.bytes ++ first :: others) :
    (oldLoop host image textSeg size).more s = true ∧
      ∃ left, (oldLoop host image textSeg size).run left
          ((oldLoop host image textSeg size).pass s) = some t ∧
        ((oldLoop host image textSeg size).pass s).saved.map Extracted.bytes =
          s.saved.map Extracted.bytes ++ [first] ∧
        ((oldLoop host image textSeg size).pass s).offset =
          s.offset + BitVec.ofNat 32 (260 + first.length) := by
  cases fuel with
  | zero => cases returned
  | succ fuel =>
      rw [Loop.run] at returned
      split at returned
      case isFalse =>
        obtain rfl := Option.some.inj returned
        have := congrArg List.length files
        simp only [List.length_append, List.length_cons] at this
        omega
      case isTrue more =>
        obtain ⟨later, saved⟩ := oldLoop_saved returned
        refine ⟨more, fuel, returned, ?_⟩
        obtain ⟨offset, savedNext⟩ := @oldLoop_pass host image textSeg size s
        rw [saved, List.map_append, savedNext, List.append_assoc] at files
        obtain ⟨rfl, -⟩ := List.cons.inj (List.append_cancel_left files)
        refine ⟨savedNext, ?_⟩
        rw [offset, elfBuffer_length, BitVec.ofNat_add, BitVec.ofNat_toNat, BitVec.setWidth_eq]
        rfl

theorem oldLoop_ends {r : Nat} {sizes : List Nat} (place : s.offset = BitVec.ofNat 32 r)
    (records : Records image textSeg.toNat r sizes size.toNat)
    (returned : (oldLoop host image textSeg size).run fuel s = some t)
    (files : t.saved.map Extracted.bytes =
      s.saved.map Extracted.bytes ++ contents image textSeg.toNat r sizes) :
    textSeg.toNat + size.toNat < 2 ^ 32 ∧ ∀ last ∈ sizes.getLast?, textSeg.toNat < 260 + last := by
  have range := size.isLt
  have wide := textSeg.isLt
  induction sizes generalizing r s fuel with
  | nil =>
      obtain rfl : r = size.toNat := records
      rw [contents, List.append_nil] at files
      have stops : (oldLoop host image textSeg size).more s = false := by
        by_contra goes
        have more := Bool.eq_true_of_not_eq_false goes
        cases fuel with
        | zero => cases returned
        | succ fuel =>
            rw [Loop.run, if_pos more] at returned
            obtain ⟨later, saved⟩ := oldLoop_saved returned
            have := congrArg List.length files
            rw [saved, List.map_append, oldLoop_pass.2] at this
            simp only [List.length_append, List.length_cons, List.length_nil] at this
            omega
      have behind : ¬ (textSeg.toNat + s.offset.toNat) % 2 ^ 32 < size.toNat :=
        fun inside => by rw [oldLoop_more.mpr inside] at stops; cases stops
      rw [place, BitVec.toNat_ofNat, Nat.mod_eq_of_lt range] at behind
      exact ⟨by omega, by simp⟩
  | cons first rest ih =>
      have within := records.2.le
      obtain ⟨more, left, returnedNext, savedNext, offset⟩ := oldLoop_next returned files
      rw [Memory.slice_length, place, ← BitVec.ofNat_add, ← Nat.add_assoc] at offset
      have filesNext : t.saved.map Extracted.bytes =
          ((oldLoop host image textSeg size).pass s).saved.map Extracted.bytes ++
            contents image textSeg.toNat (r + 260 + first) rest := by
        rw [savedNext, List.append_assoc]
        exact files
      obtain ⟨fits, lasts⟩ := ih offset records.2 returnedNext filesNext
      refine ⟨fits, ?_⟩
      cases rest with
      | nil =>
          intro last member
          obtain rfl : first = last := by simpa using member
          have stop : r + 260 + first = size.toNat := records.2
          rw [oldLoop_more, place, BitVec.toNat_ofNat] at more
          omega
      | cons next rest =>
          rw [List.getLast?_cons_cons]
          exact lasts

theorem oldLoop_extracts {r : Nat} {sizes : List Nat} (place : s.offset = BitVec.ofNat 32 r)
    (records : Records image textSeg.toNat r sizes size.toNat)
    (file : textSeg.toNat + size.toNat ≤ image.size) (fits : textSeg.toNat + size.toNat < 2 ^ 32)
    (last : ∀ last ∈ sizes.getLast?, textSeg.toNat < 260 + last) :
    ∃ fuel t, (oldLoop host image textSeg size).run fuel s = some t ∧
      t.saved.map Extracted.bytes =
        s.saved.map Extracted.bytes ++ contents image textSeg.toNat r sizes := by
  have within := records.le
  have offset : s.offset.toNat = r := by
    rw [place, BitVec.toNat_ofNat]
    omega
  induction sizes generalizing r s with
  | nil =>
      obtain rfl : r = size.toNat := records
      have stops : ¬ (oldLoop host image textSeg size).more s = true := by
        rw [oldLoop_more, offset]
        omega
      exact ⟨1, s, by rw [Loop.run, if_neg stops], by rw [contents, List.append_nil]⟩
  | cons first rest ih =>
      have value := records.1
      have inside := records.2.le
      have more : (oldLoop host image textSeg size).more s = true := by
        rw [oldLoop_more, offset]
        obtain ⟨final, member⟩ : ∃ final, final ∈ (first :: rest).getLast? :=
          ⟨_, List.getLast?_eq_getLast_of_ne_nil (List.cons_ne_nil first rest)⟩
        have bound := last final member
        have reach := records.last member
        omega
      have pos : (textSeg + s.offset).toNat = textSeg.toNat + r := by
        rw [BitVec.toNat_add, offset]
        omega
      have sizeHere : sizeAt host image textSeg s = BitVec.ofNat 32 first := by
        rw [sizeAt, pos, fread_word (by decide) (by omega), Nat.add_zero, ← value,
          BitVec.ofNat_toNat, BitVec.setWidth_eq]
      have small : (BitVec.ofNat 32 first).toNat = first := by
        rw [BitVec.toNat_ofNat]
        omega
      obtain ⟨next, savedNext⟩ := @oldLoop_pass host image textSeg size s
      rw [sizeHere, place, ← BitVec.add_assoc, show (260 : Word) = BitVec.ofNat 32 260 from rfl,
        ← BitVec.ofNat_add, ← BitVec.ofNat_add] at next
      rw [sizeHere, small, pos, elfBuffer_inside (by omega)] at savedNext
      have value' : ((oldLoop host image textSeg size).pass s).offset.toNat = r + 260 + first := by
        rw [next, BitVec.toNat_ofNat]
        omega
      have lasts : ∀ final ∈ rest.getLast?, textSeg.toNat < 260 + final := by
        cases rest with
        | nil => simp
        | cons second rest => rwa [List.getLast?_cons_cons] at last
      obtain ⟨fuel, t, returned, files⟩ := ih next records.2 lasts inside value'
      refine ⟨fuel + 1, t, by rw [Loop.run, if_pos more, returned], ?_⟩
      rw [files, savedNext, List.append_assoc]
      rfl

end

theorem main_old (old : OldBootimage) (fuel : Nat) :
    main host old.image fuel false =
      if old.image.phoff + 20 ≤ 0x400 ∧ old.image.textSeg.toNat + 0xC8 ≤ 0x400 then
        ((oldLoop host old.image old.image.textSeg old.image.textSize).run fuel
          ⟨old.image.start, fun k => host.heap k, []⟩).map OldWalk.saved
      else none := by
  obtain ⟨image, sizes, header, programHeader, segment, words, boot, records⟩ := old
  dsimp only at *
  have phoff : chunkWord host image 0x1C = some (image.bytes.word 0x1C) := by
    rw [chunkWord_inside (by omega), if_pos (by decide)]
  have textSeg := @chunkWord_inside host image (image.phoff + 4) (by omega)
  have filesz := @chunkWord_inside host image (image.phoff + 16) (by omega)
  have bootWord := @chunkWord_inside host image (image.textSeg.toNat + 0xC0) (by omega)
  have startWord := @chunkWord_inside host image (image.textSeg.toNat + 0xC4) (by omega)
  have phoffAt : (image.bytes.word 0x1C).toNat = image.phoff := rfl
  have textSegAt : image.bytes.word (image.phoff + 4) = image.textSeg := rfl
  have sizeAt : image.bytes.word (image.phoff + 16) = image.textSize := rfl
  have startAt : image.bytes.word (image.textSeg.toNat + 0xC4) - baseVaddr = image.start := rfl
  simp only [main, Option.bind_eq_bind]
  rw [phoff, Option.bind_some, phoffAt, textSeg]
  -- The reads of the chunk in their order.
  split
  case isFalse => exact (if_neg (by omega)).symm
  case isTrue =>
    rw [Option.bind_some, textSegAt, bootWord]
    split
    case isFalse => exact (if_neg (by omega)).symm
    case isTrue =>
      rw [Option.bind_some, filesz]
      split
      case isFalse => exact (if_neg (by omega)).symm
      case isTrue =>
        rw [Option.bind_some, sizeAt, if_pos boot, startWord]
        split
        case isFalse => exact (if_neg (by omega)).symm
        case isTrue =>
          rw [Option.bind_some, boot, startAt]
          exact Option.map_eq_bind.symm.trans (if_pos (by omega)).symm

theorem OldBootimage.ExtractsAll.bounds {old : OldBootimage} (extracts : old.ExtractsAll host) :
    old.image.phoff + 20 ≤ 0x400 ∧ old.image.textSeg.toNat + 0xC8 ≤ 0x400 ∧
      old.image.textSeg.toNat + old.image.textSize.toNat < 2 ^ 32 ∧
      ∀ last ∈ old.sizes.getLast?, old.image.textSeg.toNat < 260 + last := by
  obtain ⟨fuel, saved, wrote, files⟩ := extracts
  rw [main_old] at wrote
  split at wrote
  case isFalse => cases wrote
  case isTrue inside =>
    obtain ⟨s, returned, rfl⟩ := Option.map_eq_some_iff.mp wrote
    have place : old.image.start = BitVec.ofNat 32 old.image.start.toNat := by simp
    have ends := oldLoop_ends place old.records returned (files.trans (List.nil_append _).symm)
    exact ⟨inside.1, inside.2, ends⟩

-- The headers of a bootimage: its text segment is at 0x108, its records start at 0xC8, and the
-- module information at 0x54 has the name "SceKernelBootimage".
def headed (size : Word) : Memory :=
  Memory.storeWord (fun _ => 0) 0x00 0x464C457F
    |>.storeWord 0x04 0x00010101
    |>.storeWord 0x1C 0x34
    |>.storeWord 0x38 0x108
    |>.storeWord 0x40 0x54
    |>.storeWord 0x44 size
    |>.storeWord 0x58 0x4B656353
    |>.storeWord 0x5C 0x656E7265
    |>.storeWord 0x60 0x6F6F426C
    |>.storeWord 0x64 0x616D6974
    |>.storeWord 0x68 0x00006567
    |>.storeWord 0x1C8 (baseVaddr + size)
    |>.storeWord 0x1CC (baseVaddr + 0xC8)

def fourBytes : Image where
  bytes := (headed 0x1D0).storeWord 0x1D0 4
  size := 0x2D8

def fourBytesOld : OldBootimage where
  image := fourBytes
  sizes := [4]
  header := by decide
  programHeader := by decide +kernel
  segment := by decide +kernel
  words := by decide +kernel
  boot := by decide +kernel
  records := by
    have size : fourBytes.textSize.toNat = 0x1D0 := by decide +kernel
    have start : fourBytes.start.toNat = 0xC8 := by decide +kernel
    have file : (fourBytes.bytes.word (fourBytes.textSeg.toNat + 0xC8)).toNat = 4 := by
      decide +kernel
    rw [size, start]
    exact ⟨file, rfl⟩

def plainHost : Host := ⟨[], id, fun _ => 0⟩

def fiveBytesOld : OldBootimage where
  image := ⟨(headed 0x1D1).storeWord 0x1D0 5, 0x2D9⟩
  sizes := [5]
  header := by decide
  programHeader := by decide +kernel
  segment := by decide +kernel
  words := by decide +kernel
  boot := by decide +kernel
  records := by
    have size : (Image.textSize ⟨(headed 0x1D1).storeWord 0x1D0 5, 0x2D9⟩).toNat = 0x1D1 := by
      decide +kernel
    have start : (Image.start ⟨(headed 0x1D1).storeWord 0x1D0 5, 0x2D9⟩).toNat = 0xC8 := by
      decide +kernel
    rw [size, start]
    exact ⟨by decide +kernel, rfl⟩

end VitaTools.Bootimage
