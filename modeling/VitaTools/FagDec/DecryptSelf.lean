import VitaTools.Library.PartialWrites

set_option autoImplicit false

namespace VitaTools.FagDec

open VitaTools.Library

abbrev Word := BitVec 32

-- What `decrypt_self` gets from the file system and from the block loader.
structure Device where
  file : Memory
  -- `segs[i].offset` and `segs[i].length`.
  offset : Nat
  segLength : BitVec 64
  -- The results of `ksceIoRead`, call by call.
  results : Nat → Word
  -- `sceSblAuthMgrLoadSelfBlockForKernel`: the buffer behind the call.
  loadBlock : Memory → Word → Memory

/-- A block as it is passed to the loader, and how many bytes of the buffer are then saved. -/
structure Block where
  buffer : Memory
  size : Word
  saved : Word

structure Segment where
  length : Word
  toRead : Word
  off : Word
  buffer : Memory
  pos : Nat
  reads : Nat
  blocks : List Block

def blockBytes : Nat := 0x10000

-- `length > 0x10000 ? 0x10000 : length`
def nextBlock (length : Word) : Word := if 0x10000 < length then 0x10000 else length

namespace Device

variable (device : Device)

def begin (buffer : Memory) : Segment :=
  let length := device.segLength.setWidth 32
  ⟨length, nextBlock length, 0, buffer, device.offset, 0, []⟩

-- The buffer and the file's position behind a `ksceIoRead` that returns `numRead`.
def read (s : Segment) (numRead : Word) : Memory × Nat :=
  if numRead.msb then (s.buffer, s.pos)
  else (s.buffer.copy s.off.toNat numRead.toNat fun x => device.file (s.pos + x),
    s.pos + numRead.toNat)

def blockLoop : Loop Segment where
  more s := decide (0 < s.length) && decide (0 < device.results s.reads)
  pass s :=
    let numRead := device.results s.reads
    let (buffer, pos) := device.read s numRead
    let off := s.off + numRead
    let length := s.length - numRead
    if numRead < s.toRead then
      ⟨length, s.toRead - numRead, off, buffer, pos, s.reads + 1, s.blocks⟩
    else
      { length, pos
        toRead := nextBlock length
        off := 0
        buffer := device.loadBlock buffer off
        reads := s.reads + 1
        blocks := s.blocks ++ [⟨buffer, off, s.toRead⟩] }

abbrev Visits (buffer : Memory) (s : Segment) : Prop :=
  device.blockLoop.Visits (device.begin buffer) s

/-- A result that is no error is at most what was asked for. -/
def Bounded (buffer : Memory) : Prop :=
  ∀ s, device.Visits buffer s → 0 < s.length → (device.results s.reads).msb = false →
    (device.results s.reads).toNat ≤ s.toRead.toNat

-- The length of block `n` of the stored segment.
def blockSize (length n : Nat) : Nat := min blockBytes (length - blockBytes * n)

/-- The loop hands on the stored segment block by block and saves as much of each. -/
structure FeedsWhole (buffer : Memory) : Prop where
  inside : ∀ s, device.Visits buffer s → 0 < s.length →
    s.off.toNat + s.toRead.toNat ≤ blockBytes
  whole : ∀ s, device.Visits buffer s → ∀ n block, s.blocks[n]? = some block →
    block.size.toNat = blockSize device.segLength.toNat n ∧
      ∀ x < block.size.toNat, block.buffer x = device.file (device.offset + blockBytes * n + x)
  saved : ∀ s, device.Visits buffer s → ∀ block ∈ s.blocks, block.saved = block.size
  ends : ∀ s, device.Visits buffer s → 0 < s.length →
    (device.results s.reads).toInt ≤ 0 → device.blockLoop.more s = false

def total (reads : Nat) : Nat := ∑ i ∈ Finset.range reads, (device.results i).toNat

-- The bytes that the loop asks for: `size_t` has 32 bits.
def asked : Nat := (device.segLength.setWidth 32).toNat

/-- Read `k` is made, behind reads that all brought something. -/
def Reads (k : Nat) : Prop :=
  (∀ i < k, 0 < (device.results i).toInt) ∧ device.total k < device.asked

/-- Read `k` is no error, and if it completes a block it has read all of it, which is all that is
left of the stored segment or as long as a block can be. -/
structure Clean (k : Nat) : Prop where
  counted : (device.results k).msb = false
  undivided : 0 < (device.results k).toNat →
    blockBytes ∣ device.total (k + 1) ∨ device.total (k + 1) = device.asked →
      blockBytes ∣ device.total k
  stored : 0 < (device.results k).toNat → device.total (k + 1) = device.asked →
    blockBytes ∣ device.asked ∨ device.asked = device.segLength.toNat

theorem toInt_pos_iff {value : Word} : 0 < value.toInt ↔ value.msb = false ∧ 0 < value.toNat := by
  rw [BitVec.toInt_eq_msb_cond]
  have small := value.isLt
  cases value.msb with
  | false => simp
  | true =>
      rw [if_pos rfl]
      simp
      omega

theorem nextBlock_toNat (length : Word) :
    (nextBlock length).toNat = min blockBytes length.toNat := by
  have most : (0x10000 : Word).toNat = blockBytes := rfl
  rw [nextBlock]
  split
  next long =>
    rw [BitVec.lt_def] at long
    omega
  next fits =>
    rw [BitVec.lt_def] at fits
    omega

theorem concat_cases {blocks : List Block} {last block : Block} {n : Nat}
    (found : (blocks ++ [last])[n]? = some block) :
    blocks[n]? = some block ∨ n = blocks.length ∧ block = last := by
  rw [List.getElem?_append] at found
  split at found
  next => exact .inl found
  next more =>
    rw [List.getElem?_singleton] at found
    split at found
    next same => exact .inr ⟨by omega, (Option.some.inj found).symm⟩
    next => cases found

variable {device : Device} {s : Segment}

theorem total_succ (reads : Nat) :
    device.total (reads + 1) = device.total reads + (device.results reads).toNat :=
  Finset.sum_range_succ _ _

variable (device) in
structure Going (s : Segment) : Prop where
  off : blockBytes * s.blocks.length + s.off.toNat = device.total s.reads
  toRead : s.off.toNat + s.toRead.toNat = blockSize device.asked s.blocks.length
  wanted : 0 < s.toRead.toNat
  buffer : ∀ x < s.off.toNat,
    s.buffer x = device.file (device.offset + blockBytes * s.blocks.length + x)
  pos : s.pos = device.offset + device.total s.reads

variable (device) in
structure Held (s : Segment) : Prop where
  read : ∀ i < s.reads, 0 < (device.results i).toInt
  length : s.length.toNat + device.total s.reads = device.asked
  blocks : ∀ n block, s.blocks[n]? = some block →
    block.size.toNat = blockSize device.asked n ∧
      ∀ x < block.size.toNat, block.buffer x = device.file (device.offset + blockBytes * n + x)
  going : 0 < s.length.toNat → device.Going s

theorem begin_held (buffer : Memory) : device.Held (device.begin buffer) := by
  constructor
  case read => exact fun i less => absurd less (Nat.not_lt_zero i)
  case length => rfl
  case blocks =>
    intro n block found
    cases found
  case going =>
    intro wanted
    have size : (device.begin buffer).toRead.toNat = min blockBytes device.asked :=
      nextBlock_toNat _
    constructor
    case off => rfl
    case toRead =>
      rw [size]
      exact Nat.zero_add _
    case wanted =>
      rw [size]
      exact lt_min (by decide) wanted
    case buffer => exact fun x less => absurd less (Nat.not_lt_zero x)
    case pos => rfl

theorem Going.length (going : device.Going s) (length : s.length.toNat + device.total s.reads =
    device.asked) : s.toRead.toNat ≤ s.length.toNat := by
  have off := going.off
  have toRead := going.toRead
  have most : blockSize device.asked s.blocks.length ≤
      device.asked - blockBytes * s.blocks.length := min_le_right _ _
  omega

theorem Going.read (going : device.Going s) {numRead : Word} (counted : numRead.msb = false) :
    (device.read s numRead).2 = s.pos + numRead.toNat ∧
      ∀ x < s.off.toNat + numRead.toNat, (device.read s numRead).1 x =
        device.file (device.offset + blockBytes * s.blocks.length + x) := by
  rw [Device.read, counted, if_neg Bool.false_ne_true]
  refine ⟨rfl, fun x inside => ?_⟩
  have off := going.off
  have pos := going.pos
  dsimp only [Memory.copy]
  split
  next within =>
    congr 1
    omega
  next before => exact going.buffer x (by omega)

theorem Going.further (going : device.Going s)
    (bounded : (device.results s.reads).toNat ≤ s.toRead.toNat) :
    (s.off + device.results s.reads).toNat = s.off.toNat + (device.results s.reads).toNat := by
  have toRead := going.toRead
  have most : blockSize device.asked s.blocks.length ≤ blockBytes := min_le_left _ _
  have small : blockBytes = 0x10000 := rfl
  rw [BitVec.toNat_add]
  exact Nat.mod_eq_of_lt (by omega)

theorem Going.filled (going : device.Going s)
    (length : s.length.toNat + device.total s.reads = device.asked)
    (more : s.toRead.toNat < s.length.toNat) :
    blockSize device.asked s.blocks.length = blockBytes ∧
      s.length.toNat - s.toRead.toNat = device.asked - blockBytes * (s.blocks.length + 1) := by
  have off := going.off
  have toRead := going.toRead
  have size : blockSize device.asked s.blocks.length = blockBytes := by
    rw [blockSize]
    apply min_eq_left
    by_contra last
    have all : blockSize device.asked s.blocks.length =
        device.asked - blockBytes * s.blocks.length := min_eq_right (by omega)
    omega
  have product : blockBytes * (s.blocks.length + 1) =
      blockBytes * s.blocks.length + blockBytes := Nat.mul_succ _ _
  exact ⟨size, by omega⟩

theorem Held.pass (held : device.Held s) (length : 0 < s.length.toNat)
    (positive : 0 < (device.results s.reads).toInt)
    (bounded : (device.results s.reads).toNat ≤ s.toRead.toNat) :
    device.Held (device.blockLoop.pass s) := by
  have going := held.going length
  have total : device.total (s.reads + 1) = device.total s.reads +
      (device.results s.reads).toNat := total_succ _
  obtain ⟨counted, brings⟩ := toInt_pos_iff.mp positive
  obtain ⟨pos, bytes⟩ := going.read counted
  have left := going.length held.length
  have sum := held.length
  have off := going.off
  have toRead := going.toRead
  have further := going.further bounded
  have less : (s.length - device.results s.reads).toNat =
      s.length.toNat - (device.results s.reads).toNat :=
    BitVec.toNat_sub_of_le (by rw [BitVec.le_def]; omega)
  have read (i : Nat) (before : i < s.reads + 1) : 0 < (device.results i).toInt := by
    rcases Nat.lt_succ_iff_lt_or_eq.mp before with earlier | rfl
    · exact held.read i earlier
    · exact positive
  simp only [blockLoop]
  split
  next short =>
    rw [BitVec.lt_def] at short
    have rest : (s.toRead - device.results s.reads).toNat =
        s.toRead.toNat - (device.results s.reads).toNat :=
      BitVec.toNat_sub_of_le (by rw [BitVec.le_def]; omega)
    refine ⟨read, by dsimp only; omega, held.blocks, fun _ => ?_⟩
    constructor
    case off => dsimp only; omega
    case toRead => dsimp only; omega
    case wanted => dsimp only; omega
    case buffer =>
      dsimp only
      rw [further]
      exact bytes
    case pos =>
      dsimp only
      rw [pos, going.pos, total, Nat.add_assoc]
  next full =>
    rw [BitVec.lt_def] at full
    have whole : (device.results s.reads).toNat = s.toRead.toNat := by omega
    refine ⟨read, by dsimp only; omega, ?_, ?_⟩
    · intro n block found
      rcases concat_cases found with earlier | ⟨rfl, rfl⟩
      · exact held.blocks n block earlier
      · dsimp only
        rw [further]
        exact ⟨by omega, bytes⟩
    · intro more
      dsimp only at more
      obtain ⟨size, rest⟩ := going.filled held.length (by omega)
      have blocks : (s.blocks ++ [(⟨(device.read s (device.results s.reads)).1,
          s.off + device.results s.reads, s.toRead⟩ : Block)]).length = s.blocks.length + 1 :=
        List.length_append
      have first : (0 : Word).toNat = 0 := rfl
      have product : blockBytes * (s.blocks.length + 1) =
          blockBytes * s.blocks.length + blockBytes := Nat.mul_succ _ _
      have block : (nextBlock (s.length - device.results s.reads)).toNat =
          blockSize device.asked (s.blocks.length + 1) := by
        rw [nextBlock_toNat, less, whole, rest, blockSize]
      constructor
      case off =>
        dsimp only
        rw [blocks, first]
        omega
      case toRead =>
        dsimp only
        rw [blocks, first, block, Nat.zero_add]
      case wanted =>
        dsimp only
        rw [nextBlock_toNat]
        exact lt_min (by decide) more
      case buffer => exact fun x inside => absurd inside (Nat.not_lt_zero x)
      case pos =>
        dsimp only
        rw [pos, going.pos, total, Nat.add_assoc]

theorem more_iff : device.blockLoop.more s = true ↔
    0 < s.length.toNat ∧ 0 < (device.results s.reads).toNat := by
  simp only [blockLoop, Bool.and_eq_true, decide_eq_true_eq, BitVec.lt_def]
  rfl

theorem reads_visited {buffer : Memory} (bounded : device.Bounded buffer) {k : Nat}
    (reads : device.Reads k) :
    ∃ s, device.Visits buffer s ∧ s.reads = k ∧ device.Held s ∧ 0 < s.length.toNat := by
  induction k with
  | zero =>
      exact ⟨device.begin buffer, .start, rfl, begin_held buffer, reads.2⟩
  | succ k ih =>
      have total : device.total (k + 1) = device.total k + (device.results k).toNat :=
        total_succ _
      obtain ⟨positive, short⟩ := reads
      obtain ⟨s, visited, rfl, held, length⟩ := ih ⟨fun i less => positive i (by omega), by omega⟩
      have above := positive s.reads (Nat.lt_succ_self _)
      obtain ⟨counted, brings⟩ := toInt_pos_iff.mp above
      have next := held.pass length above (bounded s visited length counted)
      have following : (device.blockLoop.pass s).reads = s.reads + 1 := by
        simp only [blockLoop]
        split <;> rfl
      have sum := next.length
      rw [following] at sum
      exact ⟨_, visited.next (more_iff.mpr ⟨length, brings⟩), following, next, by omega⟩

theorem Going.completes_iff (going : device.Going s) (brings : 0 < (device.results s.reads).toNat)
    (bounded : (device.results s.reads).toNat ≤ s.toRead.toNat) :
    (blockBytes ∣ device.total (s.reads + 1) ∨ device.total (s.reads + 1) = device.asked) ↔
      (device.results s.reads).toNat = s.toRead.toNat := by
  have off := going.off
  have toRead := going.toRead
  have total : device.total (s.reads + 1) = device.total s.reads +
      (device.results s.reads).toNat := total_succ _
  have small : blockBytes = 0x10000 := rfl
  rw [blockSize] at toRead
  constructor
  · rintro (divided | all)
    · by_contra short
      have inside : (device.total (s.reads + 1)) % blockBytes =
          s.off.toNat + (device.results s.reads).toNat := by
        rw [total, ← off, Nat.add_assoc, Nat.mul_add_mod]
        exact Nat.mod_eq_of_lt (by omega)
      rw [Nat.mod_eq_zero_of_dvd divided] at inside
      omega
    · omega
  · intro full
    by_cases last : device.asked - blockBytes * s.blocks.length ≤ blockBytes
    · right
      omega
    · left
      refine ⟨s.blocks.length + 1, ?_⟩
      rw [Nat.mul_succ]
      omega

theorem Going.undivided_iff (going : device.Going s) :
    blockBytes ∣ device.total s.reads ↔ s.off.toNat = 0 := by
  have off := going.off
  have toRead := going.toRead
  have wanted := going.wanted
  have most : blockSize device.asked s.blocks.length ≤ blockBytes := min_le_left _ _
  rw [← off]
  constructor
  · intro divided
    have rest := (Nat.dvd_add_right ⟨s.blocks.length, rfl⟩).mp divided
    exact Nat.eq_zero_of_dvd_of_lt rest (by omega)
  · intro zero
    rw [zero]
    exact ⟨s.blocks.length, rfl⟩

theorem blocks_full (full : ¬ device.results s.reads < s.toRead) :
    (device.blockLoop.pass s).blocks = s.blocks ++
      [⟨(device.read s (device.results s.reads)).1, s.off + device.results s.reads, s.toRead⟩] := by
  simp only [blockLoop, if_neg full]

theorem blocks_short (short : device.results s.reads < s.toRead) :
    (device.blockLoop.pass s).blocks = s.blocks := by
  simp only [blockLoop, if_pos short]

theorem asked_eq_or : device.asked = device.segLength.toNat ∨
    device.asked + 2 ^ 32 ≤ device.segLength.toNat := by
  rw [asked, BitVec.toNat_setWidth]
  omega

theorem blockSize_eq_iff {n : Nat} (wanted : 0 < blockSize device.asked n) :
    blockSize device.asked n = blockSize device.segLength.toNat n ↔
      blockBytes * n + blockBytes ≤ device.asked ∨ device.asked = device.segLength.toNat := by
  have range : device.asked < 2 ^ 32 := BitVec.isLt _
  have small : blockBytes = 0x10000 := rfl
  have cases : device.asked = device.segLength.toNat ∨
      device.asked + 2 ^ 32 ≤ device.segLength.toNat := asked_eq_or
  simp only [blockSize] at wanted ⊢
  omega

theorem Going.clean_iff (going : device.Going s) (counted : (device.results s.reads).msb = false)
    (bounded : (device.results s.reads).toNat ≤ s.toRead.toNat) :
    device.Clean s.reads ↔ (0 < (device.results s.reads).toNat →
      (device.results s.reads).toNat = s.toRead.toNat → s.off.toNat = 0 ∧
        blockSize device.asked s.blocks.length =
          blockSize device.segLength.toNat s.blocks.length) := by
  have off := going.off
  have toRead := going.toRead
  have wanted := going.wanted
  have total : device.total (s.reads + 1) = device.total s.reads +
      (device.results s.reads).toNat := total_succ _
  have most : blockSize device.asked s.blocks.length ≤ blockBytes := min_le_left _ _
  have size : blockSize device.asked s.blocks.length =
      min blockBytes (device.asked - blockBytes * s.blocks.length) := rfl
  have same : blockSize device.asked s.blocks.length =
      blockSize device.segLength.toNat s.blocks.length ↔ _ := blockSize_eq_iff (by omega)
  constructor
  · intro clean brings full
    have completes := (going.completes_iff brings bounded).mpr full
    refine ⟨going.undivided_iff.mp (clean.undivided brings completes), same.mpr ?_⟩
    by_cases last : device.total (s.reads + 1) = device.asked
    · rcases clean.stored brings last with ⟨count, multiple⟩ | fits
      · left
        have more : s.blocks.length < count := by
          by_contra few
          have less := Nat.mul_le_mul_left blockBytes (Nat.le_of_not_lt few)
          omega
        have next := Nat.mul_le_mul_left blockBytes (Nat.succ_le_of_lt more)
        rw [Nat.mul_succ] at next
        omega
      · exact .inr fits
    · left
      omega
  · intro right
    refine ⟨counted, fun brings completes => ?_, fun brings last => ?_⟩
    · have full := (going.completes_iff brings bounded).mp completes
      exact going.undivided_iff.mpr (right brings full).1
    · have full := (going.completes_iff brings bounded).mp (.inr last)
      rcases same.mp (right brings full).2 with long | fits
      · left
        refine ⟨s.blocks.length + 1, ?_⟩
        rw [Nat.mul_succ]
        omega
      · exact .inr fits

theorem FeedsWhole.counted {buffer : Memory} (feeds : device.FeedsWhole buffer)
    (visited : device.Visits buffer s) (length : 0 < s.length.toNat) :
    (device.results s.reads).msb = false := by
  by_contra negative
  have below : (device.results s.reads).toInt ≤ 0 := by
    by_contra above
    exact negative (toInt_pos_iff.mp (by omega)).1
  have brings : 0 < (device.results s.reads).toNat := by
    have high := BitVec.msb_eq_true_iff_two_mul_ge.mp (Bool.eq_true_of_not_eq_false negative)
    omega
  have ended := feeds.ends s visited length below
  rw [more_iff.mpr ⟨length, brings⟩] at ended
  cases ended

theorem FeedsWhole.clean {buffer : Memory} (feeds : device.FeedsWhole buffer)
    (bounded : device.Bounded buffer) {k : Nat} (reads : device.Reads k) : device.Clean k := by
  obtain ⟨s, visited, rfl, held, length⟩ := reads_visited bounded reads
  have going := held.going length
  have counted := feeds.counted visited length
  have bound := bounded s visited length counted
  refine (going.clean_iff counted bound).mpr fun brings full => ?_
  have next := visited.next (more_iff.mpr ⟨length, brings⟩)
  have whole : ¬ device.results s.reads < s.toRead := by
    rw [BitVec.lt_def]
    omega
  have blocks := blocks_full whole
  have kept := feeds.saved _ next _ (by rw [blocks]; exact List.mem_concat_self)
  have size := (feeds.whole _ next s.blocks.length _
    (by rw [blocks]; exact List.getElem?_concat_length)).1
  have pass := held.pass length (toInt_pos_iff.mpr ⟨counted, brings⟩) bound
  have stored := (pass.blocks s.blocks.length _
    (by rw [blocks]; exact List.getElem?_concat_length)).1
  dsimp only at kept size stored
  have toRead := going.toRead
  rw [← kept] at stored
  exact ⟨by omega, by rw [← stored, kept, size]⟩

theorem handed_of_clean {buffer : Memory} (bounded : device.Bounded buffer)
    (clean : ∀ k, device.Reads k → device.Clean k) (visited : device.Visits buffer s) :
    device.Held s ∧ ∀ n block, s.blocks[n]? = some block → block.saved = block.size ∧
      blockSize device.asked n = blockSize device.segLength.toNat n := by
  apply visited.invariant fun s => device.Held s ∧
    ∀ n block, s.blocks[n]? = some block → block.saved = block.size ∧
      blockSize device.asked n = blockSize device.segLength.toNat n
  · refine ⟨begin_held buffer, fun n block found => ?_⟩
    cases found
  · rintro s visited ⟨held, saved⟩ more
    obtain ⟨length, brings⟩ := more_iff.mp more
    have sum := held.length
    have fine := clean s.reads ⟨held.read, by omega⟩
    have bound := bounded s visited length fine.counted
    have going := held.going length
    refine ⟨held.pass length (toInt_pos_iff.mpr ⟨fine.counted, brings⟩) bound, ?_⟩
    intro n block found
    by_cases short : device.results s.reads < s.toRead
    · rw [blocks_short short] at found
      exact saved n block found
    · rw [blocks_full short] at found
      rcases concat_cases found with earlier | ⟨rfl, rfl⟩
      · exact saved n block earlier
      · rw [BitVec.lt_def] at short
        have full : (device.results s.reads).toNat = s.toRead.toNat := by omega
        obtain ⟨zero, same⟩ := (going.clean_iff fine.counted bound).mp fine brings full
        refine ⟨?_, same⟩
        dsimp only
        rw [BitVec.eq_of_toNat_eq full, show s.off = 0 from BitVec.eq_of_toNat_eq zero]
        exact (BitVec.zero_add s.toRead).symm

theorem feedsWhole_of_clean {buffer : Memory} (bounded : device.Bounded buffer)
    (clean : ∀ k, device.Reads k → device.Clean k) : device.FeedsWhole buffer := by
  constructor
  case inside =>
    intro s visited length
    obtain ⟨held, -⟩ := handed_of_clean bounded clean visited
    rw [(held.going length).toRead]
    exact min_le_left _ _
  case whole =>
    intro s visited n block found
    obtain ⟨held, saved⟩ := handed_of_clean bounded clean visited
    obtain ⟨size, bytes⟩ := held.blocks n block found
    exact ⟨size.trans (saved n block found).2, bytes⟩
  case saved =>
    intro s visited block member
    obtain ⟨n, found⟩ := List.getElem?_of_mem member
    exact ((handed_of_clean bounded clean visited).2 n block found).1
  case ends =>
    intro s visited length nothing
    obtain ⟨held, -⟩ := handed_of_clean bounded clean visited
    have sum := held.length
    have wanted : 0 < s.length.toNat := length
    have fine := clean s.reads ⟨held.read, by omega⟩
    by_contra more
    have brings := (more_iff.mp (Bool.eq_true_of_not_eq_false more)).2
    have above := toInt_pos_iff.mpr ⟨fine.counted, brings⟩
    omega

/-- The loop does what it should exactly when every read it makes is clean. -/
theorem feedsWhole_iff (device : Device) (buffer : Memory) (bounded : device.Bounded buffer) :
    device.FeedsWhole buffer ↔ ∀ k, device.Reads k → device.Clean k :=
  ⟨fun feeds _ reads => feeds.clean bounded reads, feedsWhole_of_clean bounded⟩

def wholeReads : Device := ⟨fun _ => 0, 0, 4, fun k => if k = 0 then 4 else 0, fun m _ => m⟩

def twoReads : Device := { wholeReads with results := fun k => if k < 2 then 2 else 0 }

def failedRead : Device := { wholeReads with results := fun _ => 0x80010005 }

theorem feedsWhole_iff_whole : wholeReads.FeedsWhole (fun _ => 0) ↔
    ∀ k, wholeReads.Reads k → wholeReads.Clean k := by
  apply feedsWhole_iff
  intro s visited length
  have reached : s = wholeReads.begin (fun _ => 0) ∨ s.length = 0 := by
    apply visited.invariant fun s => s = wholeReads.begin (fun _ => 0) ∨ s.length = 0
    · exact .inl rfl
    · rintro s - (rfl | done) more
      · right
        decide +kernel
      · have wanted := (more_iff.mp more).1
        rw [done] at wanted
        cases wanted
  rcases reached with rfl | done
  · exact fun _ => by decide +kernel
  · rw [done] at length
    exact absurd length (by decide)

/-- Only two bytes of the block are saved in the one case, and the loop goes on behind the error in
the other. -/
theorem short_and_failed_reads :
    ¬ twoReads.FeedsWhole (fun _ => 0) ∧ ¬ failedRead.FeedsWhole (fun _ => 0) := by
  constructor
  next =>
    intro feeds
    have visited : twoReads.Visits (fun _ => 0)
        (twoReads.blockLoop.pass (twoReads.blockLoop.pass (twoReads.begin fun _ => 0))) :=
      .next (.next .start (by decide +kernel)) (by decide +kernel)
    have saved : (twoReads.blockLoop.pass (twoReads.blockLoop.pass (twoReads.begin
        fun _ => 0))).blocks.map (fun block => (block.saved, block.size)) = [(2, 4)] := by
      decide +kernel
    have kept := feeds.saved _ visited
    obtain ⟨block, found⟩ := List.map_eq_singleton_iff.mp saved
    have same := kept block (by rw [found.1]; exact List.mem_singleton_self block)
    have sizes := Prod.mk.inj found.2
    rw [sizes.1, sizes.2] at same
    cases same
  next =>
    intro feeds
    have ended := feeds.ends _ .start (by decide +kernel) (by decide +kernel)
    exact absurd ended (by decide +kernel)

end Device

-- `while ((off += ksceIoWrite(wfd, pgr_buf+off, p_filesz-off)) < p_filesz);`
def segmentWriting (filesz : Word) (pgrBuf : Word → Byte) (results : Nat → Word) : Writing where
  len := filesz
  gaveUp _ := false
  source := pgrBuf
  results := results

theorem segmentWriting_exact_iff {filesz : Word} {pgrBuf : Word → Byte} {results : Nat → Word}
    (positive : 0 < filesz) (bounded : (segmentWriting filesz pgrBuf results).Bounded) :
    (segmentWriting filesz pgrBuf results).Exact ↔
      ∀ k, (segmentWriting filesz pgrBuf results).Asked k → (results k).msb = false := by
  rw [Writing.exact_iff positive bounded]
  refine forall_congr' fun k => imp_congr_right fun _ => ?_
  rw [Writing.leaves_eq_error]
  simp [segmentWriting]

end VitaTools.FagDec
