import VitaTools.Bootimage.OldFormat

set_option autoImplicit false

namespace VitaTools.Bootimage

open VitaTools.Library

section

variable (host : Host) (image : Image) (textSeg size : Word)

abbrev Cursor := Word × Buffer 260

def cursorLoop : Loop Cursor where
  more c := textSeg + c.1 < size
  pass c :=
    let header := image.fread (textSeg + c.1).toNat (host.recycle c.2)
    (c.1 + (260 + header.memory.word 0), header)

/-- No cursor that is reached leads back to itself. -/
def Straight (start : Cursor) : Prop :=
  ∀ c, Relation.ReflTransGen (cursorLoop host image textSeg size).Follows start c →
    ¬ Relation.TransGen (cursorLoop host image textSeg size).Follows c c

variable {host image textSeg size}

theorem oldLoop_returns_iff {s : OldWalk} :
    (oldLoop host image textSeg size).Returns s ↔
      Straight host image textSeg size (s.offset, s.header) := by
  have same (fuel : Nat) : (cursorLoop host image textSeg size).run fuel (s.offset, s.header) =
      ((oldLoop host image textSeg size).run fuel s).map fun s => (s.offset, s.header) :=
    Loop.run_map (fun s : OldWalk => (s.offset, s.header)) (fun _ => rfl) (fun _ => rfl) fuel s
  have projected : (oldLoop host image textSeg size).Returns s ↔
      (cursorLoop host image textSeg size).Returns (s.offset, s.header) := by
    simp only [Loop.Returns, same, Option.isSome_map]
  exact projected.trans Loop.returns_iff

theorem straight_of_sizes {start : Cursor}
    (fits : ∀ c, Relation.ReflTransGen (cursorLoop host image textSeg size).Follows start c →
      (cursorLoop host image textSeg size).more c = true →
        c.1.toNat + 260 +
          ((image.fread (textSeg + c.1).toNat (host.recycle c.2)).memory.word 0).toNat < 2 ^ 32) :
    Straight host image textSeg size start := by
  intro c reached circle
  have grows {d e : Cursor}
      (before : Relation.ReflTransGen (cursorLoop host image textSeg size).Follows start d)
      (step : (cursorLoop host image textSeg size).Follows d e) : d.1.toNat < e.1.toNat := by
    obtain ⟨more, rfl⟩ := step
    have room := fits d before more
    simp only [cursorLoop]
    generalize (image.fread _ _).memory.word 0 = fileSize at room ⊢
    have header : (260 : Word).toNat = 260 := rfl
    rw [BitVec.toNat_add, BitVec.toNat_add]
    omega
  have further : ∀ d, Relation.TransGen (cursorLoop host image textSeg size).Follows c d →
      c.1.toNat < d.1.toNat := by
    intro d ahead
    induction ahead with
    | single step => exact grows reached step
    | tail before step ih => exact ih.trans (grows (reached.trans before.to_reflTransGen) step)
  exact Nat.lt_irrefl _ (further c circle)

end

namespace Table

variable {Result : Type} (table : Table Result) (blank : Buffer 12)

/-- An entry as it is read: where the file has ended a byte is that of the last entry that has it
in the file. -/
def asRead (i : Nat) : Buffer 12 := fun k =>
  let first := table.base.toNat + k
  if first < table.image.size then
    table.image.bytes (first + 12 * min i ((table.image.size - first - 1) / 12))
  else blank k

variable {table blank}

theorem fetch_apply (i : Word) (entry : Buffer 12) (k : Fin 12) :
    table.fetch i entry k =
      if table.base.toNat + 12 * i.toNat + k < table.image.size then
        table.image.bytes (table.base.toNat + 12 * i.toNat + k)
      else entry k := by
  change (if _ then _ else entry.memory k) = _
  rw [Buffer.memory, dif_pos k.isLt]

theorem fetch_first (i : Nat) : table.fetch 0 (table.asRead blank i) = table.asRead blank 0 := by
  funext k
  simp only [fetch_apply, asRead, show (0 : Word).toNat = 0 from rfl, Nat.mul_zero, Nat.add_zero,
    Nat.zero_min]
  split <;> rfl

theorem fetch_blank : table.fetch 0 blank = table.asRead blank 0 := by
  funext k
  simp only [fetch_apply, asRead, show (0 : Word).toNat = 0 from rfl, Nat.mul_zero, Nat.add_zero,
    Nat.zero_min]

theorem fetch_next {i : Word} {before : Nat} (next : i.toNat = before + 1) :
    table.fetch i (table.asRead blank before) = table.asRead blank i.toNat := by
  funext k
  simp only [fetch_apply, asRead]
  have spread : table.base.toNat + 12 * i.toNat + k = table.base.toNat + k + 12 * i.toNat := by
    omega
  rw [spread]
  generalize table.base.toNat + (k : Nat) = first
  by_cases begun : first < table.image.size
  case neg => rw [if_neg (by omega), if_neg begun, if_neg begun]
  case pos =>
    rw [if_pos begun, if_pos begun]
    by_cases inside : first + 12 * i.toNat < table.image.size
    case pos => rw [if_pos inside, Nat.min_eq_left (by omega)]
    case neg =>
      rw [if_neg inside, Nat.min_eq_right (by omega), Nat.min_eq_right (by omega)]

def Fetched (table : Table Result) (blank : Buffer 12) (s : Listing Result) : Prop :=
  s.entry = table.asRead blank s.i.toNat

theorem Fetched.pass {s : Listing Result} (fetched : Fetched table blank s) :
    Fetched table blank (table.loop.pass s) := by
  change table.fetch (s.i + 1) s.entry = table.asRead blank (s.i + 1).toNat
  rw [fetched]
  have range := s.i.isLt
  have sum : (s.i + 1).toNat = (s.i.toNat + 1) % 2 ^ 32 := BitVec.toNat_add s.i 1
  by_cases wraps : s.i.toNat + 1 = 2 ^ 32
  case pos =>
    have zero : s.i + 1 = 0 := BitVec.eq_of_toNat_eq (by rw [sum, wraps]; rfl)
    rw [zero, fetch_first]
    rfl
  case neg =>
    rw [Nat.mod_eq_of_lt (by omega)] at sum
    exact fetch_next sum

theorem fetched_start : Fetched table blank (table.start blank) :=
  Fetched.pass (s := ⟨0, table.fetch 0 blank, []⟩) fetch_blank

theorem fetched_iterate (passes : Nat) :
    Fetched table blank (table.loop.pass^[passes] (table.start blank)) ∧
      (table.loop.pass^[passes] (table.start blank)).i = 1 + BitVec.ofNat 32 passes := by
  induction passes with
  | zero => exact ⟨fetched_start, rfl⟩
  | succ passes ih =>
      rw [Function.iterate_succ_apply']
      refine ⟨ih.1.pass, ?_⟩
      change (table.loop.pass^[passes] (table.start blank)).i + 1 = _
      rw [ih.2, BitVec.ofNat_add, BitVec.add_assoc]
      rfl

theorem returns_iff : table.loop.Returns (table.start blank) ↔
    ∃ i : Word, table.last (table.asRead blank i.toNat) = true := by
  constructor
  · intro returns
    obtain ⟨s, visited, ended⟩ := returns.visits
    have fetched : Fetched table blank s :=
      visited.invariant (Fetched table blank) fetched_start fun _ _ kept _ => kept.pass
    refine ⟨s.i, ?_⟩
    rw [← fetched]
    simpa [loop] using ended
  · rintro ⟨i, found⟩
    obtain ⟨fetched, place⟩ := @fetched_iterate _ table blank (i - 1).toNat
    apply Loop.returns_of_end _ (i - 1).toNat
    have index : (table.loop.pass^[(i - 1).toNat] (table.start blank)).i = i := by
      rw [place, BitVec.ofNat_toNat, BitVec.setWidth_eq, BitVec.add_comm, BitVec.sub_add_cancel]
    change (!table.last _) = false
    rw [fetched, index, found]
    rfl

end Table

structure TraceEntry where
  name : List Byte
  nid : Word
  isSyscall : Bool

def traceTable (image : Image) (heap : Memory) (textSegOffset entriesStart slide : Word) :
    Table TraceEntry where
  image := image
  base := textSegOffset + entriesStart
  last entry := entry.memory.word 4 == 0xFFFFFFFF
  use entry :=
    { name := pathOf (image.read (textSegOffset + entry.memory.word 8 - slide).toNat heap)
      nid := entry.memory.word 4
      isSyscall := entry.memory.word 0 != 0 }

def stuck : Image where
  bytes := (headed 0x200).storeWord 0x1D0 0xFFFFFEFC
  size := 0x308

def cut : Image where
  bytes := ((headed 0x200).storeWord 0x44 0x300).storeWord 0x1EC 0x81000100
  size := 0x1F8

theorem fread_inside {n pos : Nat} {image : Image} {buffer : Buffer n}
    (inside : pos + n ≤ image.size) :
    image.fread pos buffer = fun k : Fin n => image.bytes (pos + k) :=
  funext fun k => Image.read_inside (by omega)

theorem stuck_circle (c : Cursor) (place : c.1 = 0xC8) :
    (cursorLoop plainHost stuck 0x108 0x200).Follows c
      (0xC8, fun k : Fin 260 => stuck.bytes (0x1D0 + k)) := by
  have pos : ((0x108 : Word) + 0xC8).toNat = 0x1D0 := by decide
  have header : stuck.fread 0x1D0 (plainHost.recycle c.2) =
      fun k : Fin 260 => stuck.bytes (0x1D0 + k) := fread_inside (by decide)
  have size : (stuck.fread 0x1D0 (plainHost.recycle c.2)).memory.word 0 = 0xFFFFFEFC := by
    rw [fread_word (by decide) (by decide)]
    decide +kernel
  refine ⟨?_, Prod.ext ?_ ?_⟩
  · change decide (0x108 + c.1 < (0x200 : Word)) = true
    rw [place]
    decide
  · change (0xC8 : Word) = c.1 + (260 + (stuck.fread (0x108 + c.1).toNat _).memory.word 0)
    rw [place, pos, size]
    decide
  · change _ = stuck.fread (0x108 + c.1).toNat _
    rw [place, pos, header]

theorem cut_first (i : Nat) (blank : Buffer 12) :
    (newTable plainHost cut false 0x108).asRead blank i =
      (newTable plainHost cut false 0x108).asRead blank 0 := by
  funext k
  have base : (newTable plainHost cut false 0x108).base.toNat = 0x1EC := by decide
  have size : (newTable plainHost cut false 0x108).image.size = 0x1F8 := rfl
  have small := k.isLt
  have last : (0x1F8 - (0x1EC + (k : Nat)) - 1) / 12 = 0 := by omega
  simp only [Table.asRead, base, size, last, Nat.min_zero]

end VitaTools.Bootimage
