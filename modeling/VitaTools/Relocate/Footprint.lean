import VitaTools.Relocate.Patch

set_option autoImplicit false

namespace VitaTools.Relocate

open VitaTools.Library

variable (size : Word) (segs : Nat → Phdr)

/-- The displacement of a branch entry is the one that is logged as out of range. -/
structure Entry.OutOfRange (entry : Entry) : Prop where
  branch : entry.code = .thmCall ∨ entry.code = .call ∨ entry.code = .jump24
  far : ¬ entry.InRange segs

theorem computed_of_outOfRange {entry : Entry} (outOfRange : entry.OutOfRange segs)
    (image : Image) : entry.computed segs image = none := by
  obtain ⟨branch, far⟩ := outOfRange
  unfold Entry.InRange at far
  unfold Entry.computed newValue
  rcases branch with code | code | code <;> simp [code] at far ⊢ <;> exact far

theorem relocateEntry_inert_iff {entry : Entry} (outOfRange : entry.OutOfRange segs)
    (image : Image) : (relocateEntry size segs image entry).1.seg = image.seg ↔
      (entry.Writes size segs →
        (image.seg entry.segment).word entry.offset.toNat = image.value) := by
  by_cases writes : entry.Writes size segs
  · rw [relocateEntry_writes size segs writes, computed_of_outOfRange segs outOfRange]
    simp only [Option.getD_none, writes, true_imp_iff, Function.update_eq_self_iff]
    constructor
    · intro same
      rw [← same, Memory.word_storeWord]
    · intro same
      rw [← same, Memory.storeWord_word]
  · rw [(relocateEntry_silent size segs writes image).1]
    simp only [writes, false_imp_iff]

/-- No branch entry of the table that is out of range changes a segment. -/
def Inert (image : Image) (table : List Entry) : Prop :=
  ∀ before entry after, table = before ++ entry :: after → entry.OutOfRange segs →
    (relocateAll size segs image (before ++ [entry])).seg =
      (relocateAll size segs image before).seg

/-- The out-of-range entries of a table are inert exactly when each that gets as far as
writing finds at its target the value that the entries before it have left. -/
theorem inert_iff (image : Image) (table : List Entry) :
    Inert size segs image table ↔ ∀ before entry after, table = before ++ entry :: after →
      entry.OutOfRange segs → entry.Writes size segs →
        ((relocateAll size segs image before).seg entry.segment).word entry.offset.toNat =
          (relocateAll size segs image before).value := by
  unfold Inert
  simp only [relocateAll_append]
  constructor
  · intro inert before entry after split outOfRange
    exact (relocateEntry_inert_iff size segs outOfRange _).mp
      (inert before entry after split outOfRange)
  · intro left before entry after split outOfRange
    exact (relocateEntry_inert_iff size segs outOfRange _).mpr
      (left before entry after split outOfRange)

def staleTable : Memory := fun k =>
  ([0xF0, 0x02, 0, 0, 0x78, 0x56, 0x34, 0x12, 0, 0, 0, 0,
    0xF0, 0x1C, 0, 0, 0xFF, 0xFF, 0xFF, 0x7F, 8, 0, 0, 0] : List Byte).getD k 0

-- The call is not changed to a call, but overwritten with the word.
theorem staleTable_not_inert :
    ((uvlRelocate 24 farSegs staleTable blank).seg .text).word 8 = 0x12345678 ∧
      ¬ Inert 24 farSegs blank (entries staleTable 24 4 0) := by
  refine ⟨by decide, fun inert => ?_⟩
  have table : entries staleTable 24 4 0 = [⟨.abs32, 15, 0, 0, 0x12345678⟩] ++
      ⟨.call, 15, 0, 8, 0x7FFFFFFF⟩ :: [] := by decide
  have same := inert _ _ _ table ⟨by decide, by unfold Entry.InRange; decide⟩
  have word := congrArg (fun seg => (seg .text).word 8) same
  exact absurd word (by decide)

def Code.readsOld (code : Code) (offset : Word) : Bool :=
  match code with
  | .v4bx | .thmCall | .movwAbsNc | .movtAbs | .thmMovwAbsNc | .thmMovtAbs => true
  | .call | .jump24 => branchFits offset 0x02000000
  | .none | .abs32 | .rel32 | .target1 | .target2 | .prel31 | .unknown => false

def Entry.readsOld (entry : Entry) : Bool :=
  entry.code.readsOld (entry.addend + entry.symval segs - entry.loc segs)

-- `curr_data_seg + loc - p_vaddr` in bytes behind `curr_data_seg`: on a 64-bit host the two
-- 32-bit values are added and subtracted without wrapping.
def Entry.readAt (entry : Entry) : Int :=
  ((entry.loc segs).toNat : Int) - (segs entry.datseg).pVaddr.toNat

/-- The byte is one of the four that the case of the entry reads. -/
def Entry.Reads (entry : Entry) (segment : Segment) (address : Int) : Prop :=
  ¬ size < entry.offset ∧ entry.readsOld segs = true ∧ entry.segment = segment ∧
    entry.readAt segs ≤ address ∧ address < entry.readAt segs + 4

/-- The byte is one of the four that `uvl_segment_write` stores. -/
def Entry.Stores (entry : Entry) (segment : Segment) (address : Nat) : Prop :=
  entry.Writes size segs ∧ entry.Covers segment address

/-- The target lies below 2^32 in the address space of the module. -/
def Entry.Straight (entry : Entry) : Prop :=
  (segs entry.datseg).pVaddr.toNat + entry.offset.toNat < 2 ^ 32

theorem readAt_straight {entry : Entry} (straight : entry.Straight segs) :
    entry.readAt segs = entry.offset.toNat := by
  unfold Entry.Straight at straight
  have sum : (entry.loc segs).toNat =
      (segs entry.datseg).pVaddr.toNat + entry.offset.toNat := by
    rw [Entry.loc, BitVec.toNat_add, Nat.mod_eq_of_lt straight]
  unfold Entry.readAt
  omega

theorem readAt_wrapped {entry : Entry} (wrapped : ¬ entry.Straight segs) :
    entry.readAt segs < 0 := by
  unfold Entry.Straight at wrapped
  have base := (segs entry.datseg).pVaddr.isLt
  have offset := entry.offset.isLt
  have sum : (entry.loc segs).toNat =
      (segs entry.datseg).pVaddr.toNat + entry.offset.toNat - 2 ^ 32 := by
    rw [Entry.loc, BitVec.toNat_add, Nat.mod_eq_sub_mod (by omega), Nat.mod_eq_of_lt (by omega)]
  unfold Entry.readAt
  omega

theorem readsOld_code {entry : Entry} (reads : entry.readsOld segs = true) :
    entry.code ≠ .none ∧ entry.code ≠ .unknown := by
  constructor <;> intro code <;> simp [Entry.readsOld, Code.readsOld, code] at reads

theorem computed_congr (entry : Entry) {first second : Image}
    (same : entry.readsOld segs = true → ∀ address : Nat, entry.offset.toNat ≤ address →
      address < entry.offset.toNat + 4 →
        first.seg entry.segment address = second.seg entry.segment address) :
    entry.computed segs first = entry.computed segs second := by
  unfold Entry.computed
  rw [newValue_patches, newValue_patches _ (second.seg entry.segment)]
  by_cases reads : entry.readsOld segs = true
  · rw [loc_sub, Memory.word_congr (same reads)]
  · unfold Entry.readsOld Code.readsOld at reads
    cases code : entry.code <;> simp [code] at reads
    all_goals simp [newValue, Code.kept, reads]

theorem relocateEntry_stores (entry : Entry) (image : Image) (segment : Segment) (address : Nat)
    (apart : ¬ entry.Stores size segs segment address) :
    (relocateEntry size segs image entry).1.seg segment address = image.seg segment address :=
  relocateEntry_outside size segs entry image segment address fun writes covers =>
    apart ⟨writes, covers⟩

def Segment.index : Segment → Nat
  | .text => 0
  | .data => 1

/-- The byte is one of the four at the entry's offset in its data segment, which has them. -/
structure Entry.Own (entry : Entry) (segment : Segment) (address : Nat) : Prop where
  segment : segment.index = entry.datseg
  low : entry.offset.toNat ≤ address
  high : address < entry.offset.toNat + 4
  inside : entry.offset.toNat + 4 ≤ (segs entry.datseg).pMemsz.toNat

/-- The entry reads and writes its own target only, its value depends on nothing else in the
segments, and all other bytes stay as they are. -/
structure OwnOnly (image : Image) (entry : Entry) : Prop where
  reads : ∀ segment address, entry.Reads size segs segment address →
    ∃ own : Nat, address = own ∧ entry.Own segs segment own
  value : ∀ other : Image, ¬ size < entry.offset →
    (∀ segment address, entry.Own segs segment address →
      image.seg segment address = other.seg segment address) →
    entry.computed segs image = entry.computed segs other
  stores : ∀ segment address, entry.Stores size segs segment address →
    entry.Own segs segment address
  frame : ∀ segment address, ¬ entry.Own segs segment address →
    (relocateEntry size segs image entry).1.seg segment address = image.seg segment address

/-- The entry is passed over, or its target lies inside segment 0 or 1 (and below 2^32 where the
old word is looked at), or its code does not look at the old word and `uvl_segment_write`
rejects it. -/
def Entry.Contained (entry : Entry) : Prop :=
  size < entry.offset ∨ entry.code = .none ∨ entry.code = .unknown ∨
    (entry.datseg ≤ 1 ∧ entry.offset.toNat + 4 ≤ (segs entry.datseg).pMemsz.toNat ∧
      (entry.readsOld segs = true → entry.Straight segs)) ∨
    (entry.readsOld segs = false ∧ (segs entry.datseg).pMemsz < entry.offset + 4)

theorem index_segment {entry : Entry} (low : entry.datseg ≤ 1) :
    entry.segment.index = entry.datseg := by
  unfold Entry.segment
  split_ifs with other
  · exact Nat.le_antisymm (Nat.pos_of_ne_zero other) low
  · exact (not_not.mp other).symm

theorem own_of_covers {entry : Entry} (low : entry.datseg ≤ 1)
    (inside : entry.offset.toNat + 4 ≤ (segs entry.datseg).pMemsz.toNat) {segment : Segment}
    {address : Nat} (covers : entry.Covers segment address) : entry.Own segs segment address where
  segment := covers.1 ▸ index_segment low
  low := covers.2.1
  high := covers.2.2
  inside := inside

theorem Entry.Own.contained {entry : Entry} {segment : Segment} {address : Nat}
    (own : entry.Own segs segment address)
    (straight : entry.readsOld segs = true → entry.Straight segs) :
    entry.Contained size segs := by
  refine .inr (.inr (.inr (.inl ⟨?_, own.inside, straight⟩)))
  rw [← own.segment]
  cases segment <;> decide

/-- An entry keeps to its own target exactly when it is contained, in whatever state. -/
theorem ownOnly_iff (image : Image) (entry : Entry) :
    OwnOnly size segs image entry ↔ entry.Contained size segs := by
  constructor
  · intro own
    by_cases reached : size < entry.offset
    · exact .inl reached
    by_cases reads : entry.readsOld segs = true
    · obtain ⟨address, at_address, first⟩ :=
        own.reads entry.segment _ ⟨reached, reads, rfl, le_refl _, by omega⟩
      refine Entry.Own.contained size segs first fun _ => ?_
      by_contra wrapped
      have below := readAt_wrapped segs wrapped
      omega
    by_cases writes : entry.Writes size segs
    · have first := own.stores entry.segment _ ⟨writes, rfl, le_refl _, by omega⟩
      exact Entry.Own.contained size segs first fun old => absurd old reads
    by_cases supported : entry.code = .none ∨ entry.code = .unknown
    · exact supported.elim (fun code => .inr (.inl code)) fun code => .inr (.inr (.inl code))
    have rejected : (segs entry.datseg).pMemsz < entry.offset + 4 := by
      by_contra fits
      exact writes ⟨reached, supported, fits⟩
    exact .inr (.inr (.inr (.inr ⟨Bool.eq_false_iff.mpr reads, rejected⟩)))
  · intro contained
    have stores : ∀ segment address, entry.Stores size segs segment address →
        entry.Own segs segment address := by
      intro segment address ⟨writes, covers⟩
      rcases contained with reached | code | code | ⟨low, inside, _⟩ | ⟨_, rejected⟩
      · exact absurd reached writes.reached
      · exact absurd (.inl code) writes.supported
      · exact absurd (.inr code) writes.supported
      · exact own_of_covers segs low inside covers
      · exact absurd rejected writes.fits
    constructor
    next =>
      intro segment address ⟨passed, reads, same, lower, upper⟩
      rcases contained with reached | code | code | ⟨low, inside, straight⟩ | ⟨blind, _⟩
      · exact absurd reached passed
      · exact absurd code (readsOld_code segs reads).1
      · exact absurd code (readsOld_code segs reads).2
      · rw [readAt_straight segs (straight reads)] at lower upper
        exact ⟨address.toNat, by omega,
          own_of_covers segs low inside ⟨same, by omega, by omega⟩⟩
      · rw [blind] at reads
        contradiction
    next =>
      intro other passed agree
      refine computed_congr segs entry fun reads address low high => ?_
      rcases contained with reached | code | code | ⟨lowSegment, inside, _⟩ | ⟨blind, _⟩
      · exact absurd reached passed
      · exact absurd code (readsOld_code segs reads).1
      · exact absurd code (readsOld_code segs reads).2
      · exact agree _ _ (own_of_covers segs lowSegment inside ⟨rfl, low, high⟩)
      · rw [blind] at reads
        contradiction
    next => exact stores
    next =>
      intro segment address other
      exact relocateEntry_stores size segs entry image segment address fun stored =>
        other (stores segment address stored)

def strayTable : Memory := fun k =>
  ([0xF0, 0x02, 0x02, 0, 0x78, 0x56, 0x34, 0x12, 0, 0, 0, 0,
    0xF0, 0x2B, 0, 0, 0, 0, 0, 0, 6, 0, 0, 0] : List Byte).getD k 0

def shortSegs : Nat → Phdr := fun _ => ⟨0, 8⟩

-- A segment that ends behind 2^32.
def highSegs : Nat → Phdr := fun _ => ⟨0xFFFFFFF0, 0x40⟩

-- The word is written into segment 1, and the MOVW is looked at behind the end; a MOVW behind
-- 2^32 is looked at in front of the segment.
theorem strayTable_not_own :
    entries strayTable 24 4 0 = [⟨.abs32, 15, 2, 0, 0x12345678⟩, ⟨.movwAbsNc, 15, 0, 6, 0⟩] ∧
      ¬ OwnOnly 24 shortSegs blank ⟨.abs32, 15, 2, 0, 0x12345678⟩ ∧
      (uvlRelocate 24 shortSegs strayTable blank).seg .data 0 = 0x78 ∧
      ¬ OwnOnly 24 shortSegs blank ⟨.movwAbsNc, 15, 0, 6, 0⟩ ∧
      ¬ OwnOnly 24 highSegs blank ⟨.movwAbsNc, 15, 0, 0x10, 0⟩ := by
  refine ⟨by decide, fun own => ?_, by decide, fun own => ?_, fun own => ?_⟩
  · have stored := own.stores .data 0 ⟨⟨by decide, by decide, by decide⟩, by decide, by decide,
      by decide⟩
    exact absurd stored.segment (by decide)
  · obtain ⟨_, _, read⟩ :=
      own.reads .text 6 ⟨by decide, by decide, by decide, by decide, by decide⟩
    exact absurd read.inside (by decide)
  · obtain ⟨_, below, _⟩ := own.reads .text (0x10 - 2 ^ 32)
      ⟨by decide, by decide, by decide, by decide, by decide⟩
    omega

end VitaTools.Relocate
