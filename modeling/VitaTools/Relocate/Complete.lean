import VitaTools.Relocate.Model

set_option autoImplicit false

namespace VitaTools.Relocate

open VitaTools.Library

variable (size : Word) (segs : Nat → Phdr)

/-- The displacement of a branch entry lies in the accepted range. -/
def Entry.InRange (entry : Entry) : Prop :=
  (entry.code = .thmCall →
    branchFits (entry.addend + entry.symval segs - entry.loc segs) 0x01000000 = true) ∧
  (entry.code = .call ∨ entry.code = .jump24 →
    branchFits (entry.addend + entry.symval segs - entry.loc segs) 0x02000000 = true)

/-- A supported code, data segment 0 or 1, a value in range and a target inside its segment. -/
structure Entry.Eligible (entry : Entry) : Prop where
  supported : ¬ (entry.code = .none ∨ entry.code = .unknown)
  datseg : entry.datseg ≤ 1
  inRange : entry.InRange segs
  inside : entry.offset.toNat + 4 ≤ (segs entry.datseg).pMemsz.toNat

def Entry.Covers (entry : Entry) (segment : Segment) (address : Nat) : Prop :=
  entry.segment = segment ∧ entry.offset.toNat ≤ address ∧ address < entry.offset.toNat + 4

/-- The entry gets past all three tests that keep `uvl_relocate` from writing. -/
structure Entry.Writes (entry : Entry) : Prop where
  reached : ¬ size < entry.offset
  supported : ¬ (entry.code = .none ∨ entry.code = .unknown)
  fits : ¬ (segs entry.datseg).pMemsz < entry.offset + 4

theorem computed_of_inRange {entry : Entry}
    (supported : ¬ (entry.code = .none ∨ entry.code = .unknown)) (inRange : entry.InRange segs)
    (image : Image) : ∃ value, entry.computed segs image = some value := by
  obtain ⟨thumb, arm⟩ := inRange
  unfold Entry.computed newValue
  cases code : entry.code <;> simp only [code] at supported thumb arm ⊢
  case none => exact absurd (.inl trivial) supported
  case unknown => exact absurd (.inr trivial) supported
  case thmCall => exact ⟨_, if_pos (thumb trivial)⟩
  case call => exact ⟨_, if_pos (arm (.inl trivial))⟩
  case jump24 => exact ⟨_, if_pos (arm (.inr trivial))⟩
  all_goals exact ⟨_, rfl⟩

theorem Entry.Eligible.writes {entry : Entry} (eligible : entry.Eligible segs)
    (reached : ¬ size < entry.offset) : entry.Writes size segs where
  reached := reached
  supported := eligible.supported
  fits := by
    have inside := eligible.inside
    have small := (segs entry.datseg).pMemsz.isLt
    have four : (4 : Word).toNat = 4 := rfl
    rw [BitVec.lt_def, BitVec.toNat_add, four]
    omega

theorem relocateEntry_writes {entry : Entry} (writes : entry.Writes size segs) (image : Image) :
    relocateEntry size segs image entry =
      let value := (entry.computed segs image).getD image.value
      ({ value := value
         seg := Function.update image.seg entry.segment
          ((image.seg entry.segment).storeWord entry.offset.toNat value) }, .written) := by
  unfold relocateEntry
  rw [if_neg writes.reached, if_neg writes.supported]
  simp only [uvlSegmentWrite, if_neg writes.fits]

theorem relocateEntry_silent {entry : Entry} (silent : ¬ entry.Writes size segs) (image : Image) :
    (relocateEntry size segs image entry).1.seg = image.seg ∧
      (relocateEntry size segs image entry).2 ≠ .written := by
  unfold relocateEntry
  split_ifs with skipped ignored
  · exact ⟨rfl, nofun⟩
  · exact ⟨rfl, nofun⟩
  · have overflows : (segs entry.datseg).pMemsz < entry.offset + 4 := by
      by_contra fits
      exact silent ⟨skipped, ignored, fits⟩
    simp only [uvlSegmentWrite, if_pos overflows]
    exact ⟨trivial, nofun⟩

theorem relocateEntry_outside (entry : Entry) (image : Image) (segment : Segment) (address : Nat)
    (apart : entry.Writes size segs → ¬ entry.Covers segment address) :
    (relocateEntry size segs image entry).1.seg segment address = image.seg segment address := by
  by_cases writes : entry.Writes size segs
  · rw [relocateEntry_writes size segs writes]
    dsimp only
    by_cases same : segment = entry.segment
    · subst same
      rw [Function.update_self, Memory.storeWord_outside]
      by_contra within
      exact apart writes ⟨rfl, by omega, by omega⟩
    · rw [Function.update_of_ne same]
  · rw [(relocateEntry_silent size segs writes image).1]

theorem relocateAll_outside (table : List Entry) (image : Image) (segment : Segment)
    (address : Nat)
    (apart : ∀ entry ∈ table, entry.Writes size segs → ¬ entry.Covers segment address) :
    (relocateAll size segs image table).seg segment address = image.seg segment address := by
  induction table generalizing image with
  | nil => rfl
  | cons entry rest ih =>
      rw [relocateAll, List.foldl_cons]
      rw [show rest.foldl _ _ = relocateAll size segs (relocateEntry size segs image entry).1 rest
        from rfl]
      rw [ih _ fun later member => apart later (List.mem_cons_of_mem _ member)]
      exact relocateEntry_outside size segs entry image segment address
        (apart entry List.mem_cons_self)

theorem relocateAll_append (before after : List Entry) (image : Image) :
    relocateAll size segs image (before ++ after) =
      relocateAll size segs (relocateAll size segs image before) after := List.foldl_append

/-- Every eligible entry is carried out, and each byte of its target ends up as the byte of
the value computed for it, unless a later eligible entry covers that byte too. -/
structure Complete (image : Image) (table : List Entry) : Prop where
  carriedOut : ∀ before entry after, table = before ++ entry :: after →
    entry.Eligible segs →
    (relocateEntry size segs (relocateAll size segs image before) entry).2 = .written
  lasting : ∀ before entry after, table = before ++ entry :: after →
    entry.Eligible segs → ∀ k < 4,
    (∀ later ∈ after, later.Eligible segs →
      ¬ later.Covers entry.segment (entry.offset.toNat + k)) →
    ∃ value, entry.computed segs (relocateAll size segs image before) = some value ∧
      (relocateAll size segs image table).seg entry.segment (entry.offset.toNat + k) =
        value.extractLsb' (8 * k) 8

/-- No eligible entry lies behind an offset of the table's own size. -/
def Reached (table : List Entry) : Prop :=
  ∀ entry ∈ table, entry.Eligible segs → entry.offset ≤ size

/-- No entry that is not eligible writes over the target of an eligible one before it. -/
def Undisturbed (table : List Entry) : Prop :=
  table.Pairwise fun entry later => entry.Eligible segs → ¬ later.Eligible segs →
    later.Writes size segs → ∀ k < 4, ¬ later.Covers entry.segment (entry.offset.toNat + k)

theorem complete_of_reached {table : List Entry} (image : Image)
    (reached : Reached size segs table) (undisturbed : Undisturbed size segs table) :
    Complete size segs image table := by
  have writes : ∀ before entry after, table = before ++ entry :: after →
      entry.Eligible segs → entry.Writes size segs := by
    intro before entry after split eligible
    have bound := reached entry (by simp [split]) eligible
    exact eligible.writes size segs (BitVec.not_lt.mpr bound)
  constructor
  · intro before entry after split eligible
    rw [relocateEntry_writes size segs (writes before entry after split eligible)]
  · intro before entry after split eligible k inside last
    obtain ⟨value, computed⟩ :=
      computed_of_inRange segs eligible.supported eligible.inRange
        (relocateAll size segs image before)
    refine ⟨value, computed, ?_⟩
    have apart : ∀ later ∈ after, later.Writes size segs →
        ¬ later.Covers entry.segment (entry.offset.toNat + k) := by
      intro later member laterWrites
      by_cases laterEligible : later.Eligible segs
      · exact last later member laterEligible
      · unfold Undisturbed at undisturbed
        rw [split, List.pairwise_append] at undisturbed
        have pair := (List.pairwise_cons.mp undisturbed.2.1).1 later member
        exact pair eligible laterEligible laterWrites k inside
    rw [split, relocateAll_append, relocateAll, List.foldl_cons]
    rw [show after.foldl _ _ = relocateAll size segs
      (relocateEntry size segs (relocateAll size segs image before) entry).1 after from rfl]
    rw [relocateAll_outside size segs after _ _ _ apart,
      relocateEntry_writes size segs (writes before entry after split eligible), computed]
    simp only [Option.getD_some, Function.update_self]
    exact Memory.storeWord_byte _ _ _ k inside

theorem reached_of_complete {table : List Entry} {image : Image}
    (complete : Complete size segs image table) : Reached size segs table := by
  intro entry member eligible
  obtain ⟨before, after, split⟩ := List.append_of_mem member
  have written := complete.carriedOut before entry after split eligible
  by_contra beyond
  unfold relocateEntry at written
  rw [if_pos (BitVec.not_le.mp beyond)] at written
  contradiction

theorem entries_end (reloc : Memory) (room : size.toNat + 12 ≤ 2 ^ 32) (extra passes pos : Nat)
    (enough : size.toNat ≤ pos + 8 * passes) :
    entries reloc size (passes + extra) pos = entries reloc size passes pos := by
  induction passes generalizing pos with
  | zero =>
      cases extra with
      | zero => rfl
      | succ extra =>
          rw [Nat.zero_add]
          exact if_neg (by omega)
  | succ passes ih =>
      rw [Nat.succ_add]
      dsimp only [entries]
      split_ifs with more
      · have length : (entryAt reloc pos).2 = 8 ∨ (entryAt reloc pos).2 = 12 := by
          dsimp only [entryAt]
          split_ifs
          · exact .inl rfl
          · exact .inr rfl
        have next : (pos + (entryAt reloc pos).2) % 2 ^ 32 = pos + (entryAt reloc pos).2 :=
          Nat.mod_eq_of_lt (by omega)
        rw [next, ih (pos + (entryAt reloc pos).2) (by omega)]
      · rfl

theorem uvlRelocate_passes (reloc : Memory) (image : Image) (room : size.toNat + 12 ≤ 2 ^ 32)
    (extra : Nat) :
    relocateAll size segs image (entries reloc size (size.toNat / 8 + 1 + extra) 0) =
      uvlRelocate size segs reloc image := by
  rw [entries_end size reloc room extra _ 0 (by omega)]
  rfl

/-- After any number of passes over any table: if no eligible entry has an offset above
`size` and no other entry disturbs them, all eligible entries have taken effect; and no
eligible entry may have an offset above `size` for that. `uvl_relocate` takes as many passes as
it needs. -/
theorem uvlRelocate_complete (reloc : Memory) (image : Image) (passes : Nat) :
    (Reached size segs (entries reloc size passes 0) ∧
        Undisturbed size segs (entries reloc size passes 0) →
      Complete size segs image (entries reloc size passes 0)) ∧
    (Complete size segs image (entries reloc size passes 0) →
      Reached size segs (entries reloc size passes 0)) ∧
    (size.toNat + 12 ≤ 2 ^ 32 → size.toNat / 8 < passes →
      relocateAll size segs image (entries reloc size passes 0) =
        uvlRelocate size segs reloc image) := by
  refine ⟨?_, reached_of_complete size segs, ?_⟩
  · rintro ⟨reached, undisturbed⟩
    exact complete_of_reached size segs image reached undisturbed
  · intro room enough
    have split : passes = size.toNat / 8 + 1 + (passes - (size.toNat / 8 + 1)) := by omega
    rw [split]
    exact uvlRelocate_passes size segs reloc image room _

/-- A table of one long `R_ARM_ABS32` entry for the word at offset 16 of the text segment. -/
def farTable : Memory := fun k =>
  ([0xF0, 0x02, 0, 0, 0x78, 0x56, 0x34, 0x12, 0x10, 0, 0, 0] : List Byte).getD k 0

def farSegs : Nat → Phdr := fun _ => ⟨0, 32⟩

def blank : Image := ⟨fun _ _ => 0, 0⟩

/-- Its offset is above the 12 bytes of the table, so it is skipped. -/
theorem farTable_skipped :
    (uvlRelocate 12 farSegs farTable blank).seg .text 16 = 0 ∧
      ¬ Complete 12 farSegs blank (entries farTable 12 2 0) := by
  refine ⟨by decide, ?_⟩
  intro complete
  have table : entries farTable 12 2 0 = [] ++ ⟨.abs32, 15, 0, 16, 0x12345678⟩ :: [] := by decide
  have eligible : Entry.Eligible farSegs ⟨.abs32, 15, 0, 16, 0x12345678⟩ :=
    ⟨by decide, by decide, ⟨by decide, by decide⟩, by decide⟩
  have written := complete.carriedOut _ _ _ table eligible
  exact absurd written (by decide)

end VitaTools.Relocate
