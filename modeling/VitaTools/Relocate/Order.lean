import Mathlib.Data.List.Pairwise
import VitaTools.Relocate.Patch

set_option autoImplicit false

namespace VitaTools.Relocate

open VitaTools.Library

variable (size : Word) (segs : Nat → Phdr)

def Entry.patched (entry : Entry) (word : Word) : Word :=
  ((newValue entry.code zeros 0 (entry.symval segs) entry.addend (entry.loc segs)).map
    fun fields => (word &&& entry.code.kept) ||| fields).getD 0

theorem patched_patched (entry : Entry) (word : Word) :
    entry.patched segs (entry.patched segs word) = entry.patched segs word := by
  unfold Entry.patched
  cases newValue entry.code zeros 0 (entry.symval segs) entry.addend (entry.loc segs) with
  | none => rfl
  | some fields =>
      simp only [Option.map_some, Option.getD_some]
      apply BitVec.eq_of_getLsbD_eq
      intro i small
      simp only [BitVec.getLsbD_or, BitVec.getLsbD_and]
      cases word.getLsbD i <;> cases entry.code.kept.getLsbD i <;> cases fields.getLsbD i <;> rfl

def carryOut (seg : Segment → Memory) (entry : Entry) : Segment → Memory :=
  (relocateEntry size segs ⟨seg, 0⟩ entry).1.seg

theorem carryOut_silent {entry : Entry} (silent : ¬ entry.Writes size segs)
    (seg : Segment → Memory) : carryOut size segs seg entry = seg :=
  (relocateEntry_silent size segs silent ⟨seg, 0⟩).1

theorem carryOut_writes {entry : Entry} (writes : entry.Writes size segs)
    (seg : Segment → Memory) :
    carryOut size segs seg entry = Function.update seg entry.segment
      ((seg entry.segment).storeWord entry.offset.toNat
        (entry.patched segs ((seg entry.segment).word entry.offset.toNat))) := by
  rw [carryOut, relocateEntry_writes size segs writes, Entry.computed, loc_sub, newValue_patches,
    Entry.patched]

theorem relocateEntry_seg {entry : Entry} (inRange : entry.InRange segs) (image : Image) :
    (relocateEntry size segs image entry).1.seg = carryOut size segs image.seg entry := by
  by_cases writes : entry.Writes size segs
  · obtain ⟨value, computed⟩ := computed_of_inRange segs writes.supported inRange image
    have same : entry.computed segs ⟨image.seg, 0⟩ = some value := computed
    rw [carryOut, relocateEntry_writes size segs writes, relocateEntry_writes size segs writes,
      computed, same]
    rfl
  · rw [carryOut_silent size segs writes, (relocateEntry_silent size segs writes image).1]

theorem carryOut_carryOut (entry : Entry) (seg : Segment → Memory) :
    carryOut size segs (carryOut size segs seg entry) entry = carryOut size segs seg entry := by
  by_cases writes : entry.Writes size segs
  · rw [carryOut_writes size segs writes, carryOut_writes size segs writes]
    simp only [Function.update_self, Function.update_idem, Memory.word_storeWord,
      patched_patched, Memory.storeWord_storeWord]
  · rw [carryOut_silent size segs writes, carryOut_silent size segs writes]

def Entry.Apart (entry later : Entry) : Prop :=
  entry.segment = later.segment →
    entry.offset.toNat + 4 ≤ later.offset.toNat ∨ later.offset.toNat + 4 ≤ entry.offset.toNat

instance : Std.Symm Entry.Apart where
  symm _ _ apart same := (apart same.symm).symm

theorem carryOut_comm {first second : Entry} (apart : first.Apart second)
    (seg : Segment → Memory) :
    carryOut size segs (carryOut size segs seg first) second =
      carryOut size segs (carryOut size segs seg second) first := by
  by_cases writes : first.Writes size segs
  · by_cases writes' : second.Writes size segs
    · simp only [carryOut_writes size segs writes, carryOut_writes size segs writes']
      by_cases same : first.segment = second.segment
      · have far := apart same
        rw [same]
        simp only [Function.update_self, Function.update_idem]
        rw [Memory.word_storeWord_apart _ _ _ _ (by omega),
          Memory.word_storeWord_apart _ _ _ _ (by omega),
          Memory.storeWord_comm _ _ _ _ _ (by omega)]
      · rw [Function.update_of_ne (Ne.symm same), Function.update_of_ne same,
          Function.update_comm same]
    · simp only [carryOut_silent size segs writes']
  · simp only [carryOut_silent size segs writes]

/-- Data segments 0 and 1 only, no branch out of range, all targets inside their segments and
no two of them overlapping. -/
structure Orderly (table : List Entry) : Prop where
  datseg : ∀ entry ∈ table, entry.datseg ≤ 1
  inRange : ∀ entry ∈ table, entry.InRange segs
  inside : ∀ entry ∈ table, entry.offset.toNat + 4 ≤ (segs entry.datseg).pMemsz.toNat
  apart : table.Pairwise Entry.Apart

theorem relocateAll_seg {table : List Entry} (inRange : ∀ entry ∈ table, entry.InRange segs)
    (image : Image) :
    (relocateAll size segs image table).seg = table.foldl (carryOut size segs) image.seg := by
  induction table generalizing image with
  | nil => rfl
  | cons entry rest ih =>
      have first := relocateEntry_seg size segs (inRange entry List.mem_cons_self) image
      rw [List.foldl_cons, ← first]
      exact ih (fun later member => inRange later (List.mem_cons_of_mem _ member)) _

section

variable {table : List Entry} (apart : table.Pairwise Entry.Apart)
include apart

theorem carryOut_pair : ∀ first ∈ table, ∀ second ∈ table, ∀ seg,
    carryOut size segs (carryOut size segs seg first) second =
      carryOut size segs (carryOut size segs seg second) first := by
  intro first member second member' seg
  by_cases same : first = second
  · rw [same]
  · exact carryOut_comm size segs (apart.forall member member' same) seg

theorem foldl_perm {other : List Entry} (perm : table.Perm other) (seg : Segment → Memory) :
    table.foldl (carryOut size segs) seg = other.foldl (carryOut size segs) seg :=
  perm.foldl_eq' (carryOut_pair size segs apart) seg

theorem carryOut_foldl {entry : Entry} (member : entry ∈ table) (seg : Segment → Memory) :
    carryOut size segs (table.foldl (carryOut size segs) seg) entry =
      table.foldl (carryOut size segs) seg := by
  obtain ⟨before, after, split⟩ := List.append_of_mem member
  have last : table.Perm (before ++ after ++ [entry]) := by
    rw [split]
    exact List.perm_middle.trans (List.perm_append_singleton entry (before ++ after)).symm
  rw [foldl_perm size segs apart last, List.foldl_append, List.foldl_cons, List.foldl_nil,
    carryOut_carryOut]

theorem foldl_again (seg : Segment → Memory) :
    table.foldl (carryOut size segs) (table.foldl (carryOut size segs) seg) =
      table.foldl (carryOut size segs) seg := by
  have kept : ∀ entry ∈ table, carryOut size segs (table.foldl (carryOut size segs) seg) entry =
      table.foldl (carryOut size segs) seg := fun entry member =>
    carryOut_foldl size segs apart member seg
  generalize table.foldl (carryOut size segs) seg = final at kept ⊢
  clear apart
  induction table with
  | nil => rfl
  | cons entry rest ih =>
      rw [List.foldl_cons, kept entry List.mem_cons_self]
      exact ih fun later member => kept later (List.mem_cons_of_mem _ member)

end

/-- The segments after `uvl_relocate`, called with this in the uninitialised `value`. -/
def relocated (value : Word) (seg : Segment → Memory) (table : List Entry) : Segment → Memory :=
  (relocateAll size segs ⟨seg, value⟩ table).seg

/-- The order of the entries of an orderly table makes no difference to the segments, and
a second run over the table changes nothing. -/
theorem uvlRelocate_order (reloc reloc' : Memory) (passes passes' : Nat)
    (seg : Segment → Memory) (value value' : Word)
    (orderly : Orderly segs (entries reloc size passes 0))
    (perm : (entries reloc size passes 0).Perm (entries reloc' size passes' 0)) :
    relocated size segs value' seg (entries reloc' size passes' 0) =
        relocated size segs value seg (entries reloc size passes 0) ∧
      relocated size segs value' (relocated size segs value seg (entries reloc size passes 0))
          (entries reloc size passes 0) =
        relocated size segs value seg (entries reloc size passes 0) := by
  have inRange : ∀ entry ∈ entries reloc' size passes' 0, entry.InRange segs := fun entry member =>
    orderly.inRange entry (perm.symm.subset member)
  unfold relocated
  constructor
  · rw [relocateAll_seg size segs inRange, relocateAll_seg size segs orderly.inRange,
      foldl_perm size segs orderly.apart perm]
  · rw [relocateAll_seg size segs orderly.inRange, relocateAll_seg size segs orderly.inRange,
      foldl_again size segs orderly.apart]

def mixedTable : Memory := fun k =>
  ([0xF0, 0x2B, 0, 0, 0x78, 0x56, 0x34, 0x12, 0, 0, 0, 0, 0xF1, 0x02, 0x80, 0, 0, 0, 1, 0] :
    List Byte).getD k 0

def mixedTable' : Memory := fun k =>
  ([0xF1, 0x02, 0x80, 0, 0, 0, 1, 0, 0xF0, 0x2B, 0, 0, 0x78, 0x56, 0x34, 0x12, 0, 0, 0, 0] :
    List Byte).getD k 0

theorem uvlRelocate_order_mixedTable :
    relocated 20 farSegs 1 blank.seg (entries mixedTable' 20 3 0) =
        relocated 20 farSegs 0 blank.seg (entries mixedTable 20 3 0) ∧
      relocated 20 farSegs 1 (relocated 20 farSegs 0 blank.seg (entries mixedTable 20 3 0))
          (entries mixedTable 20 3 0) =
        relocated 20 farSegs 0 blank.seg (entries mixedTable 20 3 0) := by
  have table : entries mixedTable 20 3 0 =
      [⟨.movwAbsNc, 15, 0, 0, 0x12345678⟩, ⟨.abs32, 15, 0, 8, 64⟩] := by decide
  have table' : entries mixedTable' 20 3 0 =
      [⟨.abs32, 15, 0, 8, 64⟩, ⟨.movwAbsNc, 15, 0, 0, 0x12345678⟩] := by decide
  refine uvlRelocate_order 20 farSegs mixedTable mixedTable' 3 3 blank.seg 0 1 ?_ ?_
  · rw [table]
    constructor
    next => decide
    next => unfold Entry.InRange; decide
    next => decide
    next => unfold Entry.Apart; decide
  · rw [table, table']
    exact List.Perm.swap _ _ _

end VitaTools.Relocate
