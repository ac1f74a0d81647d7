import Mathlib.Data.List.Basic
import VitaTools.Library.File

set_option autoImplicit false

namespace VitaTools.Library

/-- A write behind an `fseek` to `offset`. -/
structure Write where
  offset : BitVec 64
  count : Nat
  source : Memory

structure Part where
  start : Nat
  count : Nat
  source : Memory

namespace Part

def Covers (part : Part) (a : Nat) : Prop := part.start ≤ a ∧ a < part.start + part.count

instance (part : Part) (a : Nat) : Decidable (part.Covers a) :=
  inferInstanceAs (Decidable (part.start ≤ a ∧ a < part.start + part.count))

/-- The byte that the last of the parts over `a` has there. -/
def lastByte (parts : List Part) (a : Nat) : Option Byte :=
  (parts.reverse.find? fun part => part.Covers a).map fun part => part.source (a - part.start)

def reach (parts : List Part) : Nat :=
  parts.foldl (fun size part => if part.count = 0 then size else max size (part.start + part.count))
    0

theorem lastByte_append (parts : List Part) (part : Part) (a : Nat) :
    lastByte (parts ++ [part]) a =
      if part.Covers a then some (part.source (a - part.start)) else lastByte parts a := by
  rw [lastByte, List.reverse_append, List.reverse_singleton, List.singleton_append,
    List.find?_cons]
  by_cases covers : part.Covers a <;> simp [covers, lastByte]

theorem reach_append (parts : List Part) (part : Part) :
    reach (parts ++ [part]) =
      if part.count = 0 then reach parts else max (reach parts) (part.start + part.count) := by
  rw [reach, List.foldl_append]
  rfl

end Part

namespace File

def put (file : File) (write : Write) : File :=
  (file.seek write.offset).write write.count write.source

/-- Where writes go from a position on: an `fseek` to a negative offset leaves it. -/
def parts : Nat → List Write → List Part
  | _, [] => []
  | pos, write :: writes =>
      let start := if write.offset.msb then pos else write.offset.toNat
      ⟨start, write.count, write.source⟩ :: parts (start + write.count) writes

structure MadeOf (file : File) (done : List Part) : Prop where
  bytes : ∀ a, file.bytes a = (Part.lastByte done a).getD 0
  size : file.size = Part.reach done

theorem MadeOf.put {file : File} {done : List Part} (made : file.MadeOf done) (write : Write)
    {start : Nat} (place : start = if write.offset.msb then file.pos else write.offset.toNat) :
    (file.put write).MadeOf (done ++ [⟨start, write.count, write.source⟩]) ∧
      (file.put write).pos = start + write.count := by
  have moved : file.seek write.offset = { file with pos := start } := by
    rw [seek, place]
    split <;> rfl
  rw [File.put, moved]
  refine ⟨⟨fun a => ?_, ?_⟩, rfl⟩
  · rw [Part.lastByte_append]
    have byte := made.bytes a
    by_cases covers : start ≤ a ∧ a < start + write.count
    next => simp [File.write, Memory.copy, Part.Covers, covers]
    next => simp [File.write, Memory.copy, Part.Covers, covers, byte]
  · rw [Part.reach_append, File.write, made.size]

theorem MadeOf.puts {file : File} {done : List Part} (made : file.MadeOf done)
    (writes : List Write) :
    (writes.foldl File.put file).MadeOf (done ++ parts file.pos writes) := by
  induction writes generalizing file done with
  | nil => rwa [parts, List.append_nil]
  | cons write writes ih =>
      obtain ⟨next, pos⟩ := made.put write rfl
      have rest := ih next
      rw [pos, List.append_assoc] at rest
      exact rest

theorem madeOf_empty : empty.MadeOf [] := ⟨fun _ => rfl, rfl⟩

/-- The file has what the parts leave: at every place the byte of the last part there, zero where
there is none, and it ends where the farthest part does. -/
structure LeftBy (file : File) (done : List Part) : Prop where
  bytes : ∀ a < file.size, (Part.lastByte done a).getD 0 = file.bytes a
  size : Part.reach done = file.size

theorem MadeOf.same_iff {file other : File} {done : List Part} (made : file.MadeOf done) :
    file.Same other ↔ other.LeftBy done := by
  constructor
  next =>
    intro same
    have size : file.size = other.size := by
      by_contra differ
      have byte := same (min file.size other.size)
      rcases Nat.lt_or_gt_of_ne differ with less | more
      · rw [Nat.min_eq_left less.le, get?, get?, if_neg (Nat.lt_irrefl _), if_pos less] at byte
        cases byte
      · rw [Nat.min_eq_right more.le, get?, get?, if_neg (Nat.lt_irrefl other.size),
          if_pos more] at byte
        cases byte
    refine ⟨fun a inside => ?_, made.size.symm.trans size⟩
    have byte := same a
    rw [get?, get?, size, if_pos inside, if_pos inside, made.bytes] at byte
    exact Option.some.inj byte
  next =>
    intro left a
    have size := made.size.trans left.size
    rw [get?, get?, size]
    split
    next inside => rw [made.bytes, left.bytes a inside]
    next => rfl

end File

end VitaTools.Library
