import VitaTools.Library.Memory

set_option autoImplicit false

namespace VitaTools.Library

/-- A file opened for writing. Bytes below `size` that were never written are zero. -/
structure File where
  bytes : Memory
  size : Nat
  pos : Nat

namespace File

def empty : File := ⟨fun _ => 0, 0, 0⟩

/-- `fseek(file, offset, SEEK_SET)`: a negative offset leaves the position. -/
def seek (file : File) (offset : BitVec 64) : File :=
  if offset.msb then file else { file with pos := offset.toNat }

def write (file : File) (count : Nat) (source : Memory) : File :=
  { bytes := file.bytes.copy file.pos count source
    size := if count = 0 then file.size else max file.size (file.pos + count)
    pos := file.pos + count }

def get? (file : File) (a : Nat) : Option Byte :=
  if a < file.size then some (file.bytes a) else none

/-- The file read into a buffer of its size; `heap` is what lies behind the buffer. -/
def image (file : File) (heap : Memory) : Memory := fun a =>
  if a < file.size then file.bytes a else heap a

variable {file : File} {offset : BitVec 64} {count : Nat} {source : Memory} {a : Nat} {byte : Byte}

theorem image_of_get? (found : file.get? a = some byte) (heap : Memory) :
    file.image heap a = byte := by
  unfold get? at found
  unfold image
  split at found
  next inside =>
    rw [if_pos inside]
    exact Option.some.inj found
  next => cases found

theorem get?_write_inside (k : Nat) (inside : k < count) (range : offset.msb = false) :
    ((file.seek offset).write count source).get? (offset.toNat + k) = some (source k) := by
  have below : offset.toNat + k < max file.size (offset.toNat + count) := by omega
  have counted : count ≠ 0 := by omega
  simp [get?, write, seek, range, Memory.copy, counted, below, inside]

theorem slice_write (range : offset.msb = false) :
    ((file.seek offset).write count source).bytes.slice offset.toNat count =
      source.slice 0 count := by
  refine Memory.slice_congr fun k inside => ?_
  simp [write, seek, range, Memory.copy, inside]

theorem get?_write_at {k : Nat} (place : a = offset.toNat + k) (inside : k < count)
    (range : offset.msb = false) :
    ((file.seek offset).write count source).get? a = some (source k) :=
  place ▸ get?_write_inside k inside range

theorem get?_write_outside (outside : a < offset.toNat ∨ offset.toNat + count ≤ a)
    (range : offset.msb = false) (found : file.get? a = some byte) :
    ((file.seek offset).write count source).get? a = some byte := by
  unfold get? at found
  split at found
  next inside =>
    have kept : ¬ (offset.toNat ≤ a ∧ a < offset.toNat + count) := by omega
    have below : count ≠ 0 → a < max file.size (offset.toNat + count) := fun _ => by omega
    cases found
    by_cases nothing : count = 0 <;>
      simp [get?, write, seek, range, Memory.copy, kept, nothing, inside, below]
  next => cases found

theorem get?_write_behind (behind : offset.toNat + count ≤ a) (range : offset.msb = false) :
    ((file.seek offset).write count source).get? a = file.get? a := by
  have moved : file.seek offset = { file with pos := offset.toNat } := by simp [seek, range]
  have clear : ¬ (offset.toNat ≤ a ∧ a < offset.toNat + count) := by omega
  rw [moved]
  simp only [get?, write, Memory.copy, if_neg clear]
  by_cases inside : a < file.size
  next =>
    rw [if_pos inside, if_pos]
    split <;> omega
  next =>
    rw [if_neg inside, if_neg]
    split <;> omega

theorem get?_write_own {content : Memory} (range : offset.msb = false)
    (own : ∀ k < count, source k = content (offset.toNat + k))
    (found : file.get? a = some (content a)) :
    ((file.seek offset).write count source).get? a = some (content a) := by
  by_cases inside : offset.toNat ≤ a ∧ a < offset.toNat + count
  next =>
    obtain ⟨k, rfl⟩ := Nat.exists_eq_add_of_le inside.1
    have small : k < count := by omega
    rw [get?_write_inside k small range, own k small]
  next => exact get?_write_outside (by omega) range found

def Same (file other : File) : Prop := ∀ a, file.get? a = other.get? a

theorem write_bytes_outside (outside : a < file.pos ∨ file.pos + count ≤ a) :
    (file.write count source).bytes a = file.bytes a := by
  have clear : ¬ (file.pos ≤ a ∧ a < file.pos + count) := by omega
  simp [write, Memory.copy, clear]

theorem seek_write_bytes_outside (outside : a < offset.toNat ∨ offset.toNat + count ≤ a)
    (range : offset.msb = false) :
    ((file.seek offset).write count source).bytes a = file.bytes a := by
  have moved : file.seek offset = { file with pos := offset.toNat } := by simp [seek, range]
  rw [moved]
  exact write_bytes_outside outside

theorem write_first (file : File) (count : Nat) (source : Memory) :
    (file.write count source).bytes 0 = file.bytes 0 ∨
      0 < count ∧ (file.write count source).bytes 0 = source 0 := by
  by_cases start : file.pos = 0 ∧ 0 < count
  next =>
    exact .inr ⟨start.2, by simp [write, Memory.copy, start]⟩
  next => exact .inl (write_bytes_outside (by omega))

@[simp] theorem seek_bytes (file : File) (offset : BitVec 64) :
    (file.seek offset).bytes = file.bytes := by
  unfold seek
  split <;> rfl

end File

end VitaTools.Library
