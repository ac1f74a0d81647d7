import VitaTools.Library.Loop
import VitaTools.Library.Memory
import Mathlib.Algebra.BigOperators.Group.Finset.Basic

set_option autoImplicit false

/-!
A loop asks a device to take what is left of `len` bytes. It adds each result to its total and
goes on while the total, compared without sign, is below `len`. A negative result is an error.
-/

namespace VitaTools.Library

inductive Leaving
  | whole
  | error
deriving DecidableEq, Repr

structure Writing where
  len : BitVec 32
  -- Which totals below `len` the loop gives up on.
  gaveUp : BitVec 32 → Bool
  source : BitVec 32 → Byte
  -- What the device returns, call by call.
  results : Nat → BitVec 32

/-- Where the loop is. `accepted` is what the device has taken. -/
structure Progress where
  write : BitVec 32
  calls : Nat
  accepted : List Byte
  left : Option Leaving

namespace Writing

variable (writing : Writing)

def bytes (count : Nat) : List Byte :=
  (List.range count).map fun k => writing.source (BitVec.ofNat 32 k)

def taken (write result : BitVec 32) : List Byte :=
  if result.msb then []
  else (List.range result.toNat).map fun k => writing.source (write + BitVec.ofNat 32 k)

def leaves (write : BitVec 32) : Option Leaving :=
  if write < writing.len then if writing.gaveUp write then some .error else none
  else some .whole

def loop : Loop Progress where
  more s := s.left.isNone
  pass s :=
    let result := writing.results s.calls
    { write := s.write + result
      calls := s.calls + 1
      accepted := s.accepted ++ writing.taken s.write result
      left := writing.leaves (s.write + result) }

def start : Progress := ⟨0, 0, [], none⟩

abbrev Visits (s : Progress) : Prop := writing.loop.Visits start s

/-- A result that is no error is at most what was asked for. -/
def Bounded : Prop :=
  ∀ s, writing.Visits s → s.left = none → (writing.results s.calls).msb = false →
    (writing.results s.calls).toNat ≤ (writing.len - s.write).toNat

/-- The loop is left for the whole length only with every byte accepted in its order, it goes on
only behind those accepted, and an error is answered as one. -/
structure Exact : Prop where
  whole : ∀ s, writing.Visits s → s.left = some .whole →
    s.accepted = writing.bytes writing.len.toNat
  contiguous : ∀ s, writing.Visits s → s.left = none →
    s.accepted = writing.bytes s.write.toNat
  failed : ∀ s, writing.Visits s → s.left = none → (writing.results s.calls).msb = true →
    (writing.loop.pass s).left = some .error

def total (calls : Nat) : Nat := ∑ i ∈ Finset.range calls, (writing.results i).toNat

/-- No error comes before call `k`, and the loop goes on up to it. -/
def Asked (k : Nat) : Prop :=
  ∀ i < k, (writing.results i).msb = false ∧ writing.total (i + 1) < writing.len.toNat ∧
    writing.gaveUp (BitVec.ofNat 32 (writing.total (i + 1))) = false

variable {writing}

theorem total_succ (calls : Nat) :
    writing.total (calls + 1) = writing.total calls + (writing.results calls).toNat :=
  Finset.sum_range_succ _ _

theorem leaves_eq_none {write : BitVec 32} :
    writing.leaves write = none ↔ write < writing.len ∧ writing.gaveUp write = false := by
  simp only [leaves]
  split
  next less =>
    split
    next gave => simp [gave]
    next kept => simpa [less] using kept
  next more => simp [more]

theorem leaves_eq_whole {write : BitVec 32} :
    writing.leaves write = some .whole ↔ ¬ write < writing.len := by
  simp only [leaves]
  split
  next less =>
    split <;> simp [less]
  next more => simp [more]

theorem leaves_eq_error {write : BitVec 32} :
    writing.leaves write = some .error ↔ write < writing.len ∧ writing.gaveUp write = true := by
  simp only [leaves]
  split
  next less =>
    split
    next gave => simp [less, gave]
    next kept => simp [kept]
  next more => simp [more]

theorem bytes_add {total count : Nat} {write : BitVec 32} (at_write : write.toNat = total) :
    writing.bytes total ++
        ((List.range count).map fun k => writing.source (write + BitVec.ofNat 32 k)) =
      writing.bytes (total + count) := by
  have place (k : Nat) : write + BitVec.ofNat 32 k = BitVec.ofNat 32 (total + k) := by
    rw [← at_write, BitVec.ofNat_add, BitVec.ofNat_toNat, BitVec.setWidth_eq]
  simp only [bytes, place]
  rw [List.range_add, List.map_append, List.map_map]
  rfl

/-- What holds as long as no result has been an error. -/
structure Sound (s : Progress) : Prop where
  asked : s.left = none → writing.Asked s.calls
  short : s.left = none → writing.total s.calls < writing.len.toNat
  place : s.left ≠ some .error → s.write.toNat = writing.total s.calls
  accepted : s.left ≠ some .error → s.accepted = writing.bytes (writing.total s.calls)
  whole : s.left = some .whole → writing.total s.calls = writing.len.toNat

theorem Sound.pass {s : Progress} (sound : writing.Sound s) (visited : writing.Visits s)
    (bounded : writing.Bounded) (going : s.left = none)
    (fine : (writing.results s.calls).msb = false) : writing.Sound (writing.loop.pass s) := by
  have counted := bounded s visited going fine
  have short := sound.short going
  have place : s.write.toNat = writing.total s.calls := sound.place (by simp [going])
  have accepted := sound.accepted (by simp [going])
  have next : writing.total (s.calls + 1) = writing.total s.calls +
      (writing.results s.calls).toNat := total_succ _
  have fits : writing.total (s.calls + 1) ≤ writing.len.toNat := by
    rw [BitVec.toNat_sub_of_le (by rw [BitVec.le_def]; omega)] at counted
    omega
  have written : (s.write + writing.results s.calls).toNat = writing.total (s.calls + 1) := by
    have small := writing.len.isLt
    rw [BitVec.toNat_add, place, ← next]
    exact Nat.mod_eq_of_lt (by omega)
  constructor
  case asked =>
    intro goes i less
    obtain ⟨below, kept⟩ := leaves_eq_none.mp goes
    rcases Nat.lt_succ_iff_lt_or_eq.mp less with earlier | rfl
    · exact sound.asked going i earlier
    · refine ⟨fine, ?_, ?_⟩
      · rw [← written]
        exact below
      · rw [← written, BitVec.ofNat_toNat, BitVec.setWidth_eq]
        exact kept
  case short =>
    intro goes
    have below := (leaves_eq_none.mp goes).1
    rw [BitVec.lt_def, written] at below
    exact below
  case place => exact fun _ => written
  case accepted =>
    intro _
    change s.accepted ++ writing.taken s.write (writing.results s.calls) = _
    rw [accepted, taken, fine, if_neg Bool.false_ne_true, bytes_add place, ← next]
    rfl
  case whole =>
    intro left
    have behind := leaves_eq_whole.mp left
    rw [BitVec.lt_def, written] at behind
    change writing.total (s.calls + 1) = _
    omega

theorem start_sound (positive : 0 < writing.len) : writing.Sound start := by
  constructor
  case asked => exact fun _ i less => absurd less (Nat.not_lt_zero i)
  case short => exact fun _ => positive
  case place => exact fun _ => rfl
  case accepted => exact fun _ => rfl
  case whole =>
    intro left
    cases left

variable (positive : 0 < writing.len) (bounded : writing.Bounded)
include positive bounded

theorem asked_visited {k : Nat} (asked : writing.Asked k) :
    ∃ s, writing.Visits s ∧ s.calls = k ∧ s.left = none ∧ writing.Sound s := by
  induction k with
  | zero => exact ⟨start, .start, rfl, rfl, start_sound positive⟩
  | succ k ih =>
      obtain ⟨s, visited, rfl, going, sound⟩ := ih fun i less => asked i (by omega)
      obtain ⟨fine, short, kept⟩ := asked s.calls (Nat.lt_succ_self _)
      have next := sound.pass visited bounded going fine
      have more : writing.loop.more s = true := by
        simp only [loop, going]
        rfl
      have place : (s.write + writing.results s.calls).toNat = writing.total (s.calls + 1) := by
        have before := sound.place (by simp [going])
        have small := writing.len.isLt
        rw [BitVec.toNat_add, before, ← total_succ]
        exact Nat.mod_eq_of_lt (by omega)
      refine ⟨writing.loop.pass s, visited.next more, rfl, ?_, next⟩
      apply leaves_eq_none.mpr
      rw [BitVec.lt_def, place]
      refine ⟨short, ?_⟩
      rw [← place, BitVec.ofNat_toNat, BitVec.setWidth_eq] at kept
      exact kept

theorem exact_iff : writing.Exact ↔ ∀ k, writing.Asked k → (writing.results k).msb = true →
    writing.leaves (BitVec.ofNat 32 (writing.total k) + writing.results k) = some .error := by
  constructor
  · intro exact k asked negative
    obtain ⟨s, visited, rfl, going, sound⟩ := asked_visited positive bounded asked
    rw [← sound.place (by simp [going]), BitVec.ofNat_toNat, BitVec.setWidth_eq]
    exact exact.failed s visited going negative
  · intro answered
    have failed (s : Progress) (sound : writing.Sound s) (going : s.left = none)
        (negative : (writing.results s.calls).msb = true) :
        (writing.loop.pass s).left = some .error := by
      have left := answered s.calls (sound.asked going) negative
      rw [← sound.place (by simp [going]), BitVec.ofNat_toNat, BitVec.setWidth_eq] at left
      exact left
    have sound (s : Progress) (visited : writing.Visits s) : writing.Sound s := by
      apply visited.invariant writing.Sound
      · exact start_sound positive
      · intro s visited sound more
        have going : s.left = none := Option.isNone_iff_eq_none.mp more
        cases fine : (writing.results s.calls).msb with
        | false => exact sound.pass visited bounded going fine
        | true =>
            have left := failed s sound going fine
            exact ⟨fun goes => by simp [left] at goes, fun goes => by simp [left] at goes,
              fun kept => absurd left kept, fun kept => absurd left kept,
              fun whole => by simp [left] at whole⟩
    constructor
    case whole =>
      intro s visited left
      rw [(sound s visited).accepted (by simp [left]), (sound s visited).whole left]
    case contiguous =>
      intro s visited going
      rw [(sound s visited).accepted (by simp [going]), (sound s visited).place (by simp [going])]
    case failed => exact fun s visited => failed s (sound s visited)

end Writing

end VitaTools.Library
