import VitaTools.Self.RoundTrip

set_option autoImplicit false

namespace VitaTools.Self

open VitaTools.Library

/-- Every range ends where the next one starts or before. -/
def Ascending (ranges : Nat → SegmentInfo) (count : Nat) : Prop :=
  ∀ i j, i < j → j < count →
    (ranges i).offset.toNat + (ranges i).length.toNat ≤ (ranges j).offset.toNat

/-- What `writeHeaders` writes: the place and the length of each block. -/
def headerBlocks (selfFile elfFile : Memory) : List (Nat × Nat) :=
  let headerLen := (sceHeader selfFile).headerLen
  let ehdr := ehdrAt elfFile 0
  [(0, headerLen.toNat), (headerLen.toNat, 52),
    (headerLen.toNat + ehdr.phoff.toNat, ehdr.phnum.toNat * ehdr.phentsize.toNat)]

namespace Pair

variable (pair : Pair) (zlib : Zlib)

def updatedInfo (heap : Nat → Memory) (i : Nat) : SegmentInfo :=
  infoAt (pair.segmentsDone zlib heap).selfFile pair.sinfo i

/-- The segments lie one after the other behind every header block, and no sum wraps. -/
structure Ordered (header : Memory) : Prop where
  ascending : Ascending pair.info pair.phnum
  behind : ∀ i < pair.phnum, ∀ block ∈ headerBlocks header pair.elfFile,
    block.1 + block.2 ≤ (pair.info i).offset.toNat
  range : ∀ i < pair.phnum, pair.placed zlib i + pair.written zlib i < 2 ^ 63

variable {pair zlib}

theorem growth_mono {i j : Nat} (le : i ≤ j) : pair.growth zlib i ≤ pair.growth zlib j := by
  induction le with
  | refl => exact le_refl _
  | step _ ih => exact ih.trans (Nat.le_add_right _ _)

theorem placed_ascending (ascending : Ascending pair.info pair.phnum) {i j : Nat} (less : i < j)
    (bound : j < pair.phnum) : pair.placed zlib i + pair.written zlib i ≤ pair.placed zlib j := by
  have before := ascending i j less bound
  have grown : pair.growth zlib (i + 1) ≤ pair.growth zlib j := growth_mono less
  have next : pair.growth zlib (i + 1) =
      pair.growth zlib i + (pair.stored zlib i - (pair.info i).length.toNat) := rfl
  simp only [placed, written]
  omega

theorem Ordered.spaced {header : Memory} (ordered : pair.Ordered zlib header) :
    pair.Spaced zlib := by
  constructor
  case range =>
    intro i bound _
    exact (Nat.le_add_right _ _).trans_lt (ordered.range i bound)
  case segments =>
    intro i j less bound _ x inside
    have apart : pair.placed zlib i + pair.written zlib i ≤ pair.placed zlib j :=
      placed_ascending ordered.ascending less bound
    have covered : pair.stored zlib i ≤ pair.written zlib i := le_max_right _ _
    exact .inl (by omega)

theorem writeHeaders_behind {selfFile elfFile : Memory} {fout : File} {a : Nat} {byte : Byte}
    (behind : ∀ block ∈ headerBlocks selfFile elfFile, block.1 + block.2 ≤ a) (small : a < 2 ^ 63)
    (found : fout.get? a = some byte) :
    (writeHeaders selfFile elfFile fout).get? a = some byte := by
  have first := behind _ List.mem_cons_self
  have second := behind _ (List.mem_cons_of_mem _ List.mem_cons_self)
  have third := behind _ (List.mem_cons_of_mem _ (List.mem_cons_of_mem _ List.mem_cons_self))
  dsimp only at first second third
  have wide : ((ehdrAt elfFile 0).phoff.setWidth 64).toNat = (ehdrAt elfFile 0).phoff.toNat := by
    rw [BitVec.toNat_setWidth]
    exact Nat.mod_eq_of_lt ((ehdrAt elfFile 0).phoff.isLt.trans (by decide))
  have place : ((sceHeader selfFile).headerLen + (ehdrAt elfFile 0).phoff.setWidth 64).toNat =
      (sceHeader selfFile).headerLen.toNat + (ehdrAt elfFile 0).phoff.toNat := by
    rw [BitVec.toNat_add, wide]
    exact Nat.mod_eq_of_lt (by omega)
  rw [writeHeaders]
  apply File.get?_write_outside (.inr (by rw [place]; exact third)) (msb_small (by omega))
  apply File.get?_write_outside (.inr second) (msb_small (by omega))
  exact File.get?_write_outside (.inr (by simpa using first)) rfl found

/-- The ranges stay in order, none moves down, and every stream is in the finished file at the
start of its range. -/
theorem ranges_kept (undoes : zlib.Undoes) {heap : Nat → Memory} {elfDigest header : Memory}
    {fuel : Nat} {fin : File}
    (exits : inject zlib heap elfDigest fuel pair.selfFile pair.elfFile = some fin)
    (written : pair.writtenHeader zlib heap elfDigest fuel = some header)
    (ordered : pair.Ordered zlib header) :
    Ascending (pair.updatedInfo zlib heap) pair.phnum ∧
      (∀ i < pair.phnum,
        (pair.info i).offset.toNat ≤ (pair.updatedInfo zlib heap i).offset.toNat) ∧
      ∀ i < pair.phnum, ∀ stream, pair.stream zlib i = some stream →
        stream.length ≤ (pair.updatedInfo zlib heap i).length.toNat ∧
          ∀ x (inside : x < stream.length),
            fin.get? ((pair.updatedInfo zlib heap i).offset.toNat + x) = some stream[x] := by
  have done := @segmentsDone_eq pair zlib undoes heap
  have offset {i : Nat} (bound : i < pair.phnum) :
      (pair.updatedInfo zlib heap i).offset.toNat = pair.placed zlib i := by
    have range := ordered.range i bound
    rw [updatedInfo, done, infoAt_updatedSelf bound]
    exact toNat_ofNat_small (by omega)
  have length {i : Nat} (bound : i < pair.phnum) :
      (pair.updatedInfo zlib heap i).length.toNat = pair.written zlib i := by
    have range := ordered.range i bound
    rw [updatedInfo, done, infoAt_updatedSelf bound]
    exact toNat_ofNat_small (by omega)
  have finished : fin = writeHeaders header pair.elfFile (pair.segmentsDone zlib heap).fout := by
    simp only [inject] at exits
    split at exits
    next => cases exits
    next =>
      split at exits
      next => cases exits
      next =>
        obtain ⟨last, ended, rfl⟩ := Option.map_eq_some_iff.mp exits
        have same : some last = some header := ended.symm.trans written
        rw [Option.some.inj same]
        rfl
  refine ⟨?_, ?_, ?_⟩
  · intro i j less bound
    rw [offset (less.trans bound), length (less.trans bound), offset bound]
    exact placed_ascending ordered.ascending less bound
  · intro i bound
    rw [offset bound]
    exact Nat.le_add_right _ _
  · intro i bound stream found
    have stored : pair.stored zlib i = stream.length := by
      rw [Pair.stored, found, Option.getD_some]
    have covered : pair.stored zlib i ≤ pair.written zlib i := le_max_right _ _
    have range := ordered.range i bound
    rw [offset bound, length bound]
    refine ⟨by omega, fun x inside => ?_⟩
    have byte :=
      @stream_written pair zlib ordered.spaced heap pair.phnum le_rfl i bound x (by omega)
    rw [found, Option.getD_some, ← List.getElem_eq_getD (h := inside)] at byte
    rw [finished, done]
    refine writeHeaders_behind (fun block member => ?_) (by omega) byte
    have start : (pair.info i).offset.toNat ≤ pair.placed zlib i := Nat.le_add_right _ _
    exact (ordered.behind i bound block member).trans (by omega)

theorem sample_ordered : ∃ header fin,
    inject zeroZlib (fun _ => blank) blank 1 (sample zeros).selfFile (sample zeros).elfFile =
        some fin ∧
      (sample zeros).writtenHeader zeroZlib (fun _ => blank) blank 1 = some header ∧
      (sample zeros).Ordered zeroZlib header := by
  have exits : (inject zeroZlib (fun _ => blank) blank 1 (sample zeros).selfFile
      (sample zeros).elfFile).isSome = true := by
    decide +kernel
  have header : ((sample zeros).writtenHeader zeroZlib (fun _ => blank) blank 1).map
      (headerBlocks · (sample zeros).elfFile) = some [(0, 336), (336, 52), (388, 64)] := by
    decide +kernel
  obtain ⟨fin, exited⟩ := Option.isSome_iff_exists.mp exits
  obtain ⟨written, found, blocks⟩ := Option.map_eq_some_iff.mp header
  refine ⟨written, fin, exited, found, ?_, ?_, by decide +kernel⟩
  · have all : ∀ j < (sample zeros).phnum, ∀ i < j,
        ((sample zeros).info i).offset.toNat + ((sample zeros).info i).length.toNat ≤
          ((sample zeros).info j).offset.toNat := by
      decide +kernel
    exact fun i j less bound => all j bound i less
  · rw [blocks]
    decide +kernel

theorem ranges_kept_zeros :
    Ascending ((sample zeros).updatedInfo zeroZlib fun _ => blank) (sample zeros).phnum := by
  obtain ⟨header, fin, exits, written, ordered⟩ := sample_ordered
  exact (ranges_kept zeroZlib_undoes exits written ordered).1

end Pair

end VitaTools.Self
