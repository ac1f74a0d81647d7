import VitaTools.RingBuf.Refinement

set_option autoImplicit false

namespace VitaTools.RingBuf

open VitaTools.Library

def Block.atZero (block : Block) : Block where
  base := 0
  len := block.len
  lenInt := block.lenInt
  inSpace := by
    have := block.inSpace
    omega

def Call.waits : Call → Bool
  | .getWait _ _ => true
  | _ => false

/-- Calls that do not wait are answered as at address 0, by a queue of `len - 1` bytes. -/
def PlacementFree (block : Block) : Prop :=
  ∀ (mem memAtZero : Memory) (calls : List Call), (∀ call ∈ calls, call.waits = false) →
    ringbuf.replies (LogBuffer.ringbufInit block mem) calls =
        ringbuf.replies (LogBuffer.ringbufInit block.atZero memAtZero) calls ∧
      ringbuf.replies (LogBuffer.ringbufInit block mem) calls =
        (queueMachine (block.len - 1)).replies BoundedQueue.empty calls

theorem replies_queue (block : Block) (two : 2 ≤ block.len) (aligned : block.len ∣ block.base)
    (mem : Memory) (calls : List Call) :
    ringbuf.replies (LogBuffer.ringbufInit block mem) calls =
      (queueMachine (block.len - 1)).replies BoundedQueue.empty calls :=
  (ringbuf_simulates block two aligned).replies_eq calls _ _ (ringbufInit_represents block mem two)

theorem aligned_placementFree (block : Block) (two : 2 ≤ block.len)
    (aligned : block.len ∣ block.base) : PlacementFree block := by
  intro mem memAtZero calls _
  have here := replies_queue block two aligned mem calls
  have atZero := replies_queue block.atZero two (Nat.dvd_zero _) memAtZero calls
  exact ⟨here.trans atZero.symm, here⟩

/-- `k` bytes were put and none read. The offset is unknown when the block ends with the
address space, where the last increment overflows. -/
structure Skewed (block : Block) (k : Nat) (s : LogBuffer) : Prop where
  lenKept : s.bufLen = block.len
  baseKept : s.basePtr = block.base
  getAt : s.getPtr = block.base
  putAt : ∃ offset, offset < block.len ∧ s.putPtr = block.base + offset ∧
    (block.base + block.len < 2 ^ 32 → offset = k * (block.base + 1) % block.len)

variable {block : Block} {k : Nat} {s : LogBuffer}

theorem Skewed.store (skewed : Skewed block k s) (two : 2 ≤ block.len) (c : Byte) :
    Skewed block (k + 1) (s.store c) where
  lenKept := skewed.lenKept
  baseKept := skewed.baseKept
  getAt := skewed.getAt
  putAt := by
    obtain ⟨offset, inside, place, steps⟩ := skewed.putAt
    refine ⟨s.idx (s.putPtr + 1), ?_, ?_, ?_⟩
    · rw [LogBuffer.idx, skewed.lenKept]
      exact Nat.mod_lt _ (by omega)
    · simp only [LogBuffer.store, LogBuffer.inc, skewed.baseKept]
    · intro below
      have small : s.putPtr + 1 < 2 ^ 32 := by omega
      have sum : s.putPtr + 1 = block.base + 1 + offset := by omega
      rw [LogBuffer.idx, skewed.lenKept, Nat.mod_eq_of_lt small, sum, steps below,
        Nat.add_mod_mod, Nat.succ_mul, Nat.add_comm]

theorem Skewed.full_place (skewed : Skewed block k s) (misplaced : ¬ block.len ∣ block.base)
    (full : s.full = true) :
    block.base + block.len < 2 ^ 32 ∧ k * (block.base + 1) % block.len = block.len - 1 := by
  obtain ⟨offset, inside, place, steps⟩ := skewed.putAt
  have space := block.inSpace
  have start : block.base < 2 ^ 32 := by omega
  rw [LogBuffer.full, beq_iff_eq, LogBuffer.idx, LogBuffer.idx, skewed.lenKept, skewed.getAt,
    place, Nat.mod_eq_of_lt start] at full
  by_cases below : block.base + offset + 1 < 2 ^ 32
  next =>
    rw [Nat.mod_eq_of_lt below] at full
    have rest : (block.base + offset + 1 - block.base) % block.len = 0 :=
      Nat.sub_mod_eq_zero_of_mod_eq full
    have last : block.len ≤ block.base + offset + 1 - block.base :=
      Nat.le_of_dvd (by omega) (Nat.dvd_of_mod_eq_zero rest)
    have fits : block.base + block.len < 2 ^ 32 := by omega
    exact ⟨fits, by rw [← steps fits]; omega⟩
  next =>
    have top : block.base + offset + 1 = 2 ^ 32 := by omega
    rw [top, Nat.mod_self, Nat.zero_mod] at full
    exact absurd (Nat.dvd_of_mod_eq_zero full.symm) misplaced

theorem Skewed.full_count (skewed : Skewed block k s) (two : 2 ≤ block.len)
    (misplaced : ¬ block.len ∣ block.base) (full : s.full = true) : k ≠ block.len - 1 := by
  rintro rfl
  obtain ⟨_, last⟩ := skewed.full_place misplaced full
  refine misplaced ?_
  have parts := Nat.div_add_mod ((block.len - 1) * (block.base + 1)) block.len
  rw [last] at parts
  generalize (block.len - 1) * (block.base + 1) / block.len = rounds at parts
  have whole : block.len * (rounds + 1) + block.base = block.len * (block.base + 1) := by
    have split : block.len * (block.base + 1) =
        (block.len - 1) * (block.base + 1) + (block.base + 1) := by
      rw [← Nat.succ_mul, Nat.succ_eq_add_one, Nat.sub_add_cancel (by omega)]
    rw [split, ← parts, Nat.mul_succ]
    omega
  exact (Nat.dvd_add_right (Nat.dvd_mul_right _ _)).mp ⟨_, whole⟩

theorem putLoop_skewed (two : 2 ≤ block.len) (data : List Byte) (nPut : Nat)
    (skewed : Skewed block k s) :
    ∃ stored ≤ data.length, (LogBuffer.putLoop data s nPut).2 = nPut + stored ∧
      Skewed block (k + stored) (LogBuffer.putLoop data s nPut).1 ∧
      (stored < data.length → (LogBuffer.putLoop data s nPut).1.full = true) := by
  induction data generalizing s nPut k with
  | nil => exact ⟨0, Nat.le_refl _, rfl, skewed, nofun⟩
  | cons c rest ih =>
      by_cases full : s.full = true
      · have refused : s.put c = none := by simp [LogBuffer.put, full]
        simp only [LogBuffer.putLoop, refused]
        exact ⟨0, Nat.zero_le _, rfl, skewed, fun _ => full⟩
      · have accepted : s.put c = some (s.store c) := by simp [LogBuffer.put, full]
        obtain ⟨stored, bound, count, after, stopped⟩ := ih (nPut + 1) (skewed.store two c)
        simp only [LogBuffer.putLoop, accepted]
        refine ⟨stored + 1, ?_, ?_, ?_, ?_⟩
        · simpa using bound
        · omega
        · rwa [Nat.add_assoc, Nat.add_comm 1] at after
        · intro short
          exact stopped (by simpa using short)

theorem ringbufInit_skewed (block : Block) (mem : Memory) (two : 2 ≤ block.len) :
    Skewed block 0 (LogBuffer.ringbufInit block mem) where
  lenKept := rfl
  baseKept := rfl
  getAt := rfl
  putAt := ⟨0, by omega, rfl, fun _ => by simp⟩

theorem misplaced_put (block : Block) (mem : Memory) (two : 2 ≤ block.len)
    (misplaced : ¬ block.len ∣ block.base) :
    ((LogBuffer.ringbufInit block mem).ringbufPut (fun _ => 0) block.len).2.count ≠
      block.len - 1 := by
  have length : (LogBuffer.source (fun _ => 0) block.len).length = block.len := by
    simp [LogBuffer.source]
  have start := ringbufInit_skewed block mem two
  obtain ⟨stored, _, count, after, stopped⟩ :=
    putLoop_skewed two (LogBuffer.source (fun _ => 0) block.len) 0 start
  rw [Nat.zero_add] at count after
  rw [length] at stopped
  simp only [LogBuffer.ringbufPut, count]
  intro last
  exact after.full_count two misplaced (stopped (by omega)) last

theorem misplaced_replies (block : Block) (mem : Memory) (two : 2 ≤ block.len)
    (misplaced : ¬ block.len ∣ block.base) :
    ringbuf.replies (LogBuffer.ringbufInit block mem) [.put (fun _ => 0) block.len] ≠
      (queueMachine (block.len - 1)).replies BoundedQueue.empty
        [.put (fun _ => 0) block.len] := by
  intro same
  have reply := (List.cons.inj same).1
  have count := congrArg LogBuffer.Reply.count reply
  refine misplaced_put block mem two misplaced (count.trans ?_)
  simp [queueMachine, queueCall, LogBuffer.source, BoundedQueue.room]

/-- The answers are those of the block at address 0 exactly when the length divides the
base address. -/
theorem placementFree_iff (block : Block) (two : 2 ≤ block.len) :
    PlacementFree block ↔ block.len ∣ block.base := by
  constructor
  · intro free
    by_contra misplaced
    have single : ∀ call ∈ [Call.put (fun _ => 0) block.len], call.waits = false := by
      simp [Call.waits]
    exact misplaced_replies block (fun _ => 0) two misplaced (free _ (fun _ => 0) _ single).2
  · exact aligned_placementFree block two

def oddPage : Block := ⟨0x1000, 0x2000, by decide, by decide⟩

theorem oddPage_not_placementFree : 0x1000 ∣ oddPage.base ∧ ¬ PlacementFree oddPage := by
  refine ⟨by decide, fun free => ?_⟩
  have single : ∀ call ∈ [Call.put (fun _ => 0) oddPage.len], call.waits = false := by
    simp [Call.waits]
  have here := (free (fun _ => 0) (fun _ => 0) _ single).2
  exact misplaced_replies oddPage _ (by decide) (by decide) here

theorem placementFree_iff_pages :
    (2 ≤ oddPage.len ∧ (PlacementFree oddPage ↔ oddPage.len ∣ oddPage.base)) ∧
      PlacementFree ⟨0x4000, 0x2000, by decide, by decide⟩ :=
  ⟨⟨by decide, placementFree_iff oddPage (by decide)⟩,
    (placementFree_iff ⟨0x4000, 0x2000, by decide, by decide⟩ (by decide)).mpr (by decide)⟩

end VitaTools.RingBuf
