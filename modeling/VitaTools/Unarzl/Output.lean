import VitaTools.Unarzl.CoderFacts
import VitaTools.Unarzl.Decoder

set_option autoImplicit false

namespace VitaTools.Unarzl

open VitaTools.Library

namespace Coder

variable (input : Memory)

theorem literalLoop_fuel (v13 : Int) (fuel extra v9 : Nat) (c : Coder)
    (enough : 256 ≤ v9 * 2 ^ fuel) (small : v9 ≤ 255) :
    c.literalLoop input v13 (fuel + extra) v9 = c.literalLoop input v13 fuel v9 := by
  induction fuel generalizing v9 c with
  | zero => omega
  | succ fuel ih =>
      rw [Nat.succ_add]
      dsimp only [literalLoop]
      split
      · rename_i again
        exact ih _ _ (by simpa using doubled_enough fuel v9 _ 1 enough) again
      · rfl

theorem classLoop_fuel (v19 : Int) (fuel extra : Nat) (v28 : Int) (c : Coder)
    (enough : 6 ≤ v28 + fuel) (below : v28 < 6) :
    c.classLoop input v19 (fuel + extra) v28 = c.classLoop input v19 fuel v28 := by
  induction fuel generalizing v19 v28 c with
  | zero => omega
  | succ fuel ih =>
      rw [Nat.succ_add]
      dsimp only [classLoop]
      split_ifs with set last
      · rfl
      · exact ih _ _ _ (by omega) (by omega)
      · rfl

theorem positionLoop_fuel (v34 : Int) (v105 fuel extra v61 : Nat) (c : Coder)
    (enough : v105 ≤ v61 * 2 ^ fuel) (below : v61 < v105) :
    c.positionLoop input v34 v105 (fuel + extra) v61 =
      c.positionLoop input v34 v105 fuel v61 := by
  induction fuel generalizing v61 c with
  | zero => omega
  | succ fuel ih =>
      rw [Nat.succ_add]
      dsimp only [positionLoop]
      split
      · rename_i again
        exact ih _ _ (doubled_enough fuel v61 _ 8 enough) again
      · rfl

theorem directBits_le (count value : Nat) (c : Coder) :
    value ≤ (directBits count value c).1 := by
  induction count generalizing value c with
  | zero => exact le_refl _
  | succ count ih =>
      dsimp only [directBits]
      split
      · exact le_trans (by omega) (ih (2 * value) _)
      · exact le_trans (by omega) (ih (2 * value + 1) _)

theorem append_le (index : Int) (p : Nat × Coder) : p.1 ≤ (append input index p).1 := by
  dsimp only [append]
  omega

theorem codeBits_pos (cell : Int) (n : Nat) (c : Coder) :
    1 ≤ (c.codeBits input cell n).1 := by
  have start : 1 ≤ (append input cell (1, c)).1 := append_le input cell (1, c)
  dsimp only [codeBits]
  generalize append input cell (1, c) = p at start ⊢
  have repeated := append_le input cell p
  have high : 1 ≤ (if n ≠ 3 then
      if n ≠ 4 then directBits (n - 4) (append input cell p).1
          ((append input cell p).2.renorm input)
        else append input cell p
      else p).1 := by
    split_ifs
    · exact le_trans (by omega) (directBits_le _ _ _)
    · omega
    · exact start
  have middle : 1 ≤ (if 3 ≤ n then
      append input (cell + 24) (if n ≠ 3 then
          if n ≠ 4 then directBits (n - 4) (append input cell p).1
              ((append input cell p).2.renorm input)
            else append input cell p
        else p)
      else p).1 := by
    split
    · exact le_trans high (append_le input _ _)
    · exact start
  generalize (if 3 ≤ n then
      append input (cell + 24) (if n ≠ 3 then
          if n ≠ 4 then directBits (n - 4) (append input cell p).1
              ((append input cell p).2.renorm input)
            else append input cell p
        else p)
      else p) = q at middle ⊢
  have second := append_le input (cell + 8) q
  have third := append_le input (cell + 16) (append input (cell + 8) q)
  split_ifs <;> omega

end Coder

namespace Decoder

/-- Every load, newest first, is of a byte stored before it. -/
def Sourced : List Access → Prop
  | [] => True
  | .store _ :: rest => Sourced rest
  | .load k :: rest => .store k ∈ rest ∧ Sourced rest

def Written (n : Nat) (accesses : List Access) : Prop := ∀ k < n, .store k ∈ accesses

structure OutputSafe (buflen : Nat) (accesses : List Access) : Prop where
  inside : ∀ k, .store k ∈ accesses → k < buflen
  sourced : Sourced accesses

/-- The two errors, or a count of bytes that have all been stored. -/
def Returns (buflen : Nat) (accesses : List Access) (ret : Nat) : Prop :=
  ret = badDistance ∨ ret = outOfSpace ∨ 1 ≤ ret ∧ ret ≤ buflen ∧ Written ret accesses

theorem Written.zero (accesses : List Access) : Written 0 accesses := by
  intro k below
  omega

theorem Written.cons {n : Nat} {accesses : List Access} (written : Written n accesses)
    (access : Access) : Written n (access :: accesses) := by
  intro k below
  exact List.mem_cons_of_mem access (written k below)

theorem Written.store {n : Nat} {accesses : List Access} (written : Written n accesses) :
    Written (n + 1) (.store n :: accesses) := by
  intro k below
  by_cases last : k = n
  · rw [last]
    exact List.mem_cons_self
  · exact List.mem_cons_of_mem _ (written k (by omega))

theorem OutputSafe.store {buflen n : Nat} {accesses : List Access}
    (safe : OutputSafe buflen accesses) (below : n < buflen) :
    OutputSafe buflen (.store n :: accesses) where
  inside k member := by
    rcases List.mem_cons.mp member with same | earlier
    · cases same
      exact below
    · exact safe.inside k earlier
  sourced := safe.sourced

theorem OutputSafe.load {buflen k : Nat} {accesses : List Access}
    (safe : OutputSafe buflen accesses) (stored : .store k ∈ accesses) :
    OutputSafe buflen (.load k :: accesses) where
  inside j member := by
    rcases List.mem_cons.mp member with same | earlier
    · cases same
    · exact safe.inside j earlier
  sourced := ⟨stored, safe.sourced⟩

variable (p : Args)

/-- What holds at each program point: how far the output goes, that a copy is not empty,
and the two sizes of the position tree. -/
def Located (s : Decoder) : Prop :=
  match s.pc with
  | .literal => s.v8 ≤ p.buflen ∧ Written s.v8 s.accesses
  | .store => s.i < p.buflen ∧ Written s.i s.accesses
  | .length => 1 ≤ s.v8 ∧ s.v8 ≤ p.buflen ∧ Written s.v8 s.accesses
  | .position =>
      1 ≤ s.v8 ∧ s.v8 ≤ p.buflen ∧ Written s.v8 s.accesses ∧ 1 ≤ s.v35 ∧
        (s.v105 = 64 ∨ s.v105 = 256)
  | .distance | .copy =>
      1 ≤ s.v8 ∧ s.v8 ≤ p.buflen ∧ Written s.v8 s.accesses ∧ 1 ≤ s.v35
  | .done ret => Returns p.buflen s.accesses ret

structure Good (s : Decoder) : Prop where
  safe : OutputSafe p.buflen s.accesses
  located : Located p s

def remaining (s : Decoder) : Nat :=
  match s.pc with
  | .literal => 6 * (p.buflen - s.v8) + 1
  | .store => 6 * (p.buflen - s.i)
  | .length => 6 * (p.buflen - s.v8) + 5
  | .position => 6 * (p.buflen - s.v8) + 4
  | .distance => 6 * (p.buflen - s.v8) + 3
  | .copy => 6 * (p.buflen - s.v8) + 2
  | .done _ => 0

/-- The loop of the current program point leaves by its own test: more passes than the
model allows for change nothing. The copy loop tests after its first pass. -/
def LoopsLeave (s : Decoder) : Prop :=
  match s.pc with
  | .literal => ∀ extra, s.coder.literalLoop p.input (s.literalTree p) (8 + extra) 1 =
      s.coder.literalLoop p.input (s.literalTree p) 8 1
  | .store => ∀ extra (c : Coder), c.classLoop p.input s.v11 (7 + extra) (-1) =
      c.classLoop p.input s.v11 7 (-1)
  | .position => ∀ extra, s.coder.positionLoop p.input s.v34 s.v105 (5 + extra) 8 =
      s.coder.positionLoop p.input s.v34 s.v105 5 8
  | .copy => 1 ≤ s.v35
  | .length | .distance | .done _ => True

theorem loops_leave {s : Decoder} (good : Good p s) : LoopsLeave p s := by
  have located := good.located
  unfold Located at located
  unfold LoopsLeave
  cases pc : s.pc <;> simp only [pc] at located ⊢
  case literal =>
    intro extra
    exact Coder.literalLoop_fuel p.input _ 8 extra 1 _ (by norm_num) (by norm_num)
  case store =>
    intro extra c
    exact Coder.classLoop_fuel p.input _ 7 extra (-1) c (by norm_num) (by norm_num)
  case position =>
    intro extra
    have size := located.2.2.2.2
    exact Coder.positionLoop_fuel p.input _ _ 5 extra 8 _ (by omega) (by omega)
  case copy => exact located.2.2.2

theorem good_start (out : Memory) : Good p (p.start out) where
  safe := ⟨fun _ member => absurd member List.not_mem_nil, trivial⟩
  located := ⟨Nat.zero_le _, Written.zero _⟩

theorem stepLiteral_good {s : Decoder} (good : Good p s) (pc : s.pc = .literal) :
    Good p (s.stepLiteral p) ∧ remaining p (s.stepLiteral p) < remaining p s := by
  have located := good.located
  simp only [Located, pc] at located
  unfold stepLiteral
  split_ifs with full
  · exact ⟨⟨good.safe, .inr (.inl rfl)⟩, by simp only [remaining, pc]; omega⟩
  · refine ⟨⟨good.safe, ?_, located.2⟩, ?_⟩
    · dsimp only
      omega
    · simp only [remaining, pc]
      omega

theorem stepStore_good {s : Decoder} (good : Good p s) (pc : s.pc = .store) :
    Good p (s.stepStore p) ∧ remaining p (s.stepStore p) < remaining p s := by
  have located := good.located
  simp only [Located, pc] at located
  have safe := good.safe.store located.1
  have written := located.2.store
  unfold stepStore
  dsimp only
  split_ifs with flag none
  · refine ⟨⟨safe, ?_⟩, ?_⟩
    · exact ⟨Nat.succ_le_succ (Nat.zero_le _), located.1, written, le_refl _, .inl rfl⟩
    · simp only [remaining, pc]
      omega
  · refine ⟨⟨safe, ?_⟩, ?_⟩
    · exact ⟨Nat.succ_le_succ (Nat.zero_le _), located.1, written⟩
    · simp only [remaining, pc]
      omega
  · refine ⟨⟨safe, located.1, written⟩, ?_⟩
    simp only [remaining, pc]
    omega

theorem stepLength_good {s : Decoder} (good : Good p s) (pc : s.pc = .length) :
    Good p (s.stepLength p) ∧ remaining p (s.stepLength p) < remaining p s := by
  have located := good.located
  simp only [Located, pc] at located
  obtain ⟨positive, bound, written⟩ := located
  have leading := Coder.codeBits_pos p.input (s.lengthCell p + 2984) s.v28.toNat s.coder
  unfold stepLength
  dsimp only
  split_ifs with last short
  · refine ⟨⟨good.safe, .inr (.inr ⟨positive, bound, written⟩)⟩, ?_⟩
    simp only [remaining, pc]
    omega
  · refine ⟨⟨good.safe, positive, bound, written, leading, .inr rfl⟩, ?_⟩
    simp only [remaining, pc]
    omega
  · refine ⟨⟨good.safe, positive, bound, written, leading, .inl rfl⟩, ?_⟩
    simp only [remaining, pc]
    omega

theorem stepPosition_good {s : Decoder} (good : Good p s) (pc : s.pc = .position) :
    Good p (s.stepPosition p) ∧ remaining p (s.stepPosition p) < remaining p s := by
  have located := good.located
  simp only [Located, pc] at located
  obtain ⟨positive, bound, written, copied, _⟩ := located
  unfold stepPosition
  dsimp only
  split_ifs with far
  · refine ⟨⟨good.safe, positive, bound, written, copied⟩, ?_⟩
    simp only [remaining, pc]
    omega
  · refine ⟨⟨good.safe, positive, bound, written, copied⟩, ?_⟩
    simp only [remaining, pc]
    omega

theorem stepDistance_good {s : Decoder} (good : Good p s) (pc : s.pc = .distance) :
    Good p (s.stepDistance p) ∧ remaining p (s.stepDistance p) < remaining p s := by
  have located := good.located
  simp only [Located, pc] at located
  refine ⟨⟨good.safe, located⟩, ?_⟩
  simp only [stepDistance, remaining, pc]
  omega

-- The copy loop stores `count` bytes from `v95` on and reads each from a byte stored
-- before, the last ones possibly by itself.
theorem copyLoop_good (buflen count v95 : Nat) (s : Decoder)
    (safe : OutputSafe buflen s.accesses) (written : Written v95 s.accesses)
    (room : v95 + count ≤ buflen) :
    OutputSafe buflen (copyLoop count v95 s).accesses ∧
      Written (v95 + count) (copyLoop count v95 s).accesses := by
  induction count generalizing v95 s with
  | zero => exact ⟨safe, written⟩
  | succ count ih =>
      have stored := safe.store (n := v95) (by omega)
      have longer := written.store
      have source := longer (v95 + 1 - (s.v66 + 1)) (by omega)
      dsimp only [copyLoop]
      rw [show v95 + (count + 1) = v95 + 1 + count by omega]
      exact ih (v95 + 1) _ (stored.load source) (longer.cons _) (by omega)

theorem stepCopy_good {s : Decoder} (good : Good p s) (pc : s.pc = .copy) :
    Good p (s.stepCopy p) ∧ remaining p (s.stepCopy p) < remaining p s := by
  have located := good.located
  simp only [Located, pc] at located
  obtain ⟨positive, bound, written, copied⟩ := located
  unfold stepCopy
  dsimp only
  split_ifs with far room
  · refine ⟨⟨good.safe, .inl rfl⟩, ?_⟩
    simp only [remaining, pc]
    omega
  · have first : .store (s.v8 - (s.v66 + 1)) ∈ s.accesses := written _ (by omega)
    have copy := copyLoop_good p.buflen s.v35 s.v8 { s with
        v9 := (s.out (s.v8 - (s.v66 + 1))).toNat
        accesses := .load (s.v8 - (s.v66 + 1)) :: s.accesses }
      (good.safe.load first) (written.cons _) (by omega)
    refine ⟨⟨copy.1, room, copy.2⟩, ?_⟩
    simp only [remaining, pc]
    omega
  · have first : .store (s.v8 - (s.v66 + 1)) ∈ s.accesses := written _ (by omega)
    refine ⟨⟨good.safe.load first, .inr (.inl rfl)⟩, ?_⟩
    simp only [remaining, pc]
    omega

theorem step_done {s : Decoder} {ret : Nat} (pc : s.pc = .done ret) : s.step p = s := by
  simp only [step, pc]

theorem step_good {s : Decoder} (good : Good p s) : Good p (s.step p) := by
  unfold step
  cases pc : s.pc with
  | literal => exact (stepLiteral_good p good pc).1
  | store => exact (stepStore_good p good pc).1
  | length => exact (stepLength_good p good pc).1
  | position => exact (stepPosition_good p good pc).1
  | distance => exact (stepDistance_good p good pc).1
  | copy => exact (stepCopy_good p good pc).1
  | done ret => exact good

theorem step_remaining {s : Decoder} (good : Good p s) :
    remaining p (s.step p) ≤ remaining p s - 1 := by
  unfold step
  cases pc : s.pc with
  | literal => exact Nat.le_sub_one_of_lt (stepLiteral_good p good pc).2
  | store => exact Nat.le_sub_one_of_lt (stepStore_good p good pc).2
  | length => exact Nat.le_sub_one_of_lt (stepLength_good p good pc).2
  | position => exact Nat.le_sub_one_of_lt (stepPosition_good p good pc).2
  | distance => exact Nat.le_sub_one_of_lt (stepDistance_good p good pc).2
  | copy => exact Nat.le_sub_one_of_lt (stepCopy_good p good pc).2
  | done ret => simp only [remaining, pc]; omega

theorem run_good (n : Nat) {s : Decoder} (good : Good p s) :
    Good p (s.run p n) ∧ remaining p (s.run p n) ≤ remaining p s - n := by
  induction n generalizing s with
  | zero => exact ⟨good, le_refl _⟩
  | succ n ih =>
      have rest := ih (step_good p good)
      have first := step_remaining p good
      refine ⟨rest.1, ?_⟩
      calc remaining p (run p n (s.step p)) ≤ remaining p (s.step p) - n := rest.2
        _ ≤ remaining p s - (n + 1) := by omega

theorem returned {s : Decoder} (good : Good p s) (finished : remaining p s = 0) :
    ∃ ret, s.pc = .done ret := by
  have located := good.located
  unfold Located at located
  unfold remaining at finished
  cases pc : s.pc <;> simp only [pc] at located finished
  case done ret => exact ⟨ret, rfl⟩
  all_goals omega

theorem run_done {s : Decoder} {ret : Nat} (pc : s.pc = .done ret) (n : Nat) :
    s.run p n = s := by
  induction n with
  | zero => rfl
  | succ n ih => rw [run, step_done p pc, ih]

theorem run_add (m n : Nat) (s : Decoder) : s.run p (m + n) = (s.run p m).run p n := by
  induction m generalizing s with
  | zero => rw [Nat.zero_add]; rfl
  | succ m ih => rw [Nat.succ_add, run, run, ih]

theorem start_returns (out : Memory) :
    ∃ ret, ((p.start out).run p (6 * (p.buflen + 1))).pc = .done ret := by
  have reached := run_good p (6 * (p.buflen + 1)) (good_start p out)
  refine returned p reached.1 (Nat.le_zero.mp (le_trans reached.2 ?_))
  have bound : remaining p (p.start out) = 6 * (p.buflen - 0) + 1 := rfl
  omega

end Decoder

/-- In compressed mode, for every stream and every `buflen`: each loop leaves, the function
returns, stores inside `buffer[0, buflen)` only, loads only what it has stored, and returns
an error or the length of a fully stored prefix. -/
theorem arzlDecompress_output (p : Args) (out : Memory) (mode : p.compressed = true) :
    (∀ n, Decoder.LoopsLeave p ((p.start out).run p n)) ∧
    ∃ ret, (arzlDecompress p out).pc = .done ret ∧
      (∀ n, 6 * (p.buflen + 1) ≤ n → (p.start out).run p n = arzlDecompress p out) ∧
      (∀ k, .store k ∈ (arzlDecompress p out).accesses → k < p.buflen) ∧
      Decoder.Sourced (arzlDecompress p out).accesses ∧
      (ret = badDistance ∨ ret = outOfSpace ∨
        1 ≤ ret ∧ ret ≤ p.buflen ∧ ∀ k < ret, .store k ∈ (arzlDecompress p out).accesses) := by
  have good := fun n => (Decoder.run_good p n (Decoder.good_start p out)).1
  have result : arzlDecompress p out = (p.start out).run p (6 * (p.buflen + 1)) := by
    rw [arzlDecompress, if_pos mode]
  obtain ⟨ret, pc⟩ := Decoder.start_returns p out
  have final := good (6 * (p.buflen + 1))
  have located := final.located
  rw [← result] at pc final located
  refine ⟨fun n => Decoder.loops_leave p (good n), ret, pc, ?_, final.safe.inside,
    final.safe.sourced, ?_⟩
  · intro n enough
    rw [← Nat.add_sub_cancel' enough, Decoder.run_add, ← result, Decoder.run_done p pc]
  · simp only [Decoder.Located, pc] at located
    exact located

def zeros (buflen : Nat) : Args := ⟨fun _ => 0, 0, buflen⟩

theorem arzlDecompress_output_zeros :
    (zeros 1).compressed = true ∧
      ∃ ret, (arzlDecompress (zeros 1) fun _ => 0).pc = .done ret := by
  obtain ⟨ret, pc, _⟩ := (arzlDecompress_output (zeros 1) (fun _ => 0) (by decide)).2
  exact ⟨by decide, ret, pc⟩

end VitaTools.Unarzl
