import VitaTools.Unarzl.Output

set_option autoImplicit false

namespace VitaTools.Unarzl

open VitaTools.Library

namespace Decoder

def cursor (s : Decoder) : Nat :=
  match s.pc with
  | .store => s.i
  | .done ret => ret
  | .literal | .length | .position | .distance | .copy => s.v8

/-- The two decoders differ in memory behind the output only. -/
def Agree (s t : Decoder) : Prop :=
  ∃ out, t = { s with out := out } ∧ ∀ k < s.cursor, out k = s.out k

def Failed (s : Decoder) : Prop := s.pc = .done badDistance ∨ s.pc = .done outOfSpace

def need (s : Decoder) : Nat :=
  match s.pc with
  | .literal => s.v8 + 1
  | .store => s.i + 1
  | .length => s.v8
  | .position | .distance | .copy => s.v8 + s.v35 + 1
  | .done ret => ret

def stored (s : Decoder) : Nat :=
  match s.pc with
  | .store => s.i + 1
  | .literal | .length | .position | .distance | .copy | .done _ => s.v8

def BothBad (s t : Decoder) : Prop :=
  s.pc = .done badDistance ∧ t.pc = .done badDistance ∧ t.v8 = s.v8 ∧ t.coder = s.coder

def RunsShort (before after : Decoder) : Prop :=
  after.pc = .done outOfSpace ∧ after.coder = before.coder

variable {p q : Args}

theorem literalTree_congr (s : Decoder) (low : p.buffer % 8 = q.buffer % 8)
    (input : p.input = q.input) (out : Memory) :
    ({ s with out := out } : Decoder).literalTree q = s.literalTree p := by
  have bits : (q.buffer + s.v8) &&& 7 = (p.buffer + s.v8) &&& 7 := by
    rw [Nat.and_two_pow_sub_one_eq_mod _ 3, Nat.and_two_pow_sub_one_eq_mod _ 3]
    omega
  simp only [literalTree, Args.v6, bits, input]

theorem lengthCell_congr (s : Decoder) (low : p.buffer % 8 = q.buffer % 8) (out : Memory) :
    ({ s with out := out } : Decoder).lengthCell q = s.lengthCell p := by
  have bits (count : Nat) : ((q.buffer + s.v8) % 2 ^ 32) <<< count % 2 ^ 32 &&& 3 =
      ((p.buffer + s.v8) % 2 ^ 32) <<< count % 2 ^ 32 &&& 3 := by
    rw [Nat.and_two_pow_sub_one_eq_mod _ 2, Nat.and_two_pow_sub_one_eq_mod _ 2,
      Nat.mod_mod_of_dvd _ (by norm_num), Nat.mod_mod_of_dvd _ (by norm_num),
      Nat.shiftLeft_eq, Nat.shiftLeft_eq, Nat.mul_mod, Nat.mul_mod ((p.buffer + s.v8) % 2 ^ 32)]
    congr 2
    omega
  simp only [lengthCell, bits]

theorem update_agree {m n : Memory} {count : Nat} (same : ∀ k < count, m k = n k) (byte : Byte) :
    ∀ k < count + 1, Function.update m count byte k = Function.update n count byte k := by
  intro k below
  by_cases last : k = count
  · rw [last, Function.update_self, Function.update_self]
  · rw [Function.update_of_ne last, Function.update_of_ne last, same k (by omega)]

theorem stepLiteral_agree (s : Decoder) (out : Memory) (pc : s.pc = .literal)
    (input : p.input = q.input) (low : p.buffer % 8 = q.buffer % 8)
    (bytes : ∀ k < s.cursor, out k = s.out k) :
    Agree (s.stepLiteral p) (({ s with out := out } : Decoder).stepLiteral q) ∨
      (q.buflen < s.need ∧ q.buflen < (s.stepLiteral p).stored) ∧
        RunsShort s (({ s with out := out } : Decoder).stepLiteral q) ∨
      (s.stepLiteral p).pc = .done outOfSpace := by
  by_cases full : s.v8 = p.buflen
  · right
    right
    rw [stepLiteral, if_pos full]
  by_cases short : s.v8 = q.buflen
  · right
    left
    constructor
    · simp only [need, pc, stepLiteral, if_neg full, stored]
      omega
    · rw [stepLiteral, if_pos short]
      exact ⟨rfl, rfl⟩
  left
  refine ⟨out, ?_, ?_⟩
  · simp only [stepLiteral, if_neg full, if_neg short, literalTree_congr s low input, input]
  · simp only [cursor, pc] at bytes
    simpa only [stepLiteral, if_neg full, cursor] using bytes

theorem stepStore_agree (s : Decoder) (out : Memory) (pc : s.pc = .store)
    (input : p.input = q.input) (bytes : ∀ k < s.cursor, out k = s.out k) :
    Agree (s.stepStore p) (({ s with out := out } : Decoder).stepStore q) := by
  simp only [cursor, pc] at bytes
  have stored := update_agree bytes (BitVec.ofNat 8 s.v9)
  refine ⟨Function.update out s.i (BitVec.ofNat 8 s.v9), ?_, ?_⟩
  · simp only [stepStore, input]
    split_ifs <;> rfl
  · unfold stepStore
    dsimp only
    split_ifs <;> simpa only [cursor] using stored

theorem stepLength_agree (s : Decoder) (out : Memory) (pc : s.pc = .length)
    (input : p.input = q.input) (low : p.buffer % 8 = q.buffer % 8)
    (bytes : ∀ k < s.cursor, out k = s.out k) :
    Agree (s.stepLength p) (({ s with out := out } : Decoder).stepLength q) := by
  simp only [cursor, pc] at bytes
  refine ⟨out, ?_, ?_⟩
  · simp only [stepLength, lengthCell_congr s low, input]
    split_ifs <;> rfl
  · unfold stepLength
    dsimp only
    split_ifs <;> simpa only [cursor] using bytes

theorem stepPosition_agree (s : Decoder) (out : Memory) (pc : s.pc = .position)
    (input : p.input = q.input) (bytes : ∀ k < s.cursor, out k = s.out k) :
    Agree (s.stepPosition p) (({ s with out := out } : Decoder).stepPosition q) := by
  simp only [cursor, pc] at bytes
  refine ⟨out, ?_, ?_⟩
  · simp only [stepPosition, input]
  · unfold stepPosition
    dsimp only
    split_ifs <;> simpa only [cursor] using bytes

theorem stepDistance_agree (s : Decoder) (out : Memory) (pc : s.pc = .distance)
    (input : p.input = q.input) (bytes : ∀ k < s.cursor, out k = s.out k) :
    Agree (s.stepDistance p) (({ s with out := out } : Decoder).stepDistance q) := by
  simp only [cursor, pc] at bytes
  refine ⟨out, ?_, ?_⟩
  · simp only [stepDistance, input]
    rfl
  · simpa only [stepDistance, cursor] using bytes

theorem copyLoop_agree (count v95 : Nat) (s : Decoder) (out : Memory)
    (bytes : ∀ k < v95, out k = s.out k) :
    ∃ later, copyLoop count v95 { s with out := out } =
        { copyLoop count v95 s with out := later } ∧
      ∀ k < v95 + count, later k = (copyLoop count v95 s).out k := by
  induction count generalizing v95 s out with
  | zero => exact ⟨out, rfl, bytes⟩
  | succ count ih =>
      have stored := update_agree bytes (BitVec.ofNat 8 s.v9)
      dsimp only [copyLoop]
      rw [stored (v95 + 1 - (s.v66 + 1)) (by omega),
        show v95 + (count + 1) = v95 + 1 + count by omega]
      exact ih (v95 + 1) { s with
        out := Function.update s.out v95 (BitVec.ofNat 8 s.v9)
        accesses := .load (v95 + 1 - (s.v66 + 1)) :: .store v95 :: s.accesses
        v9 := (Function.update s.out v95 (BitVec.ofNat 8 s.v9) (v95 + 1 - (s.v66 + 1))).toNat }
        (Function.update out v95 (BitVec.ofNat 8 s.v9)) stored

theorem stepCopy_agree (s : Decoder) (out : Memory) (pc : s.pc = .copy)
    (bytes : ∀ k < s.cursor, out k = s.out k) :
    Agree (s.stepCopy p) (({ s with out := out } : Decoder).stepCopy q) ∨
      (q.buflen < s.need ∧ q.buflen < (s.stepCopy p).stored) ∧
        RunsShort s (({ s with out := out } : Decoder).stepCopy q) ∨
      (s.stepCopy p).pc = .done outOfSpace ∨
      BothBad (s.stepCopy p) (({ s with out := out } : Decoder).stepCopy q) := by
  simp only [cursor, pc] at bytes
  by_cases far : s.v8 ≤ s.v66
  · right
    right
    right
    refine ⟨?_, ?_, ?_, ?_⟩ <;> simp only [stepCopy, if_pos far]
  by_cases full : s.v8 + s.v35 < p.buflen
  · by_cases short : s.v8 + s.v35 < q.buflen
    · left
      have first : out (s.v8 - (s.v66 + 1)) = s.out (s.v8 - (s.v66 + 1)) := bytes _ (by omega)
      obtain ⟨later, copied, same⟩ := copyLoop_agree s.v35 s.v8 { s with
        v9 := (s.out (s.v8 - (s.v66 + 1))).toNat
        accesses := .load (s.v8 - (s.v66 + 1)) :: s.accesses } out bytes
      refine ⟨later, ?_, ?_⟩
      · simp only [stepCopy, if_neg far, if_pos full, if_pos short, first, copied]
      · simpa only [stepCopy, if_neg far, if_pos full, cursor] using same
    · right
      left
      constructor
      · simp only [need, pc, stepCopy, if_neg far, if_pos full, stored]
        omega
      · simp only [RunsShort, stepCopy, if_neg far, if_neg short, true_and]
  · right
    right
    left
    simp only [stepCopy, if_neg far, if_neg full]

-- One step of both: they still agree, or the second has run out of space that the first
-- uses, or the first has run out of space, or both have met a bad distance.
theorem step_together {s t : Decoder} (input : p.input = q.input)
    (low : p.buffer % 8 = q.buffer % 8) (agree : Agree s t) :
    Agree (s.step p) (t.step q) ∨
      (q.buflen < s.need ∧ q.buflen < (s.step p).stored) ∧ RunsShort s (t.step q) ∨
      (s.step p).pc = .done outOfSpace ∨ BothBad (s.step p) (t.step q) := by
  obtain ⟨out, rfl, bytes⟩ := agree
  unfold step
  cases pc : s.pc with
  | literal =>
      rcases stepLiteral_agree s out pc input low bytes with still | short | full
      · exact .inl still
      · exact .inr (.inl short)
      · exact .inr (.inr (.inl full))
  | store => exact .inl (stepStore_agree s out pc input bytes)
  | length => exact .inl (stepLength_agree s out pc input low bytes)
  | position => exact .inl (stepPosition_agree s out pc input bytes)
  | distance => exact .inl (stepDistance_agree s out pc input bytes)
  | copy => simpa only [pc] using stepCopy_agree (p := p) (q := q) s out pc bytes
  | done ret =>
    have still : Agree s { s with out := out } := ⟨out, rfl, bytes⟩
    exact .inl (by simpa only [pc] using still)

theorem step_lockstep {s t : Decoder} (input : p.input = q.input)
    (low : p.buffer % 8 = q.buffer % 8) (agree : Agree s t) :
    Agree (s.step p) (t.step q) ∨
      q.buflen < s.need ∧ (t.step q).pc = .done outOfSpace ∨ Failed (s.step p) := by
  rcases step_together input low agree with still | ⟨short, full⟩ | full | bad
  · exact .inl still
  · exact .inr (.inl ⟨short.1, full.1⟩)
  · exact .inr (.inr (.inr full))
  · exact .inr (.inr (.inl bad.1))

theorem step_need (s : Decoder) : s.need ≤ (s.step p).need ∨ Failed (s.step p) := by
  unfold step
  cases pc : s.pc <;> dsimp only
  case literal =>
    unfold stepLiteral
    split_ifs
    · exact .inr (.inr rfl)
    · exact .inl (by simp only [need, pc]; omega)
  case store =>
    unfold stepStore
    dsimp only
    split_ifs <;> exact .inl (by simp only [need, pc]; omega)
  case length =>
    unfold stepLength
    dsimp only
    split_ifs <;> exact .inl (by simp only [need, pc]; omega)
  case position =>
    unfold stepPosition
    dsimp only
    split_ifs <;> exact .inl (by simp only [need, pc]; omega)
  case distance => exact .inl (by simp only [stepDistance, need, pc]; omega)
  case copy =>
    unfold stepCopy
    dsimp only
    split_ifs
    · exact .inr (.inl rfl)
    · exact .inl (by simp only [need, pc]; omega)
    · exact .inr (.inr rfl)
  case done ret => exact .inl (le_refl _)

theorem copyLoop_behind (count v95 k : Nat) (s : Decoder) (behind : v95 + count ≤ k) :
    (copyLoop count v95 s).out k = s.out k := by
  induction count generalizing v95 s with
  | zero => rfl
  | succ count ih =>
      dsimp only [copyLoop]
      rw [ih _ _ (by omega)]
      exact Function.update_of_ne (by omega) _ _

theorem step_behind (s : Decoder) : (s.cursor ≤ (s.step p).cursor ∧
    ∀ k, (s.step p).cursor ≤ k → (s.step p).out k = s.out k) ∨ Failed (s.step p) := by
  unfold step
  cases pc : s.pc <;> dsimp only
  case literal =>
    unfold stepLiteral
    split_ifs
    · exact .inr (.inr rfl)
    · exact .inl ⟨by simp only [cursor, pc]; exact le_refl _, fun _ _ => rfl⟩
  case store =>
    have behind : ∀ k, s.i + 1 ≤ k →
        Function.update s.out s.i (BitVec.ofNat 8 s.v9) k = s.out k := fun k beyond =>
      Function.update_of_ne (by omega) _ _
    unfold stepStore
    dsimp only
    split_ifs <;> exact .inl ⟨by simp only [cursor, pc]; omega, behind⟩
  case length =>
    unfold stepLength
    dsimp only
    split_ifs <;> exact .inl ⟨by simp only [cursor, pc]; exact le_refl _, fun _ _ => rfl⟩
  case position =>
    unfold stepPosition
    dsimp only
    split_ifs <;> exact .inl ⟨by simp only [cursor, pc]; exact le_refl _, fun _ _ => rfl⟩
  case distance =>
    exact .inl ⟨by simp only [stepDistance, cursor, pc]; exact le_refl _, fun _ _ => rfl⟩
  case copy =>
    unfold stepCopy
    dsimp only
    split_ifs
    · exact .inr (.inl rfl)
    · refine .inl ⟨by simp only [cursor, pc]; omega, fun k beyond => ?_⟩
      dsimp only
      rw [copyLoop_behind _ _ _ _ beyond]
    · exact .inr (.inr rfl)
  case done ret => exact .inl ⟨le_refl _, fun _ _ => rfl⟩

theorem failed_run {s : Decoder} {n count : Nat} (failed : Failed s)
    (success : (s.run p n).pc = .done count) : 2 ^ 31 ≤ count := by
  rcases failed with pc | pc
  · rw [run_done p pc, pc] at success
    cases success
    decide
  · rw [run_done p pc, pc] at success
    cases success
    decide

theorem run_need {n count : Nat} (s : Decoder) (success : (s.run p n).pc = .done count)
    (small : count < 2 ^ 31) : s.need ≤ count := by
  induction n generalizing s with
  | zero =>
      have pc : s.pc = .done count := success
      simp only [need, pc]
      exact le_refl _
  | succ n ih =>
      rcases step_need s (p := p) with grows | failed
      · exact le_trans grows (ih _ success)
      · exact absurd (failed_run failed success) (by omega)

theorem run_behind {n count : Nat} (s : Decoder) (success : (s.run p n).pc = .done count)
    (small : count < 2 ^ 31) :
    s.cursor ≤ count ∧ ∀ k, count ≤ k → (s.run p n).out k = s.out k := by
  induction n generalizing s with
  | zero =>
      have pc : s.pc = .done count := success
      exact ⟨by simp only [cursor, pc]; exact le_refl _, fun _ _ => rfl⟩
  | succ n ih =>
      rcases step_behind s (p := p) with ⟨grows, kept⟩ | failed
      · obtain ⟨below, later⟩ := ih _ success
        refine ⟨le_trans grows below, fun k behind => ?_⟩
        rw [run, later k behind, kept k (le_trans below behind)]
      · exact absurd (failed_run failed success) (by omega)

-- A successful run and a run with another buffer: they agree to the end, or the other
-- buffer is too small and the other run says so.
theorem run_lockstep {n count : Nat} {s t : Decoder} (input : p.input = q.input)
    (low : p.buffer % 8 = q.buffer % 8) (agree : Agree s t)
    (success : (s.run p n).pc = .done count) (small : count < 2 ^ 31) :
    Agree (s.run p n) (t.run q n) ∨ q.buflen < count ∧ (t.run q n).pc = .done outOfSpace := by
  induction n generalizing s t with
  | zero => exact .inl agree
  | succ n ih =>
      rcases step_lockstep input low agree with still | ⟨short, full⟩ | failed
      · exact ih still success
      · right
        have needed := run_need s success small
        refine ⟨by omega, ?_⟩
        rw [run, run_done q full, full]
      · exact absurd (failed_run failed success) (by omega)

theorem start_agree (out t : Memory) (input : p.input = q.input) :
    Agree (p.start out) (q.start t) := by
  refine ⟨t, ?_, fun k below => absurd below (Nat.not_lt_zero k)⟩
  simp only [Args.start, Args.initialCoder, Args.header, Args.initialProb, input]

end Decoder

theorem arzlDecompress_steps (p : Args) (out : Memory) (mode : p.compressed = true) (n : Nat)
    (enough : 6 * (p.buflen + 1) ≤ n) : (p.start out).run p n = arzlDecompress p out := by
  obtain ⟨ret, pc⟩ := Decoder.start_returns p out
  rw [← Nat.add_sub_cancel' enough, Decoder.run_add, Decoder.run_done p pc, arzlDecompress,
    if_pos mode]

theorem arzlDecompress_bounded (p : Args) (out : Memory) (mode : p.compressed = true) :
    ∃ ret, (arzlDecompress p out).pc = .done ret ∧
      (ret = badDistance ∨ ret = outOfSpace ∨ 1 ≤ ret ∧ ret ≤ p.buflen) := by
  obtain ⟨ret, pc⟩ := Decoder.start_returns p out
  have good := (Decoder.run_good p (6 * (p.buflen + 1)) (Decoder.good_start p out)).1
  have located := good.located
  rw [arzlDecompress_steps p out mode _ (le_refl _)] at pc located
  simp only [Decoder.Located, pc] at located
  refine ⟨ret, pc, ?_⟩
  rcases located with bad | full | ⟨positive, bound, _⟩
  · exact .inl bad
  · exact .inr (.inl full)
  · exact .inr (.inr ⟨positive, bound⟩)

theorem arzlDecompress_behind {p : Args} {out : Memory} {count : Nat}
    (success : (arzlDecompress p out).pc = .done count) (small : count < 2 ^ 31) (k : Nat)
    (behind : count ≤ k) : (arzlDecompress p out).out k = out k := by
  by_cases mode : p.compressed = true
  · rw [← arzlDecompress_steps p out mode _ (le_refl _)] at success ⊢
    exact (Decoder.run_behind _ success small).2 k behind
  · rw [arzlDecompress, if_neg mode, storedMode] at success ⊢
    by_cases full : p.buflen < p.header
    · rw [if_pos full]
      rfl
    · rw [if_neg full] at success ⊢
      have final : p.header = count := Point.done.inj success
      exact if_neg (by omega)

theorem arzlDecompress_buflen {p q : Args} {out t : Memory} {count : Nat}
    (input : p.input = q.input) (low : p.buffer % 8 = q.buffer % 8)
    (success : (arzlDecompress p out).pc = .done count) (small : count < 2 ^ 31) :
    (count ≤ q.buflen → (arzlDecompress q t).pc = .done count ∧
      ∀ k < count, (arzlDecompress q t).out k = (arzlDecompress p out).out k) ∧
    (q.buflen < count → (arzlDecompress q t).pc = .done outOfSpace) := by
  have modes : q.compressed = p.compressed := by simp only [Args.compressed, input]
  by_cases mode : p.compressed = true
  · have result := arzlDecompress_steps p out mode (6 * (p.buflen + 1) + 6 * (q.buflen + 1))
      (by omega)
    have result' := arzlDecompress_steps q t (modes.trans mode)
      (6 * (p.buflen + 1) + 6 * (q.buflen + 1)) (by omega)
    have start := Decoder.start_agree out t input
    rw [← result] at success
    have lockstep := Decoder.run_lockstep input low start success small
    rw [result] at success
    rw [result, result'] at lockstep
    rcases lockstep with ⟨last, same, bytes⟩ | ⟨short, full⟩
    · rw [same]
      simp only [Decoder.cursor, success] at bytes
      obtain ⟨ret, pc, returns⟩ := arzlDecompress_bounded q t (modes.trans mode)
      have final : ret = count := by
        rw [same, success] at pc
        exact (Point.done.inj pc).symm
      have bound : count ≤ q.buflen := by
        rcases returns with bad | full | ⟨_, bound⟩
        · exact absurd (final.symm.trans bad) (by unfold badDistance; omega)
        · exact absurd (final.symm.trans full) (by unfold outOfSpace; omega)
        · omega
      exact ⟨fun _ => ⟨success, bytes⟩, fun short => absurd bound (by omega)⟩
    · exact ⟨fun fits => absurd fits (by omega), fun _ => full⟩
  · have headers : q.header = p.header := by simp only [Args.header, input]
    rw [arzlDecompress, if_neg mode, storedMode] at success
    rw [arzlDecompress, arzlDecompress, if_neg mode, if_neg (by rwa [modes]), storedMode,
      storedMode, headers]
    by_cases full : p.buflen < p.header
    · rw [if_pos full] at success
      exact absurd (Point.done.inj success) (by unfold outOfSpace; omega)
    rw [if_neg full] at success ⊢
    have final : p.header = count := Point.done.inj success
    by_cases short : q.buflen < p.header
    · rw [if_pos short]
      exact ⟨fun fits => absurd fits (by omega), fun _ => rfl⟩
    · rw [if_neg short]
      refine ⟨fun _ => ⟨success, ?_⟩, fun short => absurd short (by omega)⟩
      intro k below
      simp only [storedCopy, headers, input, final, if_pos below]

end VitaTools.Unarzl
