import VitaTools.Unarzl.Failure
import VitaTools.Unarzl.TableSafety

set_option autoImplicit false

namespace VitaTools.Unarzl

open VitaTools.Library

namespace Coder

variable {input : Memory}

/-- `P` survives everything the range decoder does to its registers. -/
structure Kept (input : Memory) (P : Coder → Prop) : Prop where
  renorm : ∀ c, P c → P (c.renorm input)
  bit : ∀ c index shift step, P c → P (c.decodeBit input index shift step).2
  direct : ∀ count value c, P c → P (directBits count value c).2

namespace Kept

variable {P : Coder → Prop} (kept : Kept input P)

include kept

theorem literalLoop (v13 : Int) (fuel v9 : Nat) {c : Coder} (start : P c) :
    P (c.literalLoop input v13 fuel v9).2 := by
  induction fuel generalizing v9 c with
  | zero => exact start
  | succ fuel ih =>
      have first := kept.bit c (v13 + v9 - 1) 3 31 start
      dsimp only [Coder.literalLoop]
      split
      · exact ih _ first
      · exact first

theorem classLoop (v19 : Int) (fuel : Nat) (v28 : Int) {c : Coder} (start : P c) :
    P (c.classLoop input v19 fuel v28).2 := by
  induction fuel generalizing v19 v28 c with
  | zero => exact start
  | succ fuel ih =>
      have first := kept.bit c (v19 + 2928) 4 15 start
      dsimp only [Coder.classLoop]
      split_ifs
      · exact first
      · exact ih _ _ first
      · exact first

theorem positionLoop (v34 : Int) (v105 fuel v61 : Nat) {c : Coder} (start : P c) :
    P (c.positionLoop input v34 v105 fuel v61).2 := by
  induction fuel generalizing v61 c with
  | zero => exact start
  | succ fuel ih =>
      have first := kept.bit c (v34 + v61 + 2033) 3 31 start
      dsimp only [Coder.positionLoop]
      split
      · exact ih _ first
      · exact first

theorem append (index : Int) {p : Nat × Coder} (start : P p.2) :
    P (append input index p).2 := kept.bit p.2 index 4 15 start

theorem codeBits (cell : Int) (n : Nat) {c : Coder} (start : P c) :
    P (c.codeBits input cell n).2 := by
  have first := kept.append cell (p := (1, c)) start
  dsimp only [Coder.codeBits]
  set p := Coder.append input cell (1, c)
  have high : P (if n ≠ 3 then
      if n ≠ 4 then directBits (n - 4) (Coder.append input cell p).1
          ((Coder.append input cell p).2.renorm input)
        else Coder.append input cell p
      else p).2 := by
    have second := kept.append cell first
    split_ifs
    · exact kept.direct _ _ _ (kept.renorm _ second)
    · exact second
    · exact first
  generalize (if n ≠ 3 then
      if n ≠ 4 then directBits (n - 4) (Coder.append input cell p).1
          ((Coder.append input cell p).2.renorm input)
        else Coder.append input cell p
      else p) = q at high ⊢
  have middle : P (if 3 ≤ n then Coder.append input (cell + 24) q else p).2 := by
    split_ifs
    · exact kept.append _ high
    · exact first
  generalize (if 3 ≤ n then Coder.append input (cell + 24) q else p) = r at middle ⊢
  split_ifs
  · exact kept.append _ (kept.append _ middle)
  · exact kept.append _ middle
  · exact middle

end Kept

/-- At least `low` bytes behind the header were read, all of them in order. -/
def Consecutive (low : Nat) (c : Coder) : Prop :=
  low ≤ c.input1 ∧ c.fetched = (List.range (c.input1 + 5)).reverse

theorem renorm_consecutive {low : Nat} {c : Coder} (reads : Consecutive low c) :
    Consecutive low (c.renorm input) := by
  unfold renorm
  split
  · refine ⟨reads.1.trans (Nat.le_succ _), ?_⟩
    dsimp only
    rw [reads.2, show c.input1 + 1 + 5 = c.input1 + 5 + 1 by omega, List.range_succ
      (n := c.input1 + 5), List.reverse_append]
    rfl
  · exact reads

theorem kept_consecutive (low : Nat) : Kept input (Consecutive low) where
  renorm _ := renorm_consecutive
  bit c index shift step reads := by
    have renormed : Consecutive low (c.renorm input) := renorm_consecutive reads
    dsimp only [decodeBit]
    split <;> exact renormed
  direct count value c reads := by
    induction count generalizing value c with
    | zero => exact reads
    | succ count ih =>
        dsimp only [directBits]
        split
        · exact ih _ _ reads
        · exact ih _ _ reads

end Coder

namespace Decoder

variable {p q : Args}

theorem step_kept {P : Coder → Prop} (kept : Coder.Kept p.input P) {s : Decoder}
    (start : P s.coder) : P (s.step p).coder := by
  unfold step
  cases pc : s.pc <;> dsimp only
  case literal =>
    unfold stepLiteral
    split
    · exact start
    · exact kept.literalLoop _ _ _ start
  case store =>
    have flag := kept.bit s.coder (s.v11 + 2920) 4 15 start
    have classes := kept.classLoop s.v11 7 (-1) flag
    unfold stepStore
    dsimp only
    split_ifs
    · exact classes
    · exact classes
    · exact flag
  case length =>
    have code := kept.codeBits (s.lengthCell p + 2984) s.v28.toNat start
    unfold stepLength
    dsimp only
    split_ifs <;> exact code
  case position => exact kept.positionLoop _ _ _ _ start
  case distance => exact kept.codeBits _ _ start
  case copy =>
    unfold stepCopy
    dsimp only
    split_ifs
    · exact start
    · dsimp only
      rw [copyLoop_frame]
      exact start
    · exact start
  case done ret => exact start

theorem run_kept {P : Coder → Prop} (kept : Coder.Kept p.input P) (n : Nat) {s : Decoder}
    (start : P s.coder) : P (s.run p n).coder := by
  induction n generalizing s with
  | zero => exact start
  | succ n ih => exact ih (step_kept kept start)

theorem run_reads {n : Nat} {s t : Decoder} (input : p.input = q.input)
    (low : p.buffer % 8 = q.buffer % 8) (agree : Agree s t)
    (stops : (s.run p n).pc ≠ .done outOfSpace) :
    ∃ k ≤ n, (t.run q n).coder = (s.run p k).coder := by
  induction n generalizing s t with
  | zero =>
      obtain ⟨out, rfl, _⟩ := agree
      exact ⟨0, le_refl _, rfl⟩
  | succ n ih =>
      rcases step_together input low agree with still | ⟨_, full, same⟩ | full | bad
      · obtain ⟨k, within, same⟩ := ih still stops
        exact ⟨k + 1, by omega, same⟩
      · refine ⟨0, Nat.zero_le _, ?_⟩
        rw [run, run, run_done q full]
        exact same
      · rw [run, run_done p full] at stops
        exact absurd full stops
      · refine ⟨1, by omega, ?_⟩
        rw [run, run_done q bad.2.1]
        exact bad.2.2.2

end Decoder

section

variable {p : Args} {out : Memory}

theorem start_consecutive (p : Args) (out : Memory) :
    Coder.Consecutive 0 (p.start out).coder := ⟨Nat.zero_le _, rfl⟩

theorem storedMode_fetched (mode : ¬ p.compressed = true) :
    (arzlDecompress p out).coder.fetched =
      (List.range (if p.buflen < p.header then 5 else 5 + p.header)).reverse := by
  rw [arzlDecompress, if_neg mode, storedMode]
  split
  next => rfl
  next =>
    rw [List.range_add, List.reverse_append]
    simp only [Nat.add_comm 5]
    rfl

theorem arzlDecompress_reads (p : Args) (out : Memory) :
    ∃ m, (arzlDecompress p out).coder.fetched = (List.range m).reverse ∧
      ((arzlDecompress p out).endptr = m ∨
        (arzlDecompress p out).pc = .done badDistance ∨
        (arzlDecompress p out).pc = .done outOfSpace) := by
  by_cases mode : p.compressed = true
  · obtain ⟨ret, pc⟩ := arzlDecompress_returns p out
    have reads := Decoder.run_kept (p := p) (Coder.kept_consecutive 0) (6 * (p.buflen + 1))
      (start_consecutive p out)
    have result := arzlDecompress_steps p out mode _ (le_refl _)
    rw [result] at reads
    refine ⟨_, reads.2, ?_⟩
    have going : ∀ ret, (p.start out).pc ≠ .done ret := fun _ => Point.noConfusion
    rcases Decoder.run_ends going (result ▸ pc) with ⟨k, _, bad⟩ | full | ended
    · exact .inr (.inl (bad_last mode bad).1)
    · exact .inr (.inr (full ▸ pc))
    · rw [result] at ended
      exact .inl ended.2
  · refine ⟨_, storedMode_fetched mode, ?_⟩
    rw [arzlDecompress, if_neg mode, storedMode]
    split
    next => exact .inr (.inr rfl)
    next => exact .inl (Nat.add_comm _ _)

theorem fetched_later (j k : Nat) :
    ∀ offset ∈ ((p.start out).run p j).coder.fetched,
      offset ∈ ((p.start out).run p (j + k)).coder.fetched := by
  have early := Decoder.run_kept (p := p) (Coder.kept_consecutive 0) j (start_consecutive p out)
  have late := Decoder.run_kept (p := p) (s := (p.start out).run p j)
    (Coder.kept_consecutive ((p.start out).run p j).coder.input1) k ⟨le_refl _, early.2⟩
  rw [← Decoder.run_add] at late
  intro offset member
  rw [early.2, List.mem_reverse, List.mem_range] at member
  rw [late.2, List.mem_reverse, List.mem_range]
  have grown := late.1
  omega

end

/-- The first `n` bytes are enough to stop the decoder, given room at `buffer`. -/
def HoldsStream (input : Memory) (buffer n : Nat) : Prop :=
  ∃ room, (arzlDecompress ⟨input, buffer, room⟩ fun _ => 0).pc ≠ .done outOfSpace ∧
    ∀ offset ∈ (arzlDecompress ⟨input, buffer, room⟩ fun _ => 0).coder.fetched, offset < n

theorem reads_within {input : Memory} {buffer n : Nat} (holds : HoldsStream input buffer n)
    {q : Args} {t : Memory} (same : q.input = input) (low : q.buffer % 8 = buffer % 8) :
    ∀ offset ∈ (arzlDecompress q t).coder.fetched, offset < n := by
  obtain ⟨room, stops, within⟩ := holds
  have modes : q.compressed = Args.compressed ⟨input, buffer, room⟩ := by
    simp only [Args.compressed, same]
  have headers : q.header = Args.header ⟨input, buffer, room⟩ := by
    simp only [Args.header, same]
  intro offset member
  apply within
  by_cases mode : Args.compressed ⟨input, buffer, room⟩ = true
  · set steps := 6 * (room + 1) + 6 * (q.buflen + 1)
    have first := arzlDecompress_steps ⟨input, buffer, room⟩ (fun _ => 0) mode steps
      (Nat.le_add_right _ _)
    have second := arzlDecompress_steps q t (modes.trans mode) steps (Nat.le_add_left _ _)
    rw [← first] at stops ⊢
    rw [← second] at member
    obtain ⟨k, early, coder⟩ := Decoder.run_reads (p := ⟨input, buffer, room⟩) same.symm
      low.symm (Decoder.start_agree (fun _ => 0) t same.symm) stops
    rw [coder] at member
    rw [← Nat.add_sub_cancel' early]
    exact fetched_later k _ offset member
  · have long := ((storedMode_stops_iff mode).mp stops).1
    rw [storedMode_fetched (by rwa [modes]), List.mem_reverse, List.mem_range, headers] at member
    rw [storedMode_fetched mode, List.mem_reverse, List.mem_range, if_neg (by omega)]
    split at member <;> omega

def cutStream : Memory := fun k => ([0, 0x7F, 0xFF, 0xFF, 0xFF, 0xFF] : List Byte).getD k 0

end VitaTools.Unarzl
