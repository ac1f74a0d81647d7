import VitaTools.Unarzl.BufferSize

set_option autoImplicit false

namespace VitaTools.Unarzl

open VitaTools.Library

namespace Decoder

variable {p q : Args}

theorem step_stored (s : Decoder) : (s.step p).stored = s.stored ∨
    s.stored < (s.step p).stored ∧
      (s.stored ≤ p.buflen → (s.step p).stored ≤ p.buflen) := by
  unfold step
  cases pc : s.pc <;> dsimp only
  case literal =>
    unfold stepLiteral
    split_ifs
    · simp only [stored, pc, true_or]
    · simp only [stored, pc]
      omega
  case store =>
    unfold stepStore
    dsimp only
    split_ifs <;> simp only [stored, pc, true_or]
  case length =>
    unfold stepLength
    dsimp only
    split_ifs <;> simp only [stored, pc, true_or]
  case position =>
    unfold stepPosition
    dsimp only
    split_ifs <;> simp only [stored, pc, true_or]
  case distance => simp only [stepDistance, stored, pc, true_or]
  case copy =>
    unfold stepCopy
    dsimp only
    split_ifs
    · simp only [stored, pc, true_or]
    · simp only [stored, pc]
      omega
    · simp only [stored, pc, true_or]
  case done ret => exact .inl rfl

theorem run_stored (n : Nat) (s : Decoder) : s.stored ≤ (s.run p n).stored ∧
    (s.stored ≤ p.buflen → (s.run p n).stored ≤ p.buflen) := by
  induction n generalizing s with
  | zero => exact ⟨le_refl _, id⟩
  | succ n ih =>
      have rest := ih (s.step p)
      rcases step_stored s (p := p) with same | ⟨more, fits⟩
      · rw [run, ← same]
        exact rest
      · exact ⟨more.le.trans rest.1, fun within => rest.2 (fits within)⟩

-- Two runs on one stream: where the first does not run out of space and what it stores
-- fits the second, both stand at the same point.
theorem run_together {n : Nat} {s t : Decoder} (input : p.input = q.input)
    (low : p.buffer % 8 = q.buffer % 8) (agree : Agree s t)
    (stops : (s.run p n).pc ≠ .done outOfSpace) (room : (s.run p n).stored ≤ q.buflen) :
    Agree (s.run p n) (t.run q n) ∨ BothBad (s.run p n) (t.run q n) := by
  induction n generalizing s t with
  | zero => exact .inl agree
  | succ n ih =>
      rcases step_together input low agree with still | ⟨short, _⟩ | full | bad
      · exact ih still stops room
      · have grown := (run_stored (p := p) n (s.step p)).1
        rw [run] at room
        omega
      · rw [run, run_done p full] at stops
        exact absurd full stops
      · right
        rw [run, run, run_done p bad.1, run_done q bad.2.1]
        exact bad

def BadReference (s : Decoder) : Prop := s.pc = .copy ∧ s.v8 ≤ s.v66

theorem step_badReference {s : Decoder} (bad : BadReference s) :
    s.step p = { s with pc := .done badDistance } := by
  unfold step
  rw [bad.1]
  dsimp only
  rw [stepCopy, if_pos bad.2]

def Ended (s : Decoder) (ret : Nat) : Prop := ret = s.v8 ∧ s.endptr = s.coder.input1 + 5

theorem step_ends {s : Decoder} {ret : Nat} (going : ∀ ret, s.pc ≠ .done ret)
    (ends : (s.step p).pc = .done ret) :
    BadReference s ∨ ret = outOfSpace ∨ Ended (s.step p) ret := by
  unfold step at ends ⊢
  cases pc : s.pc <;> simp only [pc] at ends ⊢
  case literal =>
    unfold stepLiteral at ends
    split_ifs at ends
    · exact .inr (.inl (Point.done.inj ends).symm)
  case store =>
    unfold stepStore at ends
    dsimp only at ends
    split_ifs at ends
  case length =>
    unfold stepLength at ends ⊢
    dsimp only at ends ⊢
    split_ifs at ends ⊢
    · exact .inr (.inr ⟨(Point.done.inj ends).symm, rfl⟩)
  case position =>
    unfold stepPosition at ends
    dsimp only at ends
    split_ifs at ends
  case distance => exact nomatch ends
  case copy =>
    unfold stepCopy at ends
    dsimp only at ends
    split_ifs at ends with far
    · exact .inl ⟨pc, far⟩
    · exact .inr (.inl (Point.done.inj ends).symm)
  case done ret => exact absurd pc (going ret)

theorem run_ends {n ret : Nat} {s : Decoder} (going : ∀ ret, s.pc ≠ .done ret)
    (ends : (s.run p n).pc = .done ret) :
    (∃ k < n, BadReference (s.run p k)) ∨ ret = outOfSpace ∨ Ended (s.run p n) ret := by
  induction n generalizing s with
  | zero => exact absurd ends (going ret)
  | succ n ih =>
      by_cases stopped : ∃ ret, (s.step p).pc = .done ret
      · obtain ⟨early, stopped⟩ := stopped
        rw [run, run_done p stopped, stopped] at ends
        cases ends
        rw [run, run_done p stopped]
        rcases step_ends going stopped with bad | rest
        · exact .inl ⟨0, Nat.succ_pos n, bad⟩
        · exact .inr rest
      · rcases ih (not_exists.mp stopped) ends with ⟨k, below, bad⟩ | rest
        · exact .inl ⟨k + 1, by omega, bad⟩
        · exact .inr rest

end Decoder

/-- The bytes that `arzl_decompress` puts into its buffer, where it finds room for them. -/
def produced (p : Args) (out : Memory) : Nat :=
  if p.compressed then (arzlDecompress p out).v8 else p.header

section

variable {p q : Args} {out t : Memory}

theorem stored_done {s : Decoder} {ret : Nat} (pc : s.pc = .done ret) : s.stored = s.v8 := by
  simp only [Decoder.stored, pc]

theorem arzlDecompress_returns (p : Args) (out : Memory) :
    ∃ ret, (arzlDecompress p out).pc = .done ret := by
  by_cases mode : p.compressed = true
  · rw [arzlDecompress, if_pos mode]
    exact Decoder.start_returns p out
  · rw [arzlDecompress, if_neg mode, storedMode]
    split <;> exact ⟨_, rfl⟩

theorem storedMode_stops_iff (mode : ¬ p.compressed = true) :
    (arzlDecompress p out).pc ≠ .done outOfSpace ↔
      p.header ≤ p.buflen ∧ p.header ≠ outOfSpace := by
  rw [arzlDecompress, if_neg mode, storedMode]
  split
  next short => simp [Nat.not_le_of_lt short]
  next long => simp [Nat.le_of_not_lt long]

theorem produced_fits (stops : (arzlDecompress p out).pc ≠ .done outOfSpace) :
    produced p out ≤ p.buflen := by
  by_cases mode : p.compressed = true
  · obtain ⟨ret, pc⟩ := arzlDecompress_returns p out
    have bound := (Decoder.run_stored (p := p) (6 * (p.buflen + 1)) (p.start out)).2
      (Nat.zero_le _)
    rw [arzlDecompress_steps p out mode _ (le_refl _), stored_done pc] at bound
    rwa [produced, if_pos mode]
  · rw [produced, if_neg mode]
    exact ((storedMode_stops_iff mode).mp stops).1

theorem stops_together (input : p.input = q.input) (low : p.buffer % 8 = q.buffer % 8)
    (stops : (arzlDecompress p out).pc ≠ .done outOfSpace) (room : produced p out ≤ q.buflen) :
    (arzlDecompress q t).pc = (arzlDecompress p out).pc ∧ produced q t = produced p out := by
  have modes : q.compressed = p.compressed := by simp only [Args.compressed, input]
  have headers : q.header = p.header := by simp only [Args.header, input]
  by_cases mode : p.compressed = true
  · obtain ⟨ret, pc⟩ := arzlDecompress_returns p out
    have first := arzlDecompress_steps p out mode (6 * (p.buflen + 1) + 6 * (q.buflen + 1))
      (by omega)
    have second := arzlDecompress_steps q t (modes.trans mode)
      (6 * (p.buflen + 1) + 6 * (q.buflen + 1)) (by omega)
    rw [produced, if_pos mode] at room
    rw [produced, produced, modes, if_pos mode, if_pos mode]
    rw [← stored_done pc] at room
    rw [← first] at stops room
    have together := Decoder.run_together input low (Decoder.start_agree out t input) stops room
    rw [first, second] at together
    rcases together with ⟨_, same, _⟩ | ⟨bad, alsoBad, same, _⟩
    · rw [same]
      exact ⟨rfl, rfl⟩
    · rw [bad, alsoBad]
      exact ⟨rfl, same⟩
  · rw [produced, if_neg mode] at room
    rw [produced, produced, modes, if_neg mode, if_neg mode, headers]
    have short : ¬ p.buflen < p.header :=
      Nat.not_lt_of_le ((storedMode_stops_iff mode).mp stops).1
    rw [arzlDecompress, arzlDecompress, if_neg mode, if_neg (modes ▸ mode), storedMode,
      storedMode, headers, if_neg (Nat.not_lt_of_le room), if_neg short]
    exact ⟨rfl, rfl⟩

end

/-- With room enough, the decoder stops by itself on the stream, having put `count` bytes
into its buffer. -/
def StopsAt (input : Memory) (count : Nat) : Prop :=
  ∃ room, (arzlDecompress ⟨input, 0, room⟩ fun _ => 0).pc ≠ .done outOfSpace ∧
    produced ⟨input, 0, room⟩ (fun _ => 0) = count

theorem stopsAt_produced {p : Args} {out : Memory} (aligned : p.buffer % 8 = 0)
    (stops : (arzlDecompress p out).pc ≠ .done outOfSpace) :
    StopsAt p.input (produced p out) := by
  obtain ⟨pc, count⟩ := stops_together (p := p) (q := ⟨p.input, 0, p.buflen⟩) (t := fun _ => 0)
    rfl aligned stops (produced_fits stops)
  refine ⟨p.buflen, ?_, count⟩
  rwa [pc]

theorem stops_iff {input : Memory} {count : Nat} (stop : StopsAt input count) {q : Args}
    {t : Memory} (same : q.input = input) (aligned : q.buffer % 8 = 0) :
    (arzlDecompress q t).pc ≠ .done outOfSpace ↔ count ≤ q.buflen := by
  obtain ⟨room, stops, rfl⟩ := stop
  constructor
  · intro alsoStops
    by_contra short
    have fits := produced_fits alsoStops
    have holds : produced ⟨input, 0, room⟩ (fun _ => 0) ≤ room := produced_fits stops
    obtain ⟨_, count⟩ := stops_together (p := q) (q := ⟨input, 0, room⟩) (t := fun _ => 0) same
      aligned alsoStops (by dsimp only; omega)
    omega
  · intro enough
    obtain ⟨pc, _⟩ := stops_together (p := ⟨input, 0, room⟩) (q := q) (t := t) same.symm
      aligned.symm stops enough
    rwa [pc]

end VitaTools.Unarzl
