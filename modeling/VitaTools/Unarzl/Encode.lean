import VitaTools.Unarzl.Phrases
import VitaTools.Unarzl.SteeredRuns

set_option autoImplicit false

namespace VitaTools.Unarzl

open VitaTools.Library

namespace Coder

/-- What both tree loops do: one bit at each node until the leaves, which start at `limit`. -/
structure Walks (index : Nat → Int) (scale limit : Nat)
    (loop : Memory → Nat → Nat → Coder → Nat × Coder) : Prop where
  stop : ∀ input node c, loop input 0 node c = (node, c)
  step : ∀ input fuel node c, loop input (fuel + 1) node c =
    let r := c.treeBit input (index node)
    let node := 2 * node + scale * r.1.toNat
    if node < limit then loop input fuel node r.2 else (node, r.2)

theorem literalLoop_walks (v13 : Int) : Walks (fun v9 => v13 + v9 - 1) 1 256
    fun input fuel v9 c => c.literalLoop input v13 fuel v9 := by
  refine ⟨fun _ _ _ => rfl, fun input fuel v9 c => ?_⟩
  dsimp only [literalLoop]
  rw [Nat.one_mul]
  exact if_congr Nat.lt_succ_iff.symm rfl rfl

theorem positionLoop_walks (v34 : Int) (v105 : Nat) : Walks (fun v61 => v34 + v61 + 2033) 8 v105
    fun input fuel v61 c => c.positionLoop input v34 v105 fuel v61 :=
  ⟨fun _ _ _ => rfl, fun _ _ _ _ => rfl⟩

theorem Walks.admits {index : Nat → Int} {scale limit : Nat}
    {loop : Memory → Nat → Nat → Coder → Nat × Coder} (walks : Walks index scale limit loop)
    (positive : 0 < scale) (bits older : List Bool)
    (depth : limit = scale * 2 ^ (bits.length + older.length)) {c : Coder}
    (healthy : Healthy 343 c) :
    ∃ d, Healthy 343 d ∧ Leads c d fun ahead code v7 =>
      loop ahead bits.length (scale * leadingOne older) (c.withCode code) =
        (scale * leadingOne (bits ++ older), d.withCode v7) := by
  induction bits using List.reverseRecOn generalizing older c with
  | nil =>
      refine ⟨c, healthy, (Leads.refl c).mono fun ahead code v7 same => ?_⟩
      rw [same]
      exact walks.stop ahead _ _
  | append_singleton bits bit ih =>
      have node : ∃ d, Healthy 343 d ∧ Leads c d fun ahead code v7 =>
          (c.withCode code).treeBit ahead (index (scale * leadingOne older)) =
            (bit, d.withCode v7) :=
        decodeBit_admits (by decide) (by decide) adapts_tree healthy _ bit
      obtain ⟨d, between, leads⟩ := node
      have deeper :
          bits.length + (bit :: older).length = (bits ++ [bit]).length + older.length := by
        simp only [List.length_cons, List.length_append, List.length_nil]
        omega
      obtain ⟨e, last, onward⟩ := ih (bit :: older) (by rw [deeper, depth]) between
      have grown : 2 * (scale * leadingOne older) + scale * bit.toNat =
          scale * leadingOne (bit :: older) := by
        rw [leadingOne]
        ring
      rw [List.append_assoc, List.singleton_append, List.length_append, List.length_singleton]
      refine ⟨e, last, (leads.trans onward).mono ?_⟩
      rintro ahead code v7 ⟨between, goes, comes⟩
      rw [walks.step, goes]
      dsimp only
      rw [grown]
      by_cases inner : scale * leadingOne (bit :: older) < limit
      next => rw [if_pos inner, comes]
      next =>
        -- Only the last bit leads to a leaf.
        have high := (leadingOne_range (bit :: older)).2
        have few : bits.length = 0 := by
          by_contra more
          have power :
              2 ^ ((bit :: older).length + 1) ≤ 2 ^ ((bits ++ [bit]).length + older.length) :=
            Nat.pow_le_pow_right (by decide) (by omega)
          have leaf : scale * leadingOne (bit :: older) < limit := by
            rw [depth]
            exact Nat.mul_lt_mul_of_pos_left (Nat.lt_of_lt_of_le high power) positive
          exact inner leaf
        rw [if_neg inner, ← comes, few]
        exact (walks.stop ahead _ _).symm

end Coder

namespace Decoder

/-- With the right bytes to come the run gets to `s` with any code word in its range, having
settled these phrases. -/
structure Reaches (p : Args) (out : Memory) (s : Decoder) (phrases : List (Phrase Byte)) :
    Prop where
  bounds : Bounds s
  healthy : Coder.Healthy (leastRange s.pc) s.coder
  leads : ∃ n, Coder.Leads (p.start out).coder s.coder fun ahead code v7 =>
    ahead 0 = p.input 0 →
      ((p.start out).withCode code).run (p.reading ahead) n = s.withCode v7 ∧
        runPhrases (p.reading ahead) n ((p.start out).withCode code) = phrases

/-- So does the next step get from `s` to `t`. -/
def StepLeads (p : Args) (s t : Decoder) (phrases : List (Phrase Byte)) : Prop :=
  Coder.Leads s.coder t.coder fun ahead code v7 => ahead 0 = p.input 0 →
    (s.withCode code).step (p.reading ahead) = t.withCode v7 ∧
      (s.withCode code).phrases (p.reading ahead) = phrases

section

variable {p : Args} {out : Memory} {s t : Decoder} {phrases settled : List (Phrase Byte)}

theorem reaches_start (p : Args) (out : Memory) : Reaches p out (p.start out) [] := by
  refine ⟨bounds_start p out, start_healthy p out, 0, (Coder.Leads.refl _).mono ?_⟩
  intro ahead code v7 same head
  rw [same]
  exact ⟨rfl, rfl⟩

theorem StepLeads.good (leads : StepLeads p s t settled) (bounds : Bounds s)
    (healthy : Coder.Healthy (leastRange s.pc) s.coder)
    (near : s.pc = .distance → s.slot ≤ 28) (room : 0 < t.coder.v10) :
    Bounds t ∧ Coder.Healthy (leastRange t.pc) t.coder := by
  obtain ⟨code, -, ahead, goes⟩ := leads.back 0 room
  -- The bytes to fetch lie behind the first one.
  let input : Memory := fun k => if k = 0 then p.input 0 else ahead k
  obtain ⟨stepped, -⟩ := goes input (fun k least _ => if_neg (by omega)) rfl
  have after := step_healthy (p.reading input) (s := s.withCode code) bounds near
    (healthy.withCode code)
  have inside := step_bounds (p.reading input) (s.withCode code) bounds
  rw [stepped] at after inside
  exact ⟨inside, after.cells, after.wide, after.fits, after.past⟩

theorem Reaches.step (reaches : Reaches p out s phrases) (leads : StepLeads p s t settled)
    (near : s.pc = .distance → s.slot ≤ 28) (room : 0 < t.coder.v10) :
    Reaches p out t (phrases ++ settled) := by
  obtain ⟨bounds, healthy, n, before⟩ := reaches
  obtain ⟨inside, after⟩ := leads.good bounds healthy near room
  refine ⟨inside, after, n + 1, (before.trans leads).mono ?_⟩
  rintro ahead code v7 ⟨between, goes, comes⟩ head
  obtain ⟨run, told⟩ := goes head
  obtain ⟨stepped, more⟩ := comes head
  rw [run_succ, runPhrases_succ, run, told, stepped, more]
  exact ⟨rfl, rfl⟩

theorem Reaches.silent (reaches : Reaches p out s phrases) (leads : StepLeads p s t [])
    (near : s.pc = .distance → s.slot ≤ 28) (room : 0 < t.coder.v10) :
    Reaches p out t phrases := by
  have step := reaches.step leads near room
  rwa [List.append_nil] at step

theorem literal_reaches (reaches : Reaches p out s phrases) (pc : s.pc = .literal)
    (room : s.v8 ≠ p.buflen) (b : Byte) :
    ∃ t, Reaches p out t (phrases ++ [.literal b]) ∧ t.pc = .store ∧ t.out = s.out ∧
      t.i = s.v8 ∧ t.byte = b := by
  have healthy := reaches.healthy
  rw [pc] at healthy
  have small := b.isLt
  obtain ⟨bits, value⟩ := exists_leadingOne (by omega : 0 < 256 + b.toNat)
  have eight : bits.length = 8 := leadingOne_length (by omega) (by omega)
  obtain ⟨d, wide, leads⟩ := (Coder.literalLoop_walks (s.literalTree p)).admits (by decide) bits []
    (by rw [eight]; rfl) healthy
  have open_ : 0 < d.v10 := Nat.lt_of_lt_of_le (by decide) wide.wide
  let t := { s with pc := .store, coder := d, v9 := 256 + b.toNat, i := s.v8 }
  have last : t.byte = b := by
    apply BitVec.eq_of_toNat_eq
    have number : t.v9 = 256 + b.toNat := rfl
    rw [byte, BitVec.toNat_ofNat, number]
    omega
  have onward : StepLeads p s t [.literal b] := by
    refine leads.mono fun ahead code v7 goes head => ?_
    simp only [eight, List.append_nil, value, Nat.one_mul] at goes
    have stepped : (s.withCode code).step (p.reading ahead) = t.withCode v7 := by
      unfold Decoder.step
      rw [show (s.withCode code).pc = .literal from pc]
      dsimp only [stepLiteral]
      rw [literalTree_reading p s ahead code head]
      refine (if_neg room).trans ?_
      have leaf : (s.coder.withCode code).literalLoop ahead (s.literalTree p) 8 1 =
          (256 + b.toNat, d.withCode v7) := goes
      dsimp only [withCode, withCoder, Args.reading]
      rw [leaf]
    refine ⟨stepped, ?_⟩
    unfold Decoder.phrases
    rw [stepped, show (s.withCode code).pc = .literal from pc]
    refine (if_neg room).trans ?_
    exact congrArg (fun b => [Phrase.literal b]) last
  exact ⟨t, reaches.step onward (fun distance => absurd (pc.symm.trans distance) (by decide)) open_,
    rfl, rfl, rfl, last⟩

-- What a step at `store` has done before it decodes anything.
def storing (s : Decoder) : Decoder := { s with
  out := Function.update s.out s.i s.byte
  accesses := .store s.i :: s.accesses
  v8 := s.i + 1 }

theorem store_flag (reaches : Reaches p out s phrases) (pc : s.pc = .store) (bit : Bool) :
    ∃ d, Coder.Healthy 343 d ∧ Coder.Leads s.coder d fun ahead code v7 =>
      (s.coder.withCode code).flagBit ahead (s.v11 + 2920) = (bit, d.withCode v7) := by
  have healthy := reaches.healthy
  rw [pc] at healthy
  exact Coder.decodeBit_admits (by decide) (by decide) adapts_flag healthy _ bit

theorem literal_next (reaches : Reaches p out s phrases) (pc : s.pc = .store) :
    ∃ t, Reaches p out t phrases ∧ t.pc = .literal ∧ t.out = s.storing.out ∧ t.v8 = s.i + 1 := by
  obtain ⟨d, wide, leads⟩ := store_flag reaches pc false
  have open_ : 0 < d.v10 := Nat.lt_of_lt_of_le (by decide) wide.wide
  let t := { s.storing with pc := .literal, coder := d, v11 := s.v11 - 1 }
  have onward : StepLeads p s t [] := by
    refine leads.mono fun ahead code v7 goes head => ⟨?_, ?_⟩
    · unfold Decoder.step
      rw [show (s.withCode code).pc = .store from pc]
      dsimp only [stepStore, withCode, withCoder, Args.reading]
      rw [goes]
      rfl
    · unfold Decoder.phrases
      rw [show (s.withCode code).pc = .store from pc]
  exact ⟨t, reaches.silent onward (fun distance => absurd (pc.symm.trans distance) (by decide))
    open_, rfl, rfl, rfl⟩

theorem class_next (reaches : Reaches p out s phrases) (pc : s.pc = .store) (target : Int)
    (least : -1 ≤ target) (most : target ≤ 6) :
    ∃ t, Reaches p out t phrases ∧ t.out = s.storing.out ∧ t.v8 = s.i + 1 ∧
      (target = -1 → t.pc = .position ∧ t.v35 = 1 ∧ t.v105 = 64) ∧
      (0 ≤ target → t.pc = .length ∧ t.v28 = target) := by
  obtain ⟨d, narrow, leads⟩ := store_flag reaches pc true
  obtain ⟨e, wide, onward⟩ := Coder.classLoop_admits (by decide) (by decide) target 7 s.v11 (-1)
    narrow (by omega) (by omega) rfl
  have open_ : 0 < e.v10 := Nat.lt_of_lt_of_le (by decide) wide.wide
  let t : Decoder := if target = -1 then
      { s.storing with
        pc := .position, coder := e, v28 := target, v35 := 1, v34 := target + 248, v105 := 64 }
    else { s.storing with pc := .length, coder := e, v28 := target, v34 := target }
  have coder : t.coder = e := by
    dsimp only [t]
    split <;> rfl
  have goes : StepLeads p s t [] := by
    unfold StepLeads
    rw [coder]
    refine (leads.trans onward).mono ?_
    rintro ahead code v7 ⟨between, first, second⟩ head
    constructor
    · unfold Decoder.step
      rw [show (s.withCode code).pc = .store from pc]
      dsimp only [stepStore, withCode, withCoder, Args.reading]
      rw [first, if_pos rfl, second]
      dsimp only [t]
      split <;> rfl
    · unfold Decoder.phrases
      rw [show (s.withCode code).pc = .store from pc]
  refine ⟨t, reaches.silent goes (fun distance => absurd (pc.symm.trans distance) (by decide))
    (by rw [coder]; exact open_), ?_⟩
  dsimp only [t]
  split_ifs with two
  · exact ⟨rfl, rfl, fun _ => ⟨rfl, rfl, rfl⟩, fun positive => absurd positive (by omega)⟩
  · exact ⟨rfl, rfl, fun same => absurd same two, fun _ => ⟨rfl, rfl⟩⟩

theorem length_next (reaches : Reaches p out s phrases) (pc : s.pc = .length) (value : Nat)
    (low : 2 ^ (s.v28.toNat + 1) ≤ value) (high : value < 2 ^ (s.v28.toNat + 2)) :
    ∃ t, Reaches p out t phrases ∧ 0 < t.coder.v10 ∧ t.out = s.out ∧ t.v8 = s.v8 ∧
      (value = 255 → t.pc = .done s.v8) ∧
      (value ≠ 255 → t.pc = .position ∧ t.v35 = value ∧
        t.v105 = if value = 2 then 64 else 256) := by
  have healthy := reaches.healthy
  obtain ⟨-, located⟩ := reaches.bounds
  simp only [pc] at healthy located
  obtain ⟨bits, ⟨count, number⟩, -⟩ := existsUnique_leadingOne_length low high
  obtain ⟨d, open_, -, leads⟩ := Coder.codeBits_admits (s.lengthCell p + 2984)
    (by omega : s.v28.toNat ≤ 27) healthy bits count
  let t : Decoder :=
    if value = 255 then
      { s with pc := .done s.v8, coder := d, v35 := value, endptr := d.input1 + 5 }
    else if value ≠ 2 then { s with pc := .position, coder := d, v35 := value, v105 := 256 }
    else { s with pc := .position, coder := d, v35 := value, v34 := s.v34 + 248, v105 := 64 }
  have coder : t.coder = d := by
    dsimp only [t]
    split_ifs <;> rfl
  have room : 0 < t.coder.v10 := by
    rw [coder]
    exact open_
  have goes : StepLeads p s t [] := by
    unfold StepLeads
    rw [coder]
    refine leads.mono fun ahead code v7 goes head => ⟨?_, ?_⟩
    · have decoded : (s.coder.withCode code).lengthCode ahead (s.lengthCell p) s.v28 =
          (value, d.withCode v7) := by
        rw [← number]
        exact goes
      have cell : (s.withCode code).lengthCell (p.reading ahead) = s.lengthCell p := rfl
      unfold Decoder.step
      rw [show (s.withCode code).pc = .length from pc]
      dsimp only [stepLength]
      rw [cell]
      dsimp only [withCode, withCoder, Args.reading]
      simp only [decoded]
      dsimp only [t]
      split_ifs <;> rfl
    · unfold Decoder.phrases
      rw [show (s.withCode code).pc = .length from pc]
  refine ⟨t, reaches.silent goes (fun distance => absurd (pc.symm.trans distance) (by decide))
    room, room, ?_⟩
  dsimp only [t]
  by_cases last : value = 255
  next =>
    rw [if_pos last]
    exact ⟨rfl, rfl, fun _ => rfl, fun more => absurd last more⟩
  next =>
    rw [if_neg last]
    by_cases two : value = 2
    next =>
      rw [if_neg (not_not_intro two), if_pos two]
      exact ⟨rfl, rfl, fun same => absurd same last, fun _ => ⟨rfl, rfl, rfl⟩⟩
    next =>
      rw [if_pos two, if_neg two]
      exact ⟨rfl, rfl, fun same => absurd same last, fun _ => ⟨rfl, rfl, rfl⟩⟩

theorem position_next (reaches : Reaches p out s phrases) (pc : s.pc = .position) {target : Nat}
    (slots : 8 * target + 8 ≤ s.v105) :
    ∃ t, Reaches p out t phrases ∧ t.out = s.out ∧ t.v8 = s.v8 ∧ t.v35 = s.v35 ∧
      (target = 0 → t.pc = .copy ∧ t.v66 = 0) ∧
      (1 ≤ target → t.pc = .distance ∧ t.slot = target) := by
  have healthy := reaches.healthy
  obtain ⟨-, located⟩ := reaches.bounds
  simp only [pc] at healthy located
  obtain ⟨depth, size⟩ : ∃ depth, s.v105 = 8 * 2 ^ depth ∧ depth ≤ 5 := by
    rcases located.2.2 with small | large
    · exact ⟨3, small.1, by decide⟩
    · exact ⟨5, large.1, by decide⟩
  obtain ⟨size, few⟩ := size
  have low : 2 ^ depth ≤ 2 ^ depth + target := Nat.le_add_right _ _
  have high : 2 ^ depth + target < 2 ^ (depth + 1) := by
    rw [Nat.pow_succ]
    omega
  obtain ⟨bits, ⟨count, number⟩, -⟩ := existsUnique_leadingOne_length low high
  obtain ⟨d, wide, leads⟩ := (Coder.positionLoop_walks s.v34 s.v105).admits (by decide) bits []
    (by rw [count]; exact size) healthy
  have open_ : 0 < d.v10 := Nat.lt_of_lt_of_le (by decide) wide.wide
  simp only [count, List.append_nil, number, Nat.mul_add, ← size, leadingOne, Nat.mul_one] at leads
  let t := { s with
    pc := if s.v105 + 8 * target ≠ s.v105 then .distance else .copy
    coder := d
    v66 := s.v105 + 8 * target - s.v105 }
  have goes : StepLeads p s t [] := by
    refine leads.mono fun ahead code v7 goes head => ⟨?_, ?_⟩
    · have walked : (s.coder.withCode code).positionLoop ahead s.v34 s.v105 5 8 =
          (s.v105 + 8 * target, d.withCode v7) := by
        have longer := Coder.positionLoop_fuel ahead s.v34 s.v105 depth (5 - depth) 8
          (s.coder.withCode code) (Nat.le_of_eq size) (by omega)
        rw [Nat.add_sub_cancel' few] at longer
        exact longer.trans goes
      unfold Decoder.step
      rw [show (s.withCode code).pc = .position from pc]
      dsimp only [stepPosition, withCode, withCoder, Args.reading]
      rw [walked]
    · unfold Decoder.phrases
      rw [show (s.withCode code).pc = .position from pc]
  refine ⟨t, reaches.silent goes (fun distance => absurd (pc.symm.trans distance) (by decide))
    open_, rfl, rfl, rfl, fun none => ?_, fun some => ?_⟩
  · exact ⟨if_neg (by omega), by dsimp only [t]; omega⟩
  · refine ⟨if_pos (by omega), ?_⟩
    dsimp only [t, slot]
    rw [Nat.shiftRight_eq_div_pow]
    omega

theorem distance_next (reaches : Reaches p out s phrases) (pc : s.pc = .distance)
    (near : s.slot ≤ 28) {value : Nat} (low : 2 ^ s.slot ≤ value)
    (high : value < 2 ^ (s.slot + 1)) :
    ∃ t, Reaches p out t phrases ∧ t.pc = .copy ∧ t.out = s.out ∧ t.v8 = s.v8 ∧ t.v35 = s.v35 ∧
      t.v66 + 1 = value := by
  have healthy := reaches.healthy
  obtain ⟨-, located⟩ := reaches.bounds
  simp only [pc] at healthy located
  obtain ⟨bits, ⟨count, number⟩, -⟩ := existsUnique_leadingOne_length low high
  obtain ⟨d, open_, -, leads⟩ := Coder.codeBits_admits (s.distanceCell + 2344)
    (by omega : s.slot - 1 ≤ 27) healthy bits (by omega)
  let t := { s with pc := .copy, coder := d, v66 := value - 1 }
  have goes : StepLeads p s t [] := by
    refine leads.mono fun ahead code v7 goes head => ⟨?_, ?_⟩
    · have decoded : (s.coder.withCode code).distanceCode ahead s.distanceCell s.slot =
          (value, d.withCode v7) := by
        rw [← number]
        exact goes
      have cell : (s.withCode code).distanceCell = s.distanceCell := rfl
      have same : (s.withCode code).slot = s.slot := rfl
      unfold Decoder.step
      rw [show (s.withCode code).pc = .distance from pc]
      dsimp only [stepDistance]
      rw [cell, same]
      dsimp only [withCode, withCoder, Args.reading]
      rw [decoded]
    · unfold Decoder.phrases
      rw [show (s.withCode code).pc = .distance from pc]
  have positive := Nat.two_pow_pos s.slot
  exact ⟨t, reaches.silent goes (fun _ => near) open_, rfl, rfl, rfl, rfl,
    by dsimp only [t]; omega⟩

theorem copy_next (reaches : Reaches p out s phrases) (pc : s.pc = .copy) {text : List Byte}
    (lies : Lies s.out 0 text) (cursor : s.v8 = text.length) (inside : s.v66 < s.v8)
    (room : s.v8 + s.v35 < p.buflen) :
    ∃ t, Reaches p out t (phrases ++ [.copy (s.v35 + 1) (s.v66 + 1)]) ∧ t.pc = .store ∧
      Lies t.out 0 (copies (s.v66 + 1) s.v35 text) ∧ t.i = text.length + s.v35 ∧
      t.byte = itemBehind (s.v66 + 1) (copies (s.v66 + 1) s.v35 text) := by
  obtain ⟨copied, last, next, index⟩ := stepCopy_copies lies cursor inside room
  have stepped : s.step p = s.stepCopy p := by unfold Decoder.step; rw [pc]
  have coder : (s.stepCopy p).coder = s.coder := by
    have same : s.stepCopy p = (s.stepCopy p).withCoder s.coder := stepCopy_withCoder p s s.coder
    rw [same]
    rfl
  have healthy := reaches.healthy
  rw [pc] at healthy
  have open_ : 0 < s.coder.v10 := Nat.lt_of_lt_of_le (by decide) healthy.wide
  have goes : StepLeads p s (s.stepCopy p) [.copy (s.v35 + 1) (s.v66 + 1)] := by
    unfold StepLeads
    rw [coder]
    refine (Coder.Leads.refl s.coder).mono fun ahead code v7 same head => ⟨?_, ?_⟩
    · rw [same]
      unfold Decoder.step
      rw [show (s.withCode v7).pc = .copy from pc]
      refine (stepCopy_withCoder p s (s.coder.withCode v7)).trans ?_
      rw [withCode, coder]
    · unfold Decoder.phrases
      rw [show (s.withCode code).pc = .copy from pc]
      exact if_pos ⟨inside, room⟩
  exact ⟨s.stepCopy p, reaches.step goes (fun distance => absurd (pc.symm.trans distance)
    (by decide)) (by rw [coder]; exact open_), next, copied, index, last⟩

end

end Decoder

end VitaTools.Unarzl
