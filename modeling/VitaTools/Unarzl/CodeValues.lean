import Mathlib.Data.Nat.Log
import VitaTools.Unarzl.SteeredRuns

set_option autoImplicit false

namespace VitaTools.Unarzl

open VitaTools.Library

/-- In such a run the next step decodes `bits`, the last one first, and makes `value` of them. -/
def Decodes (p : Args) (out : Memory) (n : Nat) (result : Decoder → Nat) (bits : List Bool)
    (value : Nat) : Prop :=
  ∃ q, Follows p q out n ∧ Inside q out (n + 1) ∧
    ((q.start out).run q (n + 1)).coder.decoded =
      bits ++ ((p.start out).run p n).coder.decoded ∧
    result ((q.start out).run q (n + 1)) = value

section

variable {p : Args} {out : Memory} {n : Nat}

/-- The next step gathers a code of `m + 1` bits at `cell`, whatever the code word. -/
def GathersCode (p : Args) (s : Decoder) (cell : Int) (m : Nat) (result : Decoder → Nat) : Prop :=
  ∀ q v7, q.buffer = p.buffer →
    result ((s.withCode v7).step q) = ((s.coder.withCode v7).codeBits q.input cell m).1 ∧
      ((s.withCode v7).step q).coder = ((s.coder.withCode v7).codeBits q.input cell m).2

theorem length_gathers {s : Decoder} (pc : s.pc = .length) :
    GathersCode p s (s.lengthCell p + 2984) s.v28.toNat Decoder.v35 := by
  intro q v7 buffer
  have cell : (s.withCode v7).lengthCell q = s.lengthCell p := by
    unfold Decoder.lengthCell
    rw [buffer]
    rfl
  unfold Decoder.step
  rw [show (s.withCode v7).pc = .length from pc]
  dsimp only [Decoder.stepLength]
  rw [cell]
  split_ifs <;> exact ⟨rfl, rfl⟩

theorem distance_gathers {s : Decoder} (pc : s.pc = .distance) :
    GathersCode p s (s.distanceCell + 2344) (s.slot - 1) fun t => t.v66 + 1 := by
  intro q v7 buffer
  obtain ⟨bits, -, number, -⟩ := Coder.codeBits_gathers q.input (s.distanceCell + 2344)
    (s.slot - 1) (s.coder.withCode v7)
  have positive : 0 < leadingOne (bits ++ []) :=
    Nat.lt_of_lt_of_le (Nat.two_pow_pos _) (leadingOne_range _).1
  rw [← number] at positive
  unfold Decoder.step
  rw [show (s.withCode v7).pc = .distance from pc]
  exact ⟨Nat.sub_add_cancel positive, rfl⟩

section

variable {cell : Int} {m : Nat} {result : Decoder → Nat}

theorem decodes_self (inside : Inside p out (n + 1))
    (gathers : GathersCode p ((p.start out).run p n) cell m result) :
    ∃ bits, Decodes p out n result bits (result ((p.start out).run p (n + 1))) := by
  obtain ⟨-, left⟩ := gathers p ((p.start out).run p n).coder.v7 rfl
  obtain ⟨bits, -, -, gathered⟩ := Coder.codeBits_gathers p.input cell m
    ((p.start out).run p n).coder
  refine ⟨bits, p, ⟨rfl, rfl, rfl, ((p.start out).run p n).coder.v7, rfl⟩, inside, ?_, rfl⟩
  rw [Decoder.run_succ, ← gathered]
  exact congrArg Coder.decoded left

theorem decodes_iff (inside : Inside p out (n + 1))
    (gathers : GathersCode p ((p.start out).run p n) cell m result) (near : m ≤ 27)
    (healthy : Coder.Healthy 16807 ((p.start out).run p n).coder) (bits : List Bool)
    (value : Nat) :
    Decodes p out n result bits value ↔ bits.length = m + 1 ∧ leadingOne bits = value := by
  constructor
  · rintro ⟨q, follows, -, decoded, gives⟩
    obtain ⟨v7, same⟩ := follows.same
    obtain ⟨made, left⟩ := gathers q v7 follows.buffer
    rw [Decoder.run_succ, same] at decoded gives
    obtain ⟨own, length, number, gathered⟩ := Coder.codeBits_gathers q.input cell m
      (((p.start out).run p n).coder.withCode v7)
    rw [left, gathered] at decoded
    obtain rfl : own = bits := List.append_cancel_right decoded
    rw [← gives, made, number, List.append_nil]
    exact ⟨length, rfl⟩
  · rintro ⟨length, rfl⟩
    obtain ⟨d, room, decoded, leads⟩ := Coder.codeBits_admits cell near healthy bits length
    obtain ⟨q, v7, follows, same, goes⟩ := follows_stream d room leads
    obtain ⟨made, left⟩ := gathers q v7 follows.buffer
    refine ⟨q, follows, follows.inside_succ inside, ?_, ?_⟩
    · rw [Decoder.run_succ, same, left, goes]
      exact decoded
    · rw [Decoder.run_succ, same, made, goes]

theorem exactCode_decodes (inside : Inside p out (n + 1))
    (gathers : GathersCode p ((p.start out).run p n) cell m result) (near : m ≤ 27)
    (wide : Decoder.leastRange ((p.start out).run p n).pc = 16807) :
    ExactCode (m + 1) (Decodes p out n result) := by
  have start := Decoder.bounds_start p out
  have healthy := Decoder.run_healthy p n start
    (fun k below => Decoder.near_of_inside p start inside k (by omega))
    (Decoder.start_healthy p out)
  rw [wide] at healthy
  exact exactCode_leadingOne (decodes_iff inside gathers near healthy)

end

theorem position_slot (pc : ((p.start out).run p n).pc = .position) :
    ((p.start out).run p (n + 1)).pc = .copy ∧ ((p.start out).run p (n + 1)).slot = 0 ∧
        ((p.start out).run p (n + 1)).v66 = 0 ∨
      ((p.start out).run p (n + 1)).pc = .distance ∧
        1 ≤ ((p.start out).run p (n + 1)).slot := by
  obtain ⟨-, located⟩ := Decoder.run_bounds p (n + 1) _ (Decoder.bounds_start p out)
  rw [Decoder.run_succ] at located ⊢
  generalize (p.start out).run p n = s at pc located ⊢
  unfold Decoder.step at located ⊢
  rw [pc] at located ⊢
  dsimp only [Decoder.stepPosition] at located ⊢
  by_cases far : (s.coder.positionLoop p.input s.v34 s.v105 5 8).1 = s.v105
  next =>
    left
    unfold Decoder.slot
    dsimp only
    rw [far, Nat.sub_self, if_neg (not_not_intro rfl)]
    exact ⟨rfl, rfl, rfl⟩
  next =>
    right
    rw [if_pos far] at located ⊢
    exact ⟨rfl, located⟩

theorem near_of_run (inside : Inside p out n) (k : Nat) (below : k < n)
    (pc : ((p.start out).run p k).pc = .distance) : ((p.start out).run p k).slot ≤ 28 :=
  Decoder.near_of_inside p (Decoder.bounds_start p out) inside k below pc

theorem class_met (pc : ((p.start out).run p n).pc = .store) (inside : Inside p out n)
    {target : Int} (least : 0 ≤ target) (most : target ≤ 6) :
    ∃ q, Follows p q out n ∧ Inside q out (n + 2) ∧
      ((q.start out).run q (n + 1)).pc = .length ∧
      ((q.start out).run q (n + 1)).v28 = target := by
  have start := Decoder.bounds_start p out
  have healthy := Decoder.run_healthy p n start (near_of_run inside) (Decoder.start_healthy p out)
  rw [pc] at healthy
  have flag : ∃ d, Coder.Healthy 343 d ∧
      Coder.Leads ((p.start out).run p n).coder d fun ahead code v7 =>
        (((p.start out).run p n).coder.withCode code).flagBit ahead
          (((p.start out).run p n).v11 + 2920) = (true, d.withCode v7) :=
    Coder.decodeBit_admits (by decide) (by decide) adapts_flag healthy _ true
  obtain ⟨d, open_, leads⟩ := flag
  obtain ⟨e, wide, onward⟩ := Coder.classLoop_admits (by decide) (by decide) target 7
    ((p.start out).run p n).v11 (-1) open_ (by omega) (by omega) rfl
  have room : 0 < e.v10 := Nat.lt_of_lt_of_le (by decide) wide.wide
  obtain ⟨q, v7, follows, same, between, goes, comes⟩ := follows_stream e room (leads.trans onward)
  have reached : ((q.start out).run q (n + 1)).pc = .length ∧
      ((q.start out).run q (n + 1)).v28 = target := by
    rw [Decoder.run_succ, same]
    generalize (p.start out).run p n = s at pc goes comes
    unfold Decoder.step
    rw [show (s.withCode v7).pc = .store from pc]
    dsimp only [Decoder.stepStore, Decoder.withCode, Decoder.withCoder]
    rw [goes, if_pos rfl, comes, if_neg (by omega)]
    exact ⟨rfl, rfl⟩
  have first := (follows.inside inside).succ fun distance => by
    rw [same] at distance
    exact absurd (distance.symm.trans pc) (by decide)
  have second := first.succ fun distance => absurd (distance.symm.trans reached.1) (by decide)
  exact ⟨q, follows, second, reached⟩

theorem slot_met (pc : ((p.start out).run p n).pc = .position)
    (large : ((p.start out).run p n).v105 = 256) (inside : Inside p out n) {target : Nat}
    (least : 1 ≤ target) (most : target ≤ 28) :
    ∃ q, Follows p q out n ∧ Inside q out (n + 2) ∧
      ((q.start out).run q (n + 1)).pc = .distance ∧
      ((q.start out).run q (n + 1)).slot = target := by
  have start := Decoder.bounds_start p out
  have healthy := Decoder.run_healthy p n start (near_of_run inside) (Decoder.start_healthy p out)
  rw [pc] at healthy
  obtain ⟨bits, value⟩ := exists_leadingOne (by omega : 0 < 32 + target)
  have five : bits.length = 5 := leadingOne_length (by omega) (by omega)
  obtain ⟨d, wide, leads⟩ := Coder.positionLoop_admits (by decide) (by decide)
    ((p.start out).run p n).v34 bits [] healthy (by rw [five]; rfl)
  have room : 0 < d.v10 := Nat.lt_of_lt_of_le (by decide) wide.wide
  obtain ⟨q, v7, follows, same, goes⟩ := follows_stream d room leads
  rw [five, List.append_nil, value] at goes
  have reached : ((q.start out).run q (n + 1)).pc = .distance ∧
      ((q.start out).run q (n + 1)).slot = target := by
    rw [Decoder.run_succ, same]
    generalize (p.start out).run p n = s at pc goes large
    unfold Decoder.step
    rw [show (s.withCode v7).pc = .position from pc]
    dsimp only [Decoder.stepPosition, Decoder.slot, Decoder.withCode, Decoder.withCoder]
    rw [large]
    have leaf : (s.coder.withCode v7).positionLoop q.input s.v34 256 5 8 =
        (8 * (32 + target), d.withCode 0) := goes
    rw [leaf, if_pos (by omega), Nat.shiftRight_eq_div_pow]
    exact ⟨rfl, by omega⟩
  have first := (follows.inside inside).succ fun distance => by
    rw [same] at distance
    exact absurd (distance.symm.trans pc) (by decide)
  refine ⟨q, follows, first.succ fun _ => ?_, reached⟩
  rw [reached.2]
  exact most

end

theorem existsUnique_slot {distance : Nat} (near : distance + 1 < 2 ^ 29) :
    ∃! slot, slot ≤ 28 ∧ 2 ^ slot ≤ distance + 1 ∧ distance + 1 < 2 ^ (slot + 1) := by
  have low := Nat.pow_log_le_self 2 (Nat.succ_ne_zero distance)
  have high := Nat.lt_pow_succ_log_self (by decide : 1 < 2) (distance + 1)
  have below : Nat.log 2 (distance + 1) < 29 := Nat.log_lt_of_lt_pow (Nat.succ_ne_zero _) near
  refine ⟨Nat.log 2 (distance + 1), ⟨by omega, low, high⟩, fun slot fits => ?_⟩
  exact (Nat.log_eq_of_pow_le_of_lt_pow fits.2.1 fits.2.2).symm

theorem class_occurs {target : Int} (least : 0 ≤ target) (most : target ≤ 6) :
    ∃ q out n, q.compressed = true ∧ Inside q out (n + 1) ∧
      ((q.start out).run q n).pc = .length ∧ ((q.start out).run q n).v28 = target := by
  obtain ⟨q, follows, inside, reached⟩ := class_met (by decide +kernel :
    (((zeros 4).start fun _ => 0).run (zeros 4) 1).pc = .store)
    (by unfold Inside InTable; decide +kernel) least most
  exact ⟨q, fun _ => 0, 2, follows.compressed.trans (by decide), inside, reached⟩

theorem slot_occurs {target : Nat} (least : 1 ≤ target) (most : target ≤ 28) :
    ∃ q out n, q.compressed = true ∧ Inside q out (n + 1) ∧
      ((q.start out).run q n).pc = .distance ∧ ((q.start out).run q n).slot = target := by
  obtain ⟨q, follows, inside, reached⟩ := slot_met (by decide +kernel :
    ((farStream.start fun _ => 0).run farStream 3).pc = .position) (by decide +kernel)
    (by unfold Inside InTable; decide +kernel) least most
  exact ⟨q, fun _ => 0, 4, follows.compressed.trans (by decide), inside, reached⟩

/-- In every run whose indices stay in the table, a length class and a distance slot stand
for all numbers of one length, each decoded from just one sequence of bits. -/
theorem code_values (p : Args) (out : Memory) (n : Nat) (inside : Inside p out (n + 1)) :
    let s := (p.start out).run p n
    let t := (p.start out).run p (n + 1)
    (s.pc = .length →
        0 ≤ s.v28 ∧ s.v28 ≤ 6 ∧
          (∃ bits, Decodes p out n Decoder.v35 bits t.v35) ∧
          ExactCode (s.v28.toNat + 1) (Decodes p out n Decoder.v35) ∧
          (t.v35 = 255 → s.v28 = 6)) ∧
      (s.pc = .distance →
        1 ≤ s.slot ∧ s.slot ≤ 28 ∧
          (∃ bits, Decodes p out n (fun after => after.v66 + 1) bits (t.v66 + 1)) ∧
          ExactCode s.slot (Decodes p out n fun after => after.v66 + 1)) ∧
      (s.pc = .position →
        t.pc = .copy ∧ t.slot = 0 ∧ t.v66 = 0 ∨ t.pc = .distance ∧ 1 ≤ t.slot) ∧
      (∀ distance, distance + 1 < 2 ^ 29 →
        ∃! slot, slot ≤ 28 ∧ 2 ^ slot ≤ distance + 1 ∧ distance + 1 < 2 ^ (slot + 1)) ∧
      (∀ v28, 0 ≤ v28 → v28 ≤ 6 → ∃ q before m, q.compressed = true ∧ Inside q before (m + 1) ∧
        ((q.start before).run q m).pc = .length ∧ ((q.start before).run q m).v28 = v28) ∧
      ∀ slot, 1 ≤ slot → slot ≤ 28 → ∃ q before m, q.compressed = true ∧ Inside q before (m + 1) ∧
        ((q.start before).run q m).pc = .distance ∧ ((q.start before).run q m).slot = slot := by
  intro s t
  have start := Decoder.bounds_start p out
  obtain ⟨-, located⟩ : Decoder.Bounds s := Decoder.run_bounds p n _ start
  refine ⟨fun pc => ?_, fun pc => ?_, position_slot, fun distance => existsUnique_slot,
    fun v28 => class_occurs, fun slot => slot_occurs⟩
  · rw [pc] at located
    obtain ⟨lower, upper, -⟩ := located
    have few : s.v28.toNat ≤ 27 := by omega
    have wide : Decoder.leastRange s.pc = 16807 := by rw [pc]; rfl
    have code := exactCode_decodes inside (length_gathers pc) few wide
    obtain ⟨bits, own⟩ := decodes_self inside (length_gathers pc)
    refine ⟨lower, upper, ⟨bits, own⟩, code, fun last => ?_⟩
    -- 255 has eight binary digits.
    have low := (code.range bits _ own).2.2
    have digits : 255 < 2 ^ (s.v28.toNat + 2) := by
      rw [← last]
      exact low
    by_contra other
    have most : 2 ^ (s.v28.toNat + 2) ≤ 2 ^ 7 := Nat.pow_le_pow_right (by decide) (by omega)
    omega
  · rw [pc] at located
    have far : s.slot ≤ 28 := Decoder.near_of_inside p start inside n (by omega) pc
    have few : s.slot - 1 ≤ 27 := by omega
    have wide : Decoder.leastRange s.pc = 16807 := by rw [pc]; rfl
    have code := exactCode_decodes inside (distance_gathers pc) few wide
    rw [Nat.sub_add_cancel located] at code
    exact ⟨located, far, decodes_self inside (distance_gathers pc), code⟩

theorem code_values_zeros :
    ExactCode 7 (Decodes (zeros 4) (fun _ => 0) 2 Decoder.v35) :=
  ((code_values (zeros 4) (fun _ => 0) 2 (by unfold Inside InTable; decide +kernel)).1
    (by decide +kernel)).2.2.2.1

end VitaTools.Unarzl
