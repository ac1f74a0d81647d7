import VitaTools.FagDec.DecryptSelf

set_option autoImplicit false

namespace VitaTools.PhysMem

open VitaTools.Library VitaTools.FagDec

/-- The write loop for one mapped page: `write` is an `int` and `len` is not. -/
def pageWriting (len : Word) (vaddr : Word → Byte) (off : Word) (results : Nat → Word) :
    Writing where
  len := len
  -- `if (write < 0)`
  gaveUp write := write.msb
  source x := vaddr (off + x)
  results := results

variable {len : Word} {vaddr : Word → Byte} {off : Word} {results : Nat → Word}

theorem total_small {k : Nat}
    (asked : (pageWriting len vaddr off results).Asked k) :
    (pageWriting len vaddr off results).total k < 2 ^ 31 := by
  cases k with
  | zero => exact Nat.two_pow_pos 31
  | succ k =>
      obtain ⟨-, short, kept⟩ := asked k (Nat.lt_succ_self k)
      have range := (pageWriting len vaddr off results).len.isLt
      have low := (BitVec.msb_eq_false_iff_two_mul_lt
        (x := BitVec.ofNat 32 ((pageWriting len vaddr off results).total (k + 1)))).mp kept
      rw [BitVec.toNat_ofNat, Nat.mod_eq_of_lt (by omega)] at low
      omega

theorem answered_iff {total : Nat} {code : Word} (small : total < 2 ^ 31)
    (negative : code.msb = true) :
    BitVec.ofNat 32 total + code < len ∧ (BitVec.ofNat 32 total + code).msb = true ↔
      total + code.toNat < len.toNat := by
  have high := BitVec.msb_eq_true_iff_two_mul_ge.mp negative
  have range := code.isLt
  have wide := len.isLt
  have sum : (BitVec.ofNat 32 total + code).toNat = (total + code.toNat) % 2 ^ 32 := by
    rw [BitVec.toNat_add, BitVec.toNat_ofNat, Nat.mod_add_mod]
  rw [BitVec.lt_def, BitVec.msb_eq_true_iff_two_mul_ge, sum]
  omega

theorem pageWriting_exact_iff (positive : 0 < len)
    (bounded : (pageWriting len vaddr off results).Bounded) :
    (pageWriting len vaddr off results).Exact ↔
      ∀ k, (pageWriting len vaddr off results).Asked k → (results k).msb = true →
        (pageWriting len vaddr off results).total k + (results k).toNat < len.toNat := by
  rw [Writing.exact_iff positive bounded]
  refine forall_congr' fun k => forall_congr' fun asked => imp_congr_right fun negative => ?_
  have small := total_small asked
  rw [Writing.leaves_eq_error]
  exact answered_iff small negative

theorem pageWriting_exact_iff_counts (short : len.toNat ≤ 2 ^ 31) (positive : 0 < len)
    (bounded : (pageWriting len vaddr off results).Bounded) :
    (pageWriting len vaddr off results).Exact ↔
      ∀ k, (pageWriting len vaddr off results).Asked k → (results k).msb = false := by
  rw [pageWriting_exact_iff positive bounded]
  refine forall_congr' fun k => imp_congr_right fun _ => ?_
  constructor
  · intro answered
    by_contra negative
    have error := Bool.eq_true_of_not_eq_false negative
    have high := BitVec.msb_eq_true_iff_two_mul_ge.mp error
    have below := answered error
    omega
  · intro fine negative
    rw [fine] at negative
    cases negative

/-- When the two write loops are exact, the one for pages also without a comparison with `len` for
pages up to two gigabytes. -/
theorem writes_exact_iff (positive : 0 < len)
    (page : (pageWriting len vaddr off results).Bounded)
    (segment : (segmentWriting len vaddr results).Bounded) :
    ((pageWriting len vaddr off results).Exact ↔
      ∀ k, (pageWriting len vaddr off results).Asked k → (results k).msb = true →
        (pageWriting len vaddr off results).total k + (results k).toNat < len.toNat) ∧
    ((segmentWriting len vaddr results).Exact ↔
      ∀ k, (segmentWriting len vaddr results).Asked k → (results k).msb = false) ∧
    (len.toNat ≤ 2 ^ 31 → ((pageWriting len vaddr off results).Exact ↔
      ∀ k, (pageWriting len vaddr off results).Asked k → (results k).msb = false)) :=
  ⟨pageWriting_exact_iff positive page, segmentWriting_exact_iff positive segment,
    fun short => pageWriting_exact_iff_counts short positive page⟩

theorem bounded_twice {writing : Writing} {first second : Word}
    (one : writing.results 0 = first) (two : writing.results 1 = second)
    (fits : first.toNat ≤ writing.len.toNat) (rest : second.toNat ≤ (writing.len - first).toNat)
    (whole : writing.leaves (first + second) ≠ none) : writing.Bounded := by
  intro s visited going _
  have reached : s = Writing.start ∨ (s.calls = 1 ∧ s.write = first) ∨ s.left ≠ none := by
    apply visited.invariant fun s =>
      s = Writing.start ∨ (s.calls = 1 ∧ s.write = first) ∨ s.left ≠ none
    · exact .inl rfl
    · rintro s - (rfl | ⟨calls, write⟩ | left) more
      · refine .inr (.inl ⟨rfl, ?_⟩)
        change (0 : Word) + writing.results 0 = first
        rw [show (0 : Word) + writing.results 0 = writing.results 0 from BitVec.zero_add _, one]
      · refine .inr (.inr ?_)
        change writing.leaves (s.write + writing.results s.calls) ≠ none
        rwa [calls, write, two]
      · exact absurd (Option.isNone_iff_eq_none.mp more) left
  rcases reached with rfl | ⟨calls, write⟩ | left
  · rw [show writing.len - Writing.start.write = writing.len from BitVec.sub_zero _]
    exact (congrArg BitVec.toNat one).trans_le fits
  · rw [calls, write, two]
    exact rest
  · exact absurd going left

theorem writes_exact_iff_halves :
    (pageWriting 4 (fun _ => 0) 0 fun _ => 2).Exact ↔
      ∀ k, (pageWriting 4 (fun _ => 0) 0 fun _ => 2).Asked k → (2 : Word).msb = false :=
  (writes_exact_iff (by decide)
    (bounded_twice rfl rfl (by decide) (by decide) (by decide))
    (bounded_twice rfl rfl (by decide) (by decide) (by decide))).2.2 (by decide)

/-- An error in the first call: both loops end as if they had written the whole page. -/
theorem error_as_whole :
    ¬ (pageWriting 0x100000 (fun _ => 0) 0 fun _ => 0x80010005).Exact ∧
      ¬ (segmentWriting 0x100000 (fun _ => 0) fun _ => 0x80010005).Exact := by
  constructor
  next =>
    intro exact
    have left := exact.failed _ .start rfl (by decide)
    exact absurd left (by decide)
  next =>
    intro exact
    have left := exact.failed _ .start rfl (by decide)
    exact absurd left (by decide)

end VitaTools.PhysMem
