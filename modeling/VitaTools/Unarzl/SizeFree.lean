import VitaTools.Unarzl.FilterInside
import VitaTools.Unarzl.Unarzl

set_option autoImplicit false

namespace VitaTools.Unarzl

open VitaTools.Library

theorem shortWord_of_top {m : Memory} {position : Nat} (top : m (position + 3) = 0xF0) :
    shortWord (m.word position) = true := by
  have word : (m.word position).extractLsb' 24 8 = 0xF0#8 := by
    rw [(Memory.word_bytes m position).2.2.2, top]
    rfl
  rw [shortWord, beq_iff_eq]
  apply BitVec.eq_of_getLsbD_eq
  intro i small
  by_cases inside : i < 5
  · have bit : (m.word position).getLsbD (24 + (3 + i)) = (0xF0#8).getLsbD (3 + i) := by
      rw [← word, BitVec.getLsbD_extractLsb']
      simp [show 3 + i < 8 by omega]
    rw [← Nat.add_assoc] at bit
    simp only [changeStride]
    interval_cases i <;> simp_all
  · simp only [changeStride]
    interval_cases i <;> simp_all

theorem readings_odd {r : Rewriter} (steps : r.short = shortWord) {m : Memory} {n : Nat}
    (odd : n % 2 = 1) (top : m n = 0xF0) (position : Nat) (even : position % 2 = 0)
    (fits : ∀ reading ∈ readings r.forward r.short n m position, reading.1 + 4 ≤ n + 1) :
    ∀ reading ∈ readings r.forward r.short n m position, reading.1 + 4 ≤ n := by
  induction distance : n - position using Nat.strong_induction_on generalizing position with
  | h distance ih =>
      by_cases inside : position < n
      · rw [r.readings_onward n (by exact_mod_cast inside), List.forall_mem_cons] at fits ⊢
        obtain ⟨here, later⟩ := fits
        have far : stride r.short (m.word position) = 2 ∨ stride r.short (m.word position) = 4 := by
          unfold stride
          split <;> simp
        have ends : position + 4 ≤ n := by
          by_contra crossing
          have last : n = position + 3 := by omega
          have isShort : r.short (m.word position) = true := by
            rw [steps]
            exact shortWord_of_top (last ▸ top)
          -- the two-byte step leads to a word that ends two bytes behind
          rw [stride_short isShort, readings_inside _ _ _ _ _ (by omega)] at later
          have beyond := later _ List.mem_cons_self
          dsimp only at beyond
          omega
        exact ⟨ends, ih _ (by omega) _ (by omega) later rfl⟩
      · rw [readings, if_neg (by exact_mod_cast inside)]
        exact fun _ member => absurd member List.not_mem_nil

/-- `arzl_decompress` returns `count` and the bytes of this run for every aligned buffer
that holds them, and the error for a full buffer for every other one. -/
def DecodesAlike (p : Args) (out : Memory) (count : Nat) : Prop :=
  ∀ (q : Args) (other : Memory), p.input = q.input → q.buffer % 8 = 0 →
    (count ≤ q.buflen → (arzlDecompress q other).pc = .done count ∧
      ∀ k < count, (arzlDecompress q other).out k = (arzlDecompress p out).out k) ∧
    (q.buflen < count → (arzlDecompress q other).pc = .done outOfSpace)

/-- `unarzl` stays in its block and returns `count` and the same bytes for every size that
doubles to `count` before it wraps. -/
def UnpacksAlike (inbuf : Memory) (count : Nat) : Prop :=
  ∃ bytes : Memory, ∀ (heap : Heap) (size doublings : Nat), 1 ≤ doublings →
    count ≤ size * 2 ^ doublings → size * 2 ^ doublings < 2 ^ 32 →
    ∃ u mem, unarzl inbuf size heap = some u ∧ u.InBlock ∧ u.size = count ∧
      u.ret = some mem ∧ ∀ k < count, mem k = bytes k

/-- The words the filter reads end inside the first `count` bytes. -/
def FilterEnds (mem : Memory) (count : Nat) : Prop :=
  ∀ start ∈ (arzlDeobfuscate mem count 2).words, start + 4 ≤ count

theorem filter_same {count : Nat} {mem other : Memory} (same : ∀ k < count, other k = mem k)
    (ends : FilterEnds mem count) :
    (arzlDeobfuscate other count 2).words = (arzlDeobfuscate mem count 2).words ∧
      ∀ k < count, (arzlDeobfuscate other count 2).mem k = (arzlDeobfuscate mem count 2).mem k := by
  rcases Nat.eq_zero_or_pos count with rfl | positive
  · simp [arzlDeobfuscate]
  · have inside : (0 : Int) < count := by exact_mod_cast positive
    obtain ⟨r, steps, scan⟩ := arzlDeobfuscate_scan count 2 inside
    have tiled : Tiled r.short count mem 0 := by
      rw [steps]
      exact (words_inside_iff mem count 2 inside).mp fun start member => by
        exact_mod_cast ends start member
    have agree : ∀ a : Nat, (a : Int) < count → other a = mem a := fun a below =>
      same a (by exact_mod_cast below)
    rw [(scan other).2, (scan mem).2, (scan other).1, (scan mem).1, r.readings_same tiled agree]
    exact ⟨rfl, fun k below => r.rescan_same tiled agree k (by exact_mod_cast below)⟩

theorem filterEnds_congr {count : Nat} {mem other : Memory} (same : ∀ k < count, other k = mem k)
    (ends : FilterEnds mem count) : FilterEnds other count := by
  unfold FilterEnds
  rw [(filter_same same ends).1]
  exact ends

def shortHeap : Heap := ⟨fun _ => 0, fun _ _ => 0xF0, fun _ => rfl⟩

-- Half of `count`, rounded up, makes `unarzl` decode into the smallest even block. If the
-- filter stays in it, with 0xF0 behind the decoded bytes, it stays in these.
theorem filterEnds_of_unpacksAlike {inbuf : Memory} {p : Args} {out : Memory} {count : Nat}
    (stream : p.input = fun k => inbuf (k + 4)) (aligned : p.buffer % 8 = 0)
    (success : (arzlDecompress p out).pc = .done count) (small : count < 2 ^ 31)
    (alike : UnpacksAlike inbuf count) : FilterEnds (arzlDecompress p out).out count := by
  obtain ⟨_, results⟩ := alike
  obtain ⟨u, mem, result, inBlock, _⟩ :=
    results shortHeap ((count + 1) / 2) 1 (le_refl _) (by omega) (by omega)
  have fits : (count + 1) / 2 * 2 < 2 ^ 32 := by omega
  obtain ⟨pc, bytes⟩ := (arzlDecompress_buflen
    (q := ⟨fun k => inbuf (k + 4), shortHeap.place 0, (count + 1) / 2 * 2⟩)
    (t := shortHeap.realloc 0 (fun _ => 0) 0) stream aligned success small).1
    (show count ≤ (count + 1) / 2 * 2 by omega)
  have pass := retryLoop_pass inbuf shortHeap 31 0 0 ((count + 1) / 2) count (fun _ => 0) fits pc
  rw [if_neg (by unfold outOfSpace; omega)] at pass
  have behind := arzlDecompress_behind pc small count (le_refl _)
  rw [unarzl_of_retryLoop pass small] at result
  generalize (arzlDecompress ⟨fun k => inbuf (k + 4), shortHeap.place 0, (count + 1) / 2 * 2⟩
    (shortHeap.realloc 0 (fun _ => 0) 0)).out = block at bytes behind result
  cases result
  refine filterEnds_congr (fun k below => (bytes k below).symm) ?_
  unfold Unpacked.InBlock at inBlock
  dsimp only at inBlock
  rcases Nat.eq_zero_or_pos count with rfl | positive
  · simp [FilterEnds, arzlDeobfuscate]
  by_cases odd : count % 2 = 1
  · obtain ⟨r, steps, scan⟩ := arzlDeobfuscate_scan count 2 (by exact_mod_cast positive)
    unfold FilterEnds
    rw [(scan block).2, List.forall_mem_map] at inBlock ⊢
    refine readings_odd steps odd behind 0 rfl fun reading member => ?_
    have within := inBlock reading member
    omega
  · intro start member
    have within := inBlock start member
    omega

/-- The size of the buffer never matters to the decoder; it does not matter to `unarzl`
exactly when the filter's last word ends with the decoded bytes. -/
theorem unarzl_alike_iff {inbuf : Memory} {p : Args} {out : Memory} {count : Nat}
    (stream : p.input = fun k => inbuf (k + 4)) (aligned : p.buffer % 8 = 0)
    (success : (arzlDecompress p out).pc = .done count) (small : count < 2 ^ 31) :
    (DecodesAlike p out count ∧ UnpacksAlike inbuf count) ↔
      FilterEnds (arzlDecompress p out).out count := by
  constructor
  · intro ⟨_, alike⟩
    exact filterEnds_of_unpacksAlike stream aligned success small alike
  · intro ends
    refine ⟨fun q t input low => arzlDecompress_buflen input (aligned.trans low.symm) success
      small, (arzlDeobfuscate (arzlDecompress p out).out count 2).mem, ?_⟩
    intro heap size doublings more reaches fits
    obtain ⟨outbuf, maxLen, bytes, room, result⟩ :=
      unarzl_decodes heap stream aligned success small size doublings more reaches fits
    obtain ⟨words, filtered⟩ := filter_same bytes ends
    refine ⟨_, _, result, ?_, rfl, rfl, filtered⟩
    intro start member
    dsimp only at member ⊢
    rw [words] at member
    exact le_trans (ends start member) room

def halfPair : Memory := fun k =>
  ([0, 0, 0, 0, 0x80, 0, 0, 0, 2, 0x00, 0xF0] : List Byte).getD k 0

def zeroHeap : Heap := ⟨fun _ => 0, fun _ _ => 0, fun _ => rfl⟩

def pairHeap : Heap :=
  ⟨fun _ => 0, fun _ k => ([0, 0, 0x00, 0xF8] : List Byte).getD k 0, fun _ => rfl⟩

def Unpacked.first (u : Unpacked) : List Nat × Nat × Option Byte :=
  (u.words, u.maxLen, u.ret.map fun mem => mem 0)

/-- Starting from 2 and from 4, `unarzl` returns different bytes of one stream, although
the filter stays in the block both times. -/
theorem halfPair_not_alike :
    (arzlDecompress ⟨fun k => halfPair (k + 4), 0, 2⟩ fun _ => 0).pc = .done 2 ∧
      (unarzl halfPair 2 zeroHeap).map Unpacked.first = some ([0], 4, some 0x00) ∧
      (unarzl halfPair 4 pairHeap).map Unpacked.first = some ([0], 8, some 0xFF) ∧
      ¬ UnpacksAlike halfPair 2 := by
  have zero : (unarzl halfPair 2 zeroHeap).map Unpacked.first = some ([0], 4, some 0x00) := by
    decide +kernel
  have pair : (unarzl halfPair 4 pairHeap).map Unpacked.first = some ([0], 8, some 0xFF) := by
    decide +kernel
  refine ⟨by decide +kernel, zero, pair, ?_⟩
  intro ⟨bytes, alike⟩
  obtain ⟨u, first, uResult, _, _, uRet, uBytes⟩ := alike zeroHeap 2 1 (by decide) (by decide)
    (by decide)
  obtain ⟨v, second, vResult, _, _, vRet, vBytes⟩ := alike pairHeap 4 1 (by decide) (by decide)
    (by decide)
  simp only [uResult, vResult, Option.map_some, Unpacked.first, uRet, vRet, Option.some.injEq,
    Prod.mk.injEq] at zero pair
  have same : first 0 = second 0 := (uBytes 0 (by decide)).trans (vBytes 0 (by decide)).symm
  rw [zero.2.2, pair.2.2] at same
  exact absurd same (by decide)

def wholeWord : Memory := fun k =>
  ([0, 0, 0, 0, 0x80, 0, 0, 0, 4, 0x70, 0x47, 0x00, 0xBF] : List Byte).getD k 0

theorem unarzl_alike_iff_wholeWord :
    (DecodesAlike ⟨fun k => wholeWord (k + 4), 0, 4⟩ (fun _ => 0) 4 ∧ UnpacksAlike wholeWord 4) ↔
      FilterEnds (arzlDecompress ⟨fun k => wholeWord (k + 4), 0, 4⟩ fun _ => 0).out 4 :=
  unarzl_alike_iff rfl rfl (by decide +kernel) (by decide)

end VitaTools.Unarzl
