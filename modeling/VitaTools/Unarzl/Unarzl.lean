import Mathlib.Tactic.Ring
import VitaTools.Unarzl.BufferSize
import VitaTools.Unarzl.Deobfuscate

set_option autoImplicit false

/-!
The retry loop and the branch filter that runs over the decoded bytes. The
filter reads whole words, so its last word may end behind them.
-/

namespace VitaTools.Unarzl

open VitaTools.Library

-- What `realloc` is free to choose: for each call the address of the block and its new
-- bytes. It is taken to succeed.
structure Heap where
  place : Nat → Nat
  fresh : Nat → Memory
  aligned : ∀ call, place call % 8 = 0

def Heap.realloc (heap : Heap) (call : Nat) (old : Memory) (oldSize : Nat) : Memory := fun k =>
  if k < oldSize then old k else heap.fresh call k

structure Retried where
  len : Nat
  maxLen : Nat
  outbuf : Memory

-- `do { ... } while (len == 0x80560201)`, with `max_len` before its doubling and the size
-- of the block held so far. From the 32nd pass on `max_len` is 0, so a loop that is not over by
-- then goes on for ever.
def retryLoop (inbuf : Memory) (heap : Heap) : Nat → Nat → Nat → Nat → Memory → Option Retried
  | 0, _, _, _, _ => none
  | fuel + 1, call, held, maxLen, outbuf =>
      let resized := maxLen * 2 % 2 ^ 32
      let d := arzlDecompress ⟨fun k => inbuf (k + 4), heap.place call, resized⟩
        (heap.realloc call outbuf held)
      match d.pc with
      | .done len =>
          if len = outOfSpace then retryLoop inbuf heap fuel (call + 1) resized resized d.out
          else some ⟨len, resized, d.out⟩
      | _ => none

-- What `unarzl` leaves: the returned pointer's memory or NULL, `*size`, the size of the
-- block and the words the filter read.
structure Unpacked where
  ret : Option Memory
  size : Nat
  maxLen : Nat
  words : List Nat

-- `unarzl(inbuf, size)`. `len` is unsigned, so the test for an error fails; the filter is
-- given it as an `int`.
def unarzl (inbuf : Memory) (size : Nat) (heap : Heap) : Option Unpacked :=
  (retryLoop inbuf heap 32 0 0 size fun _ => 0).map fun r =>
    if (r.len : Int) < 0 then ⟨none, size, r.maxLen, []⟩
    else
      let scan := arzlDeobfuscate r.outbuf (BitVec.ofNat 32 r.len).toInt 2
      ⟨some scan.mem, r.len, r.maxLen, scan.words⟩

def Unpacked.InBlock (u : Unpacked) : Prop := ∀ start ∈ u.words, start + 4 ≤ u.maxLen

theorem retryLoop_pass (inbuf : Memory) (heap : Heap) (fuel call held maxLen len : Nat)
    (outbuf : Memory) (fits : maxLen * 2 < 2 ^ 32)
    (pc : (arzlDecompress ⟨fun k => inbuf (k + 4), heap.place call, maxLen * 2⟩
      (heap.realloc call outbuf held)).pc = .done len) :
    retryLoop inbuf heap (fuel + 1) call held maxLen outbuf =
      let d := arzlDecompress ⟨fun k => inbuf (k + 4), heap.place call, maxLen * 2⟩
        (heap.realloc call outbuf held)
      if len = outOfSpace then
        retryLoop inbuf heap fuel (call + 1) (maxLen * 2) (maxLen * 2) d.out
      else some ⟨len, maxLen * 2, d.out⟩ := by
  dsimp only [retryLoop]
  rw [Nat.mod_eq_of_lt fits, pc]

theorem retryLoop_decodes {inbuf : Memory} {p : Args} {out : Memory} {count : Nat} (heap : Heap)
    (stream : p.input = fun k => inbuf (k + 4)) (aligned : p.buffer % 8 = 0)
    (success : (arzlDecompress p out).pc = .done count) (small : count < 2 ^ 31)
    (doublings fuel call held maxLen : Nat) (outbuf : Memory) (more : 1 ≤ doublings)
    (enough : doublings ≤ fuel) (reaches : count ≤ maxLen * 2 ^ doublings)
    (fits : maxLen * 2 ^ doublings < 2 ^ 32) :
    ∃ r, retryLoop inbuf heap fuel call held maxLen outbuf = some r ∧ r.len = count ∧
      count ≤ r.maxLen ∧ ∀ k < count, r.outbuf k = (arzlDecompress p out).out k := by
  induction doublings generalizing fuel call held maxLen outbuf with
  | zero => omega
  | succ doublings ih =>
      obtain ⟨fuel, rfl⟩ : ∃ rest, fuel = rest + 1 := ⟨fuel - 1, by omega⟩
      have split : maxLen * 2 ^ (doublings + 1) = maxLen * 2 * 2 ^ doublings := by ring
      rw [split] at reaches fits
      have small' : maxLen * 2 < 2 ^ 32 :=
        lt_of_le_of_lt (Nat.le_mul_of_pos_right _ Nat.one_le_two_pow) fits
      obtain ⟨large, full⟩ := arzlDecompress_buflen
        (q := ⟨fun k => inbuf (k + 4), heap.place call, maxLen * 2⟩)
        (t := heap.realloc call outbuf held) stream (aligned.trans (heap.aligned call).symm)
        success small
      by_cases room : count ≤ maxLen * 2
      · obtain ⟨pc, bytes⟩ := large room
        have notFull : ¬ count = outOfSpace := by unfold outOfSpace; omega
        rw [retryLoop_pass inbuf heap fuel call held maxLen count outbuf small' pc, if_neg notFull]
        exact ⟨_, rfl, rfl, room, bytes⟩
      · rw [retryLoop_pass inbuf heap fuel call held maxLen _ outbuf small'
          (full (Nat.lt_of_not_le room)), if_pos rfl]
        have again : doublings ≠ 0 := by
          intro none
          rw [none] at reaches
          omega
        exact ih fuel (call + 1) _ (maxLen * 2) _ (by omega) (by omega) reaches fits

theorem toInt_count {count : Nat} (small : count < 2 ^ 31) :
    (BitVec.ofNat 32 count).toInt = count := by
  rw [BitVec.toInt_eq_toNat_of_lt] <;> rw [BitVec.toNat_ofNat] <;> omega

theorem unarzl_of_retryLoop {inbuf : Memory} {heap : Heap} {size : Nat} {r : Retried}
    (result : retryLoop inbuf heap 32 0 0 size (fun _ => 0) = some r) (small : r.len < 2 ^ 31) :
    unarzl inbuf size heap = some ⟨some (arzlDeobfuscate r.outbuf r.len 2).mem, r.len, r.maxLen,
      (arzlDeobfuscate r.outbuf r.len 2).words⟩ := by
  rw [unarzl, result, Option.map_some, if_neg (by omega)]
  dsimp only
  rw [toInt_count small]

-- From a starting value that doubles to `count` before it wraps, `unarzl` filters the
-- decoded bytes and returns `count`.
theorem unarzl_decodes {inbuf : Memory} {p : Args} {out : Memory} {count : Nat} (heap : Heap)
    (stream : p.input = fun k => inbuf (k + 4)) (aligned : p.buffer % 8 = 0)
    (success : (arzlDecompress p out).pc = .done count) (small : count < 2 ^ 31)
    (size doublings : Nat) (more : 1 ≤ doublings) (reaches : count ≤ size * 2 ^ doublings)
    (fits : size * 2 ^ doublings < 2 ^ 32) :
    ∃ outbuf maxLen, (∀ k < count, outbuf k = (arzlDecompress p out).out k) ∧ count ≤ maxLen ∧
      unarzl inbuf size heap = some ⟨some (arzlDeobfuscate outbuf count 2).mem, count, maxLen,
        (arzlDeobfuscate outbuf count 2).words⟩ := by
  -- A size of zero reaches what it can reach at once; any other wraps after 31 doublings.
  have few : ∃ doublings, 1 ≤ doublings ∧ doublings ≤ 32 ∧ count ≤ size * 2 ^ doublings ∧
      size * 2 ^ doublings < 2 ^ 32 := by
    by_cases empty : size = 0
    · subst empty
      exact ⟨1, le_refl _, by omega, by simpa using reaches, by omega⟩
    · refine ⟨doublings, more, ?_, reaches, fits⟩
      have bound : 2 ^ doublings < 2 ^ 32 :=
        lt_of_le_of_lt (Nat.le_mul_of_pos_left _ (Nat.pos_of_ne_zero empty)) fits
      exact le_of_lt ((Nat.pow_lt_pow_iff_right (by norm_num)).mp bound)
  obtain ⟨doublings, more, enough, reaches, fits⟩ := few
  obtain ⟨r, result, rfl, room, bytes⟩ := retryLoop_decodes heap stream aligned success small
    doublings 32 0 0 size (fun _ => 0) more enough reaches fits
  exact ⟨r.outbuf, r.maxLen, bytes, room, unarzl_of_retryLoop result small⟩

end VitaTools.Unarzl
