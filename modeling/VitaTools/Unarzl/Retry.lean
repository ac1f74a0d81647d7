import VitaTools.Unarzl.SizeFree
import VitaTools.Unarzl.Stops

set_option autoImplicit false

namespace VitaTools.Unarzl

open VitaTools.Library

structure Attempt where
  call : Nat
  held : Nat
  maxLen : Nat
  outbuf : Memory

namespace Attempt

variable (inbuf : Memory) (heap : Heap) (a : Attempt)

def args : Args := ⟨fun k => inbuf (k + 4), heap.place a.call, a.maxLen * 2 % 2 ^ 32⟩

def block : Memory := heap.realloc a.call a.outbuf a.held

def result : Decoder := arzlDecompress (a.args inbuf heap) (a.block heap)

def Full : Prop := (a.result inbuf heap).pc = .done outOfSpace

def next : Attempt :=
  ⟨a.call + 1, (a.args inbuf heap).buflen, (a.args inbuf heap).buflen,
    (a.result inbuf heap).out⟩

def retried (passes : Nat) : Option Retried :=
  retryLoop inbuf heap passes a.call a.held a.maxLen a.outbuf

theorem retried_full (passes : Nat) (full : a.Full inbuf heap) :
    a.retried inbuf heap (passes + 1) = (a.next inbuf heap).retried inbuf heap passes := by
  have pc : (arzlDecompress ⟨fun k => inbuf (k + 4), heap.place a.call, a.maxLen * 2 % 2 ^ 32⟩
      (heap.realloc a.call a.outbuf a.held)).pc = .done outOfSpace := full
  rw [retried, retryLoop, pc]
  dsimp only
  rw [if_pos rfl]
  rfl

theorem retried_over (passes len : Nat) (pc : (a.result inbuf heap).pc = .done len)
    (ends : len ≠ outOfSpace) : a.retried inbuf heap (passes + 1) =
      some ⟨len, (a.args inbuf heap).buflen, (a.result inbuf heap).out⟩ := by
  have returned : (arzlDecompress
      ⟨fun k => inbuf (k + 4), heap.place a.call, a.maxLen * 2 % 2 ^ 32⟩
      (heap.realloc a.call a.outbuf a.held)).pc = .done len := pc
  rw [retried, retryLoop, returned]
  dsimp only
  rw [if_neg ends]
  rfl

end Attempt

section

variable (inbuf : Memory) (heap : Heap) (size : Nat)

-- The passes of `unarzl`, each begun because the one before it was full.
def attempt : Nat → Attempt
  | 0 => ⟨0, 0, size, fun _ => 0⟩
  | n + 1 => (attempt n).next inbuf heap

abbrev passArgs (n : Nat) : Args := (attempt inbuf heap size n).args inbuf heap

abbrev passBlock (n : Nat) : Memory := (attempt inbuf heap size n).block heap

theorem attempt_buflen (n : Nat) :
    (passArgs inbuf heap size n).buflen = size * 2 ^ (n + 1) % 2 ^ 32 := by
  induction n with
  | zero => rfl
  | succ n ih =>
      have doubled : (passArgs inbuf heap size (n + 1)).buflen =
          (passArgs inbuf heap size n).buflen * 2 % 2 ^ 32 := rfl
      rw [doubled, ih, Nat.pow_succ 2 (n + 1), ← Nat.mul_assoc, Nat.mod_mul_mod]

/-- The pass in which the loop ends. -/
structure LastPass (n : Nat) : Prop where
  before : ∀ j < n, (attempt inbuf heap size j).Full inbuf heap
  here : ¬ (attempt inbuf heap size n).Full inbuf heap

variable {inbuf heap size}

theorem retried_before (n passes : Nat)
    (before : ∀ j < n, (attempt inbuf heap size j).Full inbuf heap) :
    retryLoop inbuf heap (n + passes) 0 0 size (fun _ => 0) =
      (attempt inbuf heap size n).retried inbuf heap passes := by
  induction n generalizing passes with
  | zero => rw [Nat.zero_add]; rfl
  | succ n ih =>
      have full := before n (Nat.lt_succ_self n)
      rw [show n + 1 + passes = n + (passes + 1) by omega,
        ih (passes + 1) fun j below => before j (by omega), Attempt.retried_full _ _ _ _ full]
      rfl

theorem retryLoop_last {n : Nat} (last : LastPass inbuf heap size n) (passes : Nat)
    (enough : n < passes) : ∃ len,
      ((attempt inbuf heap size n).result inbuf heap).pc = .done len ∧ len ≠ outOfSpace ∧
      retryLoop inbuf heap passes 0 0 size (fun _ => 0) =
        some ⟨len, (passArgs inbuf heap size n).buflen,
          ((attempt inbuf heap size n).result inbuf heap).out⟩ := by
  obtain ⟨len, pc⟩ := arzlDecompress_returns (passArgs inbuf heap size n)
    (passBlock inbuf heap size n)
  have notFull : len ≠ outOfSpace := by
    intro same
    rw [same] at pc
    exact last.here pc
  refine ⟨len, pc, notFull, ?_⟩
  rw [← Nat.add_sub_cancel' enough.le, retried_before n (passes - n) last.before,
    show passes - n = passes - n - 1 + 1 by omega, Attempt.retried_over _ _ _ _ _ pc notFull]

theorem retryLoop_isSome_iff (passes : Nat) :
    (retryLoop inbuf heap passes 0 0 size fun _ => 0).isSome ↔
      ∃ n < passes, LastPass inbuf heap size n := by
  classical
  constructor
  · intro ends
    by_contra never
    have full : ∀ n ≤ passes, ∀ j < n, (attempt inbuf heap size j).Full inbuf heap := by
      intro n within
      induction n with
      | zero => exact fun j below => absurd below (Nat.not_lt_zero j)
      | succ n ih =>
          intro j below
          have before := ih (by omega)
          by_cases same : j = n
          · by_contra here
            exact never ⟨n, within, before, same ▸ here⟩
          · exact before j (by omega)
    have stuck := retried_before passes 0 (full passes (le_refl _))
    rw [Nat.add_zero] at stuck
    rw [stuck] at ends
    exact absurd ends (by simp [Attempt.retried, retryLoop])
  · intro ⟨n, below, last⟩
    obtain ⟨len, _, _, result⟩ := retryLoop_last last passes below
    rw [result]
    rfl

theorem exists_lastPass {n : Nat} (ends : ¬ (attempt inbuf heap size n).Full inbuf heap) :
    ∃ m ≤ n, LastPass inbuf heap size m := by
  classical
  have found : ∃ m, ¬ (attempt inbuf heap size m).Full inbuf heap := ⟨n, ends⟩
  refine ⟨Nat.find found, Nat.find_min' found ends, ?_, Nat.find_spec found⟩
  intro j below
  exact not_not.mp (Nat.find_min found below)

theorem full_iff {count : Nat} (stop : StopsAt (fun k => inbuf (k + 4)) count) (n : Nat) :
    ¬ (attempt inbuf heap size n).Full inbuf heap ↔ count ≤ size * 2 ^ (n + 1) % 2 ^ 32 := by
  rw [← attempt_buflen inbuf heap size n]
  exact stops_iff stop rfl (heap.aligned _)

theorem lastPass_stopsAt {n : Nat} (last : LastPass inbuf heap size n) :
    StopsAt (fun k => inbuf (k + 4)) (produced (passArgs inbuf heap size n)
      (passBlock inbuf heap size n)) :=
  stopsAt_produced (p := passArgs inbuf heap size n) (heap.aligned _) last.here

theorem lastPass_lt {n : Nat} (last : LastPass inbuf heap size n) : n < 32 := by
  by_contra late
  have stop := lastPass_stopsAt last
  have none (m : Nat) (beyond : 31 ≤ m) : size * 2 ^ (m + 1) % 2 ^ 32 = 0 := by
    rw [← Nat.sub_add_cancel (show 32 ≤ m + 1 by omega), Nat.pow_add, ← Nat.mul_assoc]
    exact Nat.mul_mod_left _ _
  have here := (full_iff stop n).mp last.here
  rw [none n (by omega)] at here
  have earlier : ¬ (attempt inbuf heap size 31).Full inbuf heap := by
    rw [full_iff stop 31, none 31 (le_refl _)]
    exact here
  exact earlier (last.before 31 (by omega))

end

/-- The retry loop ends exactly when the stream stops the decoder within one of the sizes
that doubling `size` modulo 2^32 gives. -/
theorem retryLoop_ends_iff (inbuf : Memory) (heap : Heap) (size : Nat) :
    (∃ passes, (retryLoop inbuf heap passes 0 0 size fun _ => 0).isSome = true) ↔
      ∃ count, StopsAt (fun k => inbuf (k + 4)) count ∧
        ∃ k, 1 ≤ k ∧ count ≤ size * 2 ^ k % 2 ^ 32 := by
  constructor
  · intro ⟨passes, ends⟩
    obtain ⟨n, _, last⟩ := (retryLoop_isSome_iff passes).mp ends
    have stop := lastPass_stopsAt last
    exact ⟨_, stop, n + 1, by omega, (full_iff stop n).mp last.here⟩
  · intro ⟨count, stop, k, positive, fits⟩
    rw [← Nat.sub_add_cancel positive] at fits
    obtain ⟨n, _, last⟩ := exists_lastPass ((full_iff stop (k - 1)).mpr fits)
    exact ⟨n + 1, (retryLoop_isSome_iff (n + 1)).mpr ⟨n, Nat.lt_succ_self n, last⟩⟩

def longestStored : Memory := fun k =>
  ([0, 0, 0, 0, 0x80, 0xFF, 0xFF, 0xFF, 0xFF] : List Byte).getD k 0

theorem longestStored_never_ends :
    ¬ ∃ passes, (retryLoop longestStored zeroHeap passes 0 0 1 fun _ => 0).isSome = true := by
  intro ⟨passes, ends⟩
  obtain ⟨n, _, last⟩ := (retryLoop_isSome_iff passes).mp ends
  have room := (storedMode_stops_iff (p := passArgs longestStored zeroHeap 1 n)
    (by change ¬ Args.compressed ⟨fun k => longestStored (k + 4), 0, 0⟩ = true; decide)).mp
    last.here
  have longest : (passArgs longestStored zeroHeap 1 n).header =
      2 ^ 32 - 1 := by
    change Args.header ⟨fun k => longestStored (k + 4), 0, 0⟩ = _
    decide
  have even : (passArgs longestStored zeroHeap 1 n).buflen =
      (attempt longestStored zeroHeap 1 n).maxLen * 2 % 2 ^ 32 := rfl
  omega

end VitaTools.Unarzl
