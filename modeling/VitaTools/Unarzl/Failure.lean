import VitaTools.Unarzl.Retry

set_option autoImplicit false

namespace VitaTools.Unarzl

open VitaTools.Library

section

variable {p q : Args} {out t : Memory}

/-- `arzl_decompress` meets a reference before the start of the output. -/
def MeetsBadReference (p : Args) (out : Memory) : Prop :=
  p.compressed = true ∧ ∃ k, Decoder.BadReference ((p.start out).run p k)

theorem bad_last {k : Nat} (mode : p.compressed = true)
    (bad : Decoder.BadReference ((p.start out).run p k)) :
    (arzlDecompress p out).pc = .done badDistance ∧
      produced p out = ((p.start out).run p k).v8 := by
  have stopped : (p.start out).run p (k + 1) =
      { (p.start out).run p k with pc := .done badDistance } := by
    rw [Decoder.run_add]
    exact Decoder.step_badReference bad
  have pc : ((p.start out).run p (k + 1)).pc = .done badDistance := by rw [stopped]
  have last : arzlDecompress p out = (p.start out).run p (k + 1) := by
    rw [← arzlDecompress_steps p out mode (k + 1 + 6 * (p.buflen + 1)) (by omega),
      Decoder.run_add, Decoder.run_done p pc]
  rw [produced, if_pos mode, last]
  exact ⟨pc, by rw [stopped]⟩

theorem bad_stops (bad : MeetsBadReference p out) :
    (arzlDecompress p out).pc ≠ .done outOfSpace := by
  obtain ⟨mode, k, here⟩ := bad
  rw [(bad_last mode here).1]
  decide

theorem bad_together (input : p.input = q.input) (low : p.buffer % 8 = 0)
    (low' : q.buffer % 8 = 0) (bad : MeetsBadReference p out)
    (stops : (arzlDecompress q t).pc ≠ .done outOfSpace) : MeetsBadReference q t := by
  have room := (stops_iff (stopsAt_produced low (bad_stops bad)) input.symm low').mp stops
  obtain ⟨mode, k, here⟩ := bad
  have stored : ((p.start out).run p k).stored = ((p.start out).run p k).v8 := by
    simp only [Decoder.stored, here.1]
  refine ⟨by simpa only [Args.compressed, input] using mode, k, ?_⟩
  have together := Decoder.run_together (n := k) input (low.trans low'.symm)
    (Decoder.start_agree out t input) (by rw [here.1]; decide)
    (by rw [stored, ← (bad_last mode here).2]; exact room)
  rcases together with ⟨_, same, _⟩ | both
  · rw [same]
    exact here
  · have copying := here.1
    rw [both.1] at copying
    contradiction

theorem returns_produced {ret : Nat} (good : ¬ MeetsBadReference p out)
    (pc : (arzlDecompress p out).pc = .done ret) (notFull : ret ≠ outOfSpace) :
    ret = produced p out := by
  by_cases mode : p.compressed = true
  · rw [arzlDecompress, if_pos mode] at pc
    have going : ∀ ret, (p.start out).pc ≠ .done ret := fun _ => Point.noConfusion
    rcases Decoder.run_ends going pc with ⟨k, _, bad⟩ | full | counted
    · exact absurd ⟨mode, k, bad⟩ good
    · exact absurd full notFull
    · rw [produced, if_pos mode, arzlDecompress, if_pos mode, ← counted.1]
  · rw [arzlDecompress, if_neg mode, storedMode] at pc
    rw [produced, if_neg mode]
    split at pc
    · exact absurd (Point.done.inj pc).symm notFull
    · exact (Point.done.inj pc).symm

end

/-- The stream refers to bytes before the start of the output. -/
def FarReference (input : Memory) : Prop :=
  ∃ room, MeetsBadReference ⟨input, 0, room⟩ fun _ => 0

section

variable (inbuf : Memory) (heap : Heap) (size n : Nat)

/-- What `unarzl` should make of its last pass: no buffer and no new size of a failed
one, and of any other the number of bytes produced. -/
structure ReportsFailure : Prop where
  failed : MeetsBadReference (passArgs inbuf heap size n)
      (passBlock inbuf heap size n) →
    ∃ u, unarzl inbuf size heap = some u ∧ u.ret = none ∧ u.size = size ∧ u.words = []
  returned : ∀ u mem, unarzl inbuf size heap = some u → u.ret = some mem →
    u.size = produced (passArgs inbuf heap size n)
        (passBlock inbuf heap size n) ∧
      u.size ≤ u.maxLen

variable {inbuf heap size n}

theorem lastPass_bad_iff (last : LastPass inbuf heap size n) :
    MeetsBadReference (passArgs inbuf heap size n)
        (passBlock inbuf heap size n) ↔
      FarReference fun k => inbuf (k + 4) := by
  constructor
  · intro bad
    refine ⟨(passArgs inbuf heap size n).buflen, ?_⟩
    obtain ⟨pc, _⟩ := stops_together (p := passArgs inbuf heap size n)
      (q := ⟨fun k => inbuf (k + 4), 0, (passArgs inbuf heap size n).buflen⟩)
      (t := fun _ => 0) rfl (heap.aligned _) last.here (produced_fits last.here)
    exact bad_together (p := passArgs inbuf heap size n)
      (q := ⟨fun k => inbuf (k + 4), 0, (passArgs inbuf heap size n).buflen⟩) rfl
      (heap.aligned _) rfl bad (by rw [pc]; exact last.here)
  · intro ⟨room, bad⟩
    exact bad_together (p := ⟨fun k => inbuf (k + 4), 0, room⟩) rfl rfl (heap.aligned _) bad
      last.here

theorem unarzl_last (last : LastPass inbuf heap size n) : ∃ len mem words,
    ((attempt inbuf heap size n).result inbuf heap).pc = .done len ∧ len ≠ outOfSpace ∧
      unarzl inbuf size heap =
        some ⟨some mem, len, (passArgs inbuf heap size n).buflen, words⟩ := by
  obtain ⟨len, pc, notFull, result⟩ := retryLoop_last last 32 (lastPass_lt last)
  have taken : ¬ (len : Int) < 0 := by omega
  rw [unarzl, result, Option.map_some, if_neg taken]
  exact ⟨len, _, _, pc, notFull, rfl⟩

end

/-- Where the retry loop ends, `unarzl` reports failures and counts as it should exactly
when the stream holds no reference before the start of the output. -/
theorem unarzl_reports_iff (inbuf : Memory) (heap : Heap) (size n : Nat)
    (last : LastPass inbuf heap size n) :
    ReportsFailure inbuf heap size n ↔ ¬ FarReference fun k => inbuf (k + 4) := by
  obtain ⟨len, mem, words, pc, notFull, result⟩ := unarzl_last last
  rw [← lastPass_bad_iff last]
  constructor
  · intro reports bad
    obtain ⟨u, same, none, _⟩ := reports.failed bad
    rw [result] at same
    cases same
    exact nomatch none
  · intro good
    constructor
    next => exact fun bad => absurd bad good
    next =>
      intro u _ same _
      rw [result] at same
      cases same
      have count := returns_produced good pc notFull
      exact ⟨count, count ▸ produced_fits last.here⟩

theorem unarzl_reports_iff_wholeWord :
    ReportsFailure wholeWord zeroHeap 2 0 ↔ ¬ FarReference fun k => wholeWord (k + 4) :=
  unarzl_reports_iff wholeWord zeroHeap 2 0 ⟨fun _ below => absurd below (Nat.not_lt_zero _), by
    rw [Attempt.Full]
    decide +kernel⟩

def farBack : Memory := fun k => ([0, 0, 0, 0, 0, 0, 17, 33] : List Byte).getD k 0

-- The caller gets a buffer of 4 bytes and is told that 0x80560200 were decoded.
theorem farBack_not_reported :
    (unarzl farBack 2 zeroHeap).map (fun u => (u.ret.isSome, u.size, u.maxLen)) =
        some (true, badDistance, 4) ∧
      ¬ ReportsFailure farBack zeroHeap 2 0 := by
  have bad : MeetsBadReference (passArgs farBack zeroHeap 2 0) (passBlock farBack zeroHeap 2 0) :=
    ⟨by decide +kernel, 5, by unfold Decoder.BadReference; decide +kernel⟩
  have last : LastPass farBack zeroHeap 2 0 :=
    ⟨fun _ below => absurd below (Nat.not_lt_zero _), bad_stops bad⟩
  obtain ⟨len, mem, words, pc, notFull, result⟩ := unarzl_last last
  have failed : len = badDistance := by
    obtain ⟨mode, k, here⟩ := bad
    exact Point.done.inj (pc.symm.trans (bad_last mode here).1)
  constructor
  · rw [result, failed]
    rfl
  · intro reports
    obtain ⟨u, same, none, _⟩ := reports.failed bad
    rw [result] at same
    cases same
    exact nomatch none

end VitaTools.Unarzl
