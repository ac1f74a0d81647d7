import VitaTools.Library.EventFlag
import VitaTools.Library.Transition
import VitaTools.RingBuf.Model

set_option autoImplicit false

namespace VitaTools.PrincessLog

open VitaTools.Library VitaTools.RingBuf

inductive NetPoint
  | loop
  | waitFirst
  | getFirst
  | connect
  | send
  | waitNext
  | getNext
  | returned
deriving DecidableEq

/-- `buf` holds the `received_len` bytes of the last read. `taken` and `accepted` record
what `ringbuf_get_wait` returned and what the sockets accepted. -/
structure NetThread where
  netThreadRun : Bool
  ring : LogBuffer
  point : NetPoint
  buf : List Byte
  taken : List Byte
  accepted : List Byte

inductive NetAction
  -- A logging callback calls `ringbuf_put_clobber`.
  | log (c : Nat → Byte) (size : Int)
  -- `NetLoggingMgrFinish` clears `net_thread_run`.
  | finish
  | loop
  | wait (ret : Int)
  | get
  | connect (netSock ret : Int)
  | send (ret : Int)

namespace NetThread

-- The body of `ringbuf_get_wait(buf, sizeof(buf), ...)` after its wait.
def receive (s : NetThread) : NetThread :=
  let (ring, reply) := s.ring.ringbufGetWait 0 0x400
  { s with ring := ring, buf := reply.bytes, taken := s.taken ++ reply.bytes }

-- A send accepts nothing and fails, or accepts at least one of the bytes it is given.
def step (s : NetThread) : NetAction → Option NetThread
  | .log c size => some { s with ring := (s.ring.ringbufPutClobber c size).1 }
  | .finish => some { s with netThreadRun := false }
  | .loop =>
      if s.point = .loop then
        some { s with point := if s.netThreadRun then .waitFirst else .returned }
      else none
  | .wait ret =>
      match s.point with
      | .waitFirst =>
          if ret < 0 then some { s with point := .loop }
          else if EventFlag.waitAnd s.ring.evf evfNonEmpty then some { s with point := .getFirst }
          else none
      | .waitNext =>
          if ret < 0 then some { s with point := .loop }
          else if EventFlag.waitAnd s.ring.evf evfNonEmpty then some { s with point := .getNext }
          else none
      | _ => none
  | .get =>
      match s.point with
      | .getFirst =>
          some { s.receive with point := if s.receive.buf.length = 0 then .loop else .connect }
      | .getNext =>
          some { s.receive with point := if 0 < s.receive.buf.length then .send else .loop }
      | _ => none
  | .connect netSock ret =>
      if s.point = .connect then
        some { s with point := if netSock < 0 ∨ ret ≠ 0 then .connect else .send }
      else none
  | .send ret =>
      if s.point = .send then
        if ret < 0 then some { s with point := .connect }
        else if 1 ≤ ret ∧ ret ≤ s.buf.length then
          some { s with point := .waitNext, accepted := s.accepted ++ s.buf.take ret.toNat }
        else none
      else none

def SendsAll (s : NetThread) : NetAction → Prop
  | .send ret => ¬ ret < 0 → ret = s.buf.length
  | _ => True

instance (s : NetThread) (action : NetAction) : Decidable (s.SendsAll action) :=
  match action with
  | .send ret => inferInstanceAs (Decidable (¬ ret < 0 → ret = s.buf.length))
  | .log _ _ | .finish | .loop | .wait _ | .get | .connect _ _ => inferInstanceAs (Decidable True)

def pending (s : NetThread) : List Byte :=
  match s.point with
  | .connect | .send => s.buf
  | _ => []

/-- Everything taken was accepted or is still to be sent. -/
def Delivers (s : NetThread) : Prop := s.accepted ++ s.pending = s.taken

theorem receive_delivers {s : NetThread} (delivers : s.Delivers) (quiet : s.pending = [])
    {point : NetPoint} (resumes : point = .connect ∨ point = .send ∨ s.receive.buf = []) :
    ({ s.receive with point := point } : NetThread).Delivers := by
  rw [Delivers, quiet, List.append_nil] at delivers
  have kept : ({ s.receive with point := point } : NetThread).pending = s.receive.buf := by
    rcases resumes with rfl | rfl | nothing
    · rfl
    · rfl
    · cases point <;> simp [pending, nothing]
  rw [Delivers, kept]
  exact congrArg (· ++ s.receive.buf) delivers

theorem Delivers.goto {s : NetThread} {point : NetPoint} (delivers : s.Delivers)
    (same : ({ s with point := point } : NetThread).pending = s.pending) :
    ({ s with point := point } : NetThread).Delivers := by
  rw [Delivers, same]
  exact delivers

theorem step_delivers {s t : NetThread} (action : NetAction) (delivers : s.Delivers)
    (sends : s.SendsAll action) (step : s.step action = some t) : t.Delivers := by
  cases action with
  | log c size =>
      cases step
      exact delivers
  | finish =>
      cases step
      exact delivers
  | loop =>
      simp only [NetThread.step] at step
      split at step
      next place =>
        cases step
        refine delivers.goto ?_
        cases running : s.netThreadRun <;> simp [pending, place]
      next => contradiction
  | wait ret =>
      simp only [NetThread.step] at step
      split at step
      next place =>
        split_ifs at step <;> cases step <;> exact delivers.goto (by simp [pending, place])
      next place =>
        split_ifs at step <;> cases step <;> exact delivers.goto (by simp [pending, place])
      next => contradiction
  | get =>
      simp only [NetThread.step] at step
      split at step
      next place =>
        cases step
        refine receive_delivers delivers (by simp [pending, place]) ?_
        split
        next nothing => exact .inr (.inr (List.length_eq_zero_iff.mp nothing))
        next => exact .inl rfl
      next place =>
        cases step
        refine receive_delivers delivers (by simp [pending, place]) ?_
        split
        next => exact .inr (.inl rfl)
        next nothing =>
          exact .inr (.inr (List.length_eq_zero_iff.mp (Nat.eq_zero_of_not_pos nothing)))
      next => contradiction
  | connect netSock ret =>
      simp only [NetThread.step] at step
      split at step
      next place =>
        cases step
        refine delivers.goto ?_
        by_cases failed : netSock < 0 ∨ ret ≠ 0 <;> simp [pending, place, failed]
      next => contradiction
  | send ret =>
      simp only [NetThread.step] at step
      split at step
      next place =>
        split at step
        next failed =>
          cases step
          exact delivers.goto (by simp [pending, place])
        next took =>
          split at step
          next =>
            cases step
            have all : ret.toNat = s.buf.length := by
              rw [sends took]
              rfl
            simp only [Delivers, pending, place] at delivers
            simp only [Delivers, pending, all, List.take_length, List.append_nil]
            exact delivers
          next => contradiction
      next => contradiction

end NetThread

def netThread : Transitions NetThread NetAction := ⟨NetThread.step⟩

-- `NetLoggingMgrInit` has just started the thread.
def startedThread (ring : LogBuffer) : NetThread where
  netThreadRun := true
  ring := ring
  point := .loop
  buf := []
  taken := []
  accepted := []

/-- In every run whose sends accept all they are given or fail, the sockets accept, in
order, a prefix of what the thread took from the ring buffer. -/
theorem netThread_delivers {ring : LogBuffer} {s : NetThread}
    (reached : netThread.Reachable NetThread.SendsAll (startedThread ring) s) :
    s.accepted <+: s.taken := by
  have delivers : s.Delivers := by
    refine reached.invariant NetThread.Delivers rfl ?_
    intro s action t delivers sends step
    exact NetThread.step_delivers action delivers sends step
  exact ⟨s.pending, delivers⟩

def smallRing : LogBuffer := LogBuffer.ringbufInit ⟨0x2000, 0x10, by decide, by decide⟩ fun _ => 0

/-- A send takes the first of two bytes; the thread goes on with the next read. -/
theorem shortSend_skips :
    ∃ s, netThread.Reachable (fun _ _ => True) (startedThread smallRing) s ∧
      ¬ s.accepted <+: s.taken := by
  have run : ∃ s, netThread.follow (fun _ _ => True) (startedThread smallRing)
      [.log (fun i => BitVec.ofNat 8 (0x61 + i)) 2, .loop, .wait 0, .get, .connect 1 0, .send 1,
        .log (fun _ => 0x63) 1, .wait 0, .get, .send 1] = some s ∧
          s.accepted = [0x61, 0x63] ∧ s.taken = [0x61, 0x62, 0x63] := ⟨_, rfl, rfl, rfl⟩
  obtain ⟨s, followed, accepted, taken⟩ := run
  refine ⟨s, Transitions.reachable_of_follow .start _ followed, ?_⟩
  rw [accepted, taken]
  decide

theorem netThread_delivers_reconnected :
    ∃ s, netThread.Reachable NetThread.SendsAll (startedThread smallRing) s ∧
      s.accepted = [0x61, 0x62, 0x63] ∧ s.accepted <+: s.taken := by
  have run : ∃ s, netThread.follow NetThread.SendsAll (startedThread smallRing)
      [.log (fun i => BitVec.ofNat 8 (0x61 + i)) 2, .loop, .wait 0, .get, .connect 1 0, .send (-1),
        .log (fun _ => 0x63) 1, .connect (-1) 0, .connect 1 0, .send 2, .wait 0, .get,
        .send 1] = some s ∧ s.accepted = [0x61, 0x62, 0x63] := ⟨_, rfl, rfl⟩
  obtain ⟨s, followed, accepted⟩ := run
  have reached := Transitions.reachable_of_follow .start _ followed
  exact ⟨s, reached, accepted, netThread_delivers reached⟩

end VitaTools.PrincessLog
