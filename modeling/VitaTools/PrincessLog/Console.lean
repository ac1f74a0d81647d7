import Mathlib.Data.List.ModifyLast
import VitaTools.PrincessLog.NetThread
import VitaTools.RingBuf.Wakeup

set_option autoImplicit false

namespace VitaTools.PrincessLog

open VitaTools.Library VitaTools.RingBuf

def userDebugPrintfCallback (c : Byte) : NetAction := .log (fun _ => c) 1

-- `len` is what `vsnprintf(buf, 0x400, ...)` returned.
def kernelDebugPrintfCallback (len : Int) (buf : Nat → Byte) : NetAction :=
  let len := if len < 0 then 0 else len
  .log buf (if 0x400 ≤ len then 0x400 - 1 else len)

-- What the sockets took from `net_thread` and the PC did not receive yet. `held` until
-- `net_close`.
structure Connection where
  inFlight : List Byte
  held : Bool
deriving DecidableEq

inductive PcPoint
  | accept
  | recv
  | ended
deriving DecidableEq

/-- The connections lie in the order in which the PC accepts them: it serves the first, and
`net_sock` is the last. `logged` records what the callbacks were given. -/
structure Delivery where
  thread : NetThread
  logged : List Byte
  connections : List Connection
  point : PcPoint
  printed : List Byte

inductive DeliveryAction
  | thread (action : NetAction)
  | accept (newSockfd : Int)
  | recv (received : Int)

def NetAction.logs : NetAction → List Byte
  | .log c size => LogBuffer.source c size
  | _ => []

namespace Delivery

-- `net_close(net_sock)`.
def netClose (s : Delivery) : List Connection :=
  s.connections.modifyLast fun c => { c with held := false }

def network (s : Delivery) : NetAction → List Connection
  | .connect netSock ret =>
      if netSock < 0 ∨ ret ≠ 0 then s.connections else s.connections ++ [⟨[], true⟩]
  | .send ret =>
      if ret < 0 then s.netClose
      else s.connections.modifyLast fun c =>
        { c with inFlight := c.inFlight ++ s.thread.buf.take ret.toNat }
  | .wait ret => if s.thread.point = .waitNext ∧ ret < 0 then s.netClose else s.connections
  | .get =>
      if s.thread.point = .getNext ∧ s.thread.receive.buf = [] then s.netClose else s.connections
  | .log _ _ | .finish | .loop => s.connections

-- What `printf("%s", buf)` shows of the zeroed buffer after `received` bytes were stored.
def shown (received : List Byte) : List Byte :=
  (received ++ List.replicate (0x400 - received.length) 0).takeWhile (· != 0)

def step (s : Delivery) : DeliveryAction → Option Delivery
  | .thread action =>
      (s.thread.step action).map fun thread =>
        { s with
          thread := thread
          logged := s.logged ++ action.logs
          connections := s.network action }
  | .accept newSockfd =>
      if s.point = .accept then
        if newSockfd < 0 then some { s with point := .ended }
        else if s.connections = [] then none
        else some { s with point := .recv }
      else none
  | .recv received =>
      match s.point, s.connections with
      | .recv, head :: waiting =>
          if received ≤ 0 then
            -- The end of the stream, or an error.
            if received < 0 ∨ head = ⟨[], false⟩ then
              some { s with connections := waiting, point := .accept }
            else none
          else if received ≤ 0x3FF ∧ received ≤ head.inFlight.length then
            some { s with
              connections := { head with inFlight := head.inFlight.drop received.toNat } :: waiting
              printed := s.printed ++ shown (head.inFlight.take received.toNat) }
          else none
      | _, _ => none

def inFlight (s : Delivery) : List Byte := s.connections.flatMap Connection.inFlight

end Delivery

def delivery : Transitions Delivery DeliveryAction := ⟨Delivery.step⟩

def startedDelivery (ring : LogBuffer) : Delivery where
  thread := startedThread ring
  logged := []
  connections := []
  point := .accept
  printed := []

namespace NetThread

/-- What each enabled action does, one case for each way through `net_thread`. -/
inductive Move (s : NetThread) : NetAction → NetThread → Prop
  | log (c : Nat → Byte) (size : Int) :
      Move s (.log c size) { s with ring := (s.ring.ringbufPutClobber c size).1 }
  | finish : Move s .finish { s with netThreadRun := false }
  | resume (place : s.point = .loop) (running : s.netThreadRun = true) :
      Move s .loop { s with point := .waitFirst }
  | leave (place : s.point = .loop) (stopped : ¬ s.netThreadRun = true) :
      Move s .loop { s with point := .returned }
  | timeout (ret : Int) (place : s.point = .waitFirst ∨ s.point = .waitNext) (failed : ret < 0) :
      Move s (.wait ret) { s with point := .loop }
  | wake (ret : Int) (point : NetPoint) (waited : ¬ ret < 0)
      (place : s.point = .waitFirst ∧ point = .getFirst ∨ s.point = .waitNext ∧ point = .getNext) :
      Move s (.wait ret) { s with point := point }
  | nothing (place : s.point = .getFirst ∨ s.point = .getNext) (empty : s.receive.buf = []) :
      Move s .get { s.receive with point := .loop }
  | read (point : NetPoint) (some : s.receive.buf ≠ [])
      (place : s.point = .getFirst ∧ point = .connect ∨ s.point = .getNext ∧ point = .send) :
      Move s .get { s.receive with point := point }
  | refused (netSock ret : Int) (place : s.point = .connect) (failed : netSock < 0 ∨ ret ≠ 0) :
      Move s (.connect netSock ret) { s with point := .connect }
  | connected (netSock ret : Int) (place : s.point = .connect) (done : ¬ (netSock < 0 ∨ ret ≠ 0)) :
      Move s (.connect netSock ret) { s with point := .send }
  | failed (ret : Int) (place : s.point = .send) (failed : ret < 0) :
      Move s (.send ret) { s with point := .connect }
  | took (ret : Int) (place : s.point = .send) (some : 1 ≤ ret) (given : ret ≤ s.buf.length) :
      Move s (.send ret)
        { s with point := .waitNext, accepted := s.accepted ++ s.buf.take ret.toNat }

variable {s t : NetThread} {action : NetAction}

theorem step_move (step : s.step action = some t) : s.Move action t := by
  cases action with
  | log c size =>
      cases step
      exact .log c size
  | finish =>
      cases step
      exact .finish
  | loop =>
      simp only [NetThread.step] at step
      split at step
      next place =>
        cases step
        by_cases running : s.netThreadRun = true
        next =>
          rw [if_pos running]
          exact .resume place running
        next =>
          rw [if_neg running]
          exact .leave place running
      next => contradiction
  | wait ret =>
      simp only [NetThread.step] at step
      split at step
      next place =>
        split at step
        next failed =>
          cases step
          exact .timeout ret (.inl place) failed
        next waited =>
          split at step <;> cases step
          exact .wake ret _ waited (.inl ⟨place, rfl⟩)
      next place =>
        split at step
        next failed =>
          cases step
          exact .timeout ret (.inr place) failed
        next waited =>
          split at step <;> cases step
          exact .wake ret _ waited (.inr ⟨place, rfl⟩)
      next => contradiction
  | get =>
      simp only [NetThread.step] at step
      split at step
      next place =>
        cases step
        by_cases empty : s.receive.buf = []
        next =>
          rw [if_pos (List.length_eq_zero_iff.mpr empty)]
          exact .nothing (.inl place) empty
        next =>
          rw [if_neg (mt List.length_eq_zero_iff.mp empty)]
          exact .read _ empty (.inl ⟨place, rfl⟩)
      next place =>
        cases step
        by_cases empty : s.receive.buf = []
        next =>
          rw [if_neg (by simp [empty])]
          exact .nothing (.inr place) empty
        next =>
          rw [if_pos (List.length_pos_iff.mpr empty)]
          exact .read _ empty (.inr ⟨place, rfl⟩)
      next => contradiction
  | connect netSock ret =>
      simp only [NetThread.step] at step
      split at step
      next place =>
        cases step
        by_cases failed : netSock < 0 ∨ ret ≠ 0
        next =>
          rw [if_pos failed]
          exact .refused netSock ret place failed
        next =>
          rw [if_neg failed]
          exact .connected netSock ret place failed
      next => contradiction
  | send ret =>
      simp only [NetThread.step] at step
      split at step
      next place =>
        split at step
        next failed =>
          cases step
          exact .failed ret place failed
        next =>
          split at step
          next took =>
            cases step
            exact .took ret place took.1 took.2
          next => contradiction
      next => contradiction

def sent (s : NetThread) : NetAction → List Byte
  | .send ret => if ret < 0 then [] else s.buf.take ret.toNat
  | _ => []

def skipped (s : NetThread) : NetAction → List Byte
  | .send ret => if ret < 0 then [] else s.buf.drop ret.toNat
  | _ => []

theorem skipped_nil (sends : s.SendsAll action) : s.skipped action = [] := by
  cases action with
  | send ret =>
      simp only [skipped]
      split
      next => rfl
      next took => simp [sends took]
  | log | finish | loop | wait | get | connect => rfl

theorem Move.sends (move : s.Move action t) :
    t.accepted = s.accepted ++ s.sent action ∧ ∃ fresh, t.taken = s.taken ++ fresh ∧
      s.sent action ++ s.skipped action ++ t.pending = s.pending ++ fresh := by
  cases move with
  | log | finish => exact ⟨by simp [sent], [], by simp, by simp [sent, skipped, pending]⟩
  | resume place | leave place | refused _ _ place | connected _ _ place =>
      exact ⟨by simp [sent], [], by simp, by simp [sent, skipped, pending, place]⟩
  | timeout ret place =>
      refine ⟨by simp [sent], [], by simp, ?_⟩
      rcases place with place | place <;> simp [sent, skipped, pending, place]
  | wake ret point _ place =>
      refine ⟨by simp [sent], [], by simp, ?_⟩
      rcases place with ⟨place, rfl⟩ | ⟨place, rfl⟩ <;> simp [sent, skipped, pending, place]
  | nothing place empty =>
      refine ⟨(List.append_nil _).symm, s.receive.buf, rfl, ?_⟩
      rcases place with place | place <;> simp [sent, skipped, pending, place, empty]
  | read point _ place =>
      refine ⟨(List.append_nil _).symm, s.receive.buf, rfl, ?_⟩
      rcases place with ⟨place, rfl⟩ | ⟨place, rfl⟩ <;> simp [sent, skipped, pending, place]
  | failed ret place failed =>
      exact ⟨by simp [sent, failed], [], by simp, by simp [sent, skipped, pending, place, failed]⟩
  | took ret place some _ =>
      have done : ¬ ret < 0 := by omega
      exact ⟨by simp [sent, done], [], by simp, by simp [sent, skipped, pending, place, done]⟩

section Ring

variable {block : Block} {queue : BoundedQueue Byte (block.len - 1)}

theorem Move.ring (move : s.Move action t) (two : 2 ≤ block.len) (aligned : block.len ∣ block.base)
    (represents : Represents block s.ring queue) :
    ∃ after : BoundedQueue Byte (block.len - 1), Represents block t.ring after ∧
      t.taken ++ after.items = s.taken ++ (queue.items ++ action.logs).drop
        ((queue.items ++ action.logs).length - (block.len - 1)) := by
  have simulates := ringbuf_simulates block two aligned
  have bounded := queue.bounded
  have same : s.taken ++ queue.items = s.taken ++ (queue.items ++ []).drop
      ((queue.items ++ []).length - (block.len - 1)) := by
    rw [List.append_nil, Nat.sub_eq_zero_of_le bounded, List.drop_zero]
  have received : ∃ after : BoundedQueue Byte (block.len - 1),
      Represents block s.receive.ring after ∧
        s.receive.taken ++ after.items = s.taken ++ queue.items := by
    obtain ⟨reply, after⟩ := simulates s.ring queue (.getWait 0 0x400) represents
    refine ⟨_, after, ?_⟩
    have bytes := congrArg LogBuffer.Reply.bytes reply
    have read : (s.ring.ringbufGetWait 0 0x400).2.bytes = queue.items.take 0x400 := bytes
    simp only [receive, read, List.append_assoc]
    exact congrArg _ (List.take_append_drop 0x400 queue.items)
  cases move with
  | log c size =>
      obtain ⟨_, after⟩ := simulates s.ring queue (.putClobber c size) represents
      exact ⟨_, after, rfl⟩
  | nothing | read =>
      obtain ⟨after, holds, kept⟩ := received
      exact ⟨after, holds, kept.trans same⟩
  | finish | resume | leave | timeout | wake | refused | connected | failed | took =>
      exact ⟨queue, represents, same⟩

end Ring

end NetThread

namespace Delivery

theorem shown_eq (received : List Byte) : shown received = received.takeWhile (· != 0) := by
  have zeros (n : Nat) : (List.replicate n (0 : Byte)).takeWhile (· != 0) = [] := by
    cases n <;> simp [List.replicate]
  rw [shown, List.takeWhile_append, zeros, List.append_nil]
  split
  next whole => exact ((List.takeWhile_prefix _).eq_of_length whole).symm
  next => rfl

inductive Move (s : Delivery) : DeliveryAction → Delivery → Prop
  | thread {action : NetAction} {thread : NetThread} (move : s.thread.Move action thread) :
      Move s (.thread action)
        { s with
          thread := thread
          logged := s.logged ++ action.logs
          connections := s.network action }
  | ended (newSockfd : Int) (failed : newSockfd < 0) :
      Move s (.accept newSockfd) { s with point := .ended }
  | accepted (newSockfd : Int) (some : s.connections ≠ []) :
      Move s (.accept newSockfd) { s with point := .recv }
  | closed (received : Int) (head : Connection) (waiting : List Connection)
      (shape : s.connections = head :: waiting) (last : received < 0 ∨ head = ⟨[], false⟩) :
      Move s (.recv received) { s with connections := waiting, point := .accept }
  | received (received : Int) (head : Connection) (waiting : List Connection)
      (shape : s.connections = head :: waiting) (some : ¬ received ≤ 0) :
      Move s (.recv received)
        { s with
          connections := { head with inFlight := head.inFlight.drop received.toNat } :: waiting
          printed := s.printed ++ shown (head.inFlight.take received.toNat) }

variable {s t : Delivery} {action : DeliveryAction}

theorem step_move (step : s.step action = some t) : s.Move action t := by
  cases action with
  | thread action =>
      obtain ⟨thread, moved, rfl⟩ := Option.map_eq_some_iff.mp step
      exact .thread (NetThread.step_move moved)
  | accept newSockfd =>
      simp only [Delivery.step] at step
      split at step
      next =>
        split at step
        next failed =>
          cases step
          exact .ended newSockfd failed
        next =>
          split at step
          next => contradiction
          next some =>
            cases step
            exact .accepted newSockfd some
      next => contradiction
  | recv received =>
      simp only [Delivery.step] at step
      split at step
      next head waiting _ shape =>
        split at step
        next =>
          split at step
          next last =>
            cases step
            exact .closed received head waiting shape last
          next => contradiction
        next some =>
          split at step
          next =>
            cases step
            exact .received received head waiting shape some
          next => contradiction
      next => contradiction

theorem netClose_inFlight (s : Delivery) :
    s.netClose.flatMap Connection.inFlight = s.inFlight := by
  rcases List.eq_nil_or_concat s.connections with none | ⟨front, last, shape⟩
  · simp [netClose, inFlight, none, List.modifyLast, List.modifyLast.go]
  · simp [netClose, inFlight, shape, List.modifyLast_concat]

theorem network_inFlight (s : Delivery) (action : NetAction) :
    (s.network action).flatMap Connection.inFlight =
      s.inFlight ++ if s.connections = [] then [] else s.thread.sent action := by
  have quiet : s.inFlight = s.inFlight ++ if s.connections = [] then [] else [] := by simp
  cases action with
  | log | finish | loop => exact quiet
  | wait | get =>
      simp only [network]
      split
      · exact s.netClose_inFlight.trans quiet
      · exact quiet
  | connect netSock ret =>
      simp only [network]
      split
      · exact quiet
      · simp [inFlight, NetThread.sent]
  | send ret =>
      simp only [network, NetThread.sent]
      split
      next => exact s.netClose_inFlight.trans quiet
      next =>
        rcases List.eq_nil_or_concat s.connections with none | ⟨front, last, shape⟩
        · simp [inFlight, none, List.modifyLast, List.modifyLast.go]
        · simp [inFlight, shape, List.modifyLast_concat]

/-- Each stage of the way holds what the stage before let through, in order. -/
structure Ordered (block : Block) (s : Delivery) : Prop where
  ring : ∃ queue : BoundedQueue Byte (block.len - 1), Represents block s.thread.ring queue ∧
    (s.thread.taken ++ queue.items).Sublist s.logged
  thread : (s.thread.accepted ++ s.thread.pending).Sublist s.thread.taken
  pc : (s.printed ++ s.inFlight).Sublist s.thread.accepted

variable {block : Block}

theorem Ordered.step (ordered : s.Ordered block) (two : 2 ≤ block.len)
    (aligned : block.len ∣ block.base) (move : s.Move action t) : t.Ordered block := by
  obtain ⟨queue, represents, queued⟩ := ordered.ring
  have pc := ordered.pc
  cases move with
  | @thread action thread move =>
      obtain ⟨accepted, fresh, taken, kept⟩ := move.sends
      refine ⟨?_, ?_, ?_⟩
      · obtain ⟨after, holds, same⟩ := move.ring two aligned represents
        refine ⟨after, holds, ?_⟩
        have dropped := List.drop_sublist ((queue.items ++ action.logs).length - (block.len - 1))
          (queue.items ++ action.logs)
        have whole := (List.Sublist.refl s.thread.taken).append dropped
        rw [← List.append_assoc] at whole
        rw [same]
        exact whole.trans (queued.append (List.Sublist.refl _))
      · have left := List.sublist_append_left (s.thread.sent action) (s.thread.skipped action)
        have some := (List.Sublist.refl s.thread.accepted).append
          (left.append (List.Sublist.refl thread.pending))
        rw [kept, ← List.append_assoc, ← List.append_assoc] at some
        simp only [accepted, taken]
        exact some.trans (ordered.thread.append (List.Sublist.refl fresh))
      · have arrived : ((if s.connections = [] then [] else s.thread.sent action) :
            List Byte).Sublist (s.thread.sent action) := by
          split
          · exact List.nil_sublist _
          · exact List.Sublist.refl _
        have flight := s.network_inFlight action
        simp only [accepted]
        rw [inFlight, flight, ← List.append_assoc]
        exact pc.append arrived
  | ended | accepted => exact ⟨⟨queue, represents, queued⟩, ordered.thread, pc⟩
  | closed _ head waiting shape _ =>
      refine ⟨⟨queue, represents, queued⟩, ordered.thread, ?_⟩
      have rest := List.sublist_append_right head.inFlight (waiting.flatMap Connection.inFlight)
      rw [inFlight, shape, List.flatMap_cons] at pc
      exact ((List.Sublist.refl s.printed).append rest).trans pc
  | received received head waiting shape _ =>
      refine ⟨⟨queue, represents, queued⟩, ordered.thread, ?_⟩
      rw [inFlight, shape, List.flatMap_cons] at pc
      have chunk : (shown (head.inFlight.take received.toNat)).Sublist
          (head.inFlight.take received.toNat) := by
        rw [shown_eq]
        exact List.takeWhile_sublist _
      have whole := chunk.append (List.Sublist.refl (head.inFlight.drop received.toNat))
      rw [List.take_append_drop] at whole
      have later := (List.Sublist.refl s.printed).append
        (whole.append (List.Sublist.refl (waiting.flatMap Connection.inFlight)))
      simp only [inFlight, List.flatMap_cons, List.append_assoc] at later ⊢
      exact later.trans pc

theorem started_ordered (mem : Memory) (two : 2 ≤ block.len) :
    (startedDelivery (LogBuffer.ringbufInit block mem)).Ordered block where
  ring := ⟨_, ringbufInit_represents block mem two, List.Sublist.refl _⟩
  thread := List.Sublist.refl _
  pc := List.Sublist.refl _

end Delivery

/-- Whatever is overrun, resent or reset on the way, the PC prints no byte twice, none that was
not logged, and none before one that was logged earlier. -/
theorem printed_sublist {block : Block} (mem : Memory) (two : 2 ≤ block.len)
    (aligned : block.len ∣ block.base) {s : Delivery}
    (reached : delivery.Reachable (fun _ _ => True)
      (startedDelivery (LogBuffer.ringbufInit block mem)) s) :
    s.printed.Sublist s.logged := by
  have ordered : s.Ordered block := by
    refine reached.invariant (Delivery.Ordered block) (Delivery.started_ordered mem two) ?_
    intro s action t ordered _ step
    exact ordered.step two aligned (Delivery.step_move step)
  obtain ⟨queue, _, queued⟩ := ordered.ring
  have accepted := (List.sublist_append_left s.printed s.inFlight).trans ordered.pc
  have taken := ((List.sublist_append_left _ s.thread.pending).trans ordered.thread)
  exact (accepted.trans taken).trans ((List.sublist_append_left _ queue.items).trans queued)

-- The first send takes two of three bytes, and the PC resets the connection under the second.
def lossyRun : List DeliveryAction :=
  [.thread (userDebugPrintfCallback 0x61),
    .thread (kernelDebugPrintfCallback 2 fun i => BitVec.ofNat 8 (0x62 + i)), .thread .loop,
    .thread (.wait 0), .thread .get, .thread (.connect 1 0), .accept 1, .thread (.send 2), .recv 2,
    .thread (userDebugPrintfCallback 0x64), .thread (.wait 0), .thread .get, .recv (-1),
    .thread (.send 1)]

theorem printed_sublist_lossy :
    ∃ s, delivery.Reachable (fun _ _ => True) (startedDelivery smallRing) s ∧
      s.printed = [0x61, 0x62] ∧ s.logged = [0x61, 0x62, 0x63, 0x64] ∧
        s.printed.Sublist s.logged := by
  have run : ∃ s, delivery.follow (fun _ _ => True) (startedDelivery smallRing) lossyRun =
      some s ∧ s.printed = [0x61, 0x62] ∧ s.logged = [0x61, 0x62, 0x63, 0x64] := ⟨_, rfl, rfl, rfl⟩
  obtain ⟨s, followed, printed, logged⟩ := run
  have reached := Transitions.reachable_of_follow .start _ followed
  exact ⟨s, reached, printed, logged, printed_sublist _ (by decide) (by decide) reached⟩

end VitaTools.PrincessLog
