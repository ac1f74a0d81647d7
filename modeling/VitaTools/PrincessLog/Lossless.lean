import Mathlib.Data.List.TakeWhile
import VitaTools.PrincessLog.Console

set_option autoImplicit false

namespace VitaTools.PrincessLog

open VitaTools.Library VitaTools.RingBuf

-- Between `net_connect` and `net_close`.
def NetPoint.attached : NetPoint → Bool
  | .send | .waitNext | .getNext => true
  | _ => false

def DeliveryAction.logs : DeliveryAction → List Byte
  | .thread action => action.logs
  | _ => []

namespace NetThread

variable {s t : NetThread} {action : NetAction} {block : Block}
  {queue : BoundedQueue Byte (block.len - 1)}

theorem receive_buf (two : 2 ≤ block.len) (aligned : block.len ∣ block.base)
    (represents : Represents block s.ring queue) : s.receive.buf = queue.items.take 0x400 := by
  have simulates := ringbuf_simulates block two aligned
  exact congrArg LogBuffer.Reply.bytes (simulates s.ring queue (.getWait 0 0x400) represents).1

theorem Move.flagged (move : s.Move action t) (two : 2 ≤ block.len)
    (aligned : block.len ∣ block.base) (represents : Represents block s.ring queue)
    (flagged : s.ring.Flagged) : t.ring.Flagged := by
  have called (call : Call) (waited : ∀ ret size, call = .getWait ret size → ¬ ret < 0) :
      (s.ring.call call).1.Flagged := by
    rw [LogBuffer.call_eq s.ring call waited]
    exact loop_signal_flagged represents aligned two flagged call waited
  have received : s.receive.ring.Flagged := by
    refine called (.getWait 0 0x400) fun ret size same => ?_
    cases same
    decide
  cases move with
  | log c size => exact called (.putClobber c size) fun _ _ same => Call.noConfusion same
  | nothing | read => exact received
  | finish | resume | leave | timeout | wake | refused | connected | failed | took =>
      exact flagged

theorem Move.loaded (move : s.Move action t)
    (loaded : s.point = .connect ∨ s.point = .send → s.buf ≠ [])
    (waits : t.point = .connect ∨ t.point = .send) : t.buf ≠ [] := by
  cases move with
  | log | finish => exact loaded waits
  | resume | leave | timeout | nothing | took => simp at waits
  | wake _ _ _ place => rcases place with ⟨_, rfl⟩ | ⟨_, rfl⟩ <;> simp at waits
  | read _ some _ => exact some
  | refused _ _ place | connected _ _ place => exact loaded (.inl place)
  | failed _ place => exact loaded (.inr place)

theorem Move.stopped (move : s.Move action t)
    (stopped : s.point = .returned → ¬ s.netThreadRun = true) (returned : t.point = .returned) :
    ¬ t.netThreadRun = true := by
  cases move with
  | log => exact stopped returned
  | finish => exact Bool.false_ne_true
  | leave _ stopped => exact stopped
  | resume | timeout | nothing | refused | connected | failed | took => simp at returned
  | wake _ _ _ place => rcases place with ⟨_, rfl⟩ | ⟨_, rfl⟩ <;> simp at returned
  | read _ _ place => rcases place with ⟨_, rfl⟩ | ⟨_, rfl⟩ <;> simp at returned

end NetThread

namespace Delivery

/-- What loses nothing: a text without NUL that fits into the ring buffer, a send that takes
all or fails, an error of `recv` behind the end of the connection. -/
def Lossless (capacity : Nat) (s : Delivery) : DeliveryAction → Prop
  | .thread (.log c size) =>
      0 ∉ LogBuffer.source c size ∧
        s.logged.length + (LogBuffer.source c size).length ≤ s.thread.taken.length + capacity
  | .thread action => s.thread.SendsAll action
  | .accept _ => True
  | .recv received => received < 0 → s.connections.head? = some ⟨[], false⟩

instance losslessDecidable (capacity : Nat) (s : Delivery) (action : DeliveryAction) :
    Decidable (s.Lossless capacity action) :=
  match action with
  | .thread (.log c size) => inferInstanceAs (Decidable (0 ∉ LogBuffer.source c size ∧
      s.logged.length + (LogBuffer.source c size).length ≤ s.thread.taken.length + capacity))
  | .thread (.send ret) => inferInstanceAs (Decidable (s.thread.SendsAll (.send ret)))
  | .thread .finish | .thread .loop | .thread (.wait _) | .thread .get | .thread (.connect _ _)
  | .accept _ => inferInstanceAs (Decidable True)
  | .recv received =>
      inferInstanceAs (Decidable (received < 0 → s.connections.head? = some ⟨[], false⟩))

-- `net_thread` has closed all connections but the last, and that one too unless it is attached.
def Attached (s : Delivery) : Prop :=
  ∃ closed : List Connection, (∀ c ∈ closed, c.held = false) ∧
    if s.thread.point.attached then ∃ inFlight, s.connections = closed ++ [⟨inFlight, true⟩]
    else s.connections = closed

structure Complete (block : Block) (s : Delivery) : Prop where
  ring : ∃ queue : BoundedQueue Byte (block.len - 1), Represents block s.thread.ring queue ∧
    s.thread.taken ++ queue.items = s.logged
  flagged : s.thread.ring.Flagged
  loaded : s.thread.point = .connect ∨ s.thread.point = .send → s.thread.buf ≠ []
  stopped : s.thread.point = .returned → ¬ s.thread.netThreadRun = true
  thread : s.thread.accepted ++ s.thread.pending = s.thread.taken
  pc : s.printed ++ s.inFlight = s.thread.accepted
  clean : 0 ∉ s.logged
  attached : s.Attached
  serving : s.point = .recv → s.connections ≠ []

variable {s t : Delivery} {action : DeliveryAction} {block : Block}

theorem network_ne_nil (action : NetAction) (some : s.connections ≠ []) :
    s.network action ≠ [] := by
  obtain ⟨front, last, shape⟩ := (List.eq_nil_or_concat s.connections).resolve_left some
  cases action with
  | log | finish | loop => exact some
  | wait | get =>
      simp only [network]
      split
      · simp [netClose, shape, List.modifyLast_concat]
      · exact some
  | connect =>
      simp only [network]
      split
      · exact some
      · simp
  | send =>
      simp only [network]
      split <;> simp [netClose, shape, List.modifyLast_concat]

theorem netClose_attached {closed : List Connection} {inFlight : List Byte}
    (shape : s.connections = closed ++ [⟨inFlight, true⟩])
    (released : ∀ c ∈ closed, c.held = false) : ∀ c ∈ s.netClose, c.held = false := by
  intro c member
  rw [netClose, shape, List.modifyLast_concat, List.mem_append, List.mem_singleton] at member
  rcases member with old | rfl
  · exact released c old
  · rfl

theorem Attached.thread {action : NetAction} {thread : NetThread} (attached : s.Attached)
    (move : s.thread.Move action thread) {logged : List Byte} :
    ({ s with thread := thread, logged := logged, connections := s.network action } :
      Delivery).Attached := by
  obtain ⟨closed, released, shape⟩ := attached
  cases move with
  | log | finish => exact ⟨closed, released, shape⟩
  | resume place | leave place =>
      rw [place] at shape
      exact ⟨closed, released, shape⟩
  | timeout ret place failed =>
      rcases place with place | place
      · simp only [place, NetPoint.attached] at shape
        exact ⟨closed, released, by simpa [network, place, NetPoint.attached] using shape⟩
      · simp only [place, NetPoint.attached, if_true] at shape
        obtain ⟨inFlight, shape⟩ := shape
        have same : s.network (.wait ret) = s.netClose := if_pos ⟨place, failed⟩
        exact ⟨s.netClose, netClose_attached shape released, same⟩
  | wake ret point waited place =>
      have same : s.network (.wait ret) = s.connections := if_neg fun both => waited both.2
      refine ⟨closed, released, ?_⟩
      simp only [same]
      rcases place with ⟨place, rfl⟩ | ⟨place, rfl⟩ <;> rw [place] at shape <;> exact shape
  | nothing place empty =>
      rcases place with place | place
      · simp only [place, NetPoint.attached] at shape
        exact ⟨closed, released, by simpa [network, place, NetPoint.attached] using shape⟩
      · simp only [place, NetPoint.attached, if_true] at shape
        obtain ⟨inFlight, shape⟩ := shape
        have same : s.network .get = s.netClose := if_pos ⟨place, empty⟩
        exact ⟨s.netClose, netClose_attached shape released, same⟩
  | read point some place =>
      have same : s.network .get = s.connections := if_neg fun both => some both.2
      refine ⟨closed, released, ?_⟩
      simp only [same]
      rcases place with ⟨place, rfl⟩ | ⟨place, rfl⟩ <;> rw [place] at shape <;> exact shape
  | refused netSock ret place failed =>
      have same : s.network (.connect netSock ret) = s.connections := if_pos failed
      rw [place] at shape
      refine ⟨closed, released, ?_⟩
      rw [same]
      exact shape
  | connected netSock ret place done =>
      have same : s.network (.connect netSock ret) = s.connections ++ [⟨[], true⟩] := if_neg done
      rw [place] at shape
      have kept : s.connections = closed := shape
      refine ⟨closed, released, [], ?_⟩
      rw [same, kept]
  | failed ret place failed =>
      simp only [place, NetPoint.attached, if_true] at shape
      obtain ⟨inFlight, shape⟩ := shape
      have same : s.network (.send ret) = s.netClose := if_pos failed
      exact ⟨s.netClose, netClose_attached shape released, same⟩
  | took ret place least _ =>
      simp only [place, NetPoint.attached, if_true] at shape
      obtain ⟨inFlight, shape⟩ := shape
      have done : ¬ ret < 0 := by omega
      refine ⟨closed, released, inFlight ++ s.thread.buf.take ret.toNat, ?_⟩
      simp [network, done, shape, List.modifyLast_concat]

theorem Attached.closed (attached : s.Attached) {head : Connection} {waiting : List Connection}
    (shape : s.connections = head :: waiting) (released : head.held = false) (point : PcPoint) :
    ({ s with connections := waiting, point := point } : Delivery).Attached := by
  obtain ⟨closed, all, rest⟩ := attached
  cases closed with
  | nil =>
      split at rest
      next =>
        obtain ⟨inFlight, rest⟩ := rest
        rw [shape] at rest
        cases rest
        contradiction
      next =>
        rw [shape] at rest
        contradiction
  | cons first others =>
      refine ⟨others, fun c member => all c (List.mem_cons_of_mem _ member), ?_⟩
      rw [shape] at rest
      split at rest
      next place =>
        obtain ⟨inFlight, rest⟩ := rest
        rw [if_pos place]
        exact ⟨inFlight, (List.cons.inj rest).2⟩
      next place =>
        rw [if_neg place]
        exact (List.cons.inj rest).2

theorem Attached.alone (attached : s.Attached) {head : Connection} {waiting : List Connection}
    (shape : s.connections = head :: waiting) (held : head.held = true) : waiting = [] := by
  obtain ⟨closed, all, rest⟩ := attached
  rw [shape] at rest
  have first (others : List Connection) : closed ≠ head :: others := by
    rintro rfl
    have released := all head List.mem_cons_self
    rw [held] at released
    contradiction
  split at rest
  next =>
    obtain ⟨inFlight, rest⟩ := rest
    cases closed with
    | nil => exact (List.cons.inj rest).2
    | cons _ others =>
        rw [List.cons_append] at rest
        exact absurd (by rw [(List.cons.inj rest).1]) (first others)
  next => exact absurd rest.symm (first waiting)

theorem Attached.received (attached : s.Attached) {head : Connection} {waiting : List Connection}
    (shape : s.connections = head :: waiting) (left printed : List Byte) :
    ({ s with
      connections := { head with inFlight := left } :: waiting
      printed := printed } : Delivery).Attached := by
  obtain ⟨closed, all, rest⟩ := attached
  rw [shape] at rest
  cases closed with
  | nil =>
      split at rest
      next place =>
        obtain ⟨inFlight, rest⟩ := rest
        cases rest
        refine ⟨[], all, ?_⟩
        rw [if_pos place]
        exact ⟨left, rfl⟩
      next => contradiction
  | cons first others =>
      refine ⟨{ head with inFlight := left } :: others, ?_, ?_⟩
      · have same : head = first := by
          split at rest
          next =>
            obtain ⟨_, rest⟩ := rest
            exact (List.cons.inj rest).1
          next => exact (List.cons.inj rest).1
        intro c member
        rcases List.mem_cons.mp member with rfl | old
        · exact all head (by rw [same]; exact List.mem_cons_self)
        · exact all c (List.mem_cons_of_mem _ old)
      · split at rest
        next place =>
          obtain ⟨inFlight, rest⟩ := rest
          rw [if_pos place]
          exact ⟨inFlight, congrArg _ (List.cons.inj rest).2⟩
        next place =>
          rw [if_neg place]
          exact congrArg _ (List.cons.inj rest).2

theorem Complete.step (complete : s.Complete block) (two : 2 ≤ block.len)
    (aligned : block.len ∣ block.base) (lossless : s.Lossless (block.len - 1) action)
    (move : s.Move action t) : t.Complete block := by
  obtain ⟨queue, represents, queued⟩ := complete.ring
  have pc := complete.pc
  cases move with
  | @thread action thread move =>
      have sends : s.thread.SendsAll action := by
        cases action with
        | log => trivial
        | finish | loop | wait | get | connect | send => exact lossless
      have fits : (queue.items ++ action.logs).length - (block.len - 1) = 0 := by
        have bounded := queue.bounded
        have total := congrArg List.length queued
        rw [List.length_append] at total
        cases action with
        | log c size =>
            have room := lossless.2
            simp only [NetAction.logs, List.length_append]
            omega
        | finish | loop | wait | get | connect | send =>
            simp only [NetAction.logs, List.append_nil]
            omega
      obtain ⟨accepted, fresh, taken, kept⟩ := move.sends
      rw [NetThread.skipped_nil sends, List.append_nil] at kept
      refine ⟨?_, move.flagged two aligned represents complete.flagged,
        move.loaded complete.loaded, move.stopped complete.stopped, ?_, ?_, ?_,
        complete.attached.thread move, ?_⟩
      · obtain ⟨after, holds, same⟩ := move.ring two aligned represents
        refine ⟨after, holds, ?_⟩
        rw [same, fits, List.drop_zero, ← List.append_assoc, queued]
      · simp only [accepted, taken]
        rw [List.append_assoc, kept, ← List.append_assoc, complete.thread]
      · have arrived : (if s.connections = [] then [] else s.thread.sent action) =
            s.thread.sent action := by
          split
          next none =>
            -- Only `send` sends, and there `net_sock` is the last connection.
            cases move with
            | took _ place =>
                obtain ⟨closed, _, shape⟩ := complete.attached
                simp [place, NetPoint.attached, none] at shape
            | failed ret place failed => exact (if_pos failed).symm
            | _ => rfl
          next => rfl
        have flight := s.network_inFlight action
        simp only [accepted]
        rw [inFlight, flight, arrived, ← List.append_assoc, pc]
      · have clean := complete.clean
        cases action with
        | log c size => simpa [NetAction.logs] using And.intro clean lossless.1
        | finish | loop | wait | get | connect | send => simpa [NetAction.logs] using clean
      · intro serving
        exact network_ne_nil action (complete.serving serving)
  | ended => exact { complete with attached := complete.attached, serving := by simp }
  | accepted _ some =>
      exact { complete with attached := complete.attached, serving := fun _ => some }
  | closed received head waiting shape last =>
      have ended : head = ⟨[], false⟩ := by
        rcases last with failed | last
        · have first := lossless failed
          rw [shape] at first
          exact Option.some.inj first
        · exact last
      refine ⟨⟨queue, represents, queued⟩, complete.flagged, complete.loaded, complete.stopped,
        complete.thread, ?_, complete.clean, complete.attached.closed shape (by rw [ended]) _,
        fun serving => PcPoint.noConfusion serving⟩
      rw [inFlight, shape, ended] at pc
      exact pc
  | received received head waiting shape _ =>
      refine ⟨⟨queue, represents, queued⟩, complete.flagged, complete.loaded, complete.stopped,
        complete.thread, ?_, complete.clean, complete.attached.received shape _ _,
        fun _ => List.cons_ne_nil _ _⟩
      have logged : s.printed ++ s.inFlight ++ (s.thread.pending ++ queue.items) = s.logged := by
        rw [pc, ← List.append_assoc, complete.thread, queued]
      have clean := complete.clean
      rw [← logged] at clean
      rw [inFlight, shape, List.flatMap_cons] at pc clean
      have whole : shown (head.inFlight.take received.toNat) =
          head.inFlight.take received.toNat := by
        rw [shown_eq, List.takeWhile_eq_self_iff]
        intro byte member
        have inside := List.mem_of_mem_take member
        rw [bne_iff_ne]
        rintro rfl
        simp only [List.mem_append] at clean
        exact clean (.inl (.inr (.inl inside)))
      simp only [whole, inFlight, List.flatMap_cons, List.append_assoc]
      rw [← List.append_assoc (head.inFlight.take _), List.take_append_drop, ← pc]

theorem started_complete (mem : Memory) (two : 2 ≤ block.len) :
    (startedDelivery (LogBuffer.ringbufInit block mem)).Complete block where
  ring := ⟨_, ringbufInit_represents block mem two, rfl⟩
  flagged := by
    have quiet : ¬ EventFlag.waitAnd 0 evfNonEmpty = true := by decide
    exact iff_of_false quiet (not_not_intro rfl)
  loaded := by simp [startedDelivery, startedThread]
  stopped := by simp [startedDelivery, startedThread]
  thread := rfl
  pc := rfl
  clean := by simp [startedDelivery]
  attached := ⟨[], by simp, rfl⟩
  serving := by simp [startedDelivery]

section Progress

-- A step that logs nothing.
def Drains (capacity : Nat) (s : Delivery) (action : DeliveryAction) : Prop :=
  s.Lossless capacity action ∧ action.logs = []

-- The way round the loop of `net_thread` that is left until something is taken or sent.
def rank : NetPoint → Nat
  | .connect => 7
  | .send => 6
  | .loop | .waitNext => 5
  | .waitFirst | .getNext => 4
  | .getFirst => 3
  | .returned => 0

def threadWork (s : Delivery) : Nat :=
  8 * (s.logged.length - s.thread.taken.length) + rank s.thread.point

theorem thread_step {action : NetAction} {thread : NetThread}
    (step : s.thread.step action = some thread) (quiet : action.logs = []) :
    s.step (.thread action) =
      some { s with thread := thread, connections := s.network action } := by
  simp [Delivery.step, step, quiet]

-- What does not change while `net_thread` works on what is logged already.
structure Ahead (s t : Delivery) : Prop where
  logged : t.logged = s.logged
  running : t.thread.netThreadRun = s.thread.netThreadRun
  point : t.point = s.point
  work : t.threadWork < s.threadWork

theorem Complete.thread_ahead (complete : s.Complete block) (two : 2 ≤ block.len)
    (aligned : block.len ∣ block.base) (running : s.thread.netThreadRun = true)
    (behind : s.thread.accepted ≠ s.logged) :
    ∃ action t, s.Drains (block.len - 1) (.thread action) ∧ s.step (.thread action) = some t ∧
      s.Ahead t := by
  obtain ⟨queue, represents, queued⟩ := complete.ring
  have total := congrArg List.length queued
  rw [List.length_append] at total
  have left (quiet : s.thread.pending = []) : queue.items ≠ [] := by
    intro none
    have taken := complete.thread
    rw [quiet, List.append_nil] at taken
    rw [none, List.append_nil] at queued
    exact behind (taken.trans queued)
  have signalled (held : queue.items ≠ []) :
      EventFlag.waitAnd s.thread.ring.evf evfNonEmpty = true :=
    (represents.flagged_iff.mp complete.flagged).mpr held
  have read := NetThread.receive_buf two aligned represents
  have fewer (held : queue.items ≠ []) : s.thread.receive.buf ≠ [] ∧
      s.logged.length - s.thread.receive.taken.length + 1 ≤
        s.logged.length - s.thread.taken.length := by
    have most := List.length_pos_iff.mpr held
    have taken : s.thread.receive.taken = s.thread.taken ++ s.thread.receive.buf := rfl
    have size : s.thread.receive.buf.length = min 0x400 queue.items.length := by
      rw [read, List.length_take]
    rw [← List.length_pos_iff, taken, List.length_append, size]
    omega
  cases place : s.thread.point with
  | loop =>
      have step : s.thread.step .loop = some { s.thread with point := .waitFirst } := by
        simp [NetThread.step, place, running]
      refine ⟨.loop, _, ⟨trivial, rfl⟩, thread_step step rfl, rfl, rfl, rfl, ?_⟩
      simp [threadWork, rank, place]
  | waitFirst =>
      have step : s.thread.step (.wait 0) = some { s.thread with point := .getFirst } := by
        simp [NetThread.step, place, signalled (left (by simp [NetThread.pending, place]))]
      refine ⟨.wait 0, _, ⟨trivial, rfl⟩, thread_step step rfl, rfl, rfl, rfl, ?_⟩
      simp [threadWork, rank, place]
  | getFirst =>
      obtain ⟨filled, less⟩ := fewer (left (by simp [NetThread.pending, place]))
      have step : s.thread.step .get = some { s.thread.receive with point := .connect } := by
        simp [NetThread.step, place, filled]
      refine ⟨.get, _, ⟨trivial, rfl⟩, thread_step step rfl, rfl, rfl, rfl, ?_⟩
      simp only [threadWork, rank, place]
      omega
  | connect =>
      have step : s.thread.step (.connect 1 0) = some { s.thread with point := .send } := by
        simp [NetThread.step, place]
      refine ⟨.connect 1 0, _, ⟨trivial, rfl⟩, thread_step step rfl, rfl, rfl, rfl, ?_⟩
      simp [threadWork, rank, place]
  | send =>
      have filled := List.length_pos_iff.mpr (complete.loaded (.inr place))
      have took : ¬ (s.thread.buf.length : Int) < 0 := by omega
      have step : s.thread.step (.send s.thread.buf.length) =
          some { s.thread with
            point := .waitNext
            accepted := s.thread.accepted ++ s.thread.buf.take
              (s.thread.buf.length : Int).toNat } := by
        rw [NetThread.step, if_pos place, if_neg took, if_pos (by omega)]
      refine ⟨.send s.thread.buf.length, _, ⟨fun _ => rfl, rfl⟩, thread_step step rfl, rfl, rfl,
        rfl, ?_⟩
      simp [threadWork, rank, place]
  | waitNext =>
      have step : s.thread.step (.wait 0) = some { s.thread with point := .getNext } := by
        simp [NetThread.step, place, signalled (left (by simp [NetThread.pending, place]))]
      refine ⟨.wait 0, _, ⟨trivial, rfl⟩, thread_step step rfl, rfl, rfl, rfl, ?_⟩
      simp [threadWork, rank, place]
  | getNext =>
      obtain ⟨filled, less⟩ := fewer (left (by simp [NetThread.pending, place]))
      have step : s.thread.step .get = some { s.thread.receive with point := .send } := by
        simp [NetThread.step, place, List.length_pos_iff.mpr filled]
      refine ⟨.get, _, ⟨trivial, rfl⟩, thread_step step rfl, rfl, rfl, rfl, ?_⟩
      simp only [threadWork, rank, place]
      omega
  | returned => exact absurd running (complete.stopped place)

def pcWork (s : Delivery) : Nat :=
  s.inFlight.length + 2 * s.connections.length + if s.point = .accept then 1 else 0

theorem Complete.pc_ahead (complete : s.Complete block) (serves : s.point ≠ .ended)
    (flight : s.inFlight ≠ []) :
    ∃ action t, s.Drains (block.len - 1) action ∧ s.step action = some t ∧ t.thread = s.thread ∧
      t.point ≠ .ended ∧ t.pcWork < s.pcWork := by
  have there : s.connections ≠ [] := by
    intro none
    exact flight (by simp [inFlight, none])
  cases place : s.point with
  | ended => exact absurd place serves
  | accept =>
      have step : s.step (.accept 1) = some { s with point := .recv } := by
        simp [Delivery.step, place, there]
      refine ⟨.accept 1, _, ⟨trivial, rfl⟩, step, rfl, by simp, ?_⟩
      simp [pcWork, inFlight, place]
  | recv =>
      obtain ⟨head, waiting, shape⟩ := List.exists_cons_of_ne_nil there
      by_cases empty : head.inFlight = []
      next =>
        -- The connection `net_thread` holds is the last, and the log is still behind this one.
        have last : head = ⟨[], false⟩ := by
          have held : head.held = false := by
            by_contra attached
            have alone := complete.attached.alone shape (by simpa using attached)
            exact flight (by simp [inFlight, shape, alone, empty])
          rw [← empty, ← held]
        have step : s.step (.recv 0) =
            some { s with connections := waiting, point := .accept } := by
          simp [Delivery.step, place, shape, last]
        refine ⟨.recv 0, _, ⟨by simp [Lossless], rfl⟩, step, rfl, by simp, ?_⟩
        simp only [pcWork, inFlight, place, shape, List.flatMap_cons, List.length_append,
          List.length_cons, reduceCtorEq, if_true, if_false]
        omega
      next =>
        have least := List.length_pos_iff.mpr empty
        obtain ⟨n, size⟩ : ∃ n : Nat, n = min 0x3FF head.inFlight.length := ⟨_, rfl⟩
        have step : s.step (.recv n) = some { s with
            connections := { head with inFlight := head.inFlight.drop n } :: waiting
            printed := s.printed ++ shown (head.inFlight.take n) } := by
          have positive : ¬ (n : Int) ≤ 0 := by omega
          have fits : (n : Int) ≤ 0x3FF ∧ (n : Int) ≤ head.inFlight.length := by omega
          simp only [Delivery.step, place, shape, if_neg positive, if_pos fits, Int.toNat_natCast]
        refine ⟨.recv n, _, ⟨fun failed => by omega, rfl⟩, step, rfl, by simp [place], ?_⟩
        simp only [pcWork, inFlight, place, shape, List.flatMap_cons, List.length_append,
          List.length_cons, List.length_drop]
        omega

theorem Complete.sendable (complete : s.Complete block) (two : 2 ≤ block.len)
    (aligned : block.len ∣ block.base) (running : s.thread.netThreadRun = true)
    (serves : s.point ≠ .ended) :
    ∃ t, delivery.Reachable (Drains (block.len - 1)) s t ∧ t.Complete block ∧ t.point ≠ .ended ∧
      t.thread.accepted = s.logged := by
  let holds (t : Delivery) : Prop :=
    t.Complete block ∧ t.logged = s.logged ∧ t.thread.netThreadRun = true ∧ t.point ≠ .ended
  have ahead (t : Delivery) (before : holds t) (behind : ¬ t.thread.accepted = t.logged) :
      ∃ action u, t.Drains (block.len - 1) action ∧ t.step action = some u ∧ holds u ∧
        u.threadWork < t.threadWork := by
    obtain ⟨here, logged, running, serves⟩ := before
    obtain ⟨action, u, drains, step, ahead⟩ := here.thread_ahead two aligned running behind
    have there := here.step two aligned drains.1 (step_move step)
    rw [← ahead.point] at serves
    exact ⟨_, u, drains, step,
      ⟨there, ahead.logged.trans logged, ahead.running.trans running, serves⟩, ahead.work⟩
  obtain ⟨t, reached, ⟨there, logged, _, serves⟩, accepted⟩ :=
    delivery.exists_reachable (Drains (block.len - 1)) holds _ threadWork ahead
      ⟨complete, rfl, running, serves⟩
  exact ⟨t, reached, there, serves, accepted.trans logged⟩

theorem Complete.receivable (complete : s.Complete block) (two : 2 ≤ block.len)
    (aligned : block.len ∣ block.base) (serves : s.point ≠ .ended) :
    ∃ t, delivery.Reachable (Drains (block.len - 1)) s t ∧ t.printed = s.thread.accepted := by
  let holds (t : Delivery) : Prop :=
    t.Complete block ∧ t.thread.accepted = s.thread.accepted ∧ t.point ≠ .ended
  have ahead (t : Delivery) (before : holds t) (flight : ¬ t.inFlight = []) :
      ∃ action u, t.Drains (block.len - 1) action ∧ t.step action = some u ∧ holds u ∧
        u.pcWork < t.pcWork := by
    obtain ⟨here, accepted, serves⟩ := before
    obtain ⟨action, u, drains, step, kept, stays, less⟩ := here.pc_ahead serves flight
    have there := here.step two aligned drains.1 (step_move step)
    exact ⟨action, u, drains, step, ⟨there, by rw [kept, accepted], stays⟩, less⟩
  obtain ⟨t, reached, ⟨there, accepted, _⟩, nothing⟩ :=
    delivery.exists_reachable (Drains (block.len - 1)) holds _ pcWork ahead
      ⟨complete, rfl, serves⟩
  have printed := there.pc
  rw [nothing, List.append_nil, accepted] at printed
  exact ⟨t, reached, printed⟩

theorem Complete.printable (complete : s.Complete block) (two : 2 ≤ block.len)
    (aligned : block.len ∣ block.base) (running : s.thread.netThreadRun = true)
    (serves : s.point ≠ .ended) :
    ∃ t, delivery.Reachable (Drains (block.len - 1)) s t ∧ t.printed = s.logged := by
  obtain ⟨t, sent, there, serving, accepted⟩ := complete.sendable two aligned running serves
  obtain ⟨u, received, printed⟩ := there.receivable two aligned serving
  exact ⟨u, sent.trans received, printed.trans accepted⟩

end Progress

end Delivery

/-- Without losses every logged byte is printed, in flight, held by the thread or in the ring
buffer, in this order, and from any such state the rest can still be printed. -/
theorem log_printed {block : Block} (mem : Memory) (two : 2 ≤ block.len)
    (aligned : block.len ∣ block.base) {s : Delivery}
    (reached : delivery.Reachable (Delivery.Lossless (block.len - 1))
      (startedDelivery (LogBuffer.ringbufInit block mem)) s) :
    (∃ queue : BoundedQueue Byte (block.len - 1), Represents block s.thread.ring queue ∧
      s.printed ++ s.inFlight ++ s.thread.pending ++ queue.items = s.logged) ∧
    (s.thread.netThreadRun = true → s.point ≠ .ended →
      ∃ t, delivery.Reachable (Delivery.Drains (block.len - 1)) s t ∧ t.printed = s.logged) := by
  have complete : s.Complete block := by
    refine reached.invariant (Delivery.Complete block) (Delivery.started_complete mem two) ?_
    intro s action t complete lossless step
    exact complete.step two aligned lossless (Delivery.step_move step)
  refine ⟨?_, complete.printable two aligned⟩
  obtain ⟨queue, represents, queued⟩ := complete.ring
  refine ⟨queue, represents, ?_⟩
  rw [complete.pc, complete.thread, queued]

-- A send fails between two lines, and the PC has not yet received what came before.
def reconnectedRun : List DeliveryAction :=
  [.thread (userDebugPrintfCallback 0x61), .thread .loop, .thread (.wait 0), .thread .get,
    .thread (.connect 1 0), .thread (.send 1),
    .thread (kernelDebugPrintfCallback 2 fun i => BitVec.ofNat 8 (0x62 + i)), .thread (.wait 0),
    .thread .get, .thread (.send (-1)), .accept 1, .recv 1, .thread (userDebugPrintfCallback 0x64)]

theorem log_printed_reconnected :
    ∃ s, s.printed = [0x61] ∧ s.logged = [0x61, 0x62, 0x63, 0x64] ∧
      ∃ t, delivery.Reachable (Delivery.Drains 0xF) s t ∧ t.printed = s.logged := by
  have run : ∃ s, delivery.follow (Delivery.Lossless 0xF) (startedDelivery smallRing)
      reconnectedRun = some s ∧ s.printed = [0x61] ∧ s.logged = [0x61, 0x62, 0x63, 0x64] ∧
        s.thread.netThreadRun = true ∧ s.point = .recv := ⟨_, rfl, rfl, rfl, rfl, rfl⟩
  obtain ⟨s, followed, printed, logged, running, serves⟩ := run
  have reached := Transitions.reachable_of_follow .start _ followed
  refine ⟨s, printed, logged, ?_⟩
  exact (@log_printed ⟨0x2000, 0x10, by decide, by decide⟩ (fun _ => 0) (by decide) (by decide) s
    reached).2 running (by simp [serves])

end VitaTools.PrincessLog
