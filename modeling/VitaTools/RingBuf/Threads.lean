import VitaTools.Library.EventFlag
import VitaTools.Library.Transition
import VitaTools.RingBuf.Model

set_option autoImplicit false

/-!
Any number of threads call the ring buffer. A body runs between the lock and the
unlock of the mutex; `ringbuf_get_wait` waits for the flag before it locks.
-/

namespace VitaTools.RingBuf

open VitaTools.Library

namespace LogBuffer

-- The `while (size-- > 0)` of a body, up to the update of the event flag.
def loop (s : LogBuffer) : Call → LogBuffer × Reply
  | .put c size => let (s, nPut) := putLoop (source c size) s 0; (s, ⟨nPut, []⟩)
  | .putClobber c size => let (s, nPut) := putClobberLoop (source c size) s 0; (s, ⟨nPut, []⟩)
  | .get size | .getWait _ size => let (s, out) := getLoop size.toNat s []; (s, ⟨out.length, out⟩)

def signal (s : LogBuffer) (reply : Reply) : Call → LogBuffer
  | .put _ _ | .putClobber _ _ =>
      if 0 < reply.count then s.setEventFlag evfNonEmpty else s
  | .get _ | .getWait _ _ => if s.empty then s.clearEventFlag (~~~ evfNonEmpty) else s

theorem call_eq (s : LogBuffer) (call : Call)
    (waited : ∀ ret size, call = .getWait ret size → ¬ ret < 0) :
    s.call call = ((s.loop call).1.signal (s.loop call).2 call, (s.loop call).2) := by
  cases call with
  | put c size => rfl
  | putClobber c size => rfl
  | get size => rfl
  | getWait ret size =>
      simp only [LogBuffer.call, ringbufGetWait, if_neg (waited ret size rfl)]
      rfl

def Signalled (s : LogBuffer) : Prop := EventFlag.waitAnd s.evf evfNonEmpty = true

def Flagged (s : LogBuffer) : Prop := s.Signalled ↔ s.getPtr ≠ s.putPtr

end LogBuffer

def Call.reads : Call → Bool
  | .put _ _ | .putClobber _ _ => false
  | .get _ | .getWait _ _ => true

inductive Point
  | idle
  | waiting (ret size : Int)
  | entering (call : Call)
  | locked (call : Call)
  | looped (call : Call) (reply : LogBuffer.Reply)
  | leaving (call : Call) (reply : LogBuffer.Reply)
  | returned (call : Call) (reply : LogBuffer.Reply)

namespace Point

def resting : Point → Bool
  | .idle | .returned _ _ => true
  | _ => false

def inBody : Point → Bool
  | .locked _ | .looped _ _ | .leaving _ _ => true
  | _ => false

-- `ringbuf_get_wait` waits before it locks; the others lock at once.
def start : Call → Point
  | .getWait ret size => .waiting ret size
  | call => .entering call

def call : Point → Option Call
  | .idle => none
  | .waiting ret size => some (.getWait ret size)
  | .entering call | .locked call | .looped call _ | .leaving call _ | .returned call _ => some call

-- Past its wait, a `ringbuf_get_wait` has waited with success.
def Waited : Point → Prop
  | .entering (.getWait ret _) | .locked (.getWait ret _) => ¬ ret < 0
  | _ => True

end Point

structure Threads (Thread : Type) where
  buffer : LogBuffer
  owner : Option Thread
  point : Thread → Point

inductive Action (Thread : Type)
  | call (thread : Thread) (call : Call)
  | wake (thread : Thread)
  | lock (thread : Thread)
  | loop (thread : Thread)
  | signal (thread : Thread)
  | unlock (thread : Thread)

namespace Threads

variable {Thread : Type} [DecidableEq Thread]

def goto (s : Threads Thread) (thread : Thread) (point : Point) : Threads Thread :=
  { s with point := Function.update s.point thread point }

@[simp] theorem goto_buffer (s : Threads Thread) (thread : Thread) (point : Point) :
    (s.goto thread point).buffer = s.buffer := rfl

@[simp] theorem goto_owner (s : Threads Thread) (thread : Thread) (point : Point) :
    (s.goto thread point).owner = s.owner := rfl

@[simp] theorem goto_self (s : Threads Thread) (thread : Thread) (point : Point) :
    (s.goto thread point).point thread = point := Function.update_self _ _ _

theorem goto_other (s : Threads Thread) (point : Point) {thread other : Thread}
    (different : other ≠ thread) : (s.goto thread point).point other = s.point other :=
  Function.update_of_ne different _ _

-- `ret` is chosen with the call: a wait may fail at any time, and succeed once the bit is set.
def step (s : Threads Thread) : Action Thread → Option (Threads Thread)
  | .call thread call =>
      if (s.point thread).resting then some (s.goto thread (.start call)) else none
  | .wake thread =>
      match s.point thread with
      | .waiting ret size =>
          if ret < 0 then some (s.goto thread (.returned (.getWait ret size) ⟨0, []⟩))
          else if EventFlag.waitAnd s.buffer.evf evfNonEmpty then
            some (s.goto thread (.entering (.getWait ret size)))
          else none
      | _ => none
  | .lock thread =>
      match s.owner, s.point thread with
      | none, .entering call => some { s.goto thread (.locked call) with owner := some thread }
      | _, _ => none
  | .loop thread =>
      match s.point thread with
      | .locked call =>
          some { s.goto thread (.looped call (s.buffer.loop call).2) with
            buffer := (s.buffer.loop call).1 }
      | _ => none
  | .signal thread =>
      match s.point thread with
      | .looped call reply =>
          some { s.goto thread (.leaving call reply) with buffer := s.buffer.signal reply call }
      | _ => none
  | .unlock thread =>
      match s.point thread with
      | .leaving call reply => some { s.goto thread (.returned call reply) with owner := none }
      | _ => none

-- The buffer once the update that the owner of the mutex still has to make is made.
def settled (s : Threads Thread) : LogBuffer :=
  match s.owner with
  | some thread =>
      match s.point thread with
      | .looped call reply => s.buffer.signal reply call
      | _ => s.buffer
  | none => s.buffer

inductive Move (s : Threads Thread) : Action Thread → Threads Thread → Prop
  | call (thread : Thread) (call : Call) (rests : (s.point thread).resting = true) :
      Move s (.call thread call) (s.goto thread (.start call))
  | timeout (thread : Thread) (ret size : Int) (place : s.point thread = .waiting ret size)
      (failed : ret < 0) :
      Move s (.wake thread) (s.goto thread (.returned (.getWait ret size) ⟨0, []⟩))
  | wake (thread : Thread) (ret size : Int) (place : s.point thread = .waiting ret size)
      (waited : ¬ ret < 0) (signalled : s.buffer.Signalled) :
      Move s (.wake thread) (s.goto thread (.entering (.getWait ret size)))
  | lock (thread : Thread) (call : Call) (place : s.point thread = .entering call)
      (free : s.owner = none) :
      Move s (.lock thread) { s.goto thread (.locked call) with owner := some thread }
  | loop (thread : Thread) (call : Call) (place : s.point thread = .locked call) :
      Move s (.loop thread) { s.goto thread (.looped call (s.buffer.loop call).2) with
        buffer := (s.buffer.loop call).1 }
  | signal (thread : Thread) (call : Call) (reply : LogBuffer.Reply)
      (place : s.point thread = .looped call reply) :
      Move s (.signal thread)
        { s.goto thread (.leaving call reply) with buffer := s.buffer.signal reply call }
  | unlock (thread : Thread) (call : Call) (reply : LogBuffer.Reply)
      (place : s.point thread = .leaving call reply) :
      Move s (.unlock thread) { s.goto thread (.returned call reply) with owner := none }

theorem step_move {s t : Threads Thread} {action : Action Thread} (step : s.step action = some t) :
    Move s action t := by
  cases action with
  | call thread call =>
      simp only [Threads.step] at step
      split at step
      next rests =>
        cases step
        exact .call thread call rests
      next => contradiction
  | wake thread =>
      simp only [Threads.step] at step
      split at step
      next ret size place =>
        split at step
        next failed =>
          cases step
          exact .timeout thread ret size place failed
        next waited =>
          split at step
          next signalled =>
            cases step
            exact .wake thread ret size place waited signalled
          next => contradiction
      next => contradiction
  | lock thread =>
      simp only [Threads.step] at step
      split at step
      next call free place =>
        cases step
        exact .lock thread call place free
      next => contradiction
  | loop thread =>
      simp only [Threads.step] at step
      split at step
      next call place =>
        cases step
        exact .loop thread call place
      next => contradiction
  | signal thread =>
      simp only [Threads.step] at step
      split at step
      next call reply place =>
        cases step
        exact .signal thread call reply place
      next => contradiction
  | unlock thread =>
      simp only [Threads.step] at step
      split at step
      next call reply place =>
        cases step
        exact .unlock thread call reply place
      next => contradiction

end Threads

def threads (Thread : Type) [DecidableEq Thread] :
    Transitions (Threads Thread) (Action Thread) := ⟨Threads.step⟩

def Threads.begun (Thread : Type) (block : Block) (mem : Memory) : Threads Thread where
  buffer := LogBuffer.ringbufInit block mem
  owner := none
  point := fun _ => .idle

end VitaTools.RingBuf
