import VitaTools.RingBuf.Refinement
import VitaTools.RingBuf.Threads

set_option autoImplicit false

namespace VitaTools.RingBuf

open VitaTools.Library

namespace LogBuffer

theorem signalled_iff (s : LogBuffer) : s.Signalled ↔ EventFlag.has s.evf 0 = true := by
  have bit : evfNonEmpty = BitVec.twoPow 32 0 := rfl
  rw [Signalled, bit, EventFlag.waitAnd_bit (by decide)]

theorem setEventFlag_signalled (s : LogBuffer) : (s.setEventFlag evfNonEmpty).Signalled := by
  have bit : EventFlag.has evfNonEmpty 0 = true := rfl
  have set : (s.setEventFlag evfNonEmpty).evf = EventFlag.set s.evf evfNonEmpty := rfl
  rw [signalled_iff, set, EventFlag.has_set, bit, Bool.or_true]

theorem clearEventFlag_signalled (s : LogBuffer) :
    ¬ (s.clearEventFlag (~~~ evfNonEmpty)).Signalled := by
  have bit : EventFlag.has (~~~ evfNonEmpty) 0 = false := rfl
  have cleared : (s.clearEventFlag (~~~ evfNonEmpty)).evf =
      EventFlag.clear s.evf (~~~ evfNonEmpty) := rfl
  rw [signalled_iff, cleared, EventFlag.has_clear, bit, Bool.and_false]
  exact Bool.false_ne_true

theorem putLoop_evf (data : List Byte) (s : LogBuffer) (nPut : Nat) :
    (putLoop data s nPut).1.evf = s.evf := by
  induction data generalizing s nPut with
  | nil => rfl
  | cons c rest ih =>
      by_cases full : s.full = true
      · simp [putLoop, put, full]
      · simp [putLoop, put, full, ih, store]

theorem putClobberLoop_evf (data : List Byte) (s : LogBuffer) (nPut : Nat) :
    (putClobberLoop data s nPut).1.evf = s.evf := by
  induction data generalizing s nPut with
  | nil => rfl
  | cons c rest ih =>
      by_cases full : s.full = true <;> simp [putClobberLoop, ih, putClobber, full, store]

theorem getLoop_evf (size : Nat) (s : LogBuffer) (out : List Byte) :
    (getLoop size s out).1.evf = s.evf := by
  induction size generalizing s out with
  | zero => rfl
  | succ size ih =>
      by_cases empty : s.empty = true
      · simp [getLoop, get, empty]
      · simp [getLoop, get, empty, ih]

theorem loop_evf (s : LogBuffer) (call : Call) : (s.loop call).1.evf = s.evf := by
  cases call with
  | put c size => exact putLoop_evf _ s 0
  | putClobber c size => exact putClobberLoop_evf _ s 0
  | get size => exact getLoop_evf _ s []
  | getWait ret size => exact getLoop_evf _ s []

theorem loop_signalled (s : LogBuffer) (call : Call) :
    (s.loop call).1.Signalled ↔ s.Signalled := by
  rw [Signalled, Signalled, loop_evf]

@[simp] theorem signal_getPtr (s : LogBuffer) (reply : Reply) (call : Call) :
    (s.signal reply call).getPtr = s.getPtr := by
  cases call <;> simp only [signal] <;> split <;> rfl

@[simp] theorem signal_putPtr (s : LogBuffer) (reply : Reply) (call : Call) :
    (s.signal reply call).putPtr = s.putPtr := by
  cases call <;> simp only [signal] <;> split <;> rfl

end LogBuffer

theorem queueCall_reads {capacity : Nat} (queue : BoundedQueue Byte capacity) (call : Call)
    (reads : call.reads = true) (nothing : queue.items = []) :
    (queueCall queue call).1.items = [] := by
  cases call with
  | put | putClobber => contradiction
  | get size => simp [queueCall, nothing]
  | getWait ret size =>
      simp only [queueCall]
      split <;> simp [nothing]

theorem queueCall_writes {capacity : Nat} (queue : BoundedQueue Byte capacity) (call : Call)
    (writes : call.reads = false) (room : 0 < capacity) (held : queue.items ≠ []) :
    (queueCall queue call).1.items ≠ [] := by
  cases call with
  | put c size => exact queue.offer_keeps _ held
  | putClobber c size => exact queue.push_some _ room (List.append_ne_nil_of_left_ne_nil held _)
  | get | getWait => contradiction

section Bodies

variable {block : Block} {s : LogBuffer} {queue : BoundedQueue Byte (block.len - 1)}

theorem Represents.nonempty_iff (represents : Represents block s queue) :
    s.getPtr ≠ s.putPtr ↔ queue.items ≠ [] := by
  rw [Ne, Ne, ← represents.empty_iff, LogBuffer.empty, beq_iff_eq]

theorem Represents.signal (represents : Represents block s queue) (reply : LogBuffer.Reply)
    (call : Call) : Represents block (s.signal reply call) queue := by
  cases call with
  | put | putClobber => exact represents.setIf _
  | get | getWait => exact represents.clearIf _

theorem Represents.loop (represents : Represents block s queue) (aligned : block.len ∣ block.base)
    (two : 2 ≤ block.len) (call : Call)
    (waited : ∀ ret size, call = .getWait ret size → ¬ ret < 0) :
    Represents block (s.loop call).1 (queueCall queue call).1 ∧
      (s.loop call).2 = (queueCall queue call).2 := by
  cases call with
  | put c size =>
      obtain ⟨after, count⟩ := putLoop_offers aligned two (LogBuffer.source c size) 0 represents
      exact ⟨after, by simp [LogBuffer.loop, queueCall, count]⟩
  | putClobber c size =>
      obtain ⟨after, count⟩ :=
        putClobberLoop_pushes aligned two (LogBuffer.source c size) 0 represents
      exact ⟨after, by simp [LogBuffer.loop, queueCall, count]⟩
  | get size =>
      obtain ⟨after, out⟩ := getLoop_takes aligned size.toNat [] represents
      exact ⟨after, by simp [LogBuffer.loop, queueCall, out]⟩
  | getWait ret size =>
      obtain ⟨after, out⟩ := getLoop_takes aligned size.toNat [] represents
      rw [queueCall, if_neg (waited ret size rfl)]
      exact ⟨after, by simp [LogBuffer.loop, out]⟩

theorem Represents.flagged_iff (represents : Represents block s queue) :
    s.Flagged ↔ (s.Signalled ↔ queue.items ≠ []) := by
  rw [LogBuffer.Flagged, represents.nonempty_iff]

theorem loop_signal_flagged (represents : Represents block s queue)
    (aligned : block.len ∣ block.base) (two : 2 ≤ block.len) (flagged : s.Flagged) (call : Call)
    (waited : ∀ ret size, call = .getWait ret size → ¬ ret < 0) :
    ((s.loop call).1.signal (s.loop call).2 call).Flagged := by
  obtain ⟨after, reply⟩ := represents.loop aligned two call waited
  have kept := s.loop_signalled call
  rw [represents.flagged_iff] at flagged
  rw [(after.signal _ call).flagged_iff]
  rw [← kept] at flagged
  cases call with
  | put c size =>
      have count := congrArg LogBuffer.Reply.count reply
      simp only [queueCall] at count ⊢
      simp only [LogBuffer.signal]
      split
      next some =>
        rw [count] at some
        exact iff_of_true (LogBuffer.setEventFlag_signalled _) (queue.offer_some _ some)
      next none =>
        rw [count] at none
        rwa [queue.offer_none _ (Nat.eq_zero_of_not_pos none)]
  | putClobber c size =>
      have count := congrArg LogBuffer.Reply.count reply
      simp only [queueCall] at count ⊢
      simp only [LogBuffer.signal]
      split
      next some =>
        rw [count] at some
        refine iff_of_true (LogBuffer.setEventFlag_signalled _) (queue.push_some _ (by omega) ?_)
        exact List.append_ne_nil_of_right_ne_nil _ (List.length_pos_iff.mp some)
      next none =>
        rw [count] at none
        have nothing := List.length_eq_zero_iff.mp (Nat.eq_zero_of_not_pos none)
        rwa [nothing, BoundedQueue.push_nil]
  | get size | getWait ret size =>
      simp only [LogBuffer.signal]
      have drained := after.empty_iff
      split
      next empty =>
        exact iff_of_false (LogBuffer.clearEventFlag_signalled _)
          (not_not_intro (drained.mp empty))
      next left =>
        have some := mt drained.mpr left
        exact iff_of_true (flagged.mpr fun nothing => some (queueCall_reads _ _ rfl nothing)) some

end Bodies

namespace Threads

variable {Thread : Type} [DecidableEq Thread]

/-- The mutex is held by the one thread in a body, and the flag tells the truth about the
buffer, up to the update that thread has still to make. -/
structure Sound (block : Block) (s : Threads Thread) : Prop where
  queue : ∃ queue, Represents block s.buffer queue
  body : ∀ thread, (s.point thread).inBody = true ↔ s.owner = some thread
  waited : ∀ thread, (s.point thread).Waited
  flag : s.settled.Flagged

variable {block : Block} {s t : Threads Thread}

omit [DecidableEq Thread] in
theorem settled_congr (owner : t.owner = s.owner) (buffer : t.buffer = s.buffer)
    (point : ∀ thread, s.owner = some thread → t.point thread = s.point thread) :
    t.settled = s.settled := by
  unfold settled
  rw [owner, buffer]
  cases holder : s.owner with
  | none => rfl
  | some thread => simp only [point thread holder]

omit [DecidableEq Thread] in
theorem settled_free (free : s.owner = none) : s.settled = s.buffer := by
  simp only [settled, free]

theorem Sound.goto (sound : s.Sound block) (thread : Thread) (point : Point)
    (before : (s.point thread).inBody = false) (after : point.inBody = false)
    (waited : point.Waited) : (s.goto thread point).Sound block where
  queue := sound.queue
  body := by
    intro other
    by_cases same : other = thread
    next =>
      have notOwner := mt (sound.body thread).mpr (by simp [before])
      simp [same, after, notOwner]
    next => simpa [goto_other s _ same] using sound.body other
  waited := by
    intro other
    by_cases same : other = thread
    next => simpa [same] using waited
    next => simpa [goto_other s _ same] using sound.waited other
  flag := by
    have same : (s.goto thread point).settled = s.settled := by
      refine settled_congr rfl rfl fun owner holds => ?_
      have inside := (sound.body owner).mpr holds
      have other : owner ≠ thread := by
        rintro rfl
        simp [before] at inside
      exact goto_other s point other
    rw [same]
    exact sound.flag

theorem Sound.advance (sound : s.Sound block) (thread : Thread) (holds : s.owner = some thread)
    (point : Point) (owner : Option Thread) (buffer : LogBuffer)
    (queue : ∃ queue, Represents block buffer queue)
    (body : point.inBody = true ↔ owner = some thread)
    (left : owner = some thread ∨ owner = none)
    (waited : point.Waited)
    (flag : ({ s.goto thread point with buffer := buffer, owner := owner } :
      Threads Thread).settled.Flagged) :
    ({ s.goto thread point with buffer := buffer, owner := owner } :
      Threads Thread).Sound block where
  queue := queue
  body := by
    intro other
    by_cases same : other = thread
    next => simpa [same] using body
    next =>
      have outside := (sound.body other).not.mpr (by simp [holds, Ne.symm same])
      have foreign : owner ≠ some other := by
        rcases left with rfl | rfl <;> simp [Ne.symm same]
      simpa [goto_other s _ same, foreign] using outside
  waited := by
    intro other
    by_cases same : other = thread
    next => simpa [same] using waited
    next => simpa [goto_other s _ same] using sound.waited other
  flag := flag

omit [DecidableEq Thread] in
theorem Sound.holds (sound : s.Sound block) {thread : Thread} {point : Point}
    (place : s.point thread = point) (inside : point.inBody = true) : s.owner = some thread :=
  (sound.body thread).mp (by rw [place, inside])

theorem Sound.move (sound : s.Sound block) (aligned : block.len ∣ block.base)
    (two : 2 ≤ block.len) {action : Action Thread} (move : s.Move action t) : t.Sound block := by
  have flag := sound.flag
  obtain ⟨queue, represents⟩ := sound.queue
  cases move with
  | call thread call rests =>
      refine sound.goto thread _ ?_ ?_ ?_
      · cases place : s.point thread <;> simp_all [Point.resting, Point.inBody]
      · cases call <;> rfl
      · cases call <;> trivial
  | timeout thread ret size place failed =>
      exact sound.goto thread _ (by rw [place]; rfl) rfl trivial
  | wake thread ret size place waited signalled =>
      exact sound.goto thread _ (by rw [place]; rfl) rfl waited
  | lock thread call place free =>
      have nobody (other : Thread) : (s.point other).inBody = false := by
        have outside := (sound.body other).not.mpr (by simp [free])
        exact Bool.eq_false_iff.mpr outside
      refine ⟨⟨queue, represents⟩, ?_, ?_, ?_⟩
      · intro other
        by_cases same : other = thread
        next => simp [same, Point.inBody]
        next => simp [goto_other s _ same, nobody, Ne.symm same]
      · intro other
        by_cases same : other = thread
        next =>
          have waited := sound.waited thread
          rw [place] at waited
          simp only [same, goto_self]
          cases call <;> exact waited
        next => simpa [goto_other s _ same] using sound.waited other
      · rw [settled_free free] at flag
        simpa [settled] using flag
  | loop thread call place =>
      have holds := sound.holds place rfl
      have waited : ∀ ret size, call = .getWait ret size → ¬ ret < 0 := by
        rintro ret size rfl
        have waited := sound.waited thread
        rwa [place] at waited
      have after := represents.loop aligned two call waited
      refine sound.advance thread holds _ _ _ ⟨_, after.1⟩ ?_ (.inl holds) trivial ?_
      · simp [Point.inBody, holds]
      · have before : s.buffer.Flagged := by simpa [settled, holds, place] using flag
        have repaired := loop_signal_flagged represents aligned two before call waited
        simpa [settled, holds] using repaired
  | signal thread call reply place =>
      have holds := sound.holds place rfl
      have after := represents.signal reply call
      refine sound.advance thread holds _ _ _ ⟨queue, after⟩ ?_ (.inl holds) trivial ?_
      · simp [Point.inBody, holds]
      · simpa [settled, holds, place] using flag
  | unlock thread call reply place =>
      have holds := sound.holds place rfl
      refine sound.advance thread holds _ _ _ ⟨queue, represents⟩ ?_ (.inr rfl) trivial ?_
      · simp [Point.inBody]
      · simpa [settled, holds, place] using flag

/-- Only `consumer` may call `ringbuf_get` or `ringbuf_get_wait`. -/
def SoleConsumer (consumer : Thread) (_ : Threads Thread) : Action Thread → Prop
  | .call thread call => call.reads = true → thread = consumer
  | _ => True

instance (consumer : Thread) (s : Threads Thread) (action : Action Thread) :
    Decidable (SoleConsumer consumer s action) :=
  match action with
  | .call thread call => inferInstanceAs (Decidable (call.reads = true → thread = consumer))
  | .wake _ | .lock _ | .loop _ | .signal _ | .unlock _ => inferInstanceAs (Decidable True)

def Promised (buffer : LogBuffer) : Point → Prop
  | .entering (.getWait _ _) | .locked (.getWait _ _) => buffer.getPtr ≠ buffer.putPtr
  | .looped (.getWait ret size) reply | .leaving (.getWait ret size) reply
  | .returned (.getWait ret size) reply => ¬ ret < 0 → 1 ≤ size → 1 ≤ reply.count
  | _ => True

/-- Nobody but the consumer empties the buffer. `early`: between its loop and its update a
producer may find the flag set already, but then the buffer was not empty before. -/
structure Fed (consumer : Thread) (s : Threads Thread) : Prop where
  producers : ∀ thread call, thread ≠ consumer → (s.point thread).call = some call →
    call.reads = false
  early : ∀ thread call reply, s.point thread = .looped call reply → call.reads = false →
    s.buffer.Signalled → s.buffer.getPtr ≠ s.buffer.putPtr
  promised : Promised s.buffer (s.point consumer)

variable {consumer : Thread}

theorem Promised.congr {before after : LogBuffer} {point : Point}
    (held : before.getPtr ≠ before.putPtr → after.getPtr ≠ after.putPtr)
    (promised : Promised before point) : Promised after point := by
  cases point with
  | entering call | locked call =>
      cases call with
      | getWait => exact held promised
      | put | putClobber | get => trivial
  | looped call | leaving call | returned call => cases call <;> exact promised
  | idle | waiting => trivial

omit [DecidableEq Thread] in
theorem Fed.wakes (fed : s.Fed consumer) (sound : s.Sound block)
    (waits : (s.point consumer).inBody = false) (signalled : s.buffer.Signalled) :
    s.buffer.getPtr ≠ s.buffer.putPtr := by
  have flag := sound.flag
  cases holder : s.owner with
  | none =>
      rw [settled_free holder] at flag
      exact flag.mp signalled
  | some owner =>
      have inside := (sound.body owner).mpr holder
      have other : owner ≠ consumer := by
        rintro rfl
        simp [waits] at inside
      cases place : s.point owner with
      | looped call reply =>
          have writes := fed.producers owner call other (by rw [place]; rfl)
          exact fed.early owner call reply place writes signalled
      | _ =>
          simp only [settled, holder, place] at flag
          exact flag.mp signalled

theorem Fed.goto (fed : s.Fed consumer) (thread : Thread) (point : Point) (owner : Option Thread)
    (producer : thread ≠ consumer → ∀ call, point.call = some call → call.reads = false)
    (quiet : ∀ call reply, point ≠ .looped call reply)
    (promised : thread = consumer → Promised s.buffer point) :
    ({ s.goto thread point with owner := owner } : Threads Thread).Fed consumer where
  producers := by
    intro other call foreign called
    by_cases same : other = thread
    next => exact producer (same ▸ foreign) call (by simpa [same] using called)
    next => exact fed.producers other call foreign (by simpa [goto_other s point same] using called)
  early := by
    intro other call reply place
    by_cases same : other = thread
    next => exact absurd (by simpa [same] using place) (quiet call reply)
    next => exact fed.early other call reply (by simpa [goto_other s point same] using place)
  promised := by
    by_cases same : consumer = thread
    next => simpa [same] using promised same.symm
    next => simpa [goto_other s _ same] using fed.promised

theorem Fed.advance (fed : s.Fed consumer) (sound : s.Sound block) (thread : Thread)
    (holds : s.owner = some thread) (point : Point) (buffer : LogBuffer)
    (same : point.call = (s.point thread).call)
    (early : ∀ call reply, point = .looped call reply → call.reads = false →
      buffer.Signalled → buffer.getPtr ≠ buffer.putPtr)
    (held : thread ≠ consumer → s.buffer.getPtr ≠ s.buffer.putPtr →
      buffer.getPtr ≠ buffer.putPtr)
    (promised : thread = consumer → Promised buffer point) :
    ({ s.goto thread point with buffer := buffer } : Threads Thread).Fed consumer where
  producers := by
    intro other call foreign called
    refine fed.producers other call foreign ?_
    by_cases itself : other = thread
    next => simpa [itself, same] using called
    next => simpa [goto_other s _ itself] using called
  early := by
    intro other call reply place
    by_cases itself : other = thread
    next => exact early call reply (by simpa [itself] using place)
    next =>
      have inside : (s.point other).inBody = true := by
        have looped : s.point other = .looped call reply := by
          simpa [goto_other s _ itself] using place
        rw [looped]
        rfl
      have other := (sound.body other).mp inside
      simp_all
  promised := by
    by_cases itself : consumer = thread
    next => simpa [itself] using promised itself.symm
    next => simpa [goto_other s _ itself] using fed.promised.congr (held (Ne.symm itself))

theorem Fed.move (fed : s.Fed consumer) (sound : s.Sound block) (aligned : block.len ∣ block.base)
    (two : 2 ≤ block.len) {action : Action Thread} (move : s.Move action t)
    (sole : SoleConsumer consumer s action) : t.Fed consumer := by
  have promised := fed.promised
  cases move with
  | call thread call rests =>
      refine fed.goto thread _ s.owner ?_ ?_ ?_
      · intro foreign started called
        have same : started = call := by
          cases call <;> simpa [Point.start, Point.call, eq_comm] using called
        rw [same]
        exact Bool.eq_false_iff.mpr (mt sole foreign)
      · intro _ _ looped
        cases call <;> cases looped
      · intro _
        cases call <;> trivial
  | timeout thread ret size place failed =>
      refine fed.goto thread _ s.owner (fun foreign call called => ?_)
        (fun _ _ => Point.noConfusion) ?_
      · exact fed.producers thread call foreign (by rw [place]; exact called)
      · exact fun _ waited => absurd failed waited
  | wake thread ret size place waited signalled =>
      refine fed.goto thread _ s.owner (fun foreign call called => ?_)
        (fun _ _ => Point.noConfusion) ?_
      · exact fed.producers thread call foreign (by rw [place]; exact called)
      · rintro rfl
        exact fed.wakes sound (by rw [place]; rfl) signalled
  | lock thread call place free =>
      refine fed.goto thread _ _ (fun foreign called same => ?_) (fun _ _ => Point.noConfusion) ?_
      · exact fed.producers thread called foreign (by rw [place]; exact same)
      · rintro rfl
        rw [place] at promised
        cases call <;> exact promised
  | loop thread call place =>
      obtain ⟨queue, represents⟩ := sound.queue
      have holds := sound.holds place rfl
      have waited : ∀ ret size, call = .getWait ret size → ¬ ret < 0 := by
        rintro ret size rfl
        have waited := sound.waited thread
        rwa [place] at waited
      obtain ⟨after, reply⟩ := represents.loop aligned two call waited
      have kept (writes : call.reads = false) (held : s.buffer.getPtr ≠ s.buffer.putPtr) :
          (s.buffer.loop call).1.getPtr ≠ (s.buffer.loop call).1.putPtr := by
        rw [represents.nonempty_iff] at held
        exact after.nonempty_iff.mpr (queueCall_writes queue call writes (by omega) held)
      refine fed.advance sound thread holds _ _ (by rw [place]; rfl) ?_ ?_ ?_
      · intro looped reply same writes signalled
        cases same
        have flag := sound.flag
        simp only [settled, holds, place] at flag
        exact kept writes (flag.mp ((s.buffer.loop_signalled call).mp signalled))
      · intro foreign
        exact kept (fed.producers thread call foreign (by rw [place]; rfl))
      · rintro rfl
        rw [place] at promised
        cases call with
        | getWait ret size =>
            intro waited enough
            have held := List.length_pos_iff.mpr (represents.nonempty_iff.mp promised)
            rw [reply, queueCall, if_neg waited]
            dsimp only
            omega
        | put | putClobber | get => trivial
  | signal thread call reply place =>
      have holds := sound.holds place rfl
      refine fed.advance sound thread holds _ _ (by rw [place]; rfl)
        (fun _ _ => Point.noConfusion) ?_ ?_
      · simp
      · rintro rfl
        rw [place] at promised
        cases call <;> exact promised
  | unlock thread call reply place =>
      refine fed.goto thread _ _ (fun foreign called same => ?_) (fun _ _ => Point.noConfusion) ?_
      · exact fed.producers thread called foreign (by rw [place]; exact same)
      · rintro rfl
        rw [place] at promised
        cases call <;> exact promised

omit [DecidableEq Thread] in
theorem begun_sound (mem : Memory) (two : 2 ≤ block.len) :
    (Threads.begun Thread block mem).Sound block where
  queue := ⟨_, ringbufInit_represents block mem two⟩
  body := fun _ => ⟨nofun, nofun⟩
  waited := fun _ => trivial
  flag := by
    have quiet : ¬ EventFlag.waitAnd 0 evfNonEmpty = true := by decide
    exact iff_of_false quiet (not_not_intro rfl)

theorem reachable_sound {allowed : Threads Thread → Action Thread → Prop} (mem : Memory)
    (two : 2 ≤ block.len) (aligned : block.len ∣ block.base)
    (reached : (threads Thread).Reachable allowed (.begun Thread block mem) s) :
    s.Sound block := by
  refine reached.invariant (Sound block) (begun_sound mem two) ?_
  intro s action t sound _ step
  exact sound.move aligned two (step_move step)

theorem reachable_fed (mem : Memory) (two : 2 ≤ block.len) (aligned : block.len ∣ block.base)
    (reached : (threads Thread).Reachable (SoleConsumer consumer) (.begun Thread block mem) s) :
    s.Fed consumer := by
  have both : s.Sound block ∧ s.Fed consumer := by
    refine reached.invariant (fun s => s.Sound block ∧ s.Fed consumer) ?_ ?_
    · exact ⟨begun_sound mem two, fun _ _ _ => nofun, fun _ _ _ => nofun, trivial⟩
    · intro s action t held sole step
      have move := step_move step
      exact ⟨held.1.move aligned two move, held.2.move held.1 aligned two move sole⟩
  exact both.2

end Threads

/-- Whenever the mutex is free the wake-up flag is set if and only if the buffer holds
something, whatever the threads do. So the one consumer, woken, reads at least a byte. -/
theorem ringbuf_wakeup {Thread : Type} [DecidableEq Thread] (block : Block) (mem : Memory)
    (two : 2 ≤ block.len) (aligned : block.len ∣ block.base) :
    (∀ s, (threads Thread).Reachable (fun _ _ => True) (.begun Thread block mem) s →
      s.owner = none → (s.buffer.Signalled ↔ s.buffer.getPtr ≠ s.buffer.putPtr)) ∧
    ∀ consumer s ret size reply,
      (threads Thread).Reachable (Threads.SoleConsumer consumer) (.begun Thread block mem) s →
        s.point consumer = .returned (.getWait ret size) reply → ¬ ret < 0 → 1 ≤ size →
          1 ≤ reply.count := by
  constructor
  · intro s reached free
    have sound := Threads.reachable_sound mem two aligned reached
    have flag := sound.flag
    rwa [Threads.settled_free free] at flag
  · intro consumer s ret size reply reached place
    have promised := (Threads.reachable_fed mem two aligned reached).promised
    rwa [place] at promised

-- The producer's update comes while the consumer waits, and another put before it locks.
def wokenRun : List (Action Bool) :=
  [.call true (.getWait 0 4), .call false (.put (fun _ => 7) 1), .lock false, .loop false,
    .signal false, .wake true, .unlock false, .call false (.putClobber (fun _ => 9) 2), .lock false,
    .loop false, .signal false, .unlock false, .lock true, .loop true, .signal true, .unlock true]

/-- A block of two bytes, in which the second call pushes out what the first one put. -/
theorem ringbuf_wakeup_twoBytes :
    ∃ s reply, (threads Bool).Reachable (Threads.SoleConsumer true)
        (.begun Bool ⟨0x1000, 2, by decide, by decide⟩ fun _ => 0) s ∧
      s.point true = .returned (.getWait 0 4) reply ∧ 1 ≤ reply.count := by
  have run : ∃ s reply, (threads Bool).follow (Threads.SoleConsumer true)
      (.begun Bool ⟨0x1000, 2, by decide, by decide⟩ fun _ => 0) wokenRun = some s ∧
        s.point true = .returned (.getWait 0 4) reply := ⟨_, ⟨1, [9]⟩, rfl, rfl⟩
  obtain ⟨s, reply, followed, place⟩ := run
  have reached := Transitions.reachable_of_follow .start _ followed
  exact ⟨s, reply, reached, place, (ringbuf_wakeup _ _ (by decide) (by decide)).2 true s 0 4 reply
    reached place (by decide) (by decide)⟩

end VitaTools.RingBuf
