import Mathlib.Data.List.TakeWhile
import VitaTools.ShipLog.Threads

set_option autoImplicit false

namespace VitaTools.ShipLog

open VitaTools.Library

def HandlerPoint.text : HandlerPoint → List Byte
  | .called buf | .stopped buf | .flushing buf | .clearing buf | .copying buf | .copied buf => buf
  | .idle | .leaving => []

def HandlerPoint.uncopied : HandlerPoint → Option (List Byte)
  | .copying buf => some buf
  | _ => none

def HandlerPoint.uncounted : HandlerPoint → List Byte
  | .copied buf => buf
  | _ => []

namespace Logger

variable {Thread : Type}

-- After the last test, a drain goes on to `bufClear` unless a send has failed.
def clearsNext (s : Logger Thread) : Bool :=
  match s.netPoint with
  | .sentAll _ => s.isConnected
  | _ => false

def draining (s : Logger Thread) : Bool :=
  match s.netPoint with
  | .sendTest _ | .send _ => true
  | _ => s.clearsNext

theorem draining_of_clearsNext {s : Logger Thread} (clears : s.clearsNext) : s.draining := by
  cases point : s.netPoint <;> simp_all [clearsNext, draining]

-- Every text that has been copied to the buffer is counted in `buf_pos`.
def Settled (handler : Thread → HandlerPoint) : Prop :=
  ∀ thread, (handler thread).uncounted = []

def HandlerFits (s : Logger Thread) (thread : Thread) (opens : Bool) : HandlerPoint → Prop
  | .flushing _ => s.bufPos = if opens then bufSize else 0
  | .clearing _ => Settled s.handler ∧ (s.draining → s.netPoint.sent = 0)
  | .copying buf => buf ≠ [] → Settled s.handler
  | .copied buf => (s.clearsNext → buf = []) ∧
      ∀ other, other ≠ thread → ∀ text ∈ (s.handler other).uncopied,
        s.bufPos + buf.length + text.length ≤ bufSize
  | .idle | .called _ | .stopped _ | .leaving => True

def NetFits (s : Logger Thread) (ret : Int) : NetPoint → Prop
  | .send sent => ¬ ret < 0 → sent + ret ≤ s.bufPos
  | .sentAll _ => s.isConnected → Settled s.handler
  | .written => Settled s.handler
  | .loop | .test | .waitNet | .sendTest _ | .waitFile => True

/-- The condition on a step: an overflow finds the buffer full and can write it; a send accepts no
more than is left; and no step gets in another's way. Between a call's `memcpy` and its update of
`buf_pos` no other call copies and nothing clears the buffer, an update leaves room for what other
calls have found to fit, there is none between the last test of a drain and its `bufClear`, and a
call clears the buffer only while a drain has sent nothing. -/
def Fits (s : Logger Thread) : Action Thread → Prop
  | .handler thread opens => s.HandlerFits thread opens (s.handler thread)
  | .net ret => s.NetFits ret s.netPoint
  | .debugHandler _ _ | .putcharHandler _ _ => True

section

variable [Fintype Thread] [DecidableEq Thread]

instance (handler : Thread → HandlerPoint) : Decidable (Settled handler) :=
  inferInstanceAs (Decidable (∀ thread, (handler thread).uncounted = []))

instance (s : Logger Thread) (thread : Thread) (opens : Bool) (point : HandlerPoint) :
    Decidable (s.HandlerFits thread opens point) :=
  match point with
  | .flushing _ => inferInstanceAs (Decidable (s.bufPos = if opens then bufSize else 0))
  | .clearing _ =>
      inferInstanceAs (Decidable (Settled s.handler ∧ (s.draining → s.netPoint.sent = 0)))
  | .copying buf => inferInstanceAs (Decidable (buf ≠ [] → Settled s.handler))
  | .copied buf => inferInstanceAs (Decidable ((s.clearsNext → buf = []) ∧
      ∀ other, other ≠ thread → ∀ text ∈ (s.handler other).uncopied,
        s.bufPos + buf.length + text.length ≤ bufSize))
  | .idle | .called _ | .stopped _ | .leaving => inferInstanceAs (Decidable True)

instance (s : Logger Thread) (ret : Int) (point : NetPoint) : Decidable (s.NetFits ret point) :=
  match point with
  | .send sent => inferInstanceAs (Decidable (¬ ret < 0 → sent + ret ≤ s.bufPos))
  | .sentAll _ => inferInstanceAs (Decidable (s.isConnected → Settled s.handler))
  | .written => inferInstanceAs (Decidable (Settled s.handler))
  | .loop | .test | .waitNet | .sendTest _ | .waitFile => inferInstanceAs (Decidable True)

instance (s : Logger Thread) (action : Action Thread) : Decidable (s.Fits action) :=
  match action with
  | .handler thread opens =>
      inferInstanceAs (Decidable (s.HandlerFits thread opens (s.handler thread)))
  | .net ret => inferInstanceAs (Decidable (s.NetFits ret s.netPoint))
  | .debugHandler _ _ | .putcharHandler _ _ => inferInstanceAs (Decidable True)

end

/-- Drains and overflows delivered what they should have, and the buffer does not overflow. -/
structure Delivers (s : Logger Thread) : Prop where
  drains : ∀ transfer ∈ s.drains, transfer.delivered = transfer.expected
  flushes : ∀ transfer ∈ s.flushes, transfer.delivered = transfer.expected
  room : s.bufPos ≤ bufSize

structure Good (s : Logger Thread) : Prop extends s.Delivers where
  logged : s.buffer.slice 0 s.bufPos = s.logged
  behind : s.draining → s.netPoint.sent ≤ s.bufPos
  accepted : s.draining → s.accepted = s.buffer.slice 0 s.netPoint.sent
  all : s.clearsNext → s.netPoint.sent = s.bufPos

def Stored (buffer : Memory) (bufPos : Nat) : HandlerPoint → Prop
  | .copying buf => bufPos + buf.length ≤ bufSize
  | .copied buf => bufPos + buf.length ≤ bufSize ∧ buffer.slice bufPos buf.length = buf
  | .idle | .called _ | .stopped _ | .flushing _ | .clearing _ | .leaving => True

/-- What a call has found to fit still fits, and what it has copied lies where it is counted. -/
structure Calls (handler : Thread → HandlerPoint) (buffer : Memory) (bufPos : Nat) : Prop where
  short : ∀ thread, (handler thread).text.length ≤ bufSize
  stored : ∀ thread, Stored buffer bufPos (handler thread)
  alone : ∀ thread other, other ≠ thread → (handler thread).uncounted ≠ [] →
    (handler other).uncounted = []

section

variable {handler : Thread → HandlerPoint} {buffer : Memory} {bufPos : Nat}
  (calls : Calls handler buffer bufPos)
include calls

theorem Calls.goto [DecidableEq Thread] (thread : Thread) {point : HandlerPoint}
    (short : point.text.length ≤ bufSize) (stored : Stored buffer bufPos point)
    (settled : point.uncounted ≠ [] → Settled handler) :
    Calls (Function.update handler thread point) buffer bufPos where
  short := fun own => by
    by_cases same : own = thread
    next => rwa [same, Function.update_self]
    next => rw [Function.update_of_ne same]; exact calls.short own
  stored := fun own => by
    by_cases same : own = thread
    next => rwa [same, Function.update_self]
    next => rw [Function.update_of_ne same]; exact calls.stored own
  alone := fun own other apart copied => by
    by_cases same : own = thread
    next =>
      subst same
      rw [Function.update_self] at copied
      rw [Function.update_of_ne apart]
      exact settled copied other
    next =>
      rw [Function.update_of_ne same] at copied
      by_cases last : other = thread
      next =>
        rw [last, Function.update_self]
        by_contra uncounted
        exact copied (settled uncounted own)
      next =>
        rw [Function.update_of_ne last]
        exact calls.alone own other apart copied

theorem Calls.clear (settled : Settled handler) (cleared : Memory) : Calls handler cleared 0 where
  short := calls.short
  alone := calls.alone
  stored := fun thread => by
    have short := calls.short thread
    have nothing := settled thread
    cases point : handler thread with
    | copying buf =>
        rw [point] at short
        exact (Nat.zero_add _).trans_le short
    | copied buf =>
        rw [point] at nothing
        obtain rfl : buf = [] := nothing
        exact ⟨Nat.zero_le _, rfl⟩
    | _ => trivial

theorem Calls.copy (settled : Settled handler) (copied : Memory) :
    Calls handler copied bufPos where
  short := calls.short
  alone := calls.alone
  stored := fun thread => by
    have stored := calls.stored thread
    have nothing := settled thread
    cases point : handler thread with
    | copying buf =>
        rw [point] at stored
        exact stored
    | copied buf =>
        rw [point] at stored nothing
        obtain rfl : buf = [] := nothing
        exact ⟨stored.1, rfl⟩
    | _ => trivial

theorem Calls.advance {count : Nat} (room : bufPos + count ≤ bufSize)
    (left : ∀ thread, ∀ text ∈ (handler thread).uncopied, bufPos + count + text.length ≤ bufSize)
    (settled : count ≠ 0 → Settled handler) : Calls handler buffer (bufPos + count) where
  short := calls.short
  alone := calls.alone
  stored := fun thread => by
    have stored := calls.stored thread
    have leaves := left thread
    cases point : handler thread with
    | copying buf =>
        rw [point] at leaves
        exact leaves buf rfl
    | copied buf =>
        by_cases same : count = 0
        next =>
          rw [point] at stored
          rwa [same]
        next =>
          have nothing := settled same thread
          rw [point] at nothing
          obtain rfl : buf = [] := nothing
          exact ⟨room, rfl⟩
    | _ => trivial

end

theorem Good.handler {s : Logger Thread} (good : s.Good) (handler : Thread → HandlerPoint)
    (sendFlag : EventFlag) : { s with handler := handler, sendFlag := sendFlag }.Good :=
  { good with }

theorem all_append {transfers : List Transfer} {delivered expected : List Byte}
    (all : ∀ transfer ∈ transfers, transfer.delivered = transfer.expected)
    (same : delivered = expected) :
    ∀ transfer ∈ transfers ++ [⟨delivered, expected⟩], transfer.delivered = transfer.expected := by
  intro transfer member
  rcases List.mem_append.mp member with old | new
  · exact all transfer old
  · rw [List.mem_singleton.mp new]
    exact same

section

variable {s : Logger Thread} (good : s.Good)
include good

theorem Good.flush {delivered : List Byte} (written : delivered = s.logged) :
    { s with flushes := s.flushes ++ [Transfer.mk delivered s.logged] }.Good :=
  { good with flushes := all_append good.flushes written }

theorem Good.clear (unsent : s.draining → s.netPoint.sent = 0) : s.bufClear.Good where
  drains := good.drains
  flushes := good.flushes
  room := Nat.zero_le _
  logged := rfl
  behind := fun draining => (unsent draining).le
  accepted := fun draining => by
    have nothing := good.accepted draining
    rw [unsent draining] at nothing
    exact nothing.trans (congrArg (s.bufClear.buffer.slice 0) (unsent draining)).symm
  all := fun clears => unsent (draining_of_clearsNext clears)

theorem Good.copy (count : Nat) (source : Memory) :
    { s with buffer := s.buffer.copy s.bufPos count source }.Good := by
  have kept {length : Nat} (inside : length ≤ s.bufPos) :
      (s.buffer.copy s.bufPos count source).slice 0 length = s.buffer.slice 0 length :=
    Memory.slice_copy_below s.buffer s.bufPos (by omega) count source
  exact
    { good with
      logged := (kept (le_refl _)).trans good.logged
      accepted := fun draining =>
        (good.accepted draining).trans (kept (good.behind draining)).symm }

theorem Good.advance {buf : List Byte} (room : s.bufPos + buf.length ≤ bufSize)
    (there : s.buffer.slice s.bufPos buf.length = buf) (early : s.clearsNext → buf = []) :
    { s with bufPos := s.bufPos + buf.length, logged := s.logged ++ buf }.Good :=
  { good with
    room := room
    logged := by
      have whole := Memory.slice_append s.buffer 0 s.bufPos buf.length
      rwa [good.logged, Nat.zero_add, there] at whole
    behind := fun draining => (good.behind draining).trans (Nat.le_add_right _ _)
    all := fun clears => by
      rw [early clears]
      exact good.all clears }

theorem Good.drain {delivered expected : List Byte} (same : delivered = expected) :
    { s with drains := s.drains ++ [Transfer.mk delivered expected] }.Good :=
  { good with drains := all_append good.drains same }

theorem Good.rest {netPoint : NetPoint} {isConnected : Bool} (sendFlag : EventFlag)
    (rests : { s with netPoint, isConnected, sendFlag }.draining = false) :
    { s with netPoint, isConnected, sendFlag }.Good :=
  { good with
    behind := fun draining => absurd draining (Bool.eq_false_iff.mp rests)
    accepted := fun draining => absurd draining (Bool.eq_false_iff.mp rests)
    all := fun clears => absurd (draining_of_clearsNext clears) (Bool.eq_false_iff.mp rests) }

theorem Good.start (sendFlag : EventFlag) :
    { s with accepted := [], netPoint := .sendTest 0, sendFlag }.Good :=
  { good with
    behind := fun _ => Nat.zero_le _
    accepted := fun _ => rfl
    all := fun clears => by contradiction }

theorem Good.test {sent : Nat} (point : s.netPoint = .sendTest sent) :
    { s with netPoint := if sent < s.bufPos then .send sent else .sentAll sent }.Good := by
  have draining : s.draining := by rw [Logger.draining, point]
  have behind := good.behind draining
  have accepted := good.accepted draining
  rw [point] at behind accepted
  split
  next =>
    exact
      { good with
        behind := fun _ => behind
        accepted := fun _ => accepted
        all := fun clears => by contradiction }
  next done =>
    exact
      { good with
        behind := fun _ => behind
        accepted := fun _ => accepted
        all := fun _ => le_antisymm behind (Nat.le_of_not_lt done) }

theorem Good.send {sent count : Nat} (point : s.netPoint = .send sent)
    (left : sent + count ≤ s.bufPos) :
    { s with
      accepted := s.accepted ++ s.buffer.slice sent count
      netPoint := .sendTest (sent + count) }.Good := by
  have draining : s.draining := by rw [Logger.draining, point]
  have accepted := good.accepted draining
  rw [point] at accepted
  exact
    { good with
      behind := fun _ => left
      accepted := fun _ => by
        have whole := Memory.slice_append s.buffer 0 sent count
        rw [Nat.zero_add, ← show s.accepted = s.buffer.slice 0 sent from accepted] at whole
        exact whole.symm
      all := fun clears => by contradiction }

theorem Good.clearLoop : { s.bufClear with netPoint := .loop }.Good := by
  have rests : { s with netPoint := .loop }.Good := good.rest s.sendFlag rfl
  exact rests.clear fun draining => by contradiction

end

theorem netStep_good {s t : Logger Thread} {config : ConfigFile} {ret : Int} (good : s.Good)
    (fits : s.NetFits ret s.netPoint) (step : s.netStep config ret = some t) : t.Good := by
  cases point : s.netPoint with
  | loop =>
      simp only [netStep, point] at step
      split at step <;> cases step <;> exact good.rest _ rfl
  | test =>
      simp only [netStep, point] at step
      split_ifs at step <;> cases step <;> exact good.rest _ rfl
  | waitNet =>
      simp only [netStep, point, waitSendOut] at step
      split_ifs at step <;> cases step <;> exact good.start _
  | sendTest sent =>
      simp only [netStep, point] at step
      cases step
      exact good.test point
  | send sent =>
      simp only [netStep, point] at step
      simp only [NetFits, point] at fits
      split at step
      next =>
        cases step
        exact good.rest _ rfl
      next accepts =>
        split at step
        next =>
          cases step
          have left := fits accepts
          exact good.send point (by omega)
        next => contradiction
  | sentAll sent =>
      simp only [netStep, point] at step
      split at step
      next connected =>
        cases step
        have clears : s.clearsNext := by
          rw [clearsNext, point]
          exact connected
        have delivered := good.accepted (draining_of_clearsNext clears)
        rw [good.all clears] at delivered
        exact good.clearLoop.drain delivered
      next =>
        cases step
        exact good.rest _ (by simp_all [draining, clearsNext])
  | waitFile =>
      simp only [netStep, point, waitSendOut] at step
      split_ifs at step <;> cases step <;> exact good.rest _ rfl
  | written =>
      simp only [netStep, point] at step
      cases step
      exact good.clearLoop

variable [DecidableEq Thread]

theorem handlerStep_good {s t : Logger Thread} {thread : Thread} {opens : Bool} (good : s.Good)
    (calls : Calls s.handler s.buffer s.bufPos)
    (fits : s.HandlerFits thread opens (s.handler thread))
    (step : s.handlerStep thread opens = some t) : t.Good := by
  cases point : s.handler thread with
  | idle =>
      simp only [handlerStep, point] at step
      contradiction
  | called buf =>
      simp only [handlerStep, point] at step
      cases step
      exact good.handler _ _
  | stopped buf =>
      simp only [handlerStep, point] at step
      cases step
      exact good.handler _ _
  | flushing buf =>
      simp only [handlerStep, point] at step
      simp only [HandlerFits, point] at fits
      cases step
      have written : logWrite opens s.buffer bufSize = s.logged := by
        rw [← good.logged, fits, logWrite]
        cases opens <;> rfl
      exact (good.flush written).handler _ _
  | clearing buf =>
      simp only [handlerStep, point] at step
      simp only [HandlerFits, point] at fits
      cases step
      exact (good.clear fits.2).handler _ _
  | copying buf =>
      simp only [handlerStep, point] at step
      cases step
      exact (good.copy buf.length fun k => buf.getD k 0).handler _ _
  | copied buf =>
      simp only [handlerStep, point] at step
      simp only [HandlerFits, point] at fits
      have stored := calls.stored thread
      rw [point] at stored
      cases step
      exact (good.advance stored.1 stored.2 fits.1).handler _ _
  | leaving =>
      simp only [handlerStep, point] at step
      cases step
      exact good.handler _ _

theorem enter_good {s t : Logger Thread} {thread : Thread} {buf : List Byte} (good : s.Good)
    (step : s.enter thread buf = some t) : t.Good := by
  unfold enter at step
  split at step
  next =>
    cases step
    exact good.handler _ _
  next => contradiction

theorem handlerStep_calls {s t : Logger Thread} {thread : Thread} {opens : Bool}
    (calls : Calls s.handler s.buffer s.bufPos)
    (fits : s.HandlerFits thread opens (s.handler thread))
    (step : s.handlerStep thread opens = some t) : Calls t.handler t.buffer t.bufPos := by
  have short := calls.short thread
  have stored := calls.stored thread
  cases point : s.handler thread with
  | idle =>
      simp only [handlerStep, point] at step
      contradiction
  | called buf =>
      simp only [handlerStep, point] at step
      rw [point] at short
      cases step
      exact calls.goto thread short trivial fun copied => absurd rfl copied
  | stopped buf =>
      simp only [handlerStep, point] at step
      rw [point] at short
      cases step
      split
      next => exact calls.goto thread short trivial fun copied => absurd rfl copied
      next fit =>
        exact calls.goto thread short (Nat.le_of_not_lt fit) fun copied => absurd rfl copied
  | flushing buf =>
      simp only [handlerStep, point] at step
      rw [point] at short
      cases step
      exact calls.goto thread short trivial fun copied => absurd rfl copied
  | clearing buf =>
      simp only [handlerStep, point] at step
      simp only [HandlerFits, point] at fits
      rw [point] at short
      cases step
      exact (calls.clear fits.1 _).goto thread short ((Nat.zero_add _).trans_le short)
        fun copied => absurd rfl copied
  | copying buf =>
      simp only [handlerStep, point] at step
      simp only [HandlerFits, point] at fits
      rw [point] at short stored
      cases step
      have there : (s.buffer.copy s.bufPos buf.length fun k => buf.getD k 0).slice s.bufPos
          buf.length = buf := Memory.slice_copy _ _ _
      by_cases empty : buf = []
      next =>
        have same : (s.buffer.copy s.bufPos buf.length fun k => buf.getD k 0) = s.buffer := by
          rw [empty]
          exact funext fun a => if_neg fun both => Nat.not_lt.mpr both.1 both.2
        rw [same] at there ⊢
        exact calls.goto thread short ⟨stored, there⟩ fun copied => absurd empty copied
      next =>
        exact (calls.copy (fits empty) _).goto thread short ⟨stored, there⟩ fun _ => fits empty
  | copied buf =>
      simp only [handlerStep, point] at step
      simp only [HandlerFits, point] at fits
      have alone := calls.alone thread
      rw [point] at stored alone
      cases step
      have left : Calls (Function.update s.handler thread .leaving) s.buffer s.bufPos :=
        calls.goto thread (Nat.zero_le _) trivial fun copied => absurd rfl copied
      refine left.advance stored.1 (fun other text member => ?_) fun nonempty other => ?_
      · by_cases own : other = thread
        next =>
          rw [own, Function.update_self] at member
          contradiction
        next =>
          rw [Function.update_of_ne own] at member
          exact fits.2 other own text member
      · by_cases own : other = thread
        next =>
          rw [own, Function.update_self]
          rfl
        next =>
          rw [Function.update_of_ne own]
          exact alone other own fun empty => nonempty (congrArg List.length empty)
  | leaving =>
      simp only [handlerStep, point] at step
      cases step
      exact calls.goto thread (Nat.zero_le _) trivial fun copied => absurd rfl copied

theorem enter_calls {s t : Logger Thread} {thread : Thread} {buf : List Byte}
    (calls : Calls s.handler s.buffer s.bufPos) (short : buf.length ≤ bufSize)
    (step : s.enter thread buf = some t) : Calls t.handler t.buffer t.bufPos := by
  unfold enter at step
  split at step
  next =>
    cases step
    exact calls.goto thread short trivial fun copied => absurd rfl copied
  next => contradiction

omit [DecidableEq Thread] in
theorem netStep_calls {s t : Logger Thread} {config : ConfigFile} {ret : Int}
    (calls : Calls s.handler s.buffer s.bufPos) (fits : s.NetFits ret s.netPoint)
    (step : s.netStep config ret = some t) : Calls t.handler t.buffer t.bufPos := by
  cases point : s.netPoint with
  | loop | test =>
      simp only [netStep, point] at step
      split_ifs at step <;> cases step <;> exact calls
  | waitNet | waitFile =>
      simp only [netStep, point, waitSendOut] at step
      split_ifs at step <;> cases step <;> exact calls
  | sendTest sent =>
      simp only [netStep, point] at step
      cases step
      exact calls
  | send sent =>
      simp only [netStep, point] at step
      split_ifs at step <;> cases step <;> exact calls
  | sentAll sent =>
      simp only [netStep, point] at step
      simp only [NetFits, point] at fits
      split at step
      next connected =>
        cases step
        exact calls.clear (fits connected) _
      next =>
        cases step
        exact calls
  | written =>
      simp only [netStep, point] at step
      simp only [NetFits, point] at fits
      cases step
      exact calls.clear fits _

theorem step_calls {s t : Logger Thread} {config : ConfigFile} (action : Action Thread)
    (calls : Calls s.handler s.buffer s.bufPos) (fits : s.Fits action)
    (step : s.step config action = some t) : Calls t.handler t.buffer t.bufPos := by
  cases action with
  | debugHandler thread text =>
      have short : ((text.take 511).takeWhile (· ≠ 0)).length ≤ 511 :=
        ( List.takeWhile_prefix _).length_le.trans (List.length_take_le _ _)
      exact enter_calls calls (short.trans (by decide)) step
  | putcharHandler thread c =>
      exact enter_calls calls (List.length_singleton.trans_le (by decide)) step
  | handler thread opens => exact handlerStep_calls calls fits step
  | net ret => exact netStep_calls calls fits step

theorem step_good {s t : Logger Thread} {config : ConfigFile} (action : Action Thread)
    (good : s.Good) (calls : Calls s.handler s.buffer s.bufPos) (fits : s.Fits action)
    (step : s.step config action = some t) : t.Good := by
  cases action with
  | debugHandler thread text => exact enter_good good step
  | putcharHandler thread c => exact enter_good good step
  | handler thread opens => exact handlerStep_good good calls fits step
  | net ret => exact netStep_good good fits step

end Logger

theorem started_good {Thread : Type} (heap : Memory) : (started heap : Logger Thread).Good where
  drains := fun _ member => absurd member List.not_mem_nil
  flushes := fun _ member => absurd member List.not_mem_nil
  room := Nat.zero_le _
  logged := rfl
  behind := fun draining => by contradiction
  accepted := fun draining => by contradiction
  all := fun clears => by contradiction

theorem started_calls {Thread : Type} (heap : Memory) :
    Logger.Calls (started heap : Logger Thread).handler (started heap : Logger Thread).buffer
      (started heap : Logger Thread).bufPos where
  short := fun _ => Nat.zero_le _
  stored := fun _ => trivial
  alone := fun _ _ _ copied => absurd rfl copied

/-- In every run whose steps fit, each drain that ends with `bufClear` has delivered the
buffer, each overflow has written what was logged, and `buf_pos` stays in range. -/
theorem shipLog_delivers {Thread : Type} [DecidableEq Thread] {config : ConfigFile}
    {heap : Memory} {s : Logger Thread}
    (reached : (shipLog config).Reachable Logger.Fits (started heap) s) : s.Delivers := by
  have kept : s.Good ∧ Logger.Calls s.handler s.buffer s.bufPos := by
    refine reached.invariant (fun s => s.Good ∧ Logger.Calls s.handler s.buffer s.bufPos)
      ⟨started_good heap, started_calls heap⟩ ?_
    rintro s action t ⟨good, calls⟩ fits step
    exact ⟨Logger.step_good action good calls fits step, Logger.step_calls action calls fits step⟩
  exact kept.1.toDelivers

-- Two bytes are logged, and `main_netdbg` comes to its first send.
def logTwo : List (Action Unit) :=
  [.debugHandler () [0x61, 0x62], .handler () true, .handler () true, .handler () true,
    .handler () true, .handler () true, .net 0, .net 0, .net 0, .net 0]

theorem shipLog_delivers_twoSends :
    ∃ s : Logger Unit, (shipLog ⟨true, false⟩).Reachable Logger.Fits (started fun _ => 0) s ∧
      s.drains = [⟨[0x61, 0x62], [0x61, 0x62]⟩] ∧ s.Delivers := by
  have run : ∃ s, (shipLog ⟨true, false⟩).follow Logger.Fits (started fun _ => 0)
      (logTwo ++ [.net 1, .net 0, .net 1, .net 0, .net 0]) = some s ∧
        s.drains = [⟨[0x61, 0x62], [0x61, 0x62]⟩] := ⟨_, rfl, rfl⟩
  obtain ⟨s, followed, drains⟩ := run
  have reached := Transitions.reachable_of_follow .start _ followed
  exact ⟨s, reached, drains, shipLog_delivers reached⟩

section

variable {heap : Memory} {buf : List Byte} (printed : (buf.take 511).takeWhile (· ≠ 0) = buf)
  {s : Logger Unit} (reached : (shipLog ⟨true, false⟩).Reachable (fun _ _ => True) (started heap) s)
  (idle : s.handler () = .idle)
include printed reached idle

theorem call_tests : ∃ t : Logger Unit,
    (shipLog ⟨true, false⟩).Reachable (fun _ _ => True) (started heap) t ∧
      t.bufPos = s.bufPos ∧ t.logged = s.logged ∧ t.flushes = s.flushes ∧ t.handler () =
        if bufSize < s.bufPos + buf.length then .flushing buf else .copying buf := by
  have called : (shipLog ⟨true, false⟩).step s (.debugHandler () buf) =
      some (s.goto () (.called buf)) := by
    simp only [shipLog, Logger.step, Logger.debugHandler, Logger.enter, printed, idle]
  have tested := ((reached.next _ trivial called).next (.handler () true) trivial rfl).next
    (.handler () true) trivial rfl
  exact ⟨_, tested, rfl, rfl, rfl, rfl⟩

theorem call_appends (room : s.bufPos + buf.length ≤ bufSize) : ∃ t : Logger Unit,
    (shipLog ⟨true, false⟩).Reachable (fun _ _ => True) (started heap) t ∧
      t.handler () = .idle ∧ t.bufPos = s.bufPos + buf.length ∧ t.logged = s.logged ++ buf := by
  obtain ⟨t, tested, bufPos, logged, _, point⟩ := call_tests printed reached idle
  rw [if_neg (Nat.not_lt.mpr room)] at point
  have copied : (shipLog ⟨true, false⟩).step t (.handler () true) = some
      { t.goto () (.copied buf) with
        buffer := t.buffer.copy t.bufPos buf.length fun k => buf.getD k 0 } := by
    simp only [shipLog, Logger.step, Logger.handlerStep, point]
  have returned := ((tested.next _ trivial copied).next (.handler () true) trivial rfl).next
    (.handler () true) trivial rfl
  refine ⟨_, returned, rfl, ?_, ?_⟩
  · exact congrArg (· + buf.length) bufPos
  · exact congrArg (· ++ buf) logged

theorem call_overflows (full : bufSize < s.bufPos + buf.length) : ∃ t : Logger Unit,
    (shipLog ⟨true, false⟩).Reachable (fun _ _ => True) (started heap) t ∧
      ∃ transfer ∈ t.flushes, transfer.delivered.length = bufSize ∧
        transfer.expected = s.logged := by
  obtain ⟨t, tested, bufPos, logged, _, point⟩ := call_tests printed reached idle
  rw [if_pos full] at point
  have written : (shipLog ⟨true, false⟩).step t (.handler () true) = some
      { t.goto () (.clearing buf) with
        flushes := t.flushes ++ [⟨t.buffer.slice 0 bufSize, t.logged⟩] } := by
    simp only [shipLog, Logger.step, Logger.handlerStep, point, logWrite, if_true]
  have overflow : Transfer.mk (t.buffer.slice 0 bufSize) t.logged ∈
      t.flushes ++ [Transfer.mk (t.buffer.slice 0 bufSize) t.logged] :=
    List.mem_append_right _ (List.mem_singleton_self _)
  have length := Memory.slice_length t.buffer 0 bufSize
  generalize t.buffer.slice 0 bufSize = delivered at written overflow length
  exact ⟨_, tested.next _ trivial written, _, overflow, length, logged⟩

end

theorem padding_written : ∃ s : Logger Unit,
    (shipLog ⟨true, false⟩).Reachable (fun _ _ => True) (started fun _ => 0) s ∧
      ∃ transfer ∈ s.flushes, transfer.delivered.length = 0x8000 ∧
        transfer.expected.length = 0x7fc0 := by
  let buf : List Byte := List.replicate 511 0x61
  have length : buf.length = 511 := List.length_replicate
  have printed : (buf.take 511).takeWhile (· ≠ 0) = buf := by
    rw [List.take_of_length_le length.le, List.takeWhile_eq_self_iff]
    intro byte member
    rw [List.eq_of_mem_replicate member]
    decide
  have filled : ∀ calls ≤ 64, ∃ s : Logger Unit,
      (shipLog ⟨true, false⟩).Reachable (fun _ _ => True) (started fun _ => 0) s ∧
        s.handler () = .idle ∧ s.bufPos = 511 * calls ∧ s.logged.length = 511 * calls := by
    intro calls
    induction calls with
    | zero => exact fun _ => ⟨_, .start, rfl, rfl, rfl⟩
    | succ calls ih =>
        intro few
        obtain ⟨s, reached, idle, bufPos, logged⟩ := ih (Nat.le_of_lt few)
        have room : s.bufPos + buf.length ≤ bufSize := by
          rw [bufPos, length, bufSize]
          omega
        obtain ⟨t, later, again, moved, appended⟩ := call_appends printed reached idle room
        refine ⟨t, later, again, ?_, ?_⟩
        · rw [moved, bufPos, length]
          omega
        · rw [appended, List.length_append, logged, length]
          omega
  obtain ⟨s, reached, idle, bufPos, logged⟩ := filled 64 (le_refl _)
  obtain ⟨t, later, transfer, member, delivered, expected⟩ :=
    call_overflows printed reached idle (by rw [bufPos, length, bufSize]; omega)
  exact ⟨t, later, transfer, member, delivered, by rw [expected, logged]⟩

/-- A second send that is passed both bytes after the first took one, and an overflow of a
buffer that is not full. -/
theorem shipLog_not_delivers :
    (∃ s : Logger Unit, (shipLog ⟨true, false⟩).Reachable (fun _ _ => True)
      (started fun _ => 0) s ∧ s.drains = [⟨[0x61, 0x62, 0], [0x61, 0x62]⟩] ∧ ¬ s.Delivers) ∧
    ∃ s : Logger Unit, (shipLog ⟨true, false⟩).Reachable (fun _ _ => True)
      (started fun _ => 0) s ∧ ∃ transfer ∈ s.flushes, transfer.delivered.length = 0x8000 ∧
        transfer.expected.length = 0x7fc0 ∧ ¬ s.Delivers := by
  constructor
  · have run : ∃ s, (shipLog ⟨true, false⟩).follow (fun _ _ => True) (started fun _ => 0)
        (logTwo ++ [.net 1, .net 0, .net 2, .net 0, .net 0]) = some s ∧
          s.drains = [⟨[0x61, 0x62, 0], [0x61, 0x62]⟩] := ⟨_, rfl, rfl⟩
    obtain ⟨s, followed, drains⟩ := run
    refine ⟨s, Transitions.reachable_of_follow .start _ followed, drains, fun delivers => ?_⟩
    have same := delivers.drains ⟨[0x61, 0x62, 0], [0x61, 0x62]⟩ (by rw [drains]; exact .head _)
    contradiction
  · obtain ⟨s, reached, transfer, member, delivered, expected⟩ := padding_written
    refine ⟨s, reached, transfer, member, delivered, expected, fun delivers => ?_⟩
    have same := congrArg List.length (delivers.flushes transfer member)
    rw [delivered, expected] at same
    contradiction

end VitaTools.ShipLog
