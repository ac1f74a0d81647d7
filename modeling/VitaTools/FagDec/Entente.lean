import VitaTools.Library.Transition

set_option autoImplicit false

namespace VitaTools.FagDec

open VitaTools.Library

inductive Status
  | none
  | update
  | done
  | doneseg
deriving DecidableEq, Repr

-- The static variables `log` and `status` of `kentente.c`.
structure Entente where
  log : String
  status : Status
deriving DecidableEq

namespace Entente

-- `_log(stat, text)`.
def report (_ : Entente) (stat : Status) (text : String) : Entente := ⟨text, stat⟩

-- `kuEntenteGetLogs(dest)`: what it copies and what it leaves.
def kuEntenteGetLogs (e : Entente) : String × Entente := (e.log, { e with status := .none })

abbrev kuEntenteStatus (e : Entente) : Status := e.status

end Entente

-- What the decrypt thread logs on its way: the start of the work on a segment (or an
-- error in it), or its end.
inductive Progress
  | update (text : String)
  | doneseg (text : String)
deriving DecidableEq

-- The decrypt thread: the logs it still makes before the one with `ENTENTE_DONE` at
-- `fail:`; `none` once it has made that.
structure DecryptThread where
  pending : Option (List Progress)
  result : String
deriving DecidableEq

inductive Polling
  -- `while(userAlliedStatus() != ENTENTE_UPDATE);`
  | wait
  -- The first test in the loop.
  | testDoneseg
  -- Inside the first `if`.
  | getDoneseg
  | testUpdate
  | getUpdate
  | testDone
  -- Behind the `break`.
  | observed
  -- Behind the last `userAlliedGetLogs`.
  | left
deriving DecidableEq, Repr

structure Handshake where
  entente : Entente
  thread : DecryptThread
  polling : Polling
  buffer : String
deriving DecidableEq

inductive Party
  | kernel
  | app
deriving DecidableEq, Repr

namespace Handshake

def kernelStep (s : Handshake) : Option Handshake :=
  match s.thread.pending with
  | some (.update text :: rest) => some { s with
      entente := s.entente.report .update text
      thread := { s.thread with pending := some rest } }
  | some (.doneseg text :: rest) => some { s with
      entente := s.entente.report .doneseg text
      thread := { s.thread with pending := some rest } }
  | some [] => some { s with
      entente := s.entente.report .done s.thread.result
      thread := { s.thread with pending := none } }
  | none => none

-- The next `userAlliedStatus` or `userAlliedGetLogs` of `dumpThread`.
def appStep (s : Handshake) : Option Handshake :=
  let status := s.entente.kuEntenteStatus
  let (text, reset) := s.entente.kuEntenteGetLogs
  match s.polling with
  | .wait => some { s with polling := if status ≠ .update then .wait else .testDoneseg }
  | .testDoneseg =>
      some { s with polling := if status = .doneseg then .getDoneseg else .testUpdate }
  | .getDoneseg => some { s with polling := .testUpdate, entente := reset, buffer := text }
  | .testUpdate => some { s with polling := if status = .update then .getUpdate else .testDone }
  | .getUpdate => some { s with polling := .testDoneseg, entente := reset, buffer := text }
  | .testDone => some { s with polling := if status = .done then .observed else .testDoneseg }
  | .observed => some { s with polling := .left, entente := reset, buffer := text }
  | .left => none

def step (s : Handshake) : Party → Option Handshake
  | .kernel => s.kernelStep
  | .app => s.appStep

def Finished (s : Handshake) : Prop := s.thread.pending = none

def Waiting (s : Handshake) : Prop := s.polling ≠ .observed ∧ s.polling ≠ .left

-- The completion is lost: nothing will tell `dumpThread` of it any more.
def Lost (s : Handshake) : Prop := s.Finished ∧ s.entente.status ≠ .done ∧ s.Waiting

-- `dumpThread` has read a status and will reset it without reading it again.
def Resetting (s : Handshake) : Prop := s.polling = .getDoneseg ∨ s.polling = .getUpdate

-- The decrypt thread does not make its last log between a status read and the reset.
def FinishesOutside (s : Handshake) (party : Party) : Prop :=
  party = .kernel → s.thread.pending = some [] → ¬ s.Resetting

instance (s : Handshake) : Decidable s.Resetting :=
  inferInstanceAs (Decidable (s.polling = .getDoneseg ∨ s.polling = .getUpdate))

instance (s : Handshake) (party : Party) : Decidable (s.FinishesOutside party) :=
  inferInstanceAs (Decidable (party = .kernel → s.thread.pending = some [] → ¬ s.Resetting))

end Handshake

def handshake : Transitions Handshake Party := ⟨Handshake.step⟩

namespace Handshake

-- Both parties at their start. The status word may hold anything.
structure Begun (s : Handshake) : Prop where
  unfinished : ¬ s.Finished
  waiting : s.polling = .wait

-- Once the decrypt thread has finished, its status stands until `dumpThread` has seen it.
def Kept (s : Handshake) : Prop :=
  s.Finished → s.Waiting → s.entente.status = .done ∧ ¬ s.Resetting

theorem kernelStep_cases {s t : Handshake} (step : s.kernelStep = some t) :
    ¬ t.Finished ∨ s.thread.pending = some [] ∧ t.entente.status = .done ∧
      t.polling = s.polling := by
  unfold kernelStep at step
  split at step
  case h_1 | h_2 =>
    cases step
    exact .inl (Option.some_ne_none _)
  case h_3 pending =>
    cases step
    exact .inr ⟨pending, rfl, rfl⟩
  case h_4 => contradiction

theorem kernelStep_kept {s t : Handshake} (outside : s.FinishesOutside .kernel)
    (step : s.kernelStep = some t) : t.Kept := by
  intro finished _
  rcases kernelStep_cases step with running | ⟨last, status, still⟩
  · exact absurd finished running
  · refine ⟨status, ?_⟩
    unfold Resetting
    rw [still]
    exact outside rfl last

theorem appStep_thread {s t : Handshake} (step : s.appStep = some t) :
    t.thread = s.thread := by
  unfold appStep at step
  cases polling : s.polling <;> simp only [polling] at step <;> cases step <;> rfl

theorem appStep_kept {s t : Handshake} (kept : s.Kept) (step : s.appStep = some t) :
    t.Kept := by
  intro finished waiting
  have before : s.Finished := by
    unfold Finished at finished ⊢
    rwa [appStep_thread step] at finished
  unfold appStep at step
  unfold Kept Waiting Resetting at kept
  cases polling : s.polling <;>
    simp only [polling, Entente.kuEntenteStatus, Entente.kuEntenteGetLogs] at step kept
  case left => contradiction
  case observed =>
    cases step
    exact absurd rfl waiting.2
  case getDoneseg | getUpdate =>
    have done := kept before (by simp)
    simp at done
  all_goals
    obtain ⟨status, _⟩ := kept before (by simp)
    simp only [status] at step
    cases step
    simp_all [Resetting, Waiting]

theorem step_kept {s t : Handshake} (party : Party) (kept : s.Kept)
    (outside : s.FinishesOutside party) (step : s.step party = some t) : t.Kept := by
  cases party with
  | kernel => exact kernelStep_kept outside step
  | app => exact appStep_kept kept step

theorem lost_forever {s t : Handshake} (party : Party) (lost : s.Lost)
    (step : s.step party = some t) : t.Lost := by
  obtain ⟨finished, status, waiting⟩ := lost
  cases party with
  | kernel =>
      have pending : s.thread.pending = none := finished
      simp [Handshake.step, kernelStep, pending] at step
  | app =>
      have still : t.Finished := by
        unfold Finished
        rw [appStep_thread step]
        exact finished
      refine ⟨still, ?_⟩
      change s.appStep = some t at step
      unfold appStep at step
      unfold Waiting at waiting
      cases polling : s.polling <;>
        simp only [polling, Entente.kuEntenteStatus, Entente.kuEntenteGetLogs] at step waiting
      case observed => exact absurd rfl waiting.1
      case left => exact absurd rfl waiting.2
      case getDoneseg | getUpdate =>
        cases step
        exact ⟨nofun, nofun, nofun⟩
      case testDone =>
        rw [if_neg status] at step
        cases step
        exact ⟨status, nofun, nofun⟩
      all_goals
        cases step
        refine ⟨status, ?_, ?_⟩ <;> dsimp only <;> split_ifs <;> simp

theorem lost_of_resetting {s t u : Handshake} (last : s.thread.pending = some [])
    (resetting : s.Resetting) (logged : s.kernelStep = some t) (reset : t.appStep = some u) :
    u.Lost := by
  simp only [kernelStep, last] at logged
  cases logged
  rcases resetting with polling | polling
  · simp only [appStep, polling, Entente.kuEntenteGetLogs] at reset
    cases reset
    exact ⟨rfl, nofun, nofun, nofun⟩
  · simp only [appStep, polling, Entente.kuEntenteGetLogs] at reset
    cases reset
    exact ⟨rfl, nofun, nofun, nofun⟩

end Handshake

/-- In every run in which the decrypt thread does not make its last log between one of
`dumpThread`'s status reads and the reset after it, the completion is never lost. With a last log
there it is lost for good. -/
theorem handshake_keeps_done {start s : Handshake} (begun : start.Begun)
    (reached : handshake.Reachable Handshake.FinishesOutside start s) :
    ¬ s.Lost ∧ ∀ t u v, s.thread.pending = some [] → s.Resetting → s.kernelStep = some t →
      t.appStep = some u → handshake.Reachable (fun _ _ => True) u v → v.Lost := by
  have kept : s.Kept := by
    refine reached.invariant Handshake.Kept ?_ ?_
    · intro finished
      exact absurd finished begun.unfinished
    · intro s party t kept outside step
      exact Handshake.step_kept party kept outside step
  constructor
  · rintro ⟨finished, status, waiting⟩
    exact status (kept finished waiting).1
  · intro t u v last resetting logged reset later
    refine later.invariant Handshake.Lost
      (Handshake.lost_of_resetting last resetting logged reset) ?_
    intro v party w lost _ step
    exact Handshake.lost_forever party lost step

def oneSegment : Handshake where
  entente := ⟨"", .done⟩
  thread := ⟨some [.update "Starting decryption...", .update "Decrypting segment: 0",
    .doneseg "Segment decrypted: 0"], "kuEntente Returned: 0"⟩
  polling := .wait
  buffer := ""

theorem oneSegment_begun : oneSegment.Begun := ⟨nofun, rfl⟩

/-- `dumpThread` reads the segment's status, the thread finishes, and the reset of the
status drops the completion. -/
theorem oneSegment_lost :
    ∃ s, oneSegment.Begun ∧ handshake.Reachable (fun _ _ => True) oneSegment s ∧ s.Lost := by
  have run : ∃ s, handshake.follow (fun _ _ => True) oneSegment
      [.kernel, .app, .kernel, .kernel, .app, .kernel, .app] = some s ∧ s.Lost :=
    ⟨_, rfl, rfl, nofun, nofun, nofun⟩
  obtain ⟨s, followed, lost⟩ := run
  exact ⟨s, oneSegment_begun, Transitions.reachable_of_follow .start _ followed, lost⟩

theorem handshake_keeps_done_oneSegment :
    ∃ s, handshake.Reachable Handshake.FinishesOutside oneSegment s ∧
      s.polling = .left ∧ ¬ s.Lost := by
  have run : ∃ s, handshake.follow Handshake.FinishesOutside oneSegment
      [.kernel, .app, .kernel, .kernel, .app, .app, .app, .kernel, .app, .app] = some s ∧
        s.polling = .left :=
    ⟨_, rfl, rfl⟩
  obtain ⟨s, followed, left⟩ := run
  have reached := Transitions.reachable_of_follow .start _ followed
  exact ⟨s, reached, left, (handshake_keeps_done oneSegment_begun reached).1⟩

end VitaTools.FagDec
