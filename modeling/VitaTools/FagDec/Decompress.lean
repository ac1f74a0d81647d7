import VitaTools.Library.EventFlag
import VitaTools.Library.Transition

set_option autoImplicit false

namespace VitaTools.FagDec

open VitaTools.Library

def decompressNew : EventFlag := 0x01
def decompressDone : EventFlag := 0x02
def decompressSegok : EventFlag := 0x04

inductive DumpPoint
  -- From a module's start to the end of its polling loop.
  | polling
  -- The first wait for `DECOMPRESS_SEGOK`.
  | firstWait
  -- Behind it, before `DECOMPRESS_NEW` is set.
  | renew
  | secondWait
  -- Header writes, verification, rename and `free(current_self)`.
  | finalise
  -- Behind the modules: `DECOMPRESS_DONE` is set.
  | quit
deriving DecidableEq, Repr

inductive DecompressPoint
  | wait
  -- Before `sceKernelClearEventFlag(decompress_flag, DECOMPRESS_SEGOK)`.
  | clear
  -- A pass over the module that `current_self` is for.
  | pass (module : Nat)
  -- Behind the `break`.
  | leave
  | ended
deriving DecidableEq, Repr

-- How far a pass has come that began after `dumpThread` last left `renew`.
inductive FreshPass
  | none
  | running
  | finished
deriving DecidableEq, Repr

structure Dump where
  flag : EventFlag
  dump : DumpPoint
  -- The module `current_self` is for.
  module : Nat
  decompress : DecompressPoint
  fresh : FreshPass
deriving DecidableEq

inductive DumpAction
  -- `DECOMPRESS_NEW` for a status `ENTENTE_DONESEG`.
  | segment
  -- The `break` of the polling loop.
  | decrypted
  | firstWait
  | renew
  | secondWait
  | next
  -- A module that is skipped before it is decrypted.
  | skip
  | quit
deriving DecidableEq, Repr

inductive DecompressAction
  -- The wait returns; it clears the flag.
  | wake
  | clear
  -- `DECOMPRESS_SEGOK` behind a pass.
  | finish
  -- `DECOMPRESS_SEGOK` behind the loop.
  | leave
deriving DecidableEq, Repr

namespace Dump

def dumpStep (s : Dump) : DumpAction → Option Dump
  | .segment =>
      if s.dump = .polling then some { s with flag := s.flag.set decompressNew } else none
  | .decrypted => if s.dump = .polling then some { s with dump := .firstWait } else none
  | .firstWait =>
      if s.dump = .firstWait ∧ s.flag.waitAnd decompressSegok then some { s with dump := .renew }
      else none
  | .renew =>
      if s.dump = .renew then
        some { s with
          flag := s.flag.set decompressNew, dump := .secondWait, fresh := .none }
      else none
  | .secondWait =>
      if s.dump = .secondWait ∧ s.flag.waitAnd decompressSegok then
        some { s with dump := .finalise }
      else none
  | .next =>
      if s.dump = .finalise then some { s with dump := .polling, module := s.module + 1 } else none
  | .skip =>
      if s.dump = .polling then some { s with module := s.module + 1 } else none
  | .quit =>
      if s.dump = .polling then
        some { s with flag := s.flag.set decompressDone, dump := .quit }
      else none

def decompressStep (s : Dump) : DecompressAction → Option Dump
  | .wake =>
      if s.decompress = .wait ∧ s.flag.waitOr (decompressNew ||| decompressDone) then
        some { s with
          flag := 0
          decompress := if s.flag.waitOr decompressDone then .leave else .clear }
      else none
  | .clear =>
      if s.decompress = .clear then
        some { s with
          flag := s.flag.clear decompressSegok
          decompress := .pass s.module
          fresh := if s.fresh = .none then .running else s.fresh }
      else none
  | .finish =>
      match s.decompress with
      | .pass _ => some { s with
          flag := s.flag.set decompressSegok
          decompress := .wait
          fresh := if s.fresh = .running then .finished else s.fresh }
      | _ => none
  | .leave =>
      if s.decompress = .leave then
        some { s with flag := s.flag.set decompressSegok, decompress := .ended }
      else none

def step (s : Dump) : DumpAction ⊕ DecompressAction → Option Dump
  | .inl action => s.dumpStep action
  | .inr action => s.decompressStep action

def start : Dump := ⟨0, .polling, 0, .wait, .none⟩

-- A module is finalised after a pass that began behind the last `DECOMPRESS_NEW`, and
-- while no pass runs.
def Orderly (s : Dump) : Prop :=
  s.dump = .finalise → s.fresh = .finished ∧ ∀ module, s.decompress ≠ .pass module

-- The second wait does not return while `DECOMPRESS_NEW` is still pending.
def Consumed (s : Dump) (action : DumpAction ⊕ DecompressAction) : Prop :=
  action = .inl .secondWait → s.flag.waitAnd decompressNew = false

instance (s : Dump) (action : DumpAction ⊕ DecompressAction) : Decidable (s.Consumed action) :=
  inferInstanceAs (Decidable (action = .inl .secondWait → s.flag.waitAnd decompressNew = false))

end Dump

def segments : Transitions Dump (DumpAction ⊕ DecompressAction) := ⟨Dump.step⟩

namespace Dump

theorem waitAnd_new (flag : EventFlag) : flag.waitAnd decompressNew = flag.has 0 :=
  EventFlag.waitAnd_bit (i := 0) (by decide)

theorem waitAnd_segok (flag : EventFlag) : flag.waitAnd decompressSegok = flag.has 2 :=
  EventFlag.waitAnd_bit (i := 2) (by decide)

-- `decompressThread` is between its wait and its `DECOMPRESS_SEGOK`.
def Busy (s : Dump) : Prop :=
  s.decompress = .clear ∨ s.decompress = .leave ∨ ∃ module, s.decompress = .pass module

structure Tracked (s : Dump) : Prop where
  -- Nobody but `decompressThread` sets `DECOMPRESS_SEGOK`.
  segokIdle : s.Busy → s.flag.has 2 = false
  -- `DECOMPRESS_DONE` is set behind the modules only.
  doneLast : s.dump ≠ .quit → s.flag.has 1 = false ∧ s.decompress ≠ .leave
  -- At the second wait the last `DECOMPRESS_NEW` is pending, about to start a pass, or has
  -- started one.
  renewed : s.dump = .secondWait → s.fresh = .none →
    s.flag.has 0 = true ∨ s.decompress = .clear
  pending : s.dump = .secondWait → s.flag.has 0 = true → s.fresh = .none
  running : s.fresh = .running → ∃ module, s.decompress = .pass module

theorem tracked_start : start.Tracked where
  segokIdle _ := rfl
  doneLast _ := ⟨rfl, nofun⟩
  renewed := nofun
  pending := nofun
  running := nofun

theorem waitOr_wake (flag : EventFlag) :
    flag.waitOr (decompressNew ||| decompressDone) = (flag.has 0 || flag.has 1) := by
  rw [EventFlag.waitOr_or]
  exact congrArg₂ (· || ·) (EventFlag.waitOr_bit (i := 0) (by decide))
    (EventFlag.waitOr_bit (i := 1) (by decide))

theorem waitOr_done (flag : EventFlag) : flag.waitOr decompressDone = flag.has 1 :=
  EventFlag.waitOr_bit (i := 1) (by decide)

theorem set_new (flag : EventFlag) : (flag.set decompressNew).has 0 = true ∧
    (flag.set decompressNew).has 1 = flag.has 1 ∧ (flag.set decompressNew).has 2 = flag.has 2 := by
  simp only [EventFlag.has_set]
  exact ⟨Bool.or_true _, Bool.or_false _, Bool.or_false _⟩

theorem set_segok (flag : EventFlag) : (flag.set decompressSegok).has 0 = flag.has 0 ∧
    (flag.set decompressSegok).has 1 = flag.has 1 := by
  simp only [EventFlag.has_set]
  exact ⟨Bool.or_false _, Bool.or_false _⟩

theorem clear_segok (flag : EventFlag) : (flag.clear decompressSegok).has 0 = false ∧
    (flag.clear decompressSegok).has 1 = false ∧
    (flag.clear decompressSegok).has 2 = flag.has 2 := by
  simp only [EventFlag.has_clear]
  exact ⟨Bool.and_false _, Bool.and_false _, Bool.and_true _⟩

theorem dumpStep_tracked {s t : Dump} (action : DumpAction) (tracked : s.Tracked)
    (step : s.dumpStep action = some t) : t.Tracked := by
  obtain ⟨segokIdle, doneLast, renewed, pending, running⟩ := tracked
  cases action <;> simp only [dumpStep, Option.ite_none_right_eq_some, Option.some.injEq] at step
  case segment =>
    obtain ⟨here, rfl⟩ := step
    obtain ⟨_, done, segok⟩ := set_new s.flag
    have last := doneLast (by simp [here])
    exact ⟨fun busy => segok.trans (segokIdle busy), fun _ => ⟨done.trans last.1, last.2⟩,
      fun second => by simp [here] at second, fun second => by simp [here] at second, running⟩
  case decrypted =>
    obtain ⟨here, rfl⟩ := step
    exact ⟨segokIdle, fun _ => doneLast (by simp [here]), nofun, nofun, running⟩
  case firstWait =>
    obtain ⟨⟨here, _⟩, rfl⟩ := step
    exact ⟨segokIdle, fun _ => doneLast (by simp [here]), nofun, nofun, running⟩
  case renew =>
    obtain ⟨here, rfl⟩ := step
    obtain ⟨new, done, segok⟩ := set_new s.flag
    have last := doneLast (by simp [here])
    exact ⟨fun busy => segok.trans (segokIdle busy), fun _ => ⟨done.trans last.1, last.2⟩,
      fun _ _ => .inl new, fun _ _ => rfl, nofun⟩
  case secondWait =>
    obtain ⟨⟨here, _⟩, rfl⟩ := step
    exact ⟨segokIdle, fun _ => doneLast (by simp [here]), nofun, nofun, running⟩
  case next =>
    obtain ⟨here, rfl⟩ := step
    exact ⟨segokIdle, fun _ => doneLast (by simp [here]), nofun, nofun, running⟩
  case skip =>
    obtain ⟨here, rfl⟩ := step
    exact ⟨segokIdle, fun _ => doneLast (by simp [here]), fun second => by simp [here] at second,
      fun second => by simp [here] at second, running⟩
  case quit =>
    obtain ⟨here, rfl⟩ := step
    have segok : (s.flag.set decompressDone).has 2 = s.flag.has 2 := by
      rw [EventFlag.has_set]
      exact Bool.or_false _
    exact ⟨fun busy => segok.trans (segokIdle busy), fun still => absurd rfl still, nofun, nofun,
      running⟩

theorem decompressStep_tracked {s t : Dump} (action : DecompressAction) (tracked : s.Tracked)
    (step : s.decompressStep action = some t) : t.Tracked := by
  obtain ⟨segokIdle, doneLast, renewed, pending, running⟩ := tracked
  cases action <;> simp only [decompressStep] at step
  case wake =>
    simp only [Option.ite_none_right_eq_some, Option.some.injEq] at step
    obtain ⟨⟨waiting, _⟩, rfl⟩ := step
    have going : s.dump ≠ .quit →
        (if s.flag.waitOr decompressDone then DecompressPoint.leave else .clear) = .clear := by
      intro modules
      rw [waitOr_done, (doneLast modules).1, if_neg Bool.false_ne_true]
    refine ⟨fun _ => EventFlag.has_zero 2, fun modules => ⟨EventFlag.has_zero 1, ?_⟩,
      fun second _ => .inr (going ?_),
      fun _ new => absurd ((EventFlag.has_zero 0).symm.trans new) Bool.false_ne_true,
      fun fresh => ?_⟩
    · dsimp only
      rw [going modules]
      nofun
    · simp only [ne_eq, show s.dump = .secondWait from second, reduceCtorEq, not_false_eq_true]
    · obtain ⟨module, pass⟩ := running fresh
      rw [waiting] at pass
      contradiction
  case clear =>
    simp only [Option.ite_none_right_eq_some, Option.some.injEq] at step
    obtain ⟨clearing, rfl⟩ := step
    obtain ⟨new, done, segok⟩ := clear_segok s.flag
    refine ⟨fun _ => segok.trans (segokIdle (.inl clearing)), fun _ => ⟨done, nofun⟩,
      fun _ fresh => ?_, fun _ set => ?_, fun _ => ⟨s.module, rfl⟩⟩
    · dsimp only at fresh
      split at fresh
      · contradiction
      · contradiction
    · exact absurd (new.symm.trans set) Bool.false_ne_true
  case finish =>
    split at step
    case h_1 module pass =>
      cases step
      obtain ⟨new, done⟩ := set_segok s.flag
      refine ⟨fun busy => ?_, fun modules => ⟨done.trans (doneLast modules).1, nofun⟩,
        fun second fresh => ?_, fun second set => ?_, fun fresh => ?_⟩
      · rcases busy with clear | leave | ⟨_, again⟩ <;> contradiction
      · dsimp only at fresh
        split at fresh
        · contradiction
        · rcases renewed second fresh with set | clear
          · exact .inl (new.trans set)
          · rw [pass] at clear
            contradiction
      · have none := pending second (new.symm.trans set)
        dsimp only
        rw [none, if_neg nofun]
      · dsimp only at fresh
        split at fresh
        · contradiction
        · contradiction
    case h_2 => contradiction
  case leave =>
    simp only [Option.ite_none_right_eq_some, Option.some.injEq] at step
    obtain ⟨leaving, rfl⟩ := step
    have quitting : s.dump = .quit := by
      by_contra modules
      exact (doneLast modules).2 leaving
    refine ⟨fun busy => ?_, fun modules => absurd quitting modules, fun second => ?_,
      fun second => ?_, fun fresh => ?_⟩
    · rcases busy with clear | leave | ⟨_, again⟩ <;> contradiction
    · exact absurd (quitting.symm.trans second) nofun
    · exact absurd (quitting.symm.trans second) nofun
    · obtain ⟨module, pass⟩ := running fresh
      rw [leaving] at pass
      contradiction

theorem step_tracked {s t : Dump} (action : DumpAction ⊕ DecompressAction) (tracked : s.Tracked)
    (step : s.step action = some t) : t.Tracked := by
  cases action with
  | inl action => exact dumpStep_tracked action tracked step
  | inr action => exact decompressStep_tracked action tracked step

-- While a module is finalised `decompressThread` sleeps: its pass is over and nothing
-- wakes it.
structure Asleep (s : Dump) : Prop where
  fresh : s.fresh = .finished
  idle : ¬ s.Busy
  quiet : s.flag.has 0 = false ∧ s.flag.has 1 = false

theorem decompressStep_asleep {s t : Dump} (action : DecompressAction) (asleep : s.Asleep) :
    s.decompressStep action ≠ some t := by
  obtain ⟨_, idle, new, done⟩ := asleep
  cases action <;> simp only [decompressStep]
  case wake => simp [waitOr_wake, new, done]
  case clear => simp [show s.decompress ≠ .clear from fun clear => idle (.inl clear)]
  case finish =>
    split
    case h_1 module pass => exact absurd (.inr (.inr ⟨module, pass⟩)) idle
    case h_2 => nofun
  case leave => simp [show s.decompress ≠ .leave from fun leave => idle (.inr (.inl leave))]

theorem secondWait_fresh_iff {s t : Dump} (tracked : s.Tracked)
    (step : s.dumpStep .secondWait = some t) :
    t.Asleep ↔ s.flag.waitAnd decompressNew = false := by
  simp only [dumpStep, Option.ite_none_right_eq_some, Option.some.injEq] at step
  obtain ⟨⟨here, segok⟩, rfl⟩ := step
  rw [waitAnd_segok] at segok
  rw [waitAnd_new]
  have idle : ¬ s.Busy := fun busy => by simp [tracked.segokIdle busy] at segok
  constructor
  · intro asleep
    exact asleep.quiet.1
  · intro consumed
    refine ⟨?_, idle, consumed, (tracked.doneLast (by simp [here])).1⟩
    cases fresh : s.fresh with
    | none =>
        rcases tracked.renewed here fresh with set | clear
        · rw [consumed] at set
          contradiction
        · exact absurd (.inl clear) idle
    | running => exact absurd (.inr (.inr (tracked.running fresh))) idle
    | finished => rfl

theorem dumpStep_asleep {s t : Dump} (action : DumpAction) (tracked : s.Tracked)
    (consumed : s.Consumed (.inl action)) (step : s.dumpStep action = some t)
    (finalise : t.dump = .finalise) : t.Asleep := by
  cases action
  case secondWait => exact (secondWait_fresh_iff tracked step).mpr (consumed rfl)
  all_goals
    simp only [dumpStep, Option.ite_none_right_eq_some, Option.some.injEq] at step
    obtain ⟨here, rfl⟩ := step
    simp_all

-- In a run in which each second wait finds `DECOMPRESS_NEW` consumed, `decompressThread`
-- sleeps whenever a module is finalised.
theorem step_asleep {s t : Dump} (action : DumpAction ⊕ DecompressAction) (tracked : s.Tracked)
    (asleep : s.dump = .finalise → s.Asleep) (consumed : s.Consumed action)
    (step : s.step action = some t) (finalise : t.dump = .finalise) : t.Asleep := by
  cases action with
  | inl action => exact dumpStep_asleep action tracked consumed step finalise
  | inr action =>
      have before : s.dump = .finalise := by
        change s.decompressStep action = some t at step
        cases action <;> simp only [decompressStep] at step
        case finish =>
          split at step
          case h_1 =>
            cases step
            exact finalise
          case h_2 => contradiction
        all_goals
          simp only [Option.ite_none_right_eq_some, Option.some.injEq] at step
          obtain ⟨_, rfl⟩ := step
          exact finalise
      exact absurd step (decompressStep_asleep action (asleep before))

theorem disorderly {s t : Dump} (tracked : s.Tracked)
    (pending : s.flag.waitAnd decompressNew = true)
    (step : s.dumpStep .secondWait = some t) : ¬ t.Orderly := by
  rw [waitAnd_new] at pending
  simp only [dumpStep, Option.ite_none_right_eq_some, Option.some.injEq] at step
  obtain ⟨⟨here, _⟩, rfl⟩ := step
  intro orderly
  have fresh := (orderly rfl).1
  rw [show s.fresh = .none from tracked.pending here pending] at fresh
  contradiction

end Dump

/-- In every run in which the second wait never returns while `DECOMPRESS_NEW` is pending,
a module is finalised only after a fresh pass has finished, and never during a pass. A second wait
that does return then breaks the order at once. -/
theorem segments_orderly {s : Dump}
    (reached : segments.Reachable Dump.Consumed Dump.start s) :
    s.Orderly ∧ ∀ t, s.flag.waitAnd decompressNew = true → s.dumpStep .secondWait = some t →
      ¬ t.Orderly := by
  have holds : s.Tracked ∧ (s.dump = .finalise → s.Asleep) := by
    refine reached.invariant (fun s => s.Tracked ∧ (s.dump = .finalise → s.Asleep)) ?_ ?_
    · exact ⟨Dump.tracked_start, nofun⟩
    · intro s action t ⟨tracked, asleep⟩ consumed step
      exact ⟨Dump.step_tracked action tracked step,
        Dump.step_asleep action tracked asleep consumed step⟩
  refine ⟨fun finalise => ?_, fun t => Dump.disorderly holds.1⟩
  obtain ⟨fresh, idle, _⟩ := holds.2 finalise
  exact ⟨fresh, fun module pass => idle (.inr (.inr ⟨module, pass⟩))⟩

/-- A module with one segment: the second wait returns on the `DECOMPRESS_SEGOK` of the
first pass, and the second pass starts while the module is finalised. -/
theorem segments_overtaken : ∃ s, segments.Reachable (fun _ _ => True) Dump.start s ∧
    s.dump = .finalise ∧ s.fresh ≠ .finished ∧ s.decompress = .pass s.module := by
  have run : ∃ s, segments.follow (fun _ _ => True) Dump.start
      [.inl .segment, .inr .wake, .inr .clear, .inr .finish, .inl .decrypted, .inl .firstWait,
        .inl .renew, .inl .secondWait, .inr .wake, .inr .clear] = some s ∧
      s.dump = .finalise ∧ s.fresh ≠ .finished ∧ s.decompress = .pass s.module :=
    ⟨_, rfl, rfl, nofun, rfl⟩
  obtain ⟨s, followed, result⟩ := run
  exact ⟨s, Transitions.reachable_of_follow .start _ followed, result⟩

theorem segments_orderly_awaited : ∃ s, segments.Reachable Dump.Consumed Dump.start s ∧
    s.dump = .finalise ∧ s.Orderly := by
  have run : ∃ s, segments.follow Dump.Consumed Dump.start
      [.inl .segment, .inr .wake, .inr .clear, .inr .finish, .inl .decrypted, .inl .firstWait,
        .inl .renew, .inr .wake, .inr .clear, .inr .finish, .inl .secondWait] = some s ∧
      s.dump = .finalise :=
    ⟨_, rfl, rfl⟩
  obtain ⟨s, followed, finalise⟩ := run
  have reached := Transitions.reachable_of_follow .start _ followed
  exact ⟨s, reached, finalise, (segments_orderly reached).1⟩

end VitaTools.FagDec
