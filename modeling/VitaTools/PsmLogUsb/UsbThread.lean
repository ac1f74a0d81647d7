import VitaTools.Library.EventFlag
import VitaTools.Library.Transition

set_option autoImplicit false

namespace VitaTools.PsmLogUsb

open VitaTools.Library

def serialReady : EventFlag := 0x1

def serialStop : EventFlag := 0x2

/-- The program points of `usb_thread`; `sending` lies between the clearing of
`SERIAL_READY` and the return of `sceUsbSerialSendForDriver`. -/
inductive UsbPoint
  | loop
  | getWait
  | connect
  | waitStop
  | start
  | setReady
  | send
  | sending
  | setStop
  | getNext
  | setReadyNext
  | returned
deriving DecidableEq

inductive StartPoint
  | idle
  | waiting
  | started
deriving DecidableEq

structure Usb where
  running : Bool
  flag : EventFlag
  point : UsbPoint
  receivedLen : Nat
  starter : StartPoint

inductive UsbAction
  -- `module_stop` clears `g_usb_running`.
  | stopModule
  | loop
  | received (len : Nat)
  | status (ret : BitVec 32)
  | gotStop
  | startSerial
  | setReady
  | send
  | sent (ret : Int)
  | setStop
  | receivedNext (len : Nat)
  | setReadyNext
  -- `sceUsbstorVStorStart_patched` is called, gets past its wait, and returns.
  | startCall
  | startWait
  | startReturn
  -- `sceUsbstorVStorStop_patched`.
  | stopCall

namespace Usb

def goto (s : Usb) (point : UsbPoint) : Usb := { s with point := point }

-- A wait with `SCE_EVENT_WAITCLEAR` for all of `bits`.
def waitClear (s : Usb) (bits : EventFlag) : Option Usb :=
  if s.flag.waitAnd bits then some { s with flag := 0 } else none

-- `ksceKernelClearEventFlag(g_usb_flag_uid, SERIAL_READY)` keeps the bits it is given.
def clearReady (s : Usb) : Usb := { s with flag := s.flag.clear serialReady }

def usbStep (s : Usb) : UsbPoint → UsbAction → Option Usb
  | .loop, .loop => some (s.goto (if s.running then .getWait else .returned))
  | .getWait, .received len => some { s.goto .connect with receivedLen := len }
  | .connect, .status ret =>
      if ret ≠ 0x80244401 then
        if ret = 1 then some (s.goto .send)
        else if ret = 0 then some (s.goto .connect)
        else some (s.goto .waitStop)
      else some (s.goto .waitStop)
  | .waitStop, .gotStop => (s.waitClear serialStop).map fun s => s.goto .start
  | .start, .startSerial => some (s.goto .setReady)
  | .setReady, .setReady => some { s.goto .send with flag := s.flag.set serialReady }
  | .send, .send =>
      if s.receivedLen = 0 then some (s.goto .loop) else some (s.clearReady.goto .sending)
  | .sending, .sent ret => some (s.goto (if ret < 0 then .setStop else .getNext))
  | .setStop, .setStop => some { s.goto .connect with flag := s.flag.set serialStop }
  | .getNext, .receivedNext len => some { s.goto .setReadyNext with receivedLen := len }
  | .setReadyNext, .setReadyNext =>
      some { s.goto (if 0 < s.receivedLen then .send else .loop) with
        flag := s.flag.set serialReady }
  | _, _ => none

def step (s : Usb) : UsbAction → Option Usb
  | .stopModule => some { s with running := false }
  | .startCall => if s.starter = .idle then some { s with starter := .waiting } else none
  | .startWait =>
      if s.starter = .waiting then
        (s.waitClear serialReady).map fun s => { s with starter := .started }
      else none
  | .startReturn => if s.starter = .started then some { s with starter := .idle } else none
  | .stopCall => some { s with flag := s.flag.set serialStop }
  | action => s.usbStep s.point action

def ReadyTaken (s : Usb) : UsbAction → Prop
  | .send => s.receivedLen ≠ 0 → s.flag.has 0 = false
  | _ => True

instance (s : Usb) (action : UsbAction) : Decidable (s.ReadyTaken action) :=
  match action with
  | .send => inferInstanceAs (Decidable (s.receivedLen ≠ 0 → s.flag.has 0 = false))
  | .stopModule | .loop | .received _ | .status _ | .gotStop | .startSerial | .setReady | .sent _
  | .setStop | .receivedNext _ | .setReadyNext | .startCall | .startWait | .startReturn
  | .stopCall => inferInstanceAs (Decidable True)

def Exclusive (s : Usb) : Prop := s.point = .sending → s.flag.has 0 = false

theorem has_clearReady (s : Usb) : s.clearReady.flag.has 0 = s.flag.has 0 := by
  have bit : serialReady.has 0 = true := rfl
  rw [clearReady, EventFlag.has_clear, bit, Bool.and_true]

theorem has_setStop (flag : EventFlag) : (flag.set serialStop).has 0 = flag.has 0 := by
  have bit : serialStop.has 0 = false := rfl
  rw [EventFlag.has_set, bit, Bool.or_false]

theorem waitAnd_ready (flag : EventFlag) : flag.waitAnd serialReady = flag.has 0 := by
  have bit : serialReady = BitVec.twoPow 32 0 := rfl
  rw [bit, EventFlag.waitAnd_bit (by decide)]

theorem Exclusive.startWait {s : Usb} (exclusive : s.Exclusive) (sending : s.point = .sending) :
    s.step .startWait = none := by
  simp only [Usb.step, waitClear, waitAnd_ready, exclusive sending]
  simp

theorem startWait_isSome {s : Usb} (waiting : s.starter = .waiting) (ready : s.flag.has 0 = true) :
    (s.step .startWait).isSome := by
  simp [Usb.step, waiting, waitClear, waitAnd_ready, ready]

theorem usbStep_sending {s t : Usb} {point : UsbPoint} {action : UsbAction}
    (step : s.usbStep point action = some t) (sending : t.point = .sending) :
    action = .send ∧ s.receivedLen ≠ 0 ∧ t = s.clearReady.goto .sending := by
  unfold usbStep at step
  split at step
  case h_4 =>
    obtain ⟨u, _, rfl⟩ := Option.map_eq_some_iff.mp step
    contradiction
  case h_7 =>
    split at step
    next => grind [goto]
    next some => exact ⟨rfl, some, (Option.some.inj step).symm⟩
  all_goals grind [goto]

theorem step_exclusive {s t : Usb} {action : UsbAction} (exclusive : s.Exclusive)
    (taken : s.ReadyTaken action) (step : s.step action = some t) : t.Exclusive := by
  unfold Usb.step at step
  split at step
  next =>
    cases step
    exact exclusive
  next =>
    split at step
    next =>
      cases step
      exact exclusive
    next => contradiction
  next =>
    split at step
    next =>
      simp only [waitClear] at step
      split at step
      next =>
        cases step
        exact fun _ => EventFlag.has_zero 0
      next => contradiction
    next => contradiction
  next =>
    split at step
    next =>
      cases step
      exact exclusive
    next => contradiction
  next =>
    cases step
    exact fun sending => (has_setStop s.flag).trans (exclusive sending)
  next =>
    intro sending
    obtain ⟨rfl, some, rfl⟩ := usbStep_sending step sending
    exact s.has_clearReady.trans (taken some)

end Usb

def usb : Transitions Usb UsbAction := ⟨Usb.step⟩

-- `module_start` has created the event flag and started the thread.
def startedUsb : Usb where
  running := true
  flag := serialStop
  point := .loop
  receivedLen := 0
  starter := .idle

theorem comes_to_wait (t : Usb) (sending : t.point = .sending) (ready : t.flag.has 0 = true) :
    ∃ u, usb.Reachable (fun s _ => s.point = .sending) t u ∧ u.point = .sending ∧
      (u.step .startWait).isSome := by
  cases place : t.starter with
  | waiting => exact ⟨t, .start, sending, Usb.startWait_isSome place ready⟩
  | idle =>
      have called : usb.step t .startCall = some { t with starter := .waiting } := if_pos place
      exact ⟨_, .next .startCall .start sending called, sending, Usb.startWait_isSome rfl ready⟩
  | started =>
      have returned : usb.step t .startReturn = some { t with starter := .idle } := if_pos place
      have called : usb.step { t with starter := .idle } .startCall =
          some { t with starter := .waiting } := rfl
      have back : usb.Reachable (fun s _ => s.point = .sending) t { t with starter := .idle } :=
        .next .startReturn .start sending returned
      exact ⟨_, .next .startCall back sending called, sending, Usb.startWait_isSome rfl ready⟩

/-- In every run in which `SERIAL_READY` has been taken by the time `usb_thread` clears it,
no mass-storage start gets past its wait during a send; and after any other clear one can. -/
theorem storage_waits_out_send (s : Usb) :
    (usb.Reachable Usb.ReadyTaken startedUsb s → s.point = .sending →
      s.step .startWait = none) ∧
    ∀ t : Usb, s.step .send = some t → t.point = .sending → ¬ s.ReadyTaken .send →
      ∃ u, usb.Reachable (fun s _ => s.point = .sending) t u ∧ u.point = .sending ∧
        (u.step .startWait).isSome := by
  constructor
  · intro reached sending
    have exclusive : s.Exclusive := by
      refine reached.invariant Usb.Exclusive nofun ?_
      intro s action t exclusive taken step
      exact Usb.step_exclusive exclusive taken step
    exact exclusive.startWait sending
  · intro t step sending untaken
    obtain ⟨_, some, rfl⟩ := Usb.usbStep_sending step sending
    refine comes_to_wait _ sending (s.has_clearReady.trans ?_)
    exact Bool.of_not_eq_false fun taken => untaken fun _ => taken

def clearKeepsReady : List UsbAction :=
  [.loop, .received 5, .status 0x80244401, .gotStop, .startSerial, .setReady, .startCall, .send]

/-- A mass-storage start that waits while the thread opens the port gets past its wait
during the send. -/
theorem clear_keeps_ready :
    ∃ s t, usb.Reachable (fun _ _ => True) startedUsb s ∧ s.point = .sending ∧
      s.step .startWait = some t := by
  have run : ∃ s t, usb.follow (fun _ _ => True) startedUsb clearKeepsReady = some s ∧
      s.point = .sending ∧ s.step .startWait = some t := ⟨_, _, rfl, rfl, rfl⟩
  obtain ⟨s, t, followed, sending, passed⟩ := run
  exact ⟨s, t, Transitions.reachable_of_follow .start _ followed, sending, passed⟩

theorem storage_waits_out_send_taken :
    ∃ s, usb.Reachable Usb.ReadyTaken startedUsb s ∧ s.point = .sending ∧
      s.starter = .waiting ∧ s.step .startWait = none := by
  have run : ∃ s, usb.follow Usb.ReadyTaken startedUsb
      [.loop, .received 5, .status 0x80244401, .gotStop, .startSerial, .setReady, .startCall,
        .startWait, .startReturn, .startCall, .send] = some s ∧ s.point = .sending ∧
          s.starter = .waiting := ⟨_, rfl, rfl, rfl⟩
  obtain ⟨s, followed, sending, waiting⟩ := run
  have reached := Transitions.reachable_of_follow .start _ followed
  exact ⟨s, reached, sending, waiting, (storage_waits_out_send s).1 reached sending⟩

end VitaTools.PsmLogUsb
