import Mathlib.Data.Fin.Basic
import VitaTools.Library.Machine
import VitaTools.Library.Memory

set_option autoImplicit false

namespace VitaTools.IoPlus

open VitaTools.Library

abbrev maxDevices : Nat := 10

-- A `char [18]`.
abbrev Name := { bytes : List Byte // bytes.length = 18 }

def Name.text (name : Name) : List Byte := name.1.takeWhile (· != 0)

-- `memcpy` of a device's name, and the `'\0'` behind it.
def Name.copy (name : Name) (device : List Byte) : Name :=
  ⟨(device ++ 0 :: name.1.drop (device.length + 1)).take 18, by
    have := name.2
    simp only [List.length_take, List.length_append, List.length_cons, List.length_drop]
    omega⟩

structure DevicePath where
  bytes : List Byte
  terminated : 0 ∉ bytes
  colon : 0x3A ∈ bytes.take 17

namespace DevicePath

variable (path : DevicePath)

-- `strchr(path, ':') - path + 1`.
def len : Nat := path.bytes.idxOf 0x3A + 1

def device : List Byte := path.bytes.take path.len

theorem len_bound : path.len ≤ 17 ∧ path.len ≤ path.bytes.length := by
  have place := List.idxOf_lt_length_of_mem path.colon
  have same : path.bytes.idxOf 0x3A = (path.bytes.take 17).idxOf 0x3A := by
    conv_lhs => rw [← List.take_append_drop 17 path.bytes]
    rw [List.idxOf_append_of_mem path.colon]
  rw [List.length_take] at place
  simp only [len]
  omega

theorem device_length : path.device.length = path.len := by
  rw [device, List.length_take, Nat.min_eq_left path.len_bound.2]

theorem device_terminated : ∀ byte ∈ path.device, (byte != 0) = true := by
  intro byte member
  rw [bne_iff_ne]
  rintro rfl
  exact path.terminated (List.mem_of_mem_take member)

end DevicePath

theorem Name.copy_text (name : Name) (path : DevicePath) :
    (name.copy path.device).text = path.device := by
  have length := path.device_length
  have room : ∃ k, 18 - path.len = k + 1 := ⟨17 - path.len, by have := path.len_bound; omega⟩
  obtain ⟨k, room⟩ := room
  simp only [copy, Name.text]
  rw [List.take_append, length, room, List.take_succ_cons, List.take_of_length_le (by omega),
    List.takeWhile_append_of_pos path.device_terminated]
  simp

structure PdDevice where
  pdName : Name
  vName : Name
  nameLen : Nat
  pid : BitVec 32

abbrev Devices := Fin maxDevices → PdDevice

-- `currentSlot`: -1, -2, or the index of a slot.
inductive CurrentSlot
  | unset
  | registered
  | slot (i : Fin maxDevices)
deriving DecidableEq

-- `!memcmp(devices[i].pd_name, new_path, pd_len - 1)` of an entry in use.
def PdDevice.matches (entry : PdDevice) (newPath : DevicePath) : Bool :=
  entry.nameLen != 0 &&
    entry.pdName.1.take (newPath.len - 1) == newPath.bytes.take (newPath.len - 1)

def searchStep (devices : Devices) (newPath : DevicePath) (currentSlot : CurrentSlot)
    (i : Fin maxDevices) : CurrentSlot :=
  let currentSlot := if (devices i).matches newPath then .registered else currentSlot
  if currentSlot = .unset then .slot i else currentSlot

def search (devices : Devices) (newPath : DevicePath) : CurrentSlot :=
  (List.finRange maxDevices).foldl (searchStep devices newPath) .unset

def PdDevice.register (entry : PdDevice) (pid : BitVec 32) (oldPath newPath : DevicePath) :
    PdDevice where
  pdName := entry.pdName.copy newPath.device
  vName := entry.vName.copy oldPath.device
  nameLen := oldPath.len
  pid := pid

-- `memcmp("PD", new_path, 2)` asks for mounts of PFS.
def notify (devices : Devices) (pid : BitVec 32) (oldPath newPath : DevicePath) : Devices :=
  if newPath.bytes.take 2 = [0x50, 0x44] then
    match search devices newPath with
    | .slot i => Function.update devices i ((devices i).register pid oldPath newPath)
    | _ => devices
  else devices

-- The garbage collector; `getstat` is what `ksceIoGetstat` returns for a name.
def collect (devices : Devices) (getstat : List Byte → Int) : Devices := fun i =>
  if getstat (devices i).pdName.text < 0 then { devices i with nameLen := 0 } else devices i

structure PdPath extends DevicePath where
  pd : bytes.take 2 = [0x50, 0x44]

inductive DeviceCall
  | notify (pid : BitVec 32) (oldPath : DevicePath) (newPath : PdPath)
  | collect (getstat : List Byte → Int)

def deviceTable : Machine Devices DeviceCall Unit where
  step devices
    | .notify pid oldPath newPath => (notify devices pid oldPath newPath.toDevicePath, ())
    | .collect getstat => (collect devices getstat, ())

/-- An entry is in use while its `name_len` is not 0. -/
def PdDevice.Live (entry : PdDevice) : Prop := entry.nameLen ≠ 0

/-- A new device takes a free slot and leaves the others alone, only a device with a live
entry of its full name counts as registered, and live entries have different names. -/
structure Kept (devices : Devices) (call : DeviceCall) : Prop where
  fills : ∀ pid oldPath newPath, call = .notify pid oldPath newPath →
    (∃ i, ¬ (devices i).Live) →
    (∀ i, (devices i).Live → (devices i).pdName.text ≠ newPath.device) →
    ∃ i, ¬ (devices i).Live ∧
      (deviceTable.step devices call).1 =
        Function.update devices i ((devices i).register pid oldPath newPath.toDevicePath)
  known : ∀ pid oldPath newPath, call = .notify pid oldPath newPath →
    search devices newPath.toDevicePath = .registered →
    ∃ i, (devices i).Live ∧ (devices i).pdName.text = newPath.device
  distinct : ∀ i j, ((deviceTable.step devices call).1 i).Live →
    ((deviceTable.step devices call).1 j).Live →
    ((deviceTable.step devices call).1 i).pdName.text =
      ((deviceTable.step devices call).1 j).pdName.text → i = j

def SameDevice (devices : Devices) : DeviceCall → Prop
  | .notify _ _ newPath =>
      (devices 0).Live → (devices 0).pdName.text = newPath.device
  | .collect _ => True

theorem searchStep_registered (devices : Devices) (newPath : DevicePath)
    (slots : List (Fin maxDevices)) :
    slots.foldl (searchStep devices newPath) .registered = .registered := by
  induction slots with
  | nil => rfl
  | cons i rest ih =>
      rw [List.foldl_cons, searchStep, ite_self]
      exact ih

theorem searchStep_slot (devices : Devices) (newPath : DevicePath) (j : Fin maxDevices)
    (slots : List (Fin maxDevices)) :
    slots.foldl (searchStep devices newPath) (.slot j) =
      if slots.any fun i => (devices i).matches newPath then .registered else .slot j := by
  induction slots with
  | nil => simp
  | cons i rest ih =>
      rw [List.foldl_cons, searchStep]
      by_cases hit : (devices i).matches newPath = true
      next => simp [hit, searchStep_registered]
      next => simp [hit, ih]

theorem search_eq (devices : Devices) (newPath : DevicePath) :
    search devices newPath =
      if ∃ i, (devices i).matches newPath = true then .registered else .slot 0 := by
  have slots : List.finRange maxDevices = 0 :: (List.finRange 9).map Fin.succ :=
    List.finRange_succ
  have all : (∃ i, (devices i).matches newPath = true) ↔
      (devices 0).matches newPath = true ∨
        ∃ i ∈ (List.finRange 9).map Fin.succ, (devices i).matches newPath = true := by
    simp [Fin.exists_fin_succ]
  rw [search, slots, List.foldl_cons]
  by_cases first : (devices 0).matches newPath = true
  next =>
    have step : searchStep devices newPath .unset 0 = .registered := by simp [searchStep, first]
    rw [step, searchStep_registered, if_pos ⟨0, first⟩]
  next =>
    have step : searchStep devices newPath .unset 0 = .slot 0 := by simp [searchStep, first]
    have same : (((List.finRange 9).map Fin.succ).any fun i => (devices i).matches newPath) = true ↔
        ∃ i, (devices i).matches newPath = true := by
      rw [List.any_eq_true, all]
      exact (or_iff_right first).symm
    rw [step, searchStep_slot]
    by_cases any : ∃ i, (devices i).matches newPath = true
    · rw [if_pos (same.mpr any), if_pos any]
    · rw [if_neg (mt same.mp any), if_neg any]

theorem notify_eq (devices : Devices) (pid : BitVec 32) (oldPath : DevicePath) (newPath : PdPath) :
    (deviceTable.step devices (.notify pid oldPath newPath)).1 =
      if ∃ i, (devices i).matches newPath.toDevicePath = true then devices
      else Function.update devices 0 ((devices 0).register pid oldPath newPath.toDevicePath) := by
  simp only [deviceTable, notify, if_pos newPath.pd, search_eq]
  by_cases hit : ∃ i, (devices i).matches newPath.toDevicePath = true
  next => simp only [if_pos hit]
  next => simp only [if_neg hit]

theorem live_of_matches {entry : PdDevice} {newPath : DevicePath}
    (hit : entry.matches newPath = true) : entry.Live :=
  bne_iff_ne.mp (Bool.and_eq_true_iff.mp hit).1

variable {devices : Devices}

def OnlyFirst (devices : Devices) : Prop := ∀ i, (devices i).Live → i = 0

theorem step_onlyFirst (call : DeviceCall) (only : OnlyFirst devices) :
    OnlyFirst (deviceTable.step devices call).1 := by
  cases call with
  | notify pid oldPath newPath =>
      rw [notify_eq]
      split
      next => exact only
      next =>
        intro i live
        by_contra other
        rw [Function.update_of_ne other] at live
        exact other (only i live)
  | collect getstat =>
      intro i live
      refine only i fun zero => ?_
      simp only [deviceTable, collect] at live
      split at live
      next => exact live rfl
      next => exact live zero

theorem notify_kept_iff (only : OnlyFirst devices) (pid : BitVec 32) (oldPath : DevicePath)
    (newPath : PdPath) :
    Kept devices (.notify pid oldPath newPath) ↔
      SameDevice devices (.notify pid oldPath newPath) := by
  constructor
  · intro kept live
    by_contra other
    have others : ∀ i, (devices i).Live → (devices i).pdName.text ≠ newPath.device := by
      intro i used
      rwa [only i used]
    have second : ¬ (devices 1).Live := fun used => absurd (only 1 used) (by decide)
    obtain ⟨i, free, step⟩ := kept.fills pid oldPath newPath rfl ⟨1, second⟩ others
    have elsewhere : i ≠ 0 := by
      rintro rfl
      exact free live
    have filled : ((deviceTable.step devices (.notify pid oldPath newPath)).1 i).Live := by
      rw [step, Function.update_self]
      exact Nat.succ_ne_zero _
    exact elsewhere (step_onlyFirst _ only i filled)
  · intro same
    refine ⟨?_, ?_, ?_⟩
    · rintro _ _ _ ⟨⟩ _ others
      have free : ¬ (devices 0).Live := fun live => others 0 live (same live)
      refine ⟨0, free, ?_⟩
      rw [notify_eq, if_neg]
      rintro ⟨i, hit⟩
      have live := live_of_matches hit
      exact free (only i live ▸ live)
    · rintro _ _ _ ⟨⟩ found
      rw [search_eq] at found
      split at found
      next hit =>
        obtain ⟨i, hit⟩ := hit
        have live := live_of_matches hit
        rw [only i live] at live
        exact ⟨0, live, same live⟩
      next => contradiction
    · intro i j first second _
      have after := step_onlyFirst (.notify pid oldPath newPath) only
      rw [after i first, after j second]

theorem collect_kept (only : OnlyFirst devices) (getstat : List Byte → Int) :
    Kept devices (.collect getstat) where
  fills := nofun
  known := nofun
  distinct := by
    intro i j first second _
    have after := step_onlyFirst (.collect getstat) only
    rw [after i first, after j second]

/-- The table keeps what it registered, over a sequence of calls, exactly when no device is
registered while the first slot holds another one. -/
theorem devices_kept_iff (devices : Devices) (calls : List DeviceCall)
    (unused : ∀ i, ¬ (devices i).Live) :
    deviceTable.Along Kept devices calls ↔ deviceTable.Along SameDevice devices calls := by
  refine Machine.Along.congr OnlyFirst ?_ ?_ devices calls ?_
  · intro devices call only
    cases call with
    | notify pid oldPath newPath => exact notify_kept_iff only pid oldPath newPath
    | collect getstat => exact iff_of_true (collect_kept only getstat) trivial
  · intro devices call only _
    exact step_onlyFirst call only
  · intro i live
    exact absurd live (unused i)

def emptyName : Name := ⟨List.replicate 18 0, rfl⟩

-- `devices` as it is initialised.
def noDevices : Devices := fun _ => ⟨emptyName, emptyName, 0, 0⟩

-- "app0:".
def app0 : DevicePath := ⟨[0x61, 0x70, 0x70, 0x30, 0x3A], by decide, by decide⟩

-- "PD00:" and "PD0:".
def pd00 : PdPath := ⟨⟨[0x50, 0x44, 0x30, 0x30, 0x3A], by decide, by decide⟩, rfl⟩

def pd0 : PdPath := ⟨⟨[0x50, 0x44, 0x30, 0x3A], by decide, by decide⟩, rfl⟩

theorem noDevices_unused (i : Fin maxDevices) : ¬ (noDevices i).Live := not_not_intro rfl

theorem first_registered (pid : BitVec 32) (oldPath : DevicePath) (newPath : PdPath) :
    (deviceTable.step noDevices (.notify pid oldPath newPath)).1 =
      Function.update noDevices 0 ((noDevices 0).register pid oldPath newPath.toDevicePath) := by
  rw [notify_eq, if_neg]
  rintro ⟨i, hit⟩
  exact noDevices_unused i (live_of_matches hit)

theorem second_not_kept (pid : BitVec 32) (oldPath : DevicePath) (first second : PdPath)
    (different : first.device ≠ second.device) :
    ¬ deviceTable.Along Kept noDevices
      [.notify pid oldPath first, .notify pid oldPath second] := by
  rintro ⟨_, kept, _⟩
  have only : OnlyFirst noDevices := fun i live => absurd live (noDevices_unused i)
  have same := (notify_kept_iff (step_onlyFirst _ only) pid oldPath second).mp kept
  rw [SameDevice, first_registered, Function.update_self] at same
  have text := same (Nat.succ_ne_zero _)
  rw [PdDevice.register, Name.copy_text] at text
  exact different text

/-- The second device overwrites the first one, with nine slots free; or it is taken for
registered because the first one's name begins like its own. -/
theorem secondDevice_not_kept :
    (¬ deviceTable.Along Kept noDevices [.notify 1 app0 pd0, .notify 1 app0 pd00]) ∧
      ¬ deviceTable.Along Kept noDevices [.notify 1 app0 pd00, .notify 1 app0 pd0] :=
  ⟨second_not_kept 1 app0 pd0 pd00 (by decide), second_not_kept 1 app0 pd00 pd0 (by decide)⟩

theorem devices_kept_iff_noDevices :
    deviceTable.Along Kept noDevices [.notify 1 app0 pd0, .collect fun _ => -1,
      .notify 2 app0 pd00] ↔
    deviceTable.Along SameDevice noDevices [.notify 1 app0 pd0, .collect fun _ => -1,
      .notify 2 app0 pd00] :=
  devices_kept_iff noDevices _ noDevices_unused

end VitaTools.IoPlus
