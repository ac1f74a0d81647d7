import VitaTools.Library.Memory

set_option autoImplicit false

namespace VitaTools.ErrorResolver

open VitaTools.Library

abbrev Text := List Char

/-- `error_table`, and what its words 2 and 4 point to. -/
structure ErrorTable where
  buf : Memory
  facilityGroups : Memory
  errorList : Memory

namespace ErrorTable

variable (table : ErrorTable)

def facilityGroupNum : Nat := (table.buf.half 4).toNat

def limit : Nat := (table.buf.half 6).toNat

def base : Nat := (table.buf.half 12).toNat

def errorNum : Nat := (table.buf.half 14).toNat

-- The global `error_table_num`, a `short` made unsigned.
def errorTableNum : Nat := ((table.buf.half 14).signExtend 32).toNat

def errorAt (i : Nat) : BitVec 32 := table.errorList.word (4 * i)

end ErrorTable

-- `file` is what `fread` has still to give.
def readErrorTable (file : List Byte) : Option ErrorTable :=
  let calloc : Memory := fun _ => 0
  let bytes : Memory := fun a => file.getD a 0
  if file.length < 8 then none
  else
    let facilityGroupNum := ((bytes.half 4).signExtend 32).toNat
    if 0x21 < facilityGroupNum then none
    else
      let second := 8 + 8 * facilityGroupNum
      if file.length < second + 4 then none
      else
        let errorTableNum := ((bytes.half (second + 2)).signExtend 32).toNat
        if 0x4e21 < errorTableNum then none
        else if file.length < second + 4 + 4 * errorTableNum then none
        else some {
          buf := (calloc.copy 0 8 bytes).copy 12 4 fun a => bytes (second + a)
          facilityGroups := calloc.copy 0 (8 * facilityGroupNum) fun a => bytes (8 + a)
          errorList := calloc.copy 0 (4 * errorTableNum) fun a => bytes (second + 4 + a) }

-- The string at `address`, of at most `size` characters.
def text (m : Memory) (address : Nat) : Nat → Text
  | 0 => []
  | size + 1 =>
      if m address = 0 then [] else Char.ofNat (m address).toNat :: text m (address + 1) size

def snprintf (size : Nat) (output : Text) : Text := output.take (size - 1)

-- `%08x`.
def hex8 (value : BitVec 32) : Text :=
  (List.range 8).map fun k => (value.toNat / 16 ^ (7 - k) % 16).digitChar

-- The loop over `error_list` after its first element, `++i` in its condition.
def errorIndex (table : ErrorTable) (errorCode : BitVec 32) (i : Nat) : Option Nat :=
  if i + 1 < table.errorNum then
    if table.errorAt (i + 1) = errorCode then some (i + 1) else errorIndex table errorCode (i + 1)
  else none
termination_by table.errorNum - i

-- 16 bytes of a name are all that the buffer can show of it.
def defaultFacility (table : ErrorTable) : Text := text table.buf 0 16

def facilityGroup (table : ErrorTable) (shifted ii : Nat) : Text :=
  if ii < table.facilityGroupNum then
    let start := (table.facilityGroups.half (8 * ii)).toNat
    let count := (table.facilityGroups.half (8 * ii + 2)).toNat
    if start ≤ shifted ∧ shifted < start + count then
      text table.facilityGroups (8 * ii + 4) 16
    else facilityGroup table shifted (ii + 1)
  else defaultFacility table
termination_by table.facilityGroupNum - ii

def facility (table : ErrorTable) (errorCode : BitVec 32) : Text :=
  let shifted := errorCode >>> 16 &&& 0xFFF
  if 0xFF < (shifted - 0x200).toNat then facilityGroup table shifted.toNat 0 else ['N', 'S']

-- The `do ... while (Devider)` loop.
def digitSum (devider ii : Nat) : Nat :=
  if devider / 10 = 0 then ii + devider % 10 else digitSum (devider / 10) (ii + devider % 10)

def lastBit (errorInit : Nat) : Nat := if errorInit ≠ 0 then digitSum errorInit 0 % 10 else 0

-- `%s-%d-%1d`.
def shortCode (table : ErrorTable) (errorCode : BitVec 32) (i : Nat) : Text :=
  let errorInit := table.base + i
  facility table errorCode ++ '-' :: Nat.toDigits 10 errorInit ++
    '-' :: Nat.toDigits 10 (lastBit errorInit)

-- `*-%08x` is printed without an argument: `unset` is what happens to be in its place.
def errorCodeToString (table : ErrorTable) (unset errorCode : BitVec 32) : Text :=
  if table.buf.half 14 = 0 then snprintf 16 ('E' :: '-' :: hex8 errorCode)
  else if table.errorAt 0 = errorCode then snprintf 16 (shortCode table errorCode 0)
  else
    match errorIndex table errorCode 0 with
    | some i =>
        if i ≤ table.limit then snprintf 16 (shortCode table errorCode i)
        else snprintf 16 ('*' :: '-' :: hex8 unset)
    | none => snprintf 16 ('E' :: '-' :: hex8 errorCode)

-- Mode `-b`, from index `i` on. A target that fills its 16 bytes has no NUL and equals no
-- string of the other buffer.
def bruteForce (table : ErrorTable) (unset : Nat → BitVec 32) (argument : Text) (i : Nat) :
    Option (BitVec 32) :=
  if i < table.errorTableNum then
    let hexError := table.errorAt i
    if errorCodeToString table (unset i) hexError = argument.take 16 then some hexError
    else bruteForce table unset argument (i + 1)
  else none
termination_by table.errorTableNum - i

end VitaTools.ErrorResolver
