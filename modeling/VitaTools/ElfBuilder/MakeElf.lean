import VitaTools.ElfBuilder.Inf

set_option autoImplicit false

namespace VitaTools.ElfBuilder

open VitaTools.Library

structure Inputs where
  originalPath : List Byte
  segmentsPath : List Byte
  outputPath : List Byte
  original : Option (List Byte)
  -- The files `.seg0`, `.seg1` and so on.
  segment : Nat → Option (List Byte)

/-- What C leaves open: what fresh memory holds where the file at an offset is at its end, what is
on the stack from `module_name` on, and whether `fclose(NULL)` returns. -/
structure Host where
  heap : Nat → Byte
  stack : Nat → Byte
  closesNull : Bool

/-- The code that `makeElf` returns, the output file where it was opened, and what is appended to
the batch file and to the list of modules. -/
structure Made where
  code : Nat
  elf : Option (List Byte)
  batch : List Byte
  backup : List Byte

def ascii (text : String) : List Byte := text.toList.map fun c => BitVec.ofNat 8 c.toNat

-- Into a buffer of `room` bytes.
def sprintf (room : Nat) (text : List Byte) : Option (List Byte) :=
  if text.length < room then some text else none

-- `%llX`.
def hexadecimal (value : BitVec 64) : List Byte :=
  (Nat.toDigits 16 value.toNat).map fun c => BitVec.ofNat 8 c.toUpper.toNat

def segmentPath (inputs : Inputs) (current : Nat) : List Byte :=
  inputs.segmentsPath ++ ascii ".seg" ++ [BitVec.ofNat 8 (48 + current)]

def batchText (authid : BitVec 64) (inputs : Inputs) : List Byte :=
  ascii "\nvita-make-fself -c -a 0x" ++ hexadecimal authid ++ ascii " " ++ inputs.outputPath ++
    ascii " " ++ inputs.outputPath ++ ascii ".self"

def backupText (moduleName : List Byte) (authid : BitVec 64) (inputs : Inputs) : List Byte :=
  ascii "\n|-\n| [[" ++ moduleName ++ ascii "]] || 0x" ++ hexadecimal authid ++ ascii " || " ++
    inputs.originalPath

section

variable {State : Type} (zlib : Zlib State)

section

variable (heap : Nat → Byte)

def fread (file : List Byte) (offset count : Nat) : List Byte :=
  (List.range count).map fun k => file.getD (offset + k) (heap (offset + k))

-- `read_byte` gives a byte without its sign.
def readByte (file : List Byte) (offset : Nat) : Nat := (file.getD offset (heap offset)).toNat

-- `firstSegmentOffset` and so on, out of the lower three bytes of `p_offset`.
def segmentOffset (original : List Byte) (i : Nat) : Nat :=
  readByte heap original (0xE4 + 0x20 * i) * 0x1 +
    readByte heap original (0xE5 + 0x20 * i) * 0x100 +
    readByte heap original (0xE6 + 0x20 * i) * 0x10000

def authId (original : List Byte) : BitVec 64 :=
  Memory.dword (fun k => (fread heap original 0x80 8).getD k 0) 0

end

variable (host : Host)

/-- `module_name` as it is printed: what was read of it, and the stack behind that. -/
def moduleName (firstSegmentOffset : Nat) (elf : List Byte) : List Byte :=
  let entry := Memory.word (fun k => elf.getD k 0) 0x18
  let place := BitVec.ofNat 32 firstSegmentOffset + entry + 4
  -- `fseek` to a negative offset fails.
  let start := if place.msb then 0 else place.toNat
  ((List.range 512).map fun k =>
    if k < 256 ∧ start + k < elf.length then elf.getD (start + k) 0 else host.stack k).takeWhile
      (· ≠ 0)

def segmentsNumber (inputs : Inputs) : List Nat → Option Nat
  | [] => some 0
  | current :: rest =>
      (sprintf 1024 (segmentPath inputs current)).bind fun _ =>
        match inputs.segment current with
        | none => if host.closesNull then segmentsNumber inputs rest else none
        | some _ => (segmentsNumber inputs rest).map (· + 1)

-- The zeros in front of the second, the third and the fourth segment; the interval is an int.
def blank (offset : Nat → Nat) (current : Nat) (size : Nat) : List Byte :=
  if current < 3 then
    let interval := BitVec.ofNat 32 (offset (current + 1)) -
      (BitVec.ofNat 32 (offset current) + BitVec.ofNat 32 size)
    List.replicate interval.toInt.toNat 0
  else []

-- A segment that `inf` takes for no stream is put into the ELF as it is.
def segmentsLoop (fuel : Nat) (inputs : Inputs) (offset : Nat → Nat) :
    Nat → Nat → List Byte → Option (Nat × List Byte)
  | 0, _, elf => some (0, elf)
  | left + 1, current, elf =>
      (sprintf 256 (segmentPath inputs current ++ ascii ".bin")).bind fun _ =>
        match inputs.segment current with
        | none => if host.closesNull then some (1, elf) else none
        | some file =>
            match inf zlib fuel file with
            | none => none
            | some (ret, bin) =>
                let data := if ret = -3 then file else bin
                segmentsLoop fuel inputs offset left (current + 1)
                  (elf ++ data ++ blank offset current data.length)

def lists (inputs : Inputs) (original : List Byte) (firstSegmentOffset : Nat) (elf : List Byte) :
    Option Made :=
  let authid := authId host.heap original
  (sprintf 256 (batchText authid inputs)).bind fun batch =>
    (sprintf 512 (backupText (moduleName host firstSegmentOffset elf) authid inputs)).map
      fun backup => ⟨0, some elf, batch, backup⟩

def elfHeader (original : List Byte) (firstSegmentOffset : Nat) : List Byte :=
  fread host.heap original 0xA0 0x30 ++ fread host.heap original 0xDC (firstSegmentOffset - 0x3C) ++
    List.replicate 0xC 0

/-- `none` where a text does not fit into its buffer, where `fclose(NULL)` does not return, where
the second part of the header would have a negative length, or the passes of `inf` do not
suffice. -/
def makeElf (fuel : Nat) (inputs : Inputs) : Option Made :=
  match inputs.original with
  | none => if host.closesNull then some ⟨1, none, [], []⟩ else none
  | some original =>
      match inputs.segment 0 with
      | none => (sprintf 1024 (segmentPath inputs 0)).map fun _ => ⟨1, none, [], []⟩
      | some _ =>
          (segmentsNumber host inputs (List.range 5)).bind fun number =>
            let offset := segmentOffset host.heap original
            if offset 0 < 0x3C then none
            else
              (segmentsLoop zlib host fuel inputs offset number 0
                (elfHeader host original (offset 0))).bind fun built =>
                  if built.1 = 0 then lists host inputs original (offset 0) built.2
                  else some ⟨built.1, some built.2, [], []⟩

end

/-- `data` are the segments, which the files hold as streams or as they are. -/
structure Dumped {State : Type} (zlib : Zlib State) (inputs : Inputs) (data : List (List Byte)) :
    Prop where
  nonempty : 0 < data.length
  few : data.length ≤ 5
  files : ∀ i (inside : i < data.length), ∃ file, inputs.segment i = some file ∧
    (zlib.Inflates file data[i] ∨ zlib.Rejects file ∧ file = data[i])
  others : ∀ i, data.length ≤ i → inputs.segment i = none
  small : ∀ segment ∈ data, segment.length + 2 ^ 24 < 2 ^ 31

section

variable (offset : Nat → Nat)

def padded (i : Nat) (segment : List Byte) : List Byte :=
  segment ++ List.replicate (if i < 3 then offset (i + 1) - (offset i + segment.length) else 0) 0

/-- The segments from the `i`-th on. -/
def body : Nat → List (List Byte) → List Byte
  | _, [] => []
  | i, segment :: data => padded offset i segment ++ body (i + 1) data

/-- Where the `i`-th segment is. -/
def start (data : List (List Byte)) (i : Nat) : Nat :=
  offset 0 + (body offset 0 (data.take i)).length

/-- No segment reaches into the next, and the fifth follows the fourth at once. -/
def Fits (data : List (List Byte)) : Prop :=
  ∀ i (inside : i + 1 < data.length),
    if i < 3 then offset i + data[i].length ≤ offset (i + 1)
    else offset i + data[i].length = offset (i + 1)

variable {offset}

theorem body_append {front back : List (List Byte)} {i : Nat} :
    body offset i (front ++ back) = body offset i front ++ body offset (i + front.length) back := by
  induction front generalizing i with
  | nil => rfl
  | cons segment front ih => simp [body, ih, Nat.add_assoc, Nat.add_comm 1]

theorem padded_length {i : Nat} {segment : List Byte} : (padded offset i segment).length =
    segment.length + if i < 3 then offset (i + 1) - (offset i + segment.length) else 0 := by
  simp [padded]

theorem start_succ {data : List (List Byte)} {i : Nat} (inside : i < data.length) :
    start offset data (i + 1) = start offset data i + (padded offset i data[i]).length := by
  have short : (data.take i).length = i := by
    rw [List.length_take]
    omega
  rw [start, List.take_succ_eq_append_getElem inside, body_append, short, List.length_append,
    ← Nat.add_assoc, start]
  simp [body]

theorem start_iff {data : List (List Byte)} :
    (∀ i < data.length, start offset data i = offset i) ↔ Fits offset data := by
  constructor
  next =>
    intro placed i inside
    have here := placed i (Nat.lt_of_succ_lt inside)
    have next := placed (i + 1) inside
    rw [start_succ (Nat.lt_of_succ_lt inside), here, padded_length] at next
    split <;> simp_all
    omega
  next =>
    intro fits i inside
    induction i with
    | zero => rfl
    | succ i ih =>
        have room := fits i inside
        rw [start_succ (Nat.lt_of_succ_lt inside), ih (Nat.lt_of_succ_lt inside), padded_length]
        split at room <;> simp_all
        omega

theorem blank_eq {i size : Nat} (range : ∀ i, offset i < 2 ^ 24) (small : size + 2 ^ 24 < 2 ^ 31) :
    blank offset i size =
      List.replicate (if i < 3 then offset (i + 1) - (offset i + size) else 0) 0 := by
  have here := range i
  have next := range (i + 1)
  rw [blank]
  by_cases early : i < 3
  next =>
    rw [if_pos early, if_pos early]
    have first : offset i % 2 ^ 32 = offset i := Nat.mod_eq_of_lt (by omega)
    have second : offset (i + 1) % 2 ^ 32 = offset (i + 1) := Nat.mod_eq_of_lt (by omega)
    have length : size % 2 ^ 32 = size := Nat.mod_eq_of_lt (by omega)
    have total : (offset i + size) % 2 ^ 32 = offset i + size := Nat.mod_eq_of_lt (by omega)
    simp only [BitVec.toInt_eq_toNat_cond, BitVec.toNat_sub, BitVec.toNat_add, BitVec.toNat_ofNat,
      first, second, length, total]
    split
    next near =>
      rw [Int.toNat_natCast]
      congr 1
      omega
    next far =>
      rw [Int.toNat_of_nonpos (by omega)]
      congr 1
      omega
  next =>
    rw [if_neg early, if_neg early]
    rfl

end

section

variable {State : Type} {zlib : Zlib State} {host : Host} {inputs : Inputs}
  {data : List (List Byte)} {offset : Nat → Nat}

theorem segmentPath_length (inputs : Inputs) (current : Nat) :
    (segmentPath inputs current).length = inputs.segmentsPath.length + 5 := by
  simp only [segmentPath, List.length_append]
  rfl

theorem Dumped.there (dumped : Dumped zlib inputs data) (i : Nat) :
    (inputs.segment i).isSome = true ↔ i < data.length := by
  constructor
  next =>
    intro found
    by_contra behind
    rw [dumped.others i (Nat.le_of_not_lt behind)] at found
    cases found
  next =>
    intro inside
    obtain ⟨file, found, -⟩ := dumped.files i inside
    rw [found]
    rfl

theorem segmentsNumber_eq (short : inputs.segmentsPath.length + 9 < 256) {currents : List Nat}
    (closes : host.closesNull = true ∨ ∀ i ∈ currents, (inputs.segment i).isSome = true) :
    segmentsNumber host inputs currents =
      some (currents.countP fun current => (inputs.segment current).isSome) := by
  induction currents with
  | nil => rfl
  | cons current rest ih =>
      have later := ih (closes.imp_right fun all i member => all i (List.mem_cons_of_mem _ member))
      have fits : sprintf 1024 (segmentPath inputs current) = some (segmentPath inputs current) :=
        if_pos (by rw [segmentPath_length]; omega)
      rw [segmentsNumber, fits, Option.bind_some, later, List.countP_cons]
      cases found : inputs.segment current with
      | none =>
          have returns : host.closesNull = true := closes.resolve_right fun all => by
            have there := all current List.mem_cons_self
            rw [found] at there
            cases there
          rw [returns]
          rfl
      | some file => rfl

theorem segmentsNumber_none (hangs : host.closesNull = false) {currents : List Nat} {i : Nat}
    (member : i ∈ currents) (missing : inputs.segment i = none) :
    segmentsNumber host inputs currents = none := by
  induction currents with
  | nil => cases member
  | cons current rest ih =>
      rw [segmentsNumber]
      cases sprintf 1024 (segmentPath inputs current) with
      | none => rfl
      | some path =>
          rw [Option.bind_some]
          rcases List.mem_cons.mp member with rfl | later
          · rw [missing, hangs]
            rfl
          · rw [ih later, hangs]
            cases inputs.segment current <;> rfl

theorem Dumped.number (dumped : Dumped zlib inputs data) :
    ((List.range 5).countP fun current => (inputs.segment current).isSome) = data.length := by
  have counted : ∀ n ≤ 5, (List.range 5).countP (fun i => decide (i < n)) = n := by decide
  rw [← counted data.length dumped.few]
  exact List.countP_congr fun i _ => by simp [dumped.there]

theorem Dumped.segment (dumped : Dumped zlib inputs data) {i : Nat} (inside : i < data.length) :
    ∃ file enough, inputs.segment i = some file ∧ ∀ fuel, enough ≤ fuel →
      ∃ ret bin, inf zlib fuel file = some (ret, bin) ∧
        (if ret = -3 then file else bin) = data[i] := by
  obtain ⟨file, found, inflates | ⟨rejects, raw⟩⟩ := dumped.files i inside
  · obtain ⟨enough, whole⟩ := inf_inflates inflates
    exact ⟨file, enough, found, fun fuel more => ⟨Z_OK, data[i], whole fuel more, by simp [Z_OK]⟩⟩
  · obtain ⟨enough, refused⟩ := inf_rejects rejects
    refine ⟨file, enough, found, fun fuel more => ?_⟩
    obtain ⟨bin, ran⟩ := refused fuel more
    exact ⟨Z_DATA_ERROR, bin, ran, by simp [Z_DATA_ERROR, raw]⟩

theorem segmentsLoop_body (dumped : Dumped zlib inputs data) (range : ∀ i, offset i < 2 ^ 24)
    (short : inputs.segmentsPath.length + 9 < 256) {left current : Nat}
    (rest : current + left = data.length) :
    ∃ enough, ∀ fuel, enough ≤ fuel → ∀ elf,
      segmentsLoop zlib host fuel inputs offset left current elf =
        some (0, elf ++ body offset current (data.drop current)) := by
  induction left generalizing current with
  | zero =>
      refine ⟨0, fun fuel _ elf => ?_⟩
      rw [List.drop_eq_nil_of_le (by omega), body, List.append_nil]
      rfl
  | succ left ih =>
      have inside : current < data.length := by omega
      obtain ⟨file, first, found, here⟩ := dumped.segment inside
      obtain ⟨second, later⟩ := ih (show current + 1 + left = data.length by omega)
      refine ⟨max first second, fun fuel enough elf => ?_⟩
      obtain ⟨ret, bin, ran, content⟩ := here fuel ((le_max_left _ _).trans enough)
      have small := dumped.small _ (List.getElem_mem inside)
      have fits : sprintf 256 (segmentPath inputs current ++ ascii ".bin") = some _ :=
        if_pos (by rw [List.length_append, segmentPath_length]; exact short)
      rw [segmentsLoop, fits, Option.bind_some, found]
      simp only [ran]
      rw [content, later fuel ((le_max_right _ _).trans enough), blank_eq range small,
        List.drop_eq_getElem_cons inside]
      simp [body, padded]

theorem segmentsNumber_pos {file : List Byte} (found : inputs.segment 0 = some file) {number : Nat}
    (counted : segmentsNumber host inputs (List.range 5) = some number) : 0 < number := by
  rw [show List.range 5 = 0 :: [1, 2, 3, 4] from rfl, segmentsNumber, found] at counted
  obtain ⟨path, -, more⟩ := Option.bind_eq_some_iff.mp counted
  obtain ⟨rest, -, rfl⟩ := Option.map_eq_some_iff.mp more
  exact Nat.succ_pos rest

theorem segmentsLoop_long (long : ¬ inputs.segmentsPath.length + 9 < 256) {left : Nat}
    (positive : 0 < left) (fuel current : Nat) (elf : List Byte) :
    segmentsLoop zlib host fuel inputs offset left current elf = none := by
  obtain ⟨count, rfl⟩ := Nat.exists_eq_succ_of_ne_zero positive.ne'
  have overflows : sprintf 256 (segmentPath inputs current ++ ascii ".bin") = none :=
    if_neg (by rw [List.length_append, segmentPath_length]; exact long)
  rw [segmentsLoop, overflows]
  rfl

/-- The headers of the ELF are those in the SELF but for its last 12 bytes in front of the first
segment, and the segments follow where `start` says. -/
structure ElfOf (original : List Byte) (offset : Nat → Nat) (data : List (List Byte))
    (elf : List Byte) : Prop where
  ehdr : ∀ k < 0x30, elf[k]? = original[0xA0 + k]?
  -- `e_shnum` and `e_shstrndx` come from behind the ELF header, the program headers follow them.
  phdrs : ∀ k < offset 0 - 0x3C, elf[0x30 + k]? = original[0xDC + k]?
  cleared : ∀ k < 0xC, elf[offset 0 - 0xC + k]? = some 0
  segments : ∀ i (inside : i < data.length),
    (elf.drop (start offset data i)).take data[i].length = data[i]
  placed : (∀ i < data.length, start offset data i = offset i) ↔ Fits offset data

theorem segmentOffset_lt (heap : Nat → Byte) (original : List Byte) (i : Nat) :
    segmentOffset heap original i < 2 ^ 24 := by
  have byte (a : Nat) : readByte heap original a < 256 := BitVec.isLt _
  have low := byte (0xE4 + 0x20 * i)
  have middle := byte (0xE5 + 0x20 * i)
  have high := byte (0xE6 + 0x20 * i)
  rw [segmentOffset]
  omega

@[simp] theorem fread_length {heap : Nat → Byte} {file : List Byte} {place count : Nat} :
    (fread heap file place count).length = count := by
  simp [fread]

theorem fread_get {heap : Nat → Byte} {file : List Byte} {place count k : Nat}
    (inside : k < count) (there : place + k < file.length) :
    (fread heap file place count)[k]? = file[place + k]? := by
  simp [fread, inside, there]

theorem body_segment {i : Nat} (inside : i < data.length) :
    ((body offset 0 data).drop (body offset 0 (data.take i)).length).take data[i].length =
      data[i] := by
  have short : (data.take i).length = i := by
    rw [List.length_take]
    omega
  have split : body offset 0 data = body offset 0 (data.take i) ++
      (padded offset i data[i] ++ body offset (i + 1) (data.drop (i + 1))) := by
    conv_lhs => rw [← List.take_append_drop i data, List.drop_eq_getElem_cons inside]
    rw [body_append, short, Nat.zero_add, body]
  rw [split, List.drop_left, padded, List.append_assoc, List.take_left]

theorem elfOf_body {original first second : List Byte} {offset : Nat → Nat}
    (firstGet : ∀ k < 0x30, first[k]? = original[0xA0 + k]?) (firstLength : first.length = 0x30)
    (secondGet : ∀ k < offset 0 - 0x3C, second[k]? = original[0xDC + k]?)
    (secondLength : second.length = offset 0 - 0x3C) (room : 0x3C ≤ offset 0) :
    ElfOf original offset data
      (first ++ second ++ List.replicate 0xC 0 ++ body offset 0 data) where
  ehdr k inside := by
    simp only [List.append_assoc]
    rw [List.getElem?_append_left (by omega), firstGet k inside]
  phdrs k inside := by
    simp only [List.append_assoc]
    rw [List.getElem?_append_right (by omega), List.getElem?_append_left (by omega), firstLength,
      Nat.add_sub_cancel_left, secondGet k inside]
  cleared k inside := by
    have length : (first ++ second).length = offset 0 - 0xC := by
      rw [List.length_append]
      omega
    rw [List.append_assoc, ← length, List.getElem?_append_right (Nat.le_add_right _ _),
      Nat.add_sub_cancel_left, List.getElem?_append_left (by rwa [List.length_replicate]),
      List.getElem?_replicate_of_lt inside]
  segments i inside := by
    have length : (first ++ second ++ List.replicate 0xC 0).length = offset 0 := by
      simp only [List.length_append, List.length_replicate]
      omega
    rw [start, ← length, List.drop_append, List.drop_eq_nil_of_le (Nat.le_add_right _ _),
      Nat.add_sub_cancel_left, List.nil_append, body_segment inside]
  placed := start_iff

end

def builtElf (host : Host) (original : List Byte) (data : List (List Byte)) : List Byte :=
  elfHeader host original (segmentOffset host.heap original 0) ++
    body (segmentOffset host.heap original) 0 data

/-- Every missing segment file can be closed, and the texts fit into their buffers. -/
structure Ends (host : Host) (inputs : Inputs) (original elf : List Byte) (count : Nat) : Prop where
  closes : host.closesNull = true ∨ count = 5
  paths : inputs.segmentsPath.length + 9 < 256
  batch : (batchText (authId host.heap original) inputs).length < 256
  backup : (backupText (moduleName host (segmentOffset host.heap original 0) elf)
    (authId host.heap original) inputs).length < 512

theorem lists_eq {host : Host} {inputs : Inputs} {original elf : List Byte}
    (batch : (batchText (authId host.heap original) inputs).length < 256)
    (backup : (backupText (moduleName host (segmentOffset host.heap original 0) elf)
      (authId host.heap original) inputs).length < 512) :
    lists host inputs original (segmentOffset host.heap original 0) elf = some ⟨0, some elf,
      batchText (authId host.heap original) inputs,
      backupText (moduleName host (segmentOffset host.heap original 0) elf)
        (authId host.heap original) inputs⟩ := by
  rw [lists, sprintf, if_pos batch, Option.bind_some, sprintf, if_pos backup]
  rfl

theorem lists_none {host : Host} {inputs : Inputs} {original elf : List Byte}
    (overflows : (batchText (authId host.heap original) inputs).length < 256 →
      ¬ (backupText (moduleName host (segmentOffset host.heap original 0) elf)
        (authId host.heap original) inputs).length < 512) :
    lists host inputs original (segmentOffset host.heap original 0) elf = none := by
  rw [lists, sprintf]
  split
  next batch =>
    rw [Option.bind_some, sprintf, if_neg (overflows batch)]
    rfl
  next => rfl

theorem makeElf_bind {State : Type} {zlib : Zlib State} {host : Host} {inputs : Inputs}
    {original file : List Byte} (given : inputs.original = some original)
    (found : inputs.segment 0 = some file) (room : 0x3C ≤ segmentOffset host.heap original 0)
    (fuel : Nat) : makeElf zlib host fuel inputs =
      (segmentsNumber host inputs (List.range 5)).bind fun number =>
        (segmentsLoop zlib host fuel inputs (segmentOffset host.heap original) number 0
          (elfHeader host original (segmentOffset host.heap original 0))).bind fun built =>
            if built.1 = 0 then
              lists host inputs original (segmentOffset host.heap original 0) built.2
            else some ⟨built.1, some built.2, [], []⟩ := by
  simp only [makeElf, given, found, if_neg (Nat.not_lt.2 room)]

def refusing : Zlib Unit := ⟨(Z_OK, ()), fun _ input _ => ⟨Z_DATA_ERROR, (), input, []⟩⟩

def oneSegment : Inputs where
  originalPath := ascii "a.self"
  segmentsPath := ascii "a"
  outputPath := ascii "a.elf"
  original := some ((List.range 0xF4).map fun a => if a = 0xE4 then 0x54 else 0)
  segment i := if i = 0 then some [0x41, 0x42] else none

theorem oneSegment_dumped : Dumped refusing oneSegment [[0x41, 0x42]] where
  nonempty := by decide
  few := by decide
  files i inside := by
    obtain rfl : i = 0 := by simpa using inside
    exact ⟨[0x41, 0x42], rfl, Or.inr ⟨⟨rfl, fun _ _ _ => True, [],
      ⟨fun _ _ => Or.inl (Or.inl rfl)⟩, trivial⟩, rfl⟩⟩
  others i behind := if_neg (Nat.ne_of_gt behind)
  small := by simp

def returning : Host := ⟨fun _ => 0, fun _ => 0, true⟩

end VitaTools.ElfBuilder
