import VitaTools.Library.Loop
import VitaTools.Library.Memory
import VitaTools.Library.Replace

set_option autoImplicit false

/-!
The bootimage extractor makes the path of an output file from the path in the image. An
allocation has addresses of its own, from 0 on.
-/

namespace VitaTools.Bootimage

open VitaTools.Library

structure CString where
  chars : List Byte
  terminated : 0 ∉ chars

structure Allocation where
  size : BitVec 64
  content : Memory
  -- The addresses written, one for each byte that was.
  touched : List Nat

def Allocation.store (result : Allocation) (address count : Nat) (source : Memory) :
    Allocation where
  size := result.size
  content := result.content.copy address count source
  touched := result.touched ++ (List.range count).map (address + ·)

def source (chars : List Byte) : Memory := fun k => chars.getD k 0

def Allocation.strcpy (result : Allocation) (address : Nat) (chars : List Byte) : Allocation :=
  result.store address (chars.length + 1) (source chars)

def Allocation.strncpy (result : Allocation) (address : Nat) (chars : List Byte) (count : Nat) :
    Allocation :=
  result.store address count (source chars)

-- A length that is kept in an `int`.
def intOf (length : Nat) : BitVec 32 := BitVec.ofNat 32 length

structure Counting where
  ins : List Byte
  count : BitVec 32

def countLoop (rep : List Byte) : Loop Counting where
  more s := (firstAt rep s.ins).isSome
  pass s :=
    ⟨s.ins.drop ((firstAt rep s.ins).getD 0 + (intOf rep.length).toNat), s.count + 1⟩

structure Replacing where
  orig : List Byte
  tmp : Nat
  result : Allocation

/-- `none` where the pointer `strstr` returns is null. -/
def replaceLoop (rep withChars : List Byte) : Nat → Replacing → Option Replacing
  | 0, s => some s
  | count + 1, s => do
      let front ← firstAt rep s.orig
      let lenFront := intOf front
      let result := s.result.strncpy s.tmp s.orig (lenFront.signExtend 64).toNat
      let tmp := s.tmp + lenFront.toNat
      let result := result.strcpy tmp withChars
      replaceLoop rep withChars count
        { orig := s.orig.drop (lenFront + intOf rep.length).toNat
          tmp := tmp + (intOf withChars.length).toNat
          result := result }

def allocationSize (orig rep withChars : List Byte) (count : BitVec 32) : BitVec 64 :=
  BitVec.ofNat 64 orig.length +
    ((intOf withChars.length - intOf rep.length) * count).signExtend 64 + 1

/-- The pointer it returns; `none` when the passes do not suffice. What `malloc` returns holds
arbitrary bytes. -/
def strReplace (malloc : BitVec 64 → Option Memory) (fuel : Nat)
    (orig rep withString : Option CString) : Option (Option Allocation) :=
  match orig, rep with
  | some orig, some rep =>
      if intOf rep.chars.length = 0 then some none
      else
        let withChars := (withString.map CString.chars).getD []
        do
          let counted ← (countLoop rep.chars).run fuel ⟨orig.chars, 0⟩
          let size := allocationSize orig.chars rep.chars withChars counted.count
          match malloc size with
          | none => some none
          | some fresh =>
              let replaced ← replaceLoop rep.chars withChars counted.count.toNat
                ⟨orig.chars, 0, ⟨size, fresh, []⟩⟩
              some (some (replaced.result.strcpy replaced.tmp replaced.orig))
  | _, _ => some none

theorem intOf_toNat {length : Nat} (fits : length < 2 ^ 31) : (intOf length).toNat = length := by
  rw [intOf, BitVec.toNat_ofNat]
  omega

theorem intOf_signExtend {length : Nat} (fits : length < 2 ^ 31) :
    ((intOf length).signExtend 64).toNat = length := by
  have positive : (intOf length).msb = false := by
    rw [BitVec.msb_eq_false_iff_two_mul_lt, intOf_toNat fits]
    omega
  rw [BitVec.signExtend_eq_setWidth_of_msb_false positive, BitVec.toNat_setWidth,
    intOf_toNat fits]
  omega

theorem signExtend_ofInt {z : Int} (low : -2 ^ 31 ≤ z) (high : z < 2 ^ 31) :
    (BitVec.ofInt 32 z).signExtend 64 = BitVec.ofInt 64 z := by
  rw [BitVec.signExtend, BitVec.toInt_ofInt, Int.bmod_eq_of_le (by omega) (by omega)]

theorem allocationSize_eq {orig rep withChars : List Byte} {count length : Nat}
    (lengths : length + count * rep.length = orig.length + count * withChars.length)
    (origFits : orig.length < 2 ^ 31) (resultFits : length < 2 ^ 31) :
    allocationSize orig rep withChars (BitVec.ofNat 32 count) = BitVec.ofNat 64 (length + 1) := by
  have difference : ((withChars.length : Int) - rep.length) * count = length - orig.length := by
    rw [Int.sub_mul]
    have same := congrArg (Nat.cast : Nat → Int) lengths
    push_cast at same
    rw [Int.mul_comm _ (count : Int), Int.mul_comm _ (count : Int)]
    omega
  have product : (intOf withChars.length - intOf rep.length) * BitVec.ofNat 32 count =
      BitVec.ofInt 32 (length - orig.length) := by
    rw [← difference, BitVec.ofInt_mul, Int.sub_eq_add_neg, BitVec.ofInt_add, BitVec.ofInt_neg,
      BitVec.ofInt_natCast, BitVec.ofInt_natCast, BitVec.ofInt_natCast, BitVec.sub_eq_add_neg]
    rfl
  have one : (1 : BitVec 64) = BitVec.ofInt 64 1 := rfl
  rw [allocationSize, product, signExtend_ofInt (by omega) (by omega), ← BitVec.ofInt_natCast,
    ← BitVec.ofInt_natCast, one, ← BitVec.ofInt_add, ← BitVec.ofInt_add]
  congr 1
  omega

theorem countLoop_run {rep : List Byte} (repFits : rep.length < 2 ^ 31)
    {ins : List Byte} {found : Nat} (occurrences : Occurrences rep ins found)
    (count : BitVec 32) {fuel : Nat} (enough : found < fuel) :
    ∃ s, (countLoop rep).run fuel ⟨ins, count⟩ = some s ∧
      s.count = count + BitVec.ofNat 32 found := by
  induction occurrences generalizing count fuel with
  | @done ins noneFound =>
      obtain ⟨left, rfl⟩ := Nat.exists_eq_add_of_lt enough
      refine ⟨⟨ins, count⟩, ?_, by simp⟩
      rw [Nat.zero_add, Loop.run, if_neg (by simp [countLoop, noneFound])]
  | @found ins front found first _ ih =>
      obtain ⟨left, rfl⟩ := Nat.exists_eq_add_of_lt enough
      have goes : (countLoop rep).more ⟨ins, count⟩ = true := by simp [countLoop, first]
      have pass : (countLoop rep).pass ⟨ins, count⟩ =
          ⟨ins.drop (front + rep.length), count + 1⟩ := by
        simp only [countLoop, first, Option.getD_some, intOf_toNat repFits]
      obtain ⟨s, runs, counted⟩ := @ih (count + 1) (found + 1 + left) (by omega)
      refine ⟨s, ?_, ?_⟩
      · rw [Loop.run, if_pos goes, pass]
        exact runs
      · rw [counted, Nat.add_comm found 1, BitVec.ofNat_add, BitVec.add_assoc]
        rfl

/-- The bytes below `tmp` have been written; a terminator may be at `tmp`. -/
structure Filled (result : Allocation) (tmp : Nat) (done : List Byte) : Prop where
  stored : result.content.slice 0 tmp = done
  below : ∀ a < tmp, a ∈ result.touched
  inside : ∀ a ∈ result.touched, a ≤ tmp

theorem source_map {chars : List Byte} {count : Nat} (fits : count ≤ chars.length) :
    (List.range count).map (source chars) = chars.take count := by
  apply List.ext_getElem
  · simp [fits]
  · intro k first second
    rw [List.length_map, List.length_range] at first
    rw [List.getElem_map, List.getElem_range, List.getElem_take, source,
      List.getD_eq_getElem?_getD, List.getElem?_eq_getElem (by omega), Option.getD_some]

theorem slice_store (result : Allocation) (tmp : Nat) (bytes : Memory) {count length : Nat}
    (fits : length ≤ count) :
    (result.store tmp count bytes).content.slice 0 (tmp + length) =
      result.content.slice 0 tmp ++ (List.range length).map bytes := by
  rw [Memory.slice_append, Nat.zero_add]
  refine congrArg₂ (· ++ ·) (Memory.slice_copy_below _ _ (by omega) count bytes) ?_
  apply List.map_congr_left
  intro k inside
  rw [List.mem_range] at inside
  exact (if_pos (by omega)).trans (congrArg bytes (Nat.add_sub_cancel_left tmp k))

theorem mem_touched_store {result : Allocation} {tmp count a : Nat} {bytes : Memory} :
    a ∈ (result.store tmp count bytes).touched ↔
      a ∈ result.touched ∨ tmp ≤ a ∧ a < tmp + count := by
  simp only [Allocation.store, List.mem_append, List.mem_map, List.mem_range]
  refine or_congr_right ⟨?_, fun between => ⟨a - tmp, by omega, by omega⟩⟩
  rintro ⟨k, inside, rfl⟩
  omega

theorem Filled.store {result : Allocation} {tmp count length : Nat} {done : List Byte}
    (filled : Filled result tmp done) (bytes : Memory) (fits : length ≤ count)
    (terminator : count ≤ length + 1) :
    Filled (result.store tmp count bytes) (tmp + length)
      (done ++ (List.range length).map bytes) where
  stored := by rw [slice_store result tmp bytes fits, filled.stored]
  below a low := by
    rw [mem_touched_store]
    by_cases earlier : a < tmp
    next => exact .inl (filled.below a earlier)
    next => exact .inr (by omega)
  inside a touched := by
    rcases mem_touched_store.mp touched with earlier | between
    · have := filled.inside a earlier
      omega
    · omega

theorem Filled.strncpy {result : Allocation} {tmp count : Nat} {done : List Byte}
    (filled : Filled result tmp done) {chars : List Byte} (fits : count ≤ chars.length) :
    Filled (result.strncpy tmp chars count) (tmp + count) (done ++ chars.take count) := by
  have stored := filled.store (source chars) (Nat.le_refl count) (by omega)
  rwa [source_map fits] at stored

theorem Filled.strcpy {result : Allocation} {tmp : Nat} {done : List Byte}
    (filled : Filled result tmp done) (chars : List Byte) :
    Filled (result.strcpy tmp chars) (tmp + chars.length) (done ++ chars) := by
  have stored := filled.store (source chars) (Nat.le_succ chars.length) (Nat.le_refl _)
  rwa [source_map (Nat.le_refl _), List.take_length] at stored

theorem replaceLoop_step {rep withChars : List Byte} {s : Replacing} {front : Nat}
    (first : firstAt rep s.orig = some front) (frontFits : front < 2 ^ 31)
    (sumFits : front + rep.length < 2 ^ 31) (withFits : withChars.length < 2 ^ 31) (count : Nat) :
    replaceLoop rep withChars (count + 1) s =
      replaceLoop rep withChars count
        { orig := s.orig.drop (front + rep.length)
          tmp := s.tmp + front + withChars.length
          result := (s.result.strncpy s.tmp s.orig front).strcpy (s.tmp + front) withChars } := by
  have sum : intOf front + intOf rep.length = intOf (front + rep.length) :=
    (BitVec.ofNat_add front rep.length).symm
  rw [replaceLoop, first, Option.bind_eq_bind, Option.bind_some]
  simp only [intOf_signExtend frontFits, intOf_toNat frontFits, intOf_toNat withFits, sum,
    intOf_toNat sumFits]

theorem replaceLoop_run {rep withChars : List Byte} (nonempty : rep ≠ []) {orig : List Byte}
    {count : Nat} (occurrences : Occurrences rep orig count) {tmp : Nat} {result : Allocation}
    {done : List Byte} (origFits : orig.length < 2 ^ 31)
    (resultFits : (replaceAll orig rep withChars).length < 2 ^ 31)
    (filled : Filled result tmp done) :
    ∃ s written, replaceLoop rep withChars count ⟨orig, tmp, result⟩ = some s ∧
      s.result.size = result.size ∧ Filled s.result s.tmp written ∧
      written ++ s.orig = done ++ replaceAll orig rep withChars := by
  induction occurrences generalizing tmp result done with
  | done noneFound =>
      exact ⟨_, done, rfl, rfl, filled, by rw [replaceAll_none noneFound]⟩
  | @found orig front count first _ ih =>
      have inside := firstAt_length first nonempty
      have parts : replaceAll orig rep withChars = orig.take front ++
          (withChars ++ replaceAll (orig.drop (front + rep.length)) rep withChars) :=
        replaceAll_first first nonempty
      have lengths := congrArg List.length parts
      simp only [List.length_append, List.length_take] at lengths
      have copied : Filled (result.strncpy tmp orig front) (tmp + front)
          (done ++ orig.take front) := filled.strncpy (by omega)
      have next := copied.strcpy withChars
      obtain ⟨s, written, runs, size, filledThen, whole⟩ :=
        ih (by rw [List.length_drop]; omega) (by omega) next
      refine ⟨s, written, ?_, size, filledThen, ?_⟩
      · rw [replaceLoop_step first (by omega) (by omega) (by omega)]
        exact runs
      · rw [whole, parts]
        simp only [List.append_assoc]

theorem source_all (chars : List Byte) :
    (List.range (chars.length + 1)).map (source chars) = chars ++ [0] := by
  have terminator : source chars chars.length = 0 := by simp [source]
  rw [List.range_succ, List.map_append, source_map (Nat.le_refl _), List.take_length,
    List.map_singleton, terminator]

theorem Filled.finish {result : Allocation} {tmp : Nat} {done : List Byte}
    (filled : Filled result tmp done) (chars : List Byte) :
    (result.strcpy tmp chars).content.slice 0 ((done ++ chars).length + 1) =
        done ++ chars ++ [0] ∧
      ∀ a, a ∈ (result.strcpy tmp chars).touched ↔ a < (done ++ chars).length + 1 := by
  have start : tmp = done.length := by
    rw [← filled.stored, Memory.slice_length]
  have length : (done ++ chars).length + 1 = tmp + (chars.length + 1) := by
    rw [List.length_append, start, Nat.add_assoc]
  rw [length]
  constructor
  · rw [Allocation.strcpy, slice_store result tmp (source chars) (Nat.le_refl _), filled.stored,
      source_all, List.append_assoc]
  · intro a
    rw [Allocation.strcpy, mem_touched_store]
    by_cases earlier : a < tmp
    next => simp [filled.below a earlier, show a < tmp + (chars.length + 1) by omega]
    next =>
      refine ⟨?_, fun small => .inr ⟨by omega, small⟩⟩
      rintro (touched | between)
      · have := filled.inside a touched
        omega
      · exact between.2

def CString.replaced (orig rep : CString) (withString : Option CString) : List Byte :=
  replaceAll orig.chars rep.chars ((withString.map CString.chars).getD [])

theorem CString.replaced_terminated (orig rep : CString) (withString : Option CString) :
    0 ∉ orig.replaced rep withString := by
  intro member
  rcases mem_replaceFrom member with kept | inserted
  · exact orig.terminated kept
  · cases withString with
    | none => cases inserted
    | some withString => exact withString.terminated inserted

theorem strReplace_exact (malloc : BitVec 64 → Option Memory) (orig rep : CString)
    (withString : Option CString) {fresh : Memory} (nonempty : rep.chars ≠ [])
    (origFits : orig.chars.length < 2 ^ 31) (repFits : rep.chars.length < 2 ^ 31)
    (resultFits : (orig.replaced rep withString).length < 2 ^ 31)
    (allocates :
      malloc (BitVec.ofNat 64 ((orig.replaced rep withString).length + 1)) = some fresh) :
    ∃ result : Allocation,
      (∀ fuel > orig.chars.length,
        strReplace malloc fuel (some orig) (some rep) withString = some (some result)) ∧
      result.size.toNat = (orig.replaced rep withString).length + 1 ∧
      result.content.slice 0 ((orig.replaced rep withString).length + 1) =
        orig.replaced rep withString ++ [0] ∧
      0 ∉ orig.replaced rep withString ∧
      ∀ a, a ∈ result.touched ↔ a < (orig.replaced rep withString).length + 1 := by
  obtain ⟨count, occurrences⟩ := occurrences_exist orig.chars nonempty
  have size := allocationSize_eq (occurrences.length nonempty) origFits resultFits
  have empty : Filled ⟨BitVec.ofNat 64 ((orig.replaced rep withString).length + 1), fresh, []⟩
      0 [] := ⟨rfl, by simp, by simp⟩
  have fits : (replaceAll orig.chars rep.chars ((withString.map CString.chars).getD [])).length <
      2 ^ 31 := resultFits
  obtain ⟨s, written, runs, sizeKept, filled, whole⟩ :=
    replaceLoop_run nonempty occurrences origFits fits empty
  have kept := occurrences.le nonempty
  have counted : (BitVec.ofNat 32 count).toNat = count := intOf_toNat (by omega)
  rw [List.nil_append] at whole
  obtain ⟨stored, touched⟩ := filled.finish s.orig
  rw [whole] at stored touched
  refine ⟨s.result.strcpy s.tmp s.orig, ?_, ?_, stored, orig.replaced_terminated rep withString,
    touched⟩
  · intro fuel enough
    obtain ⟨c, counts, final⟩ := @countLoop_run _ repFits _ _ occurrences 0 fuel (by omega)
    have nonzero : intOf rep.chars.length ≠ 0 := fun zero => nonempty <| by
      have := congrArg BitVec.toNat zero
      rw [intOf_toNat repFits] at this
      exact List.length_eq_zero_iff.mp this
    have total : c.count = BitVec.ofNat 32 count := final.trans (BitVec.zero_add _)
    rw [strReplace, if_neg nonzero]
    simp only [counts, Option.bind_eq_bind, Option.bind_some, total, size, counted]
    rw [CString.replaced] at allocates runs
    rw [allocates]
    simp only [runs, Option.bind_some]
  · change s.result.size.toNat = _
    rw [sizeKept, BitVec.toNat_ofNat]
    omega

def overlapping : CString where
  chars := [97, 97, 97]
  terminated := by decide

def doubled : CString where
  chars := [97, 97]
  terminated := by decide

def growing : CString where
  chars := [98, 97, 97]
  terminated := by decide

theorem strReplace_exact_overlapping :
    ∃ result : Allocation,
      (∀ fuel > 3, strReplace (fun _ => some fun _ => 0xCC) fuel (some overlapping) (some doubled)
        (some growing) = some (some result)) ∧
      result.size.toNat = 5 ∧ result.content.slice 0 5 = [98, 97, 97, 97] ++ [0] ∧
      0 ∉ overlapping.replaced doubled (some growing) ∧ ∀ a, a ∈ result.touched ↔ a < 5 :=
  strReplace_exact (fun _ => some fun _ => 0xCC) overlapping doubled (some growing) (by decide)
    (by decide) (by decide) (by decide) rfl

end VitaTools.Bootimage
