import VitaTools.ErrorResolver.Model
import VitaTools.Library.Numerals

set_option autoImplicit false

namespace VitaTools.ErrorResolver

open VitaTools.Library

def NameAt (m : Memory) (address : Nat) : Prop := ∃ length < 4, m (address + length) = 0

namespace ErrorTable

structure Named (table : ErrorTable) : Prop where
  default : NameAt table.buf 0
  groups : ∀ ii < table.facilityGroupNum, NameAt table.facilityGroups (8 * ii + 4)

structure FirstAt (table : ErrorTable) (errorCode : BitVec 32) (k : Nat) : Prop where
  inside : k < table.errorNum
  found : table.errorAt k = errorCode
  first : ∀ j < k, table.errorAt j ≠ errorCode

theorem exists_firstAt {table : ErrorTable} {j : Nat} (inside : j < table.errorNum) :
    ∃ k, table.FirstAt (table.errorAt j) k := by
  have occurs : ∃ k, table.errorAt k = table.errorAt j := ⟨j, rfl⟩
  refine ⟨Nat.find occurs, ?_, Nat.find_spec occurs, fun _ below => Nat.find_min occurs below⟩
  exact (Nat.find_min' occurs rfl).trans_lt inside

theorem FirstAt.code_eq {table : ErrorTable} {c d : BitVec 32} {k : Nat}
    (here : table.FirstAt c k) (there : table.FirstAt d k) : c = d :=
  here.found.symm.trans there.found

theorem errorTableNum_eq {table : ErrorTable} (counted : table.errorNum ≤ 0x4e21) :
    table.errorTableNum = table.errorNum := by
  unfold errorNum at counted
  rw [errorTableNum, errorNum, BitVec.toNat_signExtend,
    BitVec.msb_eq_false_iff_two_mul_lt.mpr (by omega), BitVec.toNat_setWidth]
  simp only [Bool.false_eq_true, if_false, Nat.add_zero]
  exact Nat.mod_eq_of_lt (by omega)

end ErrorTable

section

variable {table : ErrorTable}

theorem text_length {m : Memory} {address length : Nat} (size : Nat)
    (ends : m (address + length) = 0) : (text m address size).length ≤ length := by
  induction length generalizing address size with
  | zero => cases size <;> simp_all [text]
  | succ length ih =>
      cases size with
      | zero => simp [text]
      | succ size =>
          rw [text]
          split
          next => simp
          next =>
            have next : m (address + 1 + length) = 0 := by
              rwa [Nat.add_right_comm]
            simpa using ih size next

theorem name_length {m : Memory} {address : Nat} (named : NameAt m address) (size : Nat) :
    (text m address size).length ≤ 3 := by
  obtain ⟨length, short, ends⟩ := named
  exact (text_length size ends).trans (Nat.le_of_lt_succ short)

theorem facilityGroup_length (named : table.Named) (shifted ii : Nat) :
    (facilityGroup table shifted ii).length ≤ 3 := by
  fun_induction facilityGroup table shifted ii with
  | case1 ii inside _ _ _ => exact name_length (named.groups ii inside) 16
  | case2 ii inside _ _ _ ih => exact ih
  | case3 ii _ => exact name_length named.default 16

theorem facility_length (named : table.Named) (errorCode : BitVec 32) :
    (facility table errorCode).length ≤ 3 := by
  simp only [facility]
  split
  · exact facilityGroup_length named _ 0
  · simp

theorem lastBit_lt (errorInit : Nat) : lastBit errorInit < 10 := by
  unfold lastBit
  split <;> omega

theorem shortCode_length (named : table.Named) (counted : table.errorNum ≤ 0x4e21)
    (errorCode : BitVec 32) {k : Nat} (inside : k < table.errorNum) :
    (shortCode table errorCode k).length ≤ 11 := by
  have name := facility_length named errorCode
  have number : (Nat.toDigits 10 (table.base + k)).length ≤ 5 := by
    rw [Nat.length_toDigits_le_iff (by decide) (by decide)]
    have low : table.base < 2 ^ 16 := (table.buf.half 12).isLt
    omega
  have sum : (Nat.toDigits 10 (lastBit (table.base + k))).length ≤ 1 := by
    rw [Nat.length_toDigits_le_iff (by decide) (by decide)]
    exact lastBit_lt _
  simp only [shortCode, List.append_assoc, List.length_append, List.length_cons]
  omega

theorem shortCode_index {c d : BitVec 32} {i j : Nat}
    (same : shortCode table c i = shortCode table d j) : i = j := by
  have numbers := (append_separator (dash_not_mem_toDigits _) (dash_not_mem_toDigits _) same).1
  have digits := (append_separator (dash_not_mem_toDigits _) (dash_not_mem_toDigits _) numbers).2
  have equal := toDigits_injective (by decide) (by decide) digits
  omega

theorem dash_not_mem_hex8 (value : BitVec 32) : '-' ∉ hex8 value := by
  intro member
  obtain ⟨k, _, digit⟩ := List.mem_map.mp member
  have small : value.toNat / 16 ^ (7 - k) % 16 < 16 := Nat.mod_lt _ (by decide)
  generalize value.toNat / 16 ^ (7 - k) % 16 = d at digit small
  have dash := digitValue_digitChar small
  rw [digit] at dash
  subst dash
  contradiction

theorem shortCode_ne_star (c : BitVec 32) (i : Nat) (unset : BitVec 32) :
    shortCode table c i ≠ '*' :: '-' :: hex8 unset := by
  intro same
  have star : '*' :: '-' :: hex8 unset = ['*'] ++ '-' :: hex8 unset := rfl
  rw [star] at same
  have fronts := (append_separator (dash_not_mem_toDigits _) (dash_not_mem_hex8 _) same).1
  have dash : '-' ∈ ['*'] := by
    rw [← fronts]
    simp
  contradiction

theorem errorIndex_first {errorCode : BitVec 32} {k : Nat} (first : table.FirstAt errorCode k)
    (i : Nat) (below : i < k) : errorIndex table errorCode i = some k := by
  have inside := first.inside
  fun_induction errorIndex table errorCode i with
  | case1 i _ found =>
      have reached : ¬ i + 1 < k := fun before => first.first _ before found
      rw [show i + 1 = k by omega]
  | case2 i _ other ih =>
      refine ih (lt_of_le_of_ne below fun last => other ?_)
      rw [last]
      exact first.found
  | case3 i outside => omega

theorem errorCodeToString_eq {errorCode : BitVec 32} {k : Nat}
    (first : table.FirstAt errorCode k) (unset : BitVec 32) :
    errorCodeToString table unset errorCode =
      if k ≤ table.limit then snprintf 16 (shortCode table errorCode k)
      else snprintf 16 ('*' :: '-' :: hex8 unset) := by
  have counted : table.buf.half 14 ≠ 0 := by
    intro empty
    have inside := first.inside
    rw [ErrorTable.errorNum, empty] at inside
    exact absurd inside (Nat.not_lt_zero k)
  rw [errorCodeToString, if_neg counted]
  rcases Nat.eq_zero_or_pos k with rfl | later
  · rw [if_pos first.found, if_pos (Nat.zero_le _)]
  · rw [if_neg (first.first 0 later), errorIndex_first first 0 later]

theorem snprintf_eq {size : Nat} {output : Text} (fits : output.length < size) :
    snprintf size output = output :=
  List.take_of_length_le (Nat.le_sub_one_of_lt fits)

theorem errorCodeToString_listed (named : table.Named) (counted : table.errorNum ≤ 0x4e21)
    {errorCode : BitVec 32} {k : Nat} (first : table.FirstAt errorCode k) (unset : BitVec 32) :
    errorCodeToString table unset errorCode =
      if k ≤ table.limit then shortCode table errorCode k else '*' :: '-' :: hex8 unset := by
  have length := shortCode_length named counted errorCode first.inside
  rw [errorCodeToString_eq first, snprintf_eq (by omega), snprintf_eq (by simp [hex8])]

theorem errorCodeToString_injective (named : table.Named) (counted : table.errorNum ≤ 0x4e21)
    {c d : BitVec 32} {k j : Nat} (first : table.FirstAt c k) (known : k ≤ table.limit)
    (other : table.FirstAt d j) {unset unset' : BitVec 32}
    (same : errorCodeToString table unset' d = errorCodeToString table unset c) : d = c := by
  rw [errorCodeToString_listed named counted first, errorCodeToString_listed named counted other,
    if_pos known] at same
  split at same
  next =>
    have place := shortCode_index same
    subst place
    exact other.code_eq first
  next => exact absurd same.symm (shortCode_ne_star c k unset')

theorem bruteForce_spec (table : ErrorTable) (unset : Nat → BitVec 32) (argument : Text)
    (i : Nat) :
    match bruteForce table unset argument i with
    | some hexError => ∃ j < table.errorTableNum, table.errorAt j = hexError ∧
        errorCodeToString table (unset j) hexError = argument.take 16
    | none => ∀ j < table.errorTableNum, i ≤ j →
        errorCodeToString table (unset j) (table.errorAt j) ≠ argument.take 16 := by
  fun_induction bruteForce table unset argument i with
  | case1 i inside hexError found => exact ⟨i, inside, rfl, found⟩
  | case2 i inside hexError other ih =>
      split
      next found => simpa only [found] using ih
      next missing =>
        rw [missing] at ih
        intro j within later
        rcases later.eq_or_lt with rfl | further
        · exact other
        · exact ih j within further
  | case3 i outside => exact fun j within later => absurd within (by omega)

end

theorem toNat_le_signExtend (value : BitVec 16) :
    value.toNat ≤ (value.signExtend 32).toNat := by
  have small := value.isLt
  rw [BitVec.toNat_signExtend, BitVec.toNat_setWidth, Nat.mod_eq_of_lt (by omega)]
  exact Nat.le_add_right _ _

theorem readErrorTable_counts {file : List Byte} {table : ErrorTable}
    (read : readErrorTable file = some table) :
    table.facilityGroupNum ≤ 0x21 ∧ table.errorNum ≤ 0x4e21 ∧
      12 + 8 * table.facilityGroupNum + 4 * table.errorNum ≤ file.length := by
  simp only [readErrorTable, Option.ite_none_left_eq_some] at read
  obtain ⟨_, groups, _, errors, long, made⟩ := read
  have header := congrArg ErrorTable.buf (Option.some.inj made)
  have groupHalf : table.buf.half 4 = Memory.half (fun a => file.getD a 0) 4 :=
    (congrArg (Memory.half · 4) header).symm.trans (Memory.half_congr rfl rfl)
  rw [← groupHalf] at groups errors long header
  have errorHalf : table.buf.half 14 = Memory.half (fun a => file.getD a 0)
      (8 + 8 * ((table.buf.half 4).signExtend 32).toNat + 2) :=
    (congrArg (Memory.half · 14) header).symm.trans (Memory.half_congr rfl rfl)
  rw [← errorHalf] at errors long
  have group := toNat_le_signExtend (table.buf.half 4)
  have error := toNat_le_signExtend (table.buf.half 14)
  simp only [ErrorTable.facilityGroupNum, ErrorTable.errorNum]
  omega

/-- Brute force over the short code of a listed code gives the code back; no other listed
code up to the limit has that short code, and the buffer holds all of it. -/
theorem bruteForce_inverts {table : ErrorTable}
    (counted : 1 ≤ table.errorNum ∧ table.errorNum ≤ 0x4e21) (named : table.Named)
    {errorCode : BitVec 32} {k : Nat} (first : table.FirstAt errorCode k)
    (known : k = 0 ∨ k ≤ table.limit) (unset : BitVec 32) (unsets : Nat → BitVec 32) :
    bruteForce table unsets (errorCodeToString table unset errorCode) 0 = some errorCode ∧
      (∀ (other : BitVec 32) (j : Nat) (unset' : BitVec 32), table.FirstAt other j →
        (j = 0 ∨ j ≤ table.limit) → errorCodeToString table unset' other =
          errorCodeToString table unset errorCode → other = errorCode) ∧
      errorCodeToString table unset errorCode = shortCode table errorCode k ∧
      (shortCode table errorCode k).length < 16 := by
  have listed : k ≤ table.limit := known.elim (fun zero => zero ▸ Nat.zero_le _) id
  have length := shortCode_length named counted.2 errorCode first.inside
  have printed : errorCodeToString table unset errorCode = shortCode table errorCode k := by
    rw [errorCodeToString_listed named counted.2 first, if_pos listed]
  have target : (errorCodeToString table unset errorCode).take 16 =
      errorCodeToString table unset errorCode := by
    rw [printed, List.take_of_length_le (by omega)]
  have number := ErrorTable.errorTableNum_eq counted.2
  refine ⟨?_, ?_, printed, by omega⟩
  · have searched := bruteForce_spec table unsets
      (errorCodeToString table unset errorCode) 0
    rw [target] at searched
    split at searched
    next hexError result =>
      obtain ⟨j, inside, found, same⟩ := searched
      rw [number] at inside
      obtain ⟨i, other⟩ := ErrorTable.exists_firstAt inside
      rw [found] at other
      rw [result, errorCodeToString_injective named counted.2 first listed other same]
    next result =>
      have again : errorCodeToString table (unsets k) (table.errorAt k) =
          errorCodeToString table unset errorCode := by
        rw [first.found, printed, errorCodeToString_listed named counted.2 first, if_pos listed]
      exact absurd again (searched k (number ▸ first.inside) (Nat.zero_le _))
  · intro other j unset' there _ same
    exact errorCodeToString_injective named counted.2 first listed there same

def smallTable : ErrorTable where
  buf := fun a => [0x45, 0, 0, 0, 1, 0, 1, 0, 0, 0, 0, 0, 0x30, 0x75, 2, 0].getD a 0
  facilityGroups := fun a => [0x10, 0, 2, 0, 0x43, 0x31, 0, 0].getD a 0
  errorList := fun a => [1, 0, 0x11, 0x80, 2, 0, 0x20, 0x80].getD a 0

theorem bruteForce_inverts_second :
    bruteForce smallTable (fun _ => 0) (errorCodeToString smallTable 0 0x80200002) 0 =
        some 0x80200002 ∧
      errorCodeToString smallTable 0 0x80200002 =
        ['E', '-', '3', '0', '0', '0', '1', '-', '4'] := by
  have named : smallTable.Named := by
    refine ⟨⟨1, by decide, rfl⟩, fun ii inside => ?_⟩
    obtain rfl : ii = 0 := Nat.lt_one_iff.mp inside
    exact ⟨2, by decide, rfl⟩
  have first : smallTable.FirstAt 0x80200002 1 := ⟨by decide, by decide, by decide⟩
  obtain ⟨found, _, printed, _⟩ :=
    bruteForce_inverts (by decide) named first (by decide) 0 fun _ => 0
  refine ⟨found, printed.trans ?_⟩
  decide +kernel

end VitaTools.ErrorResolver
