import Mathlib.Data.List.Nodup
import VitaTools.Library.Numerals
import VitaTools.Thgn.Collect

set_option autoImplicit false

namespace VitaTools.Thgn

open VitaTools.Library

-- What `std::vector::at` throws behind the end.
inductive Failure
  | outOfRange
deriving DecidableEq, Repr

-- `table.size() - 1` in `size_t`.
def lastIndex (table : List HookEntry) : Nat := (table.length + (2 ^ 64 - 1)) % 2 ^ 64

-- `for (size_t i = 0; i < table.size() - 1; i++)` with `table.at(i)` in its body.
def allButLast (initializer : HookEntry → Text) (table : List HookEntry) (i : Nat) :
    Except Failure (List Text) :=
  if i < lastIndex table then
    match table[i]? with
    | none => .error .outOfRange
    | some hook => (allButLast initializer table (i + 1)).map (initializer hook :: ·)
  else .ok []
termination_by lastIndex table - i

-- An array's initializers: the loop, then `table.back()`.
def initializers (initializer : HookEntry → Text) (table : List HookEntry) :
    Except Failure (List Text) := do
  let front ← allButLast initializer table 0
  match table.getLast? with
  | none => .error .outOfRange
  | some back => .ok (front ++ [initializer back])

-- `0x` and the number under `std::hex`.
def literal (value : BitVec 32) : Text := '0' :: 'x' :: Nat.toDigits 16 value.toNat

/-- `HOOK_FUNC(name, nid)`. -/
structure HookFunc where
  name : Text
  nid : Text

structure Hooker where
  nidTable : List Text
  libTable : List Text
  hookFuncs : List HookFunc
  funcPtrTable : List Text

def generate (table : List HookEntry) : Except Failure Hooker := do
  let nidTable ← initializers (fun hook => literal hook.nid) table
  let libTable ← initializers (fun hook => literal hook.libNid) table
  let hookFuncs := table.map fun hook => ⟨hook.nidName, literal hook.nid⟩
  let funcPtrTable ← initializers (fun hook => hook.nidName) table
  pure ⟨nidTable, libTable, hookFuncs, funcPtrTable⟩

-- A name whose NUL is behind its block reads on there. `usable size` are the bytes of the block
-- that `malloc(size)` gives, and `behind k` is what follows that of hook `k`.
def reread (usable : Nat → Nat) (behind : Nat → Text) (table : List HookEntry) : List HookEntry :=
  table.mapIdx fun k hook =>
    if hook.nidName.length < usable hook.nidRoom then hook
    else { hook with nidName := hook.nidName.take (usable hook.nidRoom) ++ behind k }

def value (text : Text) : Nat := numeral 16 (text.drop 2)

-- `while (nid_table[i] != nid && i < NID_TABLE_SIZE) i++;`
def doShit (nidTable : List Nat) (nid : Nat) (i : Nat) : Nat :=
  if inside : i < nidTable.length then
    if nidTable[i] ≠ nid then doShit nidTable nid (i + 1) else i
  else i
termination_by nidTable.length - i

structure Hooks (table : List HookEntry) (hooker : Hooker) : Prop where
  nids : hooker.nidTable.map value = table.map fun hook => hook.nid.toNat
  libs : hooker.libTable.map value = table.map fun hook => hook.libNid.toNat
  funcs : hooker.funcPtrTable = table.map fun hook => hook.nidName
  names : (hooker.hookFuncs.map fun func => func.name).Nodup
  -- The call that the stub of hook `k` makes continues `hook_refs[k]`.
  selects : ∀ (k : Nat) (hook : HookEntry), table[k]? = some hook →
    ∃ func, hooker.hookFuncs[k]? = some func ∧ func.name = hook.nidName ∧
      doShit (hooker.nidTable.map value) (value func.nid) 0 = k

-- Whatever else the heap holds.
def Consistent (usable : Nat → Nat) (table : List HookEntry) : Prop :=
  ∀ behind, ∃ hooker, generate (reread usable behind table) = .ok hooker ∧ Hooks table hooker

theorem value_literal (nid : BitVec 32) : value (literal nid) = nid.toNat :=
  numeral_toDigits (by decide) (by decide) nid.toNat

section

variable {table : List HookEntry} (initializer : HookEntry → Text)

theorem lastIndex_eq (small : table.length < 2 ^ 64) (nonempty : table ≠ []) :
    lastIndex table = table.length - 1 := by
  have positive : 0 < table.length := List.length_pos_of_ne_nil nonempty
  unfold lastIndex
  omega

theorem allButLast_eq (small : table.length < 2 ^ 64) (nonempty : table ≠ []) (i : Nat) :
    allButLast initializer table i = .ok ((table.dropLast.drop i).map initializer) := by
  have last := lastIndex_eq small nonempty
  have front : table.dropLast.length = table.length - 1 := List.length_dropLast
  fun_induction allButLast initializer table i with
  | case1 i inside missing =>
      rw [List.getElem?_eq_none_iff] at missing
      omega
  | case2 i inside hook found ih =>
      obtain ⟨_, rfl⟩ := List.getElem_of_getElem? found
      rw [ih, List.drop_eq_getElem_cons (i := i) (by omega), List.map_cons, List.getElem_dropLast]
      rfl
  | case3 i done =>
      rw [List.drop_eq_nil_of_le (by omega), List.map_nil]

theorem initializers_eq (small : table.length < 2 ^ 64) (nonempty : table ≠ []) :
    initializers initializer table = .ok (table.map initializer) := by
  have whole : table.dropLast.map initializer ++ [initializer (table.getLast nonempty)] =
      table.map initializer := by
    rw [← List.map_singleton, ← List.map_append, List.dropLast_append_getLast]
  rw [initializers, allButLast_eq initializer small nonempty, List.drop_zero,
    List.getLast?_eq_some_getLast nonempty, ← whole]
  rfl

theorem initializers_nil : initializers initializer [] = .error .outOfRange := by
  have wraps : 0 < lastIndex [] := by
    rw [lastIndex, List.length_nil]
    norm_num
  have thrown : allButLast initializer [] 0 = .error .outOfRange := by
    unfold allButLast
    simp only [wraps, if_true, List.getElem?_nil]
  rw [initializers, thrown]
  rfl

end

theorem generate_eq {table : List HookEntry} (small : table.length < 2 ^ 64)
    (nonempty : table ≠ []) : generate table = .ok
      ⟨table.map fun hook => literal hook.nid, table.map fun hook => literal hook.libNid,
        table.map fun hook => ⟨hook.nidName, literal hook.nid⟩,
        table.map fun hook => hook.nidName⟩ := by
  rw [generate, initializers_eq _ small nonempty, initializers_eq _ small nonempty,
    initializers_eq _ small nonempty]
  rfl

theorem generate_nil : generate [] = .error .outOfRange := by
  rw [generate, initializers_nil]
  rfl

theorem doShit_spec (nidTable : List Nat) (nid i : Nat) :
    i ≤ doShit nidTable nid i ∧ ∀ k (inside : k < nidTable.length), i ≤ k → nidTable[k] = nid →
      doShit nidTable nid i ≤ k ∧ nidTable[doShit nidTable nid i]? = some nid := by
  fun_induction doShit nidTable nid i with
  | case1 i inside other ih =>
      refine ⟨by omega, fun k within later found => ih.2 k within ?_ found⟩
      rcases later.eq_or_lt with same | further
      · subst same
        exact absurd found other
      · exact further
  | case2 i inside same =>
      rw [not_not] at same
      exact ⟨le_refl _, fun k within later found => ⟨later, by simp [inside, same]⟩⟩
  | case3 i outside => exact ⟨le_refl _, fun k within later found => by omega⟩

theorem nodup_iff_first (nidTable : List Nat) : nidTable.Nodup ↔
    ∀ k (inside : k < nidTable.length), doShit nidTable nidTable[k] 0 = k := by
  constructor
  · intro distinct k inside
    obtain ⟨low, found⟩ := (doShit_spec nidTable nidTable[k] 0).2 k inside (Nat.zero_le _) rfl
    obtain ⟨within, same⟩ := List.getElem?_eq_some_iff.mp found
    exact (distinct.getElem_inj_iff).mp same
  · intro selects
    rw [List.nodup_iff_injective_getElem]
    intro first second same
    have here := selects first first.isLt
    have there := selects second second.isLt
    dsimp only at same
    rw [same, there] at here
    exact Fin.ext here.symm

theorem toNat_injective : Function.Injective fun nid : BitVec 32 => nid.toNat :=
  fun _ _ same => BitVec.eq_of_toNat_eq same

theorem values_literal (table : List HookEntry) (field : HookEntry → BitVec 32) :
    (table.map fun hook => literal (field hook)).map value =
      table.map fun hook => (field hook).toNat := by
  rw [List.map_map]
  exact List.map_congr_left fun hook _ => value_literal (field hook)

theorem selects_iff_nodup (table : List HookEntry) :
    (∀ (k : Nat) (hook : HookEntry), table[k]? = some hook →
        doShit (table.map fun hook => hook.nid.toNat) hook.nid.toNat 0 = k) ↔
      (table.map fun hook => hook.nid).Nodup := by
  have numbers : (table.map fun hook => hook.nid.toNat) =
      (table.map fun hook => hook.nid).map fun nid => nid.toNat := by
    rw [List.map_map]
    rfl
  rw [← List.nodup_map_iff toNat_injective, ← numbers, nodup_iff_first]
  constructor
  · intro selects k inside
    have within : k < table.length := by simpa using inside
    simpa using selects k table[k] (List.getElem?_eq_getElem within)
  · intro first k hook found
    obtain ⟨inside, rfl⟩ := List.getElem?_eq_some_iff.mp found
    have same := first k (by simpa using inside)
    rwa [List.getElem_map] at same

section

variable {usable : Nat → Nat} {table : List HookEntry}

theorem reread_fits (fits : ∀ hook ∈ table, hook.nidName.length < usable hook.nidRoom)
    (behind : Nat → Text) : reread usable behind table = table := by
  refine List.ext_getElem List.length_mapIdx fun k _ inside => ?_
  simp only [reread, List.getElem_mapIdx]
  rw [if_pos (fits _ (List.getElem_mem inside))]

theorem fits_of_consistent (small : table.length < 2 ^ 64) (consistent : Consistent usable table) :
    ∀ hook ∈ table, hook.nidName.length < usable hook.nidRoom := by
  have named (behind : Nat → Text) :
      (reread usable behind table).map (fun hook => hook.nidName) =
        table.map fun hook => hook.nidName := by
    obtain ⟨hooker, generated, hooks⟩ := consistent behind
    have nonempty : reread usable behind table ≠ [] := by
      intro empty
      rw [empty, generate_nil] at generated
      contradiction
    have length : (reread usable behind table).length < 2 ^ 64 :=
      List.length_mapIdx.trans_lt small
    rw [generate_eq length nonempty] at generated
    cases generated
    exact hooks.funcs
  intro hook member
  obtain ⟨k, inside, rfl⟩ := List.getElem_of_mem member
  by_contra long
  have reads (behind : Nat → Text) :
      table[k].nidName.take (usable table[k].nidRoom) ++ behind k = table[k].nidName := by
    have same := congrArg (·[k]?) (named behind)
    simpa [reread, inside, long] using same
  have short := congrArg List.length (reads fun _ => [])
  have longer := congrArg List.length (reads fun _ => ['x'])
  rw [List.length_append] at short longer
  exact absurd (short.trans longer.symm) (by simp)

end

/-- THGN emits a consistent hooker exactly for a list with hooks whose names and their terminators
fit into their blocks, and no two of which share a NID or a name. -/
theorem consistent_iff (usable : Nat → Nat) (table : List HookEntry)
    (small : table.length < 2 ^ 64) :
    Consistent usable table ↔ table ≠ [] ∧
      (∀ hook ∈ table, hook.nidName.length < usable hook.nidRoom) ∧
      (table.map fun hook => hook.nid).Nodup ∧ (table.map fun hook => hook.nidName).Nodup := by
  have names : (table.map fun hook => (⟨hook.nidName, literal hook.nid⟩ : HookFunc)).map
      (fun func => func.name) = table.map fun hook => hook.nidName := by
    rw [List.map_map]
    rfl
  constructor
  · intro consistent
    have fits := fits_of_consistent small consistent
    obtain ⟨hooker, generated, hooks⟩ := consistent fun _ => []
    rw [reread_fits fits] at generated
    have nonempty : table ≠ [] := by
      intro empty
      rw [empty, generate_nil] at generated
      contradiction
    rw [generate_eq small nonempty] at generated
    cases generated
    refine ⟨nonempty, fits, (selects_iff_nodup table).mp ?_, ?_⟩
    · intro k hook found
      obtain ⟨func, there, _, selected⟩ := hooks.selects k hook found
      rw [List.getElem?_map, found] at there
      cases there
      rwa [value_literal, values_literal] at selected
    · rw [← names]
      exact hooks.names
  · intro ⟨nonempty, fits, nids, distinct⟩ behind
    rw [reread_fits fits]
    refine ⟨_, generate_eq small nonempty, ?_⟩
    constructor
    next => exact values_literal table fun hook => hook.nid
    next => exact values_literal table fun hook => hook.libNid
    next => rfl
    next => rwa [names]
    next =>
      intro k hook found
      refine ⟨⟨hook.nidName, literal hook.nid⟩, ?_, rfl, ?_⟩
      · rw [List.getElem?_map, found]
        rfl
      · rw [values_literal, value_literal]
        exact (selects_iff_nodup table).mpr nids k hook found

def segmentOf (bytes : List Byte) : Segment := fun offset => bytes.getD offset.toNat 0

def sharedNid : Image where
  modInfo := ⟨0, 64, 64, 64⟩
  segment1 := segmentOf
    [32, 0, 0, 0, 0, 0, 1, 0, 0, 0, 0, 0, 0, 0, 0, 0, 1, 0, 0, 0, 64, 0, 0, 0, 68, 0, 0, 0,
      0, 0, 0, 0,
      32, 0, 0, 0, 0, 0, 1, 0, 0, 0, 0, 0, 0, 0, 0, 0, 2, 0, 0, 0, 66, 0, 0, 0, 68, 0, 0, 0,
      0, 0, 0, 0,
      65, 0, 66, 0, 7, 0, 0, 0]
  vaddr := 0

def sharedNidHooks : List HookEntry :=
  [⟨7, 1, .exported, ['A'], ['A', '_', '0', '0', '0', '0', '0', '0', '0', '7'], 64⟩,
    ⟨7, 2, .exported, ['B'], ['B', '_', '0', '0', '0', '0', '0', '0', '0', '7'], 64⟩]

-- An allocator with chunks of 16 bytes and a word in front of each.
def chunked (size : Nat) : Nat := max 24 ((size + 23) / 16 * 16 - 8)

theorem consistent_iff_firstHook :
    Consistent chunked (sharedNidHooks.take 1) ↔ sharedNidHooks.take 1 ≠ [] ∧
      (∀ hook ∈ sharedNidHooks.take 1, hook.nidName.length < chunked hook.nidRoom) ∧
      ((sharedNidHooks.take 1).map fun hook => hook.nid).Nodup ∧
      ((sharedNidHooks.take 1).map fun hook => hook.nidName).Nodup :=
  consistent_iff chunked (sharedNidHooks.take 1) (by decide)

def noExports : Image := ⟨⟨0, 0, 0, 0⟩, fun _ => 0, 0⟩

def longImport : Image where
  modInfo := ⟨0, 0, 0, 52⟩
  segment1 := segmentOf
    [52, 0, 0, 0, 0, 0, 1, 0, 0, 0, 0, 0, 0, 0, 0, 0, 1, 0, 0, 0, 52, 0, 0, 0, 0, 0, 0, 0,
      68, 0, 0, 0, 0, 0, 0, 0, 0, 0, 0, 0, 0, 0, 0, 0, 0, 0, 0, 0, 0, 0, 0, 0,
      83, 99, 101, 67, 111, 109, 109, 111, 110, 68, 105, 97, 108, 111, 103, 0, 7, 0, 0, 0]
  vaddr := 0

def longImportHooks : List HookEntry :=
  [⟨7, 1, .imported, ['S', 'c', 'e', 'C', 'o', 'm', 'm', 'o', 'n', 'D', 'i', 'a', 'l', 'o', 'g'],
    ['S', 'c', 'e', 'C', 'o', 'm', 'm', 'o', 'n', 'D', 'i', 'a', 'l', 'o', 'g', '_', '0', '0', '0',
      '0', '0', '0', '0', '7'], 24⟩]

-- A module without exports, the stub of B's function that runs A's chain, and a name that fills its
-- block.
theorem collected_inconsistent :
    (collect [] noExports .exports = some [] ∧ ¬ Consistent chunked []) ∧
      (collect [] sharedNid .all = some sharedNidHooks ∧ ¬ Consistent chunked sharedNidHooks) ∧
      collect [] longImport .imports = some longImportHooks ∧
        ¬ Consistent chunked longImportHooks := by
  refine ⟨⟨by decide +kernel, ?_⟩, ⟨by decide +kernel, ?_⟩, by decide +kernel, ?_⟩
  · intro consistent
    obtain ⟨hooker, generated, _⟩ := consistent fun _ => []
    rw [reread, List.mapIdx_nil, generate_nil] at generated
    contradiction
  rotate_left
  · intro consistent
    have fits := fits_of_consistent (by decide) consistent
    exact absurd (fits _ List.mem_cons_self) (by decide)
  · intro consistent
    obtain ⟨hooker, generated, hooks⟩ := consistent fun _ => []
    rw [reread_fits (by decide), generate_eq (by decide) (by decide)] at generated
    cases generated
    obtain ⟨func, found, _, selected⟩ := hooks.selects 1 sharedNidHooks[1] rfl
    cases found
    have other : doShit [7, 7] 7 0 = 0 := by
      rw [doShit, dif_pos (by decide), if_neg (by decide)]
    exact absurd (other.symm.trans selected) (by decide)

end VitaTools.Thgn
