import VitaTools.Thgn.Hooker
import VitaTools.VitaModule.Walks

set_option autoImplicit false

namespace VitaTools.VitaModule

open VitaTools.Library
open VitaTools.Thgn (Text Imports Segment findNameByNid hex8)

/-- The branches for this library name and NID write the whole name. -/
def Settled (imports : Imports) : Option Text → Word → Prop
  | some libName, nid =>
      ∀ funcName, findNameByNid imports libName nid = some funcName → (expand funcName).isSome
  | none, nid => nid ∈ syslibNids.map fun entry => entry.1

section

variable {session other : Session} {libName : Option Text} {nid : Word}

theorem exportName_known (known : nid ∈ syslibNids.map fun entry => entry.1)
    (before after : Text) :
    session.exportName none nid before = other.exportName none nid after := by
  simp only [syslibNids, List.map_cons, List.map_nil, List.mem_cons, List.not_mem_nil,
    or_false] at known
  rcases known with rfl | rfl | rfl | rfl | rfl <;> simp [Session.exportName, syslibNids]

theorem exportName_unknown (unknown : nid ∉ syslibNids.map fun entry => entry.1)
    (before : Text) : session.exportName none nid before = before := by
  have kept (table : List (Word × Text)) (absent : nid ∉ table.map fun entry => entry.1) :
      table.foldl (fun name entry => if entry.1 = nid then entry.2 else name) before =
        before := by
    induction table with
    | nil => rfl
    | cons entry rest ih =>
        rw [List.map_cons, List.mem_cons, not_or] at absent
        rw [List.foldl_cons, if_neg (Ne.symm absent.1), ih absent.2]
  exact kept syslibNids unknown

theorem exportName_settled (same : session.imports = other.imports)
    (settled : Settled session.imports libName nid) (before after : Text) :
    session.exportName libName nid before = other.exportName libName nid after := by
  cases libName with
  | none => exact exportName_known settled before after
  | some libName =>
      rw [Session.exportName, Session.exportName, Session.libraryName, Session.libraryName, ← same]
      cases found : findNameByNid session.imports libName nid with
      | none => rfl
      | some funcName =>
          obtain ⟨text, expanded⟩ := Option.isSome_iff_exists.mp (settled funcName found)
          simp only [Session.formatted, expanded, Option.getD_some]

end

section

variable {session : Session} {data : Segment} {textAddr : Word} {exp : SceExportsTable}

def libraryOf (data : Segment) (textAddr : Word) (exp : SceExportsTable) : Option Text :=
  if exp.libName = 0 then none else some (stringAt data textAddr exp.libName)

theorem exportEntries_mem {left j : Nat} {name : Text} {call : ExportCall}
    (member : call ∈ (exportEntries session data textAddr exp left j name).1) :
    ∃ k, j ≤ k ∧ k < j + left ∧ call.libName = libraryOf data textAddr exp ∧
      call.nid = wordAt data textAddr exp.nidTable k ∧
        ∃ before, call.name = session.exportName call.libName call.nid before := by
  induction left generalizing j name with
  | zero => cases member
  | succ left ih =>
      rw [exportEntries] at member
      rcases List.mem_cons.mp member with rfl | later
      · exact ⟨j, by omega, by omega, rfl, rfl, name, rfl⟩
      · obtain ⟨k, low, high, rest⟩ := ih later
        exact ⟨k, by omega, by omega, rest⟩

theorem exportEntries_made {left j k : Nat} (low : j ≤ k) (high : k < j + left) (name : Text) :
    ∃ call ∈ (exportEntries session data textAddr exp left j name).1,
      call.libName = libraryOf data textAddr exp ∧
        call.nid = wordAt data textAddr exp.nidTable k := by
  induction left generalizing j name with
  | zero => omega
  | succ left ih =>
      rw [exportEntries]
      by_cases here : k = j
      next =>
        subst here
        exact ⟨_, List.mem_cons_self, rfl, rfl⟩
      next =>
        obtain ⟨call, member, key⟩ := ih (Nat.lt_of_le_of_ne low (Ne.symm here)) (by omega) _
        exact ⟨call, List.mem_cons_of_mem _ member, key⟩

end

/-- Some module's exports make this call under the database. -/
def Passed (imports : Imports) (call : ExportCall) : Prop :=
  ∃ missing data textAddr info name st,
    (exportLoop ⟨imports, missing⟩ data textAddr (SceModuleInfo.expBtm info)).Visits
      ⟨info.expTop, name, []⟩ st ∧ call ∈ st.calls

theorem reached_calls (session : Session) {data : Segment} {textAddr top bottom i : Word}
    (reached : Reached (exportSize data) bottom top i) (name : Text) :
    ∃ st before, (exportLoop session data textAddr bottom).Visits ⟨top, name, []⟩ st ∧
      ∀ call ∈ (exportEntries session data textAddr (exportsTable data i)
        (exportsTable data i).entries 0 before).1, call ∈ st.calls := by
  have visited : (cursorLoop (exportSize data) bottom).Visits top i :=
    Loop.visits_iff.mpr reached.1
  have lifted : ∃ s, (exportLoop session data textAddr bottom).Visits ⟨top, name, []⟩ s ∧
      i = s.i := by
    exact Loop.Visits.lift (fun st : Exporting => st.i) (fun _ => rfl) (fun _ => rfl) visited
  obtain ⟨s, before, rfl⟩ := lifted
  have more : (exportLoop session data textAddr bottom).more s = true :=
    decide_eq_true reached.2
  exact ⟨_, s.name, before.next more, fun call member => List.mem_append_right _ member⟩

def loneMemory (nid : Word) : Memory :=
  ((Memory.storeWord (fun _ => 0) 4 0x00010000).storeWord 24 32).storeWord 32 nid

-- Its library is unnamed; `nid` is its NID.
def loneExport (nid : Word) : Segment := fun a => loneMemory nid a.toNat

theorem loneMemory_words (nid : Word) :
    (loneMemory nid).word 4 = 0x00010000 ∧ (loneMemory nid).word 8 = 0 ∧
      (loneMemory nid).word 20 = 0 ∧ (loneMemory nid).word 24 = 32 ∧
        (loneMemory nid).word 32 = nid := by
  have empty : Memory.word (fun _ => 0) 8 = 0 ∧ Memory.word (fun _ => 0) 20 = 0 := by decide
  unfold loneMemory
  refine ⟨?_, ?_, ?_, ?_, ?_⟩
  · rw [Memory.word_storeWord_apart _ _ _ _ (by omega),
      Memory.word_storeWord_apart _ _ _ _ (by omega), Memory.word_storeWord]
  · rw [Memory.word_storeWord_apart _ _ _ _ (by omega),
      Memory.word_storeWord_apart _ _ _ _ (by omega),
      Memory.word_storeWord_apart _ _ _ _ (by omega), empty.1]
  · rw [Memory.word_storeWord_apart _ _ _ _ (by omega),
      Memory.word_storeWord_apart _ _ _ _ (by omega),
      Memory.word_storeWord_apart _ _ _ _ (by omega), empty.2]
  · rw [Memory.word_storeWord_apart _ _ _ _ (by omega), Memory.word_storeWord]
  · exact Memory.word_storeWord _ _ _

theorem loneExport_table (nid : Word) :
    (exportsTable (loneExport nid) 0).entries = 1 ∧
      (exportsTable (loneExport nid) 0).libName = 0 ∧
      (exportsTable (loneExport nid) 0).nidTable = 32 := by
  obtain ⟨counts, vars, name, nids, -⟩ := loneMemory_words nid
  have whole : (loneExport nid).behind (0 : Word).toNat = loneMemory nid := by
    funext k
    exact congrArg (loneMemory nid) (Nat.zero_add k)
  simp only [exportsTable, whole, SceExportsTable.entries, vars, name, nids]
  rw [← Memory.word_high (loneMemory nid) 4, counts]
  decide

theorem loneExport_nid (nid : Word) : wordAt (loneExport nid) 0 32 0 = nid := by
  obtain ⟨-, -, -, -, word⟩ := loneMemory_words nid
  exact word

theorem loneExport_passed {imports : Imports} {nid : Word}
    (unknown : nid ∉ syslibNids.map fun entry => entry.1) (name : Text) :
    ∃ call, Passed imports call ∧ call.libName = none ∧ call.nid = nid ∧ call.name = name := by
  obtain ⟨count, unnamed, nids⟩ := loneExport_table nid
  let session : Session := ⟨imports, id⟩
  have visited : (exportLoop session (loneExport nid) 0 1).Visits ⟨0, name, []⟩
      (exportPass session (loneExport nid) 0 ⟨0, name, []⟩) := Loop.Visits.next .start rfl
  have calls : (exportPass session (loneExport nid) 0 ⟨0, name, []⟩).calls =
      [⟨none, nid, wordAt (loneExport nid) 0 (exportsTable (loneExport nid) 0).entryTable 0 &&&
        ~~~0x1, name⟩] := by
    have same : session.exportName none nid name = name := exportName_unknown unknown name
    simp only [exportPass, count, exportEntries, unnamed, if_true, nids, loneExport_nid, same,
      List.nil_append]
  have member := calls ▸ List.mem_singleton_self _
  exact ⟨_, ⟨id, loneExport nid, 0, ⟨0, 1, 0, 0⟩, name, _, visited, member⟩, rfl, rfl, rfl⟩

theorem passed_again {imports : Imports} {call : ExportCall} (passed : Passed imports call)
    (missing : Text → Text) :
    ∃ other before, Passed imports other ∧ other.libName = call.libName ∧ other.nid = call.nid ∧
      other.name = Session.exportName ⟨imports, missing⟩ call.libName call.nid before := by
  obtain ⟨first, data, textAddr, info, name, st, visited, member⟩ := passed
  obtain ⟨i, before, reached, here⟩ :=
    (export_calls visited call member).resolve_left List.not_mem_nil
  obtain ⟨k, low, high, library, nid, -⟩ := exportEntries_mem here
  obtain ⟨t, start, again, calls⟩ := reached_calls ⟨imports, missing⟩ reached name
  obtain ⟨other, made, otherLibrary, otherNid⟩ := exportEntries_made low high start
  obtain ⟨k', -, -, -, -, text, written⟩ := exportEntries_mem made
  refine ⟨other, text, ⟨missing, data, textAddr, info, name, t, again, calls other made⟩,
    ?_, ?_, ?_⟩
  · rw [otherLibrary, library]
  · rw [otherNid, nid]
  · rw [written, otherLibrary, otherNid, library, nid]

theorem passed_name {imports : Imports} {call : ExportCall} (passed : Passed imports call) :
    ∃ missing before, call.name =
      Session.exportName ⟨imports, missing⟩ call.libName call.nid before := by
  obtain ⟨missing, data, textAddr, info, name, st, visited, member⟩ := passed
  obtain ⟨i, before, -, here⟩ :=
    (export_calls visited call member).resolve_left List.not_mem_nil
  obtain ⟨k, -, -, -, -, text, written⟩ := exportEntries_mem here
  exact ⟨missing, text, written⟩

/-- A call's name is the same in every module with the same library name and NID exactly when
the branches for these write it. -/
theorem name_settled_iff {imports : Imports} {call : ExportCall} (passed : Passed imports call) :
    (∀ other, Passed imports other → other.libName = call.libName → other.nid = call.nid →
      other.name = call.name) ↔ Settled imports call.libName call.nid := by
  constructor
  next =>
    intro same
    cases library : call.libName with
    | none =>
        by_contra unknown
        obtain ⟨first, passed₁, library₁, nid₁, name₁⟩ := loneExport_passed unknown ['a']
        obtain ⟨second, passed₂, library₂, nid₂, name₂⟩ := loneExport_passed unknown ['b']
        have one := same first passed₁ (library₁.trans library.symm) nid₁
        have two := same second passed₂ (library₂.trans library.symm) nid₂
        rw [name₁] at one
        rw [name₂] at two
        exact absurd (one.trans two.symm) (by decide)
    | some libName =>
        intro funcName found
        by_contra unexpanded
        have expansion : expand funcName = none := Option.not_isSome_iff_eq_none.mp unexpanded
        have written (text : Text) : ∃ other, Passed imports other ∧
            other.libName = call.libName ∧ other.nid = call.nid ∧ other.name = text.take 63 := by
          obtain ⟨other, before, again, key, nid, name⟩ := passed_again passed fun _ => text
          refine ⟨other, again, key, nid, ?_⟩
          rw [name, library, Session.exportName, Session.libraryName, found]
          simp only [Session.formatted, expansion, Option.getD_none]
        obtain ⟨first, passed₁, library₁, nid₁, name₁⟩ := written ['a']
        obtain ⟨second, passed₂, library₂, nid₂, name₂⟩ := written ['b']
        have one := same first passed₁ library₁ nid₁
        have two := same second passed₂ library₂ nid₂
        rw [name₁] at one
        rw [name₂] at two
        exact absurd (one.trans two.symm) (by decide)
  next =>
    intro settled other otherPassed library nid
    obtain ⟨missing, before, name⟩ := passed_name passed
    obtain ⟨missing', before', name'⟩ := passed_name otherPassed
    rw [library, nid] at name'
    have same : Session.exportName ⟨imports, missing⟩ call.libName call.nid before =
        Session.exportName ⟨imports, missing'⟩ call.libName call.nid before' := by
      apply exportName_settled
      case same => rfl
      case settled => exact settled
    rw [name, name', same]

-- An unnamed library that exports the function with this NID and one with the NID 7.
def twoExports (nid : List Byte) : Segment :=
  Thgn.segmentOf ([32, 0, 0, 0, 0, 0, 2, 0, 0, 0, 0, 0, 0, 0, 0, 0, 0, 0, 0, 0, 0, 0, 0, 0,
    32, 0, 0, 0, 40, 0, 0, 0] ++ nid ++ [7, 0, 0, 0, 1, 0x10, 0, 0, 3, 0x10, 0, 0])

def startExports : Segment := twoExports [0x96, 0xD1, 0x5C, 0x93]

def stopExports : Segment := twoExports [0x92, 0xE4, 0xF8, 0x79]

def twoCalls (data : Segment) : Option (List ExportCall) :=
  ((exportLoop zeroSession data 0 32).run 2 ⟨0, [], []⟩).map fun st => st.calls

theorem twoCalls_names :
    twoCalls startExports = some [⟨none, 0x935CD196, 0x1000, "module_start".toList⟩,
        ⟨none, 7, 0x1002, "module_start".toList⟩] ∧
      twoCalls stopExports = some [⟨none, 0x79F8E492, 0x1000, "module_stop".toList⟩,
        ⟨none, 7, 0x1002, "module_stop".toList⟩] := by
  decide +kernel

theorem twoCalls_passed {data : Segment} {calls : List ExportCall} {call : ExportCall}
    (made : twoCalls data = some calls) (member : call ∈ calls) : Passed [] call := by
  obtain ⟨st, ended, rfl⟩ := Option.map_eq_some_iff.mp made
  exact ⟨id, data, 0, ⟨0, 32, 0, 0⟩, [], st, (Loop.run_iff.mp ⟨2, ended⟩).1, member⟩

theorem startCall_passed : Passed [] ⟨none, 0x935CD196, 0x1000, "module_start".toList⟩ :=
  twoCalls_passed twoCalls_names.1 List.mem_cons_self

theorem name_settled_iff_start :
    Passed [] ⟨none, 0x935CD196, 0x1000, "module_start".toList⟩ ∧
      ((∀ other, Passed [] other → other.libName = none → other.nid = 0x935CD196 →
        other.name = "module_start".toList) ↔ Settled [] none 0x935CD196) :=
  ⟨startCall_passed, name_settled_iff startCall_passed⟩

/-- The entry with the NID 7 is named as the one before it. -/
theorem name_not_settled : ∃ call other, Passed [] call ∧ Passed [] other ∧
    call.libName = other.libName ∧ call.nid = other.nid ∧ call.name ≠ other.name := by
  have second {a b : ExportCall} : b ∈ [a, b] := List.mem_cons_of_mem _ List.mem_cons_self
  have apart : "module_start".toList ≠ "module_stop".toList := by decide
  exact ⟨_, _, twoCalls_passed twoCalls_names.1 second, twoCalls_passed twoCalls_names.2 second,
    rfl, rfl, apart⟩

end VitaTools.VitaModule
