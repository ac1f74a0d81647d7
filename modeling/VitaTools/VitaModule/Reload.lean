import VitaTools.Thgn.Hooker
import VitaTools.VitaModule.Report

set_option autoImplicit false

namespace VitaTools.VitaModule

open VitaTools.Thgn (Text Segment findNameByNid)
open VitaTools.VitaImport (VitaImportsModule vitaImportsLoads listed)
open VitaTools.Yaml

/-- There is a named table, and each named table has entries. -/
def Reloadable (data : Segment) (offsets : List Word) : Prop :=
  (∃ i ∈ offsets, Named data i) ∧ ∀ i ∈ offsets, Named data i → (exportsTable data i).entries ≠ 0

section

variable {data : Segment} {textAddr offset : Word} {optVer : Text} {offsets : List Word}

theorem reloadable_iff : Reloadable data offsets ↔
    exportedDatabase data textAddr offset offsets ≠ [] ∧
      ∀ import_ ∈ exportedDatabase data textAddr offset offsets,
        VitaImport.Loadable import_ := by
  have entries (i : Word) : (exportedLibrary data textAddr i).functions = [] ↔
      (exportsTable data i).entries = 0 := by
    rw [exportedLibrary, List.map_eq_nil_iff, tableNids, List.map_eq_nil_iff,
      List.range_eq_nil]
  have some_named : exportedLibraries data textAddr offsets ≠ [] ↔ ∃ i ∈ offsets, Named data i := by
    rw [exportedLibraries, Ne, List.map_eq_nil_iff, List.filter_eq_nil_iff]
    push Not
    simp
  have filled : (∀ library ∈ exportedLibraries data textAddr offsets, library.functions ≠ []) ↔
      ∀ i ∈ offsets, Named data i → (exportsTable data i).entries ≠ 0 := by
    rw [exportedLibraries, List.forall_mem_map]
    simp only [List.mem_filter, decide_eq_true_eq, and_imp, Ne, entries]
  simp only [Reloadable, exportedDatabase, VitaImport.Loadable, List.forall_mem_singleton, Ne,
    List.cons_ne_nil, not_false_eq_true, true_and] at *
  rw [some_named, filled]

theorem plain_functions
    (plain : Block.PlainPairs (exportedFile data textAddr offset optVer offsets)) {i : Word}
    (member : i ∈ offsets.filter fun i => Named data i) :
    Block.PlainPairs (VitaImport.functionPairs (exportedLibrary data textAddr i).functions) := by
  have database : Block.PlainPairs
      (VitaImport.databasePairs (exportedDatabase data textAddr offset offsets)) :=
    plain.2.2.2.2.2.1
  have libraries : Block.PlainPairs
      (VitaImport.librariesPairs (exportedLibraries data textAddr offsets)) :=
    database.2.1.2.2.2.1
  have library := libraries.mem (List.mem_map_of_mem (List.mem_map_of_mem member))
  exact library.2.2.2.2.2.2.1

theorem found_generated {libName funcName : Text} {nid : Word}
    (plain : Block.PlainPairs (exportedFile data textAddr offset optVer offsets))
    (found : findNameByNid (listed (exportedDatabase data textAddr offset offsets)) libName nid =
      some funcName) : funcName = generatedName libName nid ∧ '%' ∉ funcName := by
  rw [findNameByNid_exported] at found
  obtain ⟨i, first, named⟩ := Option.bind_eq_some_iff.mp found
  have member := List.mem_of_find?_eq_some first
  have same : stringAt data textAddr (exportsTable data i).libName = libName := by
    simpa using List.find?_some first
  split at named
  next inside =>
    obtain rfl := Option.some.inj named
    have functions := plain_functions plain member
    rw [VitaImport.functionPairs, exportedLibrary, List.map_map, same] at functions
    have key := functions.mem (List.mem_map_of_mem inside)
    exact ⟨rfl, key.1.not_percent⟩
  · cases named

theorem libraryName_reloaded
    (plain : Block.PlainPairs (exportedFile data textAddr offset optVer offsets))
    (missing : Text → Text) (libName : Text) (nid : Word) :
    Session.libraryName ⟨listed (exportedDatabase data textAddr offset offsets), missing⟩ libName
      nid = Session.libraryName ⟨[], missing⟩ libName nid := by
  rw [Session.libraryName, Session.libraryName]
  cases found : findNameByNid (listed (exportedDatabase data textAddr offset offsets)) libName
      nid with
  | none => rfl
  | some funcName =>
      obtain ⟨rfl, plainName⟩ := found_generated plain found
      have made_up : findNameByNid [] libName nid = none := rfl
      rw [made_up]
      change ((expand (generatedName libName nid)).getD _).take 63 = _
      rw [expand_plain plainName]
      rfl

-- The decompiler's next run can load the file exactly when every list in it has an entry, and
-- then no symbol of any module is named otherwise than without a database.
theorem dbLookup_reloads {libyaml : Text → List YamlEvent × Option YamlParserError} {fuel : Nat}
    (walk : exportOffsets data (moduleInfo data offset).expBtm fuel
      (moduleInfo data offset).expTop = some offsets)
    (plain : Block.PlainPairs (exportedFile data textAddr offset optVer offsets))
    (documented : Delivered libyaml (exportedFile data textAddr offset optVer offsets)) :
    ∃ yml, dbLookup data textAddr offset optVer fuel = some yml ∧
      ∀ enough, 2 * (libyaml yml).1.length + 2 ≤ enough →
        (¬ Reloadable data offsets →
          vitaImportsLoads enough (libyaml yml).1 (libyaml yml).2 = some (.error none)) ∧
        (Reloadable data offsets → ∃ imports,
          vitaImportsLoads enough (libyaml yml).1 (libyaml yml).2 = some (.ok imports) ∧
          (∀ libName nid, findNameByNid (listed imports) libName nid =
            (firstTable data textAddr offsets libName).bind fun i =>
              if nid ∈ tableNids data textAddr i then some (generatedName libName nid)
              else none) ∧
          ∀ missing other otherAddr entry name passes,
            analyseVitaModule ⟨listed imports, missing⟩ other otherAddr entry name passes =
              analyseVitaModule ⟨[], missing⟩ other otherAddr entry name passes) := by
  refine ⟨_, dbLookup_eq walk, fun enough bound => ?_⟩
  obtain ⟨node, events, reads, one, given⟩ := documented plain
  rw [given] at bound ⊢
  have unset : ∀ import_ ∈ exportedDatabase data textAddr offset offsets,
      ∀ library ∈ import_.modules, library.vars = [] := by
    rw [exportedDatabase, List.forall_mem_singleton, exportedLibraries, List.forall_mem_map]
    exact fun i _ => rfl
  have loads : vitaImportsLoads enough events none = some (VitaImport.readVitaImports node) := by
    rw [vitaImportsLoads, one.is_parsed bound]
    rfl
  rw [loads, VitaImport.readVitaImports_file unset reads]
  constructor
  · intro unloadable
    rw [if_neg fun loadable => unloadable (reloadable_iff.mpr loadable)]
  · intro reloadable
    rw [if_pos (reloadable_iff.mp reloadable)]
    exact ⟨_, rfl, fun libName nid => findNameByNid_exported,
      fun missing other otherAddr entry name passes =>
        analyseVitaModule_congr (libraryName_reloaded plain missing) other otherAddr entry name
          passes⟩

end

-- The module M with the library A, which exports a function with the NID 7.
def oneLibrary : Segment :=
  Thgn.segmentOf ([0, 0, 0, 0, 77] ++ List.replicate 31 0 ++
    [56, 0, 0, 0, 88, 0, 0, 0, 0, 0, 0, 0, 0, 0, 0, 0, 5, 0, 0, 0,
      32, 0, 0, 0, 0, 0, 1, 0, 0, 0, 0, 0, 0, 0, 0, 0, 6, 0, 0, 0, 88, 0, 0, 0, 92, 0, 0, 0,
      96, 0, 0, 0, 65, 0, 0, 0, 7, 0, 0, 0, 0x81, 0, 0, 0])

def onePairs : List (Text × Block) :=
  VitaImport.filePairs "0x2".toList "3.60".toList
    [⟨['M'], 5, [⟨['A'], 6, true, [⟨"A_00000007".toList, 7⟩], []⟩]⟩]

theorem oneLibrary_table : Named oneLibrary 56 ∧
    stringAt oneLibrary 0 (exportsTable oneLibrary 56).libName = ['A'] ∧
      tableNids oneLibrary 0 56 = [7] := by
  decide +kernel

theorem oneLibrary_named : [56].filter (fun i => decide (Named oneLibrary i)) = [56] :=
  List.filter_cons_of_pos (decide_eq_true oneLibrary_table.1)

theorem onePairs_exported : exportedFile oneLibrary 0 0 "3.60".toList [56] = onePairs := by
  obtain ⟨-, libName, nids⟩ := oneLibrary_table
  have name : moduleName oneLibrary 0 = ['M'] := by decide +kernel
  have moduleNids : moduleNid oneLibrary 0 = 5 ∧ exportModuleNid oneLibrary 56 = 6 ∧
      exportAttribute oneLibrary 56 &&& 0x4000 = 0 := by decide +kernel
  have generated : generatedName ['A'] 7 = "A_00000007".toList := by decide +kernel
  rw [exportedFile, exportedDatabase, exportedLibraries, oneLibrary_named, List.map_singleton,
    exportedLibrary, libName, nids, List.map_singleton, generated, name, moduleNids.1,
    moduleNids.2.1, moduleNids.2.2]
  rfl

def scalarAt (line column : Nat) (value : Text) : YamlNode :=
  .scalar ⟨line, column⟩ value value.length

def oneNode : YamlNode :=
  .mapping ⟨0, 0⟩
    [(scalarAt 0 0 "version".toList, scalarAt 0 9 "0x2".toList),
      (scalarAt 1 0 "firmware".toList, scalarAt 1 10 "3.60".toList),
      (scalarAt 2 0 "modules".toList, .mapping ⟨3, 2⟩
        [(scalarAt 3 2 ['M'], .mapping ⟨4, 4⟩
          [(scalarAt 4 4 "nid".toList, scalarAt 4 9 (VitaImport.hexText 5)),
            (scalarAt 5 4 "libraries".toList, .mapping ⟨6, 6⟩
              [(scalarAt 6 6 ['A'], .mapping ⟨7, 8⟩
                [(scalarAt 7 8 "nid".toList, scalarAt 7 13 (VitaImport.hexText 6)),
                  (scalarAt 8 8 "kernel".toList, scalarAt 8 16 "true".toList),
                  (scalarAt 9 8 "functions".toList, .mapping ⟨10, 10⟩
                    [(scalarAt 10 10 "A_00000007".toList,
                      scalarAt 10 22 (VitaImport.hexText 7))])])])])])]

theorem onePairs_reads : Reads (.mapping onePairs) oneNode :=
  .mapping _ <| .cons _ _ (.scalar _ _) <| .cons _ _ (.scalar _ _) <| .cons _ _
    (.mapping _ <| .cons _ _ (.mapping _ <| .cons _ _ (.scalar _ _) <| .cons _ _
      (.mapping _ <| .cons _ _ (.mapping _ <| .cons _ _ (.scalar _ _) <|
        .cons _ _ (.scalar _ _) <| .cons _ _ (.mapping _ <| .cons _ _ (.scalar _ _) .nil) .nil)
        .nil) .nil) .nil) .nil

theorem onePairs_plain : Block.PlainPairs onePairs := by
  have word {text : Text} (shown : (!text.isEmpty && decide (text.length ≤ 1000) &&
      text.all fun c => c.isAlphanum || c == '_' || c == '.') = true) : Block.PlainText text := by
    simpa [Block.PlainText, and_assoc, or_assoc] using shown
  refine ⟨word ?_, word ?_, word ?_, word ?_, word ?_, ⟨word ?_, ⟨word ?_, word ?_, word ?_,
    ⟨word ?_, ⟨word ?_, word ?_, word ?_, word ?_, word ?_, ⟨word ?_, word ?_, trivial⟩, trivial⟩,
    trivial⟩, trivial⟩, trivial⟩, trivial⟩
  all_goals decide +kernel

theorem dbLookup_reloads_one : ∃ yml imports,
    dbLookup oneLibrary 0 0 "3.60".toList 2 = some yml ∧
      vitaImportsLoads 100 (streamOf oneNode) none = some (.ok imports) ∧
      findNameByNid (listed imports) ['A'] 7 = some "A_00000007".toList := by
  have walk : exportOffsets oneLibrary (moduleInfo oneLibrary 0).expBtm 2
      (moduleInfo oneLibrary 0).expTop = some [56] := by decide +kernel
  have plain : Block.PlainPairs (exportedFile oneLibrary 0 0 "3.60".toList [56]) := by
    rw [onePairs_exported]
    exact onePairs_plain
  have documented : Delivered (fun _ => (streamOf oneNode, none))
      (exportedFile oneLibrary 0 0 "3.60".toList [56]) := by
    rw [onePairs_exported]
    exact delivered_streamOf onePairs_reads rfl
  obtain ⟨yml, written, reloads⟩ := dbLookup_reloads walk plain documented
  obtain ⟨named, libName, nids⟩ := oneLibrary_table
  have entries : (exportsTable oneLibrary 56).entries ≠ 0 := by decide +kernel
  have reloadable : Reloadable oneLibrary [56] :=
    ⟨⟨56, List.mem_singleton_self _, named⟩, by
      rw [List.forall_mem_singleton]
      exact fun _ => entries⟩
  obtain ⟨imports, loads, found, -⟩ := (reloads 100 (by decide +kernel)).2 reloadable
  have first : firstTable oneLibrary 0 [56] ['A'] = some 56 := by
    rw [firstTable, oneLibrary_named]
    exact List.find?_cons_of_pos (decide_eq_true libName)
  have generated : generatedName ['A'] 7 = "A_00000007".toList := by decide +kernel
  refine ⟨yml, imports, written, loads, (found ['A'] 7).trans ?_⟩
  rw [first, Option.bind_some, nids, if_pos List.mem_cons_self, generated]

end VitaTools.VitaModule
