import VitaTools.VitaImport.Load
import VitaTools.VitaModule.Analyse

set_option autoImplicit false

namespace VitaTools.VitaModule

open VitaTools.Library
open VitaTools.Thgn (Text Segment Stub findNameByNid hex8 addressSpace)
open VitaTools.VitaImport (VitaImports VitaImportsModule VitaImportsLib)
open VitaTools.Yaml

section

variable (data : Segment) (textAddr : Word)

def moduleName (offset : Word) : Text := data.text (offset.toNat + 4) addressSpace

def moduleNid (offset : Word) : Word := (data.behind offset.toNat).word 52

def exportAttribute (i : Word) : BitVec 16 := (data.behind i.toNat).half 4

def exportModuleNid (i : Word) : Word := (data.behind i.toNat).word 16

-- The flags of the stream, hexadecimal and upper case, stay set behind the first number.
def ymlHeader (offset : Word) (optVer : Text) : Text :=
  "version: 0x2\nfirmware: ".toList ++ optVer ++ "\nmodules:\n  ".toList ++
    moduleName data offset ++ ":\n    nid: 0x".toList ++ hex8 (moduleNid data offset) ++
    "\n    libraries:\n".toList

def ymlEntry (libName : Text) (nid : Word) : Text :=
  "          ".toList ++ libName ++ ['_'] ++ hex8 nid ++ ": 0x".toList ++ hex8 nid ++ ['\n']

-- What a pass of the loop over the exports writes. A table without a name is left out.
def ymlTable (i : Word) : Text :=
  let exp := exportsTable data i
  let libName := stringAt data textAddr exp.libName
  if exp.libName = 0 then []
  else
    "      ".toList ++ libName ++ ":\n        nid: 0x".toList ++ hex8 (exportModuleNid data i) ++
      (if exportAttribute data i &&& 0x4000 ≠ 0 then "\n        kernel: false\n".toList
        else "\n        kernel: true\n".toList) ++
      "        functions:\n".toList ++
      (List.range exp.entries).flatMap fun j =>
        ymlEntry libName (wordAt data textAddr exp.nidTable j)

structure Reporting where
  i : Word
  yml : Text

def reportLoop (expBtm : Word) : Loop Reporting where
  more st := decide (st.i < expBtm)
  pass st :=
    ⟨st.i + (exportsTable data st.i).size.setWidth 32, st.yml ++ ymlTable data textAddr st.i⟩

def dbLookup (offset : Word) (optVer : Text) (fuel : Nat) : Option Text :=
  let info := moduleInfo data offset
  ((reportLoop data textAddr info.expBtm).run fuel
    ⟨info.expTop, ymlHeader data offset optVer⟩).map fun st => st.yml

def exportOffsets (expBtm : Word) : Nat → Word → Option (List Word)
  | 0, _ => none
  | fuel + 1, i =>
      if i < expBtm then
        (exportOffsets expBtm fuel (i + (exportsTable data i).size.setWidth 32)).map (i :: ·)
      else some []

def tableNids (i : Word) : List Word :=
  let exp := exportsTable data i
  (List.range exp.entries).map (wordAt data textAddr exp.nidTable)

def generatedName (libName : Text) (nid : Word) : Text := libName ++ '_' :: hex8 nid

def exportedLibrary (i : Word) : VitaImportsModule :=
  let libName := stringAt data textAddr (exportsTable data i).libName
  ⟨libName, exportModuleNid data i, decide (exportAttribute data i &&& 0x4000 = 0),
    (tableNids data textAddr i).map fun nid => ⟨generatedName libName nid, nid⟩, []⟩

def Named (i : Word) : Prop := (exportsTable data i).libName ≠ 0

instance namedDecidable (i : Word) : Decidable (Named data i) := inferInstanceAs (Decidable (_ ≠ _))

def exportedLibraries (offsets : List Word) : List VitaImportsModule :=
  (offsets.filter fun i => Named data i).map (exportedLibrary data textAddr)

def exportedDatabase (offset : Word) (offsets : List Word) : VitaImports :=
  [⟨moduleName data offset, moduleNid data offset, exportedLibraries data textAddr offsets⟩]

def exportedFile (offset : Word) (optVer : Text) (offsets : List Word) : List (Text × Block) :=
  VitaImport.filePairs "0x2".toList optVer (exportedDatabase data textAddr offset offsets)

end

section

variable {data : Segment} {textAddr : Word}

theorem ymlEntry_eq (libName : Text) (nid : Word) : ymlEntry libName nid =
    Block.renderPairs 10 [(generatedName libName nid, .scalar (VitaImport.hexText nid))] := by
  have indent : "          ".toList = List.replicate 10 ' ' := by rfl
  have mark : ": 0x".toList = [':', ' ', '0', 'x'] := by rfl
  unfold ymlEntry
  simp only [indent, mark, Block.renderPairs, Block.renderValue, generatedName,
    VitaImport.hexText, List.append_assoc, List.cons_append, List.nil_append, List.append_nil]

theorem functions_text (data : Segment) (textAddr i : Word) :
    ((List.range (exportsTable data i).entries).flatMap fun j =>
      ymlEntry (stringAt data textAddr (exportsTable data i).libName)
        (wordAt data textAddr (exportsTable data i).nidTable j)) =
      Block.renderPairs 10
        (VitaImport.functionPairs (exportedLibrary data textAddr i).functions) := by
  have pairs : VitaImport.functionPairs (exportedLibrary data textAddr i).functions =
      (List.range (exportsTable data i).entries).flatMap fun j =>
        let nid := wordAt data textAddr (exportsTable data i).nidTable j
        [(generatedName (stringAt data textAddr (exportsTable data i).libName) nid,
          .scalar (VitaImport.hexText nid))] := by
    rw [VitaImport.functionPairs, exportedLibrary, tableNids, List.map_map, List.map_map,
      List.map_eq_flatMap]
    rfl
  rw [pairs, Block.renderPairs_flatMap]
  exact congrArg (fun entry => (List.range _).flatMap entry) (funext fun j => ymlEntry_eq _ _)

theorem ymlTable_eq {i : Word} (named : Named data i) : ymlTable data textAddr i =
    Block.renderPairs 6 (VitaImport.librariesPairs [exportedLibrary data textAddr i]) := by
  have functions := functions_text data textAddr i
  have flag : (if exportAttribute data i &&& 0x4000 ≠ 0 then "\n        kernel: false\n".toList
      else "\n        kernel: true\n".toList) =
        '\n' :: (List.replicate 8 ' ' ++ ("kernel".toList ++ ':' :: ' ' ::
          (VitaImport.flagText (exportedLibrary data textAddr i).isKernel ++ ['\n']))) := by
    have same : (exportedLibrary data textAddr i).isKernel =
        decide (exportAttribute data i &&& 0x4000 = 0) := rfl
    rw [same, VitaImport.flagText]
    by_cases clear : exportAttribute data i &&& 0x4000 = 0
    · rw [if_neg (not_not_intro clear), if_pos (decide_eq_true clear)]
      rfl
    · rw [if_pos clear, if_neg (by simpa using clear)]
      rfl
  have head : "      ".toList = List.replicate 6 ' ' := by rfl
  have nidKey : ":\n        nid: 0x".toList = ':' :: '\n' :: (List.replicate 8 ' ' ++
      ("nid".toList ++ [':', ' ', '0', 'x'])) := by rfl
  have functionsKey : "        functions:\n".toList = List.replicate 8 ' ' ++
      ("functions".toList ++ [':', '\n']) := by rfl
  unfold ymlTable
  rw [if_neg named, functions, flag, head, nidKey, functionsKey]
  simp only [VitaImport.librariesPairs, VitaImport.libraryPairs, Block.renderPairs,
    Block.renderValue, VitaImport.hexText, List.map_cons, List.map_nil, List.append_assoc,
    List.cons_append, List.nil_append, List.append_nil]
  rfl

theorem ymlTables_eq (offsets : List Word) : offsets.flatMap (ymlTable data textAddr) =
    Block.renderPairs 6 (VitaImport.librariesPairs (exportedLibraries data textAddr offsets)) := by
  induction offsets with
  | nil => rfl
  | cons i offsets ih =>
      rw [List.flatMap_cons, ih]
      by_cases named : Named data i
      · have split : VitaImport.librariesPairs (exportedLibraries data textAddr (i :: offsets)) =
            VitaImport.librariesPairs [exportedLibrary data textAddr i] ++
              VitaImport.librariesPairs (exportedLibraries data textAddr offsets) := by
          rw [exportedLibraries, List.filter_cons_of_pos (by simpa using named)]
          rfl
        rw [split, Block.renderPairs_append, ymlTable_eq named]
      · have skipped : ymlTable data textAddr i = [] := if_pos (not_not.mp named)
        rw [skipped, exportedLibraries, exportedLibraries,
          List.filter_cons_of_neg (by simpa using named)]
        rfl

theorem exportedFile_text (offset : Word) (optVer : Text) (offsets : List Word) :
    Block.renderPairs 0 (exportedFile data textAddr offset optVer offsets) =
      ymlHeader data offset optVer ++ offsets.flatMap (ymlTable data textAddr) := by
  have start : "version: 0x2\nfirmware: ".toList = "version".toList ++ ':' :: ' ' ::
      ("0x2".toList ++ '\n' :: ("firmware".toList ++ [':', ' '])) := by rfl
  have modules : "\nmodules:\n  ".toList = '\n' :: ("modules".toList ++ ':' :: '\n' ::
      List.replicate 2 ' ') := by rfl
  have nidKey : ":\n    nid: 0x".toList = ':' :: '\n' :: (List.replicate 4 ' ' ++
      ("nid".toList ++ [':', ' ', '0', 'x'])) := by rfl
  have librariesKey : "\n    libraries:\n".toList = '\n' :: (List.replicate 4 ' ' ++
      ("libraries".toList ++ [':', '\n'])) := by rfl
  unfold ymlHeader
  rw [ymlTables_eq, start, modules, nidKey, librariesKey, exportedFile, VitaImport.filePairs,
    exportedDatabase, VitaImport.databasePairs, List.map_cons, List.map_nil,
    VitaImport.importPairs]
  simp only [Block.renderPairs, Block.renderValue, VitaImport.hexText, List.replicate_zero,
    List.append_assoc, List.cons_append, List.nil_append, List.append_nil, Nat.zero_add,
    Nat.reduceAdd]

theorem report_run (data : Segment) (textAddr expBtm : Word) (fuel : Nat) (st : Reporting) :
    (((reportLoop data textAddr expBtm).run fuel st).map fun st => st.yml) =
      (exportOffsets data expBtm fuel st.i).map fun offsets =>
        st.yml ++ offsets.flatMap (ymlTable data textAddr) := by
  induction fuel generalizing st with
  | zero => rfl
  | succ fuel ih =>
      rw [Loop.run, exportOffsets]
      by_cases more : st.i < expBtm
      · have goes : (reportLoop data textAddr expBtm).more st = true := decide_eq_true more
        rw [if_pos goes, if_pos more, ih, Option.map_map]
        refine congrArg (fun f => Option.map f _) (funext fun offsets => ?_)
        simp only [reportLoop, Function.comp, List.flatMap_cons, List.append_assoc]
      · have ends : ¬ (reportLoop data textAddr expBtm).more st = true := by
          simpa [reportLoop] using more
        rw [if_neg ends, if_neg more]
        simp

theorem dbLookup_eq {offset : Word} {optVer : Text} {fuel : Nat} {offsets : List Word}
    (walk : exportOffsets data (moduleInfo data offset).expBtm fuel
      (moduleInfo data offset).expTop = some offsets) :
    dbLookup data textAddr offset optVer fuel =
      some (Block.renderPairs 0 (exportedFile data textAddr offset optVer offsets)) := by
  have run := report_run data textAddr (moduleInfo data offset).expBtm fuel
    ⟨(moduleInfo data offset).expTop, ymlHeader data offset optVer⟩
  rw [walk] at run
  exact run.trans (congrArg some (exportedFile_text offset optVer offsets).symm)

section

variable {libName : Text} {nid : Word} {offset : Word} {offsets : List Word}

def firstTable (data : Segment) (textAddr : Word) (offsets : List Word) (libName : Text) :
    Option Word :=
  (offsets.filter fun i => Named data i).find? fun i =>
    stringAt data textAddr (exportsTable data i).libName = libName

theorem findNameByNid_exported : findNameByNid
    (VitaImport.listed (exportedDatabase data textAddr offset offsets)) libName nid =
      (firstTable data textAddr offsets libName).bind fun i =>
        if nid ∈ tableNids data textAddr i then some (generatedName libName nid) else none := by
  have modules : ((VitaImport.listed (exportedDatabase data textAddr offset offsets)).filterMap
      id).flatMap (fun libEntry => libEntry.filterMap id) =
        (offsets.filter fun i => Named data i).map fun i =>
          ⟨stringAt data textAddr (exportsTable data i).libName,
            (exportedLibrary data textAddr i).functions.map some⟩ := by
    simp [exportedDatabase, VitaImport.listed, exportedLibraries, exportedLibrary,
      List.filterMap_map, Function.comp_def]
  rw [findNameByNid, modules, List.find?_map, firstTable]
  change ((Option.map _ (List.find? (fun i => decide
    (stringAt data textAddr (exportsTable data i).libName = libName)) _)).bind _) = _
  cases found : (offsets.filter fun i => Named data i).find? fun i =>
      stringAt data textAddr (exportsTable data i).libName = libName with
  | none => rfl
  | some i =>
      have named : stringAt data textAddr (exportsTable data i).libName = libName := by
        simpa using List.find?_some found
      have functions : ((exportedLibrary data textAddr i).functions.map some).filterMap id =
          (tableNids data textAddr i).map fun nid => ⟨generatedName libName nid, nid⟩ := by
        rw [List.filterMap_map, exportedLibrary, named]
        exact List.filterMap_some
      rw [Option.map_some, Option.bind_some, Option.bind_some, functions, List.find?_map]
      change Option.map _ (Option.map _
        (List.find? (fun entry => decide (entry = nid)) (tableNids data textAddr i))) = _
      cases first : (tableNids data textAddr i).find? fun entry => decide (entry = nid) with
      | none =>
          have absent : nid ∉ tableNids data textAddr i := fun member => by
            simpa using List.find?_eq_none.mp first nid member
          rw [if_neg absent]
          rfl
      | some entry =>
          obtain rfl : entry = nid := by simpa using List.find?_some first
          rw [if_pos (List.mem_of_find?_eq_some first)]
          rfl

end

end

theorem expand_plain {text : Text} (plain : '%' ∉ text) : expand text = some text := by
  induction text with
  | nil => rfl
  | cons c rest ih =>
      rw [List.mem_cons, not_or] at plain
      have other : c ≠ '%' := fun same => plain.1 same.symm
      cases rest with
      | nil => rw [expand, if_neg other]
      | cons d rest =>
          rw [expand, if_neg other, ih plain.2]
          rfl

section

variable {session other : Session}
  (same : ∀ libName nid, session.libraryName libName nid = other.libraryName libName nid)
include same

theorem exportName_congr : session.exportName = other.exportName := by
  funext libName nid name
  cases libName with
  | none => rfl
  | some libName => exact same libName nid

theorem exportEntries_congr {data : Segment} {textAddr : Word} {exp : SceExportsTable}
    (left j : Nat) (name : Text) : exportEntries session data textAddr exp left j name =
      exportEntries other data textAddr exp left j name := by
  induction left generalizing j name with
  | zero => rfl
  | succ left ih => rw [exportEntries, exportEntries, ih, exportName_congr same]

theorem analyseVitaModule_congr (data : Segment) (textAddr offset : Word) (name : Text)
    (fuel : Nat) : analyseVitaModule session data textAddr offset name fuel =
      analyseVitaModule other data textAddr offset name fuel := by
  have exports : exportLoop session data textAddr = exportLoop other data textAddr := by
    have pass : exportPass session data textAddr = exportPass other data textAddr := by
      funext st
      simp only [exportPass, exportEntries_congr same]
    funext expBtm
    rw [exportLoop, exportLoop, pass]
  have imports : importLoop session data textAddr = importLoop other data textAddr := by
    have pass : importPass session data textAddr = importPass other data textAddr := by
      funext st
      simp only [importPass, importEntries, same]
    funext impBtm
    rw [importLoop, importLoop, pass]
  rw [analyseVitaModule, analyseVitaModule, exports, imports]

end

end VitaTools.VitaModule
