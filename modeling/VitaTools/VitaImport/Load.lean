import Mathlib.Data.List.TakeWhile
import Mathlib.Tactic.IntervalCases
import VitaTools.VitaImport.Model
import VitaTools.Yaml.Block

set_option autoImplicit false

namespace VitaTools.VitaImport

open VitaTools.Thgn (Text Stub hex8)
open VitaTools.Yaml

def hexText (nid : BitVec 32) : Text := '0' :: 'x' :: hex8 nid

theorem digitOf_hex {d : Nat} (small : d < 16) : digitOf d.digitChar.toUpper = d := by
  interval_cases d <;> decide

theorem hex8_digits (nid : BitVec 32) : ∀ c ∈ hex8 nid, digitOf c < 16 := by
  intro c member
  obtain ⟨k, -, rfl⟩ := List.mem_map.mp member
  have small : nid.toNat / 16 ^ (7 - k) % 16 < 16 := Nat.mod_lt _ (by decide)
  rw [digitOf_hex small]
  exact small

theorem accumulate_hex8 (nid : BitVec 32) : accumulate 16 (hex8 nid) = nid.toNat := by
  have digit (k : Nat) : digitOf (nid.toNat / 16 ^ k % 16).digitChar.toUpper =
      nid.toNat / 16 ^ k % 16 := digitOf_hex (Nat.mod_lt _ (by decide))
  have unrolled : accumulate 16 (hex8 nid) =
      (List.range 8).foldl (fun value k => value * 16 + nid.toNat / 16 ^ (7 - k) % 16) 0 := by
    simp only [accumulate, hex8, List.foldl_map, digit]
  have range : List.range 8 = [0, 1, 2, 3, 4, 5, 6, 7] := rfl
  have small := nid.isLt
  rw [unrolled, range]
  simp only [List.foldl_cons, List.foldl_nil]
  omega

theorem hex8_length (nid : BitVec 32) : (hex8 nid).length = 8 := by
  rw [hex8, List.length_map, List.length_range]

theorem baseOf_hexText (nid : BitVec 32) : baseOf (hexText nid) = (16, hex8 nid) := by
  have digits := hex8_digits nid
  have length := hex8_length nid
  rw [hexText]
  cases shown : hex8 nid with
  | nil => simp [shown] at length
  | cons digit rest =>
      rw [shown] at digits
      exact if_pos ⟨Or.inl rfl, digits digit List.mem_cons_self⟩

theorem strtoul_hexText (nid : BitVec 32) : strtoul (hexText nid) = (nid.toNat, []) := by
  have whole : (hex8 nid).takeWhile (fun c => decide (digitOf c < 16)) = hex8 nid :=
    List.takeWhile_eq_self_iff.mpr fun c member => decide_eq_true (hex8_digits nid c member)
  have digits : hex8 nid ≠ [] := List.ne_nil_of_length_pos (by rw [hex8_length]; decide)
  have small : ¬ ulongMax < nid.toNat := by
    have bound := nid.isLt
    rw [ulongMax]
    omega
  have start : (hexText nid).dropWhile isSpace = hexText nid := rfl
  have unsigned : signOf (hexText nid) = (false, hexText nid) := rfl
  simp only [strtoul, start, unsigned, baseOf_hexText, whole, if_neg digits, accumulate_hex8,
    if_neg small, List.drop_length]
  rfl

theorem process32bitInteger_hexText {mark : YamlPosition} {length : Nat} (nid : BitVec 32) :
    process32bitInteger (.scalar mark (hexText nid) length) = some nid := by
  rw [process32bitInteger, strtoul_hexText]
  exact congrArg some ((BitVec.ofNat_toNat 32 nid).trans (BitVec.setWidth_eq nid))

def functionPairs (functions : List Stub) : List (Text × Block) :=
  functions.map fun symbol => (symbol.name, .scalar (hexText symbol.nid))

def flagText (flag : Bool) : Text := if flag then "true".toList else "false".toList

def libraryPairs (library : VitaImportsModule) : List (Text × Block) :=
  [("nid".toList, .scalar (hexText library.nid)),
    ("kernel".toList, .scalar (flagText library.isKernel)),
    ("functions".toList, .mapping (functionPairs library.functions))]

def librariesPairs (libraries : List VitaImportsModule) : List (Text × Block) :=
  libraries.map fun library => (library.name, .mapping (libraryPairs library))

def importPairs (import_ : VitaImportsLib) : List (Text × Block) :=
  [("nid".toList, .scalar (hexText import_.nid)),
    ("libraries".toList, .mapping (librariesPairs import_.modules))]

def databasePairs (imports : VitaImports) : List (Text × Block) :=
  imports.map fun import_ => (import_.name, .mapping (importPairs import_))

def Loadable (import_ : VitaImportsLib) : Prop :=
  import_.modules ≠ [] ∧ ∀ library ∈ import_.modules, library.functions ≠ []

instance loadableDecidable (import_ : VitaImportsLib) : Decidable (Loadable import_) :=
  inferInstanceAs (Decidable (_ ∧ _))

section

variable {node : YamlNode} {nodes : List (YamlNode × YamlNode)}

theorem reads_scalar {value : Text} (reads : Reads (.scalar value) node) :
    ∃ mark, node = .scalar mark value value.length := by
  cases reads with
  | scalar mark _ => exact ⟨mark, rfl⟩

theorem readsPairs_cons {key : Text} {value : Block} {pairs : List (Text × Block)}
    (reads : ReadsPairs ((key, value) :: pairs) nodes) :
    ∃ mark node rest, nodes = (.scalar mark key key.length, node) :: rest ∧ Reads value node ∧
      ReadsPairs pairs rest := by
  cases reads with
  | cons mark _ first rest => exact ⟨mark, _, _, rfl, first, rest⟩

theorem yamlIterateMapping_reads {σ : Type} {pairs : List (Text × Block)}
    (reads : Reads (.mapping pairs) node) (functor : YamlNode → YamlNode → σ → Result σ)
    (userdata : σ) :
    (pairs = [] ∧ yamlIterateMapping node functor userdata = .error none) ∨
      (pairs ≠ [] ∧ ∃ nodes, ReadsPairs pairs nodes ∧
        yamlIterateMapping node functor userdata = iteratePairs functor nodes userdata) := by
  cases reads with
  | null mark => exact Or.inl ⟨rfl, rfl⟩
  | mapping mark inner => exact Or.inr ⟨List.cons_ne_nil _ _, _, inner, rfl⟩

theorem functions_read {functions : List Stub} (reads : ReadsPairs (functionPairs functions) nodes)
    (library : VitaImportsModule) : iteratePairs processImportFunctions nodes library =
      .ok { library with functions := library.functions ++ functions } := by
  induction functions generalizing nodes library with
  | nil =>
      cases reads
      rw [List.append_nil]
      rfl
  | cons symbol functions ih =>
      obtain ⟨mark, node, rest, rfl, value, others⟩ := readsPairs_cons reads
      obtain ⟨place, rfl⟩ := reads_scalar value
      have converted : processImportFunctions (.scalar mark symbol.name symbol.name.length)
          (.scalar place (hexText symbol.nid) (hexText symbol.nid).length) library =
            .ok { library with functions := library.functions ++ [symbol] } := by
        simp only [processImportFunctions, processStub, expectingScalar, convertNid,
          process32bitInteger_hexText]
        rfl
      rw [iteratePairs, converted]
      refine (ih others _).trans ?_
      simp only [List.append_assoc, List.singleton_append]

theorem nid_converted {place : YamlPosition} (what : String) (nid : BitVec 32) (value : Text) :
    convertNid what (.scalar place (hexText nid) (hexText nid).length) value = .ok nid := by
  rw [convertNid, process32bitInteger_hexText]

theorem library_read {library : VitaImportsModule} (unset : library.vars = [])
    (reads : Reads (.mapping (libraryPairs library)) node) :
    yamlIterateMapping node processLibrary ⟨library.name, 0, false, [], []⟩ =
      if library.functions = [] then .error none else .ok library := by
  obtain ⟨name, nid, kernel, functions, vars⟩ := library
  obtain rfl : vars = [] := unset
  rcases yamlIterateMapping_reads reads processLibrary ⟨name, 0, false, [], []⟩ with
    ⟨empty, -⟩ | ⟨-, nodes, pairs, iterated⟩
  · cases empty
  obtain ⟨nidMark, nidNode, rest, rfl, nidRead, afterNid⟩ := readsPairs_cons pairs
  obtain ⟨nidPlace, rfl⟩ := reads_scalar nidRead
  obtain ⟨flagMark, flagNode, rest, rfl, flagRead, afterFlag⟩ := readsPairs_cons afterNid
  obtain ⟨flagPlace, rfl⟩ := reads_scalar flagRead
  obtain ⟨functionsMark, functionsNode, rest, rfl, functionsRead, last⟩ :=
    readsPairs_cons afterFlag
  cases last
  have first (library : VitaImportsModule) : processLibrary
      (.scalar nidMark "nid".toList "nid".toList.length)
      (.scalar nidPlace (hexText nid) (hexText nid).length) library = .ok { library with nid } := by
    change (convertNid "library" _ _).map _ = _
    rw [nid_converted]
    rfl
  have second (library : VitaImportsModule) : processLibrary
      (.scalar flagMark "kernel".toList "kernel".toList.length)
      (.scalar flagPlace (flagText kernel) (flagText kernel).length) library =
        .ok { library with isKernel := kernel } := by
    cases kernel <;> rfl
  have third (library : VitaImportsModule) : processLibrary
      (.scalar functionsMark "functions".toList "functions".toList.length) functionsNode library =
        yamlIterateMapping functionsNode processImportFunctions library := rfl
  rw [iterated, iteratePairs, first]
  change (iteratePairs processLibrary _ _) = _
  rw [iteratePairs, second]
  change (iteratePairs processLibrary _ _) = _
  rw [iteratePairs, third]
  rcases yamlIterateMapping_reads functionsRead processImportFunctions ⟨name, nid, kernel, [], []⟩
    with ⟨empty, failed⟩ | ⟨more, nodes, entries, iterated⟩
  · rw [failed, if_pos (List.map_eq_nil_iff.mp empty)]
    rfl
  · have filled : functions ≠ [] := fun empty => more (List.map_eq_nil_iff.mpr empty)
    rw [iterated, functions_read entries, if_neg filled]
    rfl

theorem libraries_read {libraries : List VitaImportsModule}
    (unset : ∀ library ∈ libraries, library.vars = [])
    (reads : ReadsPairs (librariesPairs libraries) nodes) (import_ : VitaImportsLib) :
    iteratePairs processLibraries nodes import_ =
      if ∃ library ∈ libraries, library.functions = [] then .error none
      else .ok { import_ with modules := import_.modules ++ libraries } := by
  induction libraries generalizing nodes import_ with
  | nil =>
      cases reads
      rw [if_neg (by simp), List.append_nil]
      rfl
  | cons library libraries ih =>
      obtain ⟨mark, node, rest, rfl, value, others⟩ := readsPairs_cons reads
      rw [List.forall_mem_cons] at unset
      have read := library_read unset.1 value
      have processed : processLibraries (.scalar mark library.name library.name.length) node
          import_ = if library.functions = [] then .error none
            else .ok { import_ with modules := import_.modules ++ [library] } := by
        change (yamlIterateMapping node processLibrary _).map _ = _
        rw [read]
        split <;> rfl
      rw [iteratePairs, processed]
      by_cases empty : library.functions = []
      · rw [if_pos empty, if_pos ⟨library, List.mem_cons_self, empty⟩]
        rfl
      · rw [if_neg empty]
        refine (ih unset.2 others _).trans ?_
        simp only [List.mem_cons, exists_eq_or_imp, empty, false_or, List.append_assoc,
          List.singleton_append]

theorem import_read {import_ : VitaImportsLib}
    (unset : ∀ library ∈ import_.modules, library.vars = [])
    (reads : Reads (.mapping (importPairs import_)) node) :
    yamlIterateMapping node processImport ⟨import_.name, 0, []⟩ =
      if Loadable import_ then .ok import_ else .error none := by
  obtain ⟨name, nid, libraries⟩ := import_
  rcases yamlIterateMapping_reads reads processImport ⟨name, 0, []⟩ with
    ⟨empty, -⟩ | ⟨-, nodes, pairs, iterated⟩
  · cases empty
  obtain ⟨nidMark, nidNode, rest, rfl, nidRead, afterNid⟩ := readsPairs_cons pairs
  obtain ⟨nidPlace, rfl⟩ := reads_scalar nidRead
  obtain ⟨mark, librariesNode, rest, rfl, librariesRead, last⟩ := readsPairs_cons afterNid
  cases last
  have first : processImport (.scalar nidMark "nid".toList "nid".toList.length)
      (.scalar nidPlace (hexText nid) (hexText nid).length) ⟨name, 0, []⟩ =
        .ok ⟨name, nid, []⟩ := by
    change (convertNid "module" _ _).map _ = _
    rw [nid_converted]
    rfl
  have second (import_ : VitaImportsLib) : processImport
      (.scalar mark "libraries".toList "libraries".toList.length) librariesNode import_ =
        yamlIterateMapping librariesNode processLibraries import_ := rfl
  rw [iterated, iteratePairs, first]
  change (iteratePairs processImport _ _) = _
  rw [iteratePairs, second]
  rcases yamlIterateMapping_reads librariesRead processLibraries ⟨name, nid, []⟩ with
    ⟨empty, failed⟩ | ⟨more, nodes, entries, iterated⟩
  · rw [failed, if_neg fun loadable => loadable.1 (List.map_eq_nil_iff.mp empty)]
    rfl
  · have filled : libraries ≠ [] := fun empty => more (List.map_eq_nil_iff.mpr empty)
    rw [iterated, libraries_read unset entries]
    by_cases empty : ∃ library ∈ libraries, library.functions = []
    · have unloadable : ¬ Loadable ⟨name, nid, libraries⟩ := fun loadable =>
        empty.elim fun library found => loadable.2 library found.1 found.2
      rw [if_pos empty, if_neg unloadable]
      rfl
    · have loadable : Loadable ⟨name, nid, libraries⟩ :=
        ⟨filled, fun library member none => empty ⟨library, member, none⟩⟩
      rw [if_neg empty, if_pos loadable]
      rfl

theorem imports_read {imports : VitaImports}
    (unset : ∀ import_ ∈ imports, ∀ library ∈ import_.modules, library.vars = [])
    (reads : ReadsPairs (databasePairs imports) nodes) (before : VitaImports) :
    iteratePairs processImportList nodes before =
      if ∀ import_ ∈ imports, Loadable import_ then .ok (before ++ imports) else .error none := by
  induction imports generalizing nodes before with
  | nil =>
      cases reads
      rw [if_pos (by simp), List.append_nil]
      rfl
  | cons import_ imports ih =>
      obtain ⟨mark, node, rest, rfl, value, others⟩ := readsPairs_cons reads
      rw [List.forall_mem_cons] at unset
      have read := import_read unset.1 value
      have processed : processImportList (.scalar mark import_.name import_.name.length) node
          before = if Loadable import_ then .ok (before ++ [import_]) else .error none := by
        change (yamlIterateMapping node processImport _).map _ = _
        rw [read]
        split <;> rfl
      rw [iteratePairs, processed]
      by_cases loadable : Loadable import_
      · rw [if_pos loadable]
        refine (ih unset.2 others _).trans ?_
        simp only [List.forall_mem_cons, loadable, true_and, List.append_assoc,
          List.singleton_append]
      · rw [if_neg loadable, if_neg fun all => loadable (all import_ List.mem_cons_self)]
        rfl

def filePairs (version firmware : Text) (imports : VitaImports) : List (Text × Block) :=
  [("version".toList, .scalar version), ("firmware".toList, .scalar firmware),
    ("modules".toList, .mapping (databasePairs imports))]

theorem readVitaImports_file {version firmware : Text} {imports : VitaImports}
    (unset : ∀ import_ ∈ imports, ∀ library ∈ import_.modules, library.vars = [])
    (reads : Reads (.mapping (filePairs version firmware imports)) node) :
    readVitaImports node =
      if imports ≠ [] ∧ ∀ import_ ∈ imports, Loadable import_ then .ok imports
      else .error none := by
  cases reads with
  | mapping place pairs =>
      obtain ⟨firstMark, firstNode, rest, rfl, -, afterFirst⟩ := readsPairs_cons pairs
      obtain ⟨secondMark, secondNode, rest, rfl, -, afterSecond⟩ := readsPairs_cons afterFirst
      obtain ⟨mark, node, rest, rfl, modulesRead, last⟩ := readsPairs_cons afterSecond
      cases last
      have passed : readVitaImports (.mapping place
          [(.scalar firstMark "version".toList "version".toList.length, firstNode),
            (.scalar secondMark "firmware".toList "firmware".toList.length, secondNode),
            (.scalar mark "modules".toList "modules".toList.length, node)]) =
          (yamlIterateMapping node processImportList []).bind (iteratePairs processRoot []) := rfl
      refine passed.trans ?_
      rcases yamlIterateMapping_reads modulesRead processImportList [] with
        ⟨empty, failed⟩ | ⟨more, nodes, entries, iterated⟩
      · rw [failed, if_neg fun filled => filled.1 (List.map_eq_nil_iff.mp empty)]
        rfl
      · have filled : imports ≠ [] := fun empty => more (List.map_eq_nil_iff.mpr empty)
        rw [iterated, imports_read unset entries, List.nil_append]
        by_cases all : ∀ import_ ∈ imports, Loadable import_
        · rw [if_pos all, if_pos ⟨filled, all⟩]
          rfl
        · rw [if_neg all, if_neg fun loadable => all loadable.2]
          rfl

end

end VitaTools.VitaImport
