import VitaTools.Thgn.Collect

set_option autoImplicit false

namespace VitaTools.VitaModule

open VitaTools.Thgn (Text Imports ImportsModule Stub)

def searchFunctions (nid : BitVec 32) : List (Option Stub) → Option Text
  | [] => none
  | none :: rest => searchFunctions nid rest
  | some stubEntry :: rest =>
      if stubEntry.nid = nid then some stubEntry.name else searchFunctions nid rest

def searchModules (libname : Text) (nid : BitVec 32) :
    List (Option ImportsModule) → Option (Option Text)
  | [] => none
  | none :: rest => searchModules libname nid rest
  | some moduleEntry :: rest =>
      if moduleEntry.name = libname then some (searchFunctions nid moduleEntry.functions)
      else searchModules libname nid rest

def searchLibs (libname : Text) (nid : BitVec 32) : Imports → Option Text
  | [] => none
  | none :: rest => searchLibs libname nid rest
  | some libEntry :: rest =>
      match searchModules libname nid libEntry with
      | some answer => answer
      | none => searchLibs libname nid rest

def modulesOf (imports : Imports) : List ImportsModule :=
  (imports.filterMap id).flatMap fun libEntry => libEntry.filterMap id

def Lists (moduleEntry : ImportsModule) (nid : BitVec 32) (name : Text) : Prop :=
  ∃ stubEntry, some stubEntry ∈ moduleEntry.functions ∧ stubEntry.nid = nid ∧
    stubEntry.name = name

def Listed (imports : Imports) (libname : Text) (nid : BitVec 32) (name : Text) : Prop :=
  ∃ moduleEntry ∈ modulesOf imports, moduleEntry.name = libname ∧ Lists moduleEntry nid name

def Complete (imports : Imports) (libname : Text) (nid : BitVec 32) : Option Text → Prop
  | some name => Listed imports libname nid name
  | none => ∀ name, ¬ Listed imports libname nid name

/-- The first library of that name lists the NID if any of them does. -/
def FirstLists (imports : Imports) (libname : Text) (nid : BitVec 32) : Prop :=
  ∀ first, (modulesOf imports).find? (fun entry => entry.name = libname) = some first →
    (∃ name, Listed imports libname nid name) → ∃ name, Lists first nid name

section

variable {imports : Imports} {libname : Text} {nid : BitVec 32}

theorem searchFunctions_eq (functions : List (Option Stub)) :
    searchFunctions nid functions =
      ((functions.filterMap id).find? fun stubEntry => stubEntry.nid = nid).map
        fun stubEntry => stubEntry.name := by
  induction functions with
  | nil => rfl
  | cons entry rest ih =>
      cases entry with
      | none => exact ih
      | some stubEntry =>
          rw [searchFunctions, List.filterMap_cons, id_eq]
          by_cases same : stubEntry.nid = nid
          next => simp [same]
          next =>
            rw [if_neg same, ih]
            simp [same]

theorem searchModules_eq (libEntry : List (Option ImportsModule)) :
    searchModules libname nid libEntry =
      ((libEntry.filterMap id).find? fun entry => entry.name = libname).map
        fun entry => searchFunctions nid entry.functions := by
  induction libEntry with
  | nil => rfl
  | cons entry rest ih =>
      cases entry with
      | none => exact ih
      | some moduleEntry =>
          rw [searchModules, List.filterMap_cons, id_eq]
          by_cases same : moduleEntry.name = libname
          next => simp [same]
          next =>
            rw [if_neg same, ih]
            simp [same]

theorem searchLibs_first (imports : Imports) :
    searchLibs libname nid imports =
      ((modulesOf imports).find? fun entry => entry.name = libname).bind
        fun entry => searchFunctions nid entry.functions := by
  induction imports with
  | nil => rfl
  | cons entry rest ih =>
      cases entry with
      | none => exact ih
      | some libEntry =>
          have modules : modulesOf (some libEntry :: rest) =
              libEntry.filterMap id ++ modulesOf rest := rfl
          rw [searchLibs, searchModules_eq, modules, List.find?_append, ih]
          cases (libEntry.filterMap id).find? fun entry => entry.name = libname <;> rfl

theorem searchLibs_eq :
    searchLibs libname nid imports = Thgn.findNameByNid imports libname nid := by
  rw [searchLibs_first, Thgn.findNameByNid]
  exact congrArg _ (funext fun entry => searchFunctions_eq entry.functions)

theorem searchFunctions_some {moduleEntry : ImportsModule} {name : Text}
    (found : searchFunctions nid moduleEntry.functions = some name) :
    Lists moduleEntry nid name := by
  rw [searchFunctions_eq] at found
  obtain ⟨stubEntry, first, rfl⟩ := Option.map_eq_some_iff.mp found
  have member := List.mem_of_find?_eq_some first
  rw [List.mem_filterMap] at member
  obtain ⟨entry, inside, rfl⟩ := member
  exact ⟨stubEntry, inside, by simpa using List.find?_some first, rfl⟩

theorem searchFunctions_none {moduleEntry : ImportsModule}
    (missed : searchFunctions nid moduleEntry.functions = none) (name : Text) :
    ¬ Lists moduleEntry nid name := by
  rintro ⟨stubEntry, inside, same, -⟩
  rw [searchFunctions_eq, Option.map_eq_none_iff, List.find?_eq_none] at missed
  exact missed stubEntry (List.mem_filterMap.mpr ⟨_, inside, rfl⟩) (by simpa using same)

/-- The lookup finds what is listed exactly when the first library of that name lists it if any
library of that name does. -/
theorem complete_iff (imports : Imports) (libname : Text) (nid : BitVec 32) :
    (Complete imports libname nid (searchLibs libname nid imports) ↔
        FirstLists imports libname nid) ∧
      Thgn.findNameByNid imports libname nid = searchLibs libname nid imports := by
  refine ⟨?_, searchLibs_eq.symm⟩
  rw [searchLibs_first, FirstLists]
  cases found : (modulesOf imports).find? fun entry => entry.name = libname with
  | none =>
      refine iff_of_true ?_ fun first other => ?_
      · intro name listed
        obtain ⟨entry, member, same, -⟩ := listed
        exact absurd same (by simpa using List.find?_eq_none.mp found entry member)
      · cases other
  | some first =>
      have member := List.mem_of_find?_eq_some found
      have named : first.name = libname := by simpa using List.find?_some found
      rw [Option.bind_some]
      cases answer : searchFunctions nid first.functions with
      | some name =>
          have lists := searchFunctions_some answer
          refine iff_of_true ⟨first, member, named, lists⟩ fun other same _ => ?_
          obtain rfl := Option.some.inj same
          exact ⟨name, lists⟩
      | none =>
          constructor
          next =>
            rintro complete other same ⟨name, listed⟩
            exact absurd listed (complete name)
          next =>
            intro firstLists name listed
            obtain ⟨other, lists⟩ := firstLists first rfl ⟨name, listed⟩
            exact searchFunctions_none answer other lists

end

-- Two groups with a library A, of which only the second lists the NID 7.
def splitLibrary : Imports :=
  [some [some ⟨['A'], [some ⟨['f'], 1⟩]⟩], some [some ⟨['A'], [some ⟨['g'], 7⟩]⟩]]

theorem splitLibrary_missed : searchLibs ['A'] 7 splitLibrary = none ∧
    Thgn.findNameByNid splitLibrary ['A'] 7 = none ∧
    ¬ Complete splitLibrary ['A'] 7 (searchLibs ['A'] 7 splitLibrary) := by
  have missed : searchLibs ['A'] 7 splitLibrary = none := by decide
  refine ⟨missed, searchLibs_eq.symm.trans missed, ?_⟩
  rw [missed]
  intro complete
  refine complete ['g'] ⟨⟨['A'], [some ⟨['g'], 7⟩]⟩, ?_, rfl, ⟨['g'], 7⟩, ?_, rfl, rfl⟩
  · exact List.mem_cons_of_mem _ List.mem_cons_self
  · exact List.mem_cons_self

end VitaTools.VitaModule
