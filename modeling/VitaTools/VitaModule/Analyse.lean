import VitaTools.Library.Loop
import VitaTools.Thgn.Collect

set_option autoImplicit false

/-!
`analyseVitaModule` of the decompiler walks the export and import tables of a module and adds a
symbol for each entry. What it reports in its text files is left out.
-/

namespace VitaTools.VitaModule

open VitaTools.Library
open VitaTools.Thgn (Text Imports Segment findNameByNid hex8 addressSpace)

abbrev Word := BitVec 32

def syslibNids : List (Word × Text) :=
  [(0x70FBA1E7, "module_process_param".toList), (0x6C2224BA, "module_info".toList),
    (0x935CD196, "module_start".toList), (0x79F8E492, "module_stop".toList),
    (0x913482A9, "module_exit".toList)]

structure SceModuleInfo where
  expTop : Word
  expBtm : Word
  impTop : Word
  impBtm : Word

structure SceExportsTable where
  size : BitVec 16
  numFunctions : BitVec 16
  numVars : Word
  libName : Word
  nidTable : Word
  entryTable : Word

structure SceImportsTable3xx where
  size : BitVec 16
  numFunctions : BitVec 16
  libName : Word
  funcNidTable : Word
  funcEntryTable : Word
deriving DecidableEq

section

variable (data : Segment)

def moduleInfo (offset : Word) : SceModuleInfo :=
  let info := data.behind offset.toNat
  ⟨info.word 36, info.word 40, info.word 44, info.word 48⟩

def exportsTable (i : Word) : SceExportsTable :=
  let exp := data.behind i.toNat
  ⟨exp.half 0, exp.half 6, exp.word 8, exp.word 20, exp.word 24, exp.word 28⟩

-- An entry of neither size stays zero.
def convertToImportsTable3xx (i : Word) : SceImportsTable3xx :=
  let import2xx := data.behind i.toNat
  if import2xx.half 0 = 52 then
    ⟨import2xx.half 0, import2xx.half 6, import2xx.word 20, import2xx.word 28, import2xx.word 32⟩
  else if import2xx.half 0 = 36 then
    ⟨import2xx.half 0, import2xx.half 6, import2xx.word 16, import2xx.word 20, import2xx.word 24⟩
  else ⟨0, 0, 0, 0, 0⟩

-- `data + (pointer - text_addr)`.
def placeOf (textAddr pointer : Word) : Int := (pointer - textAddr).toNat

def stringAt (textAddr pointer : Word) : Text :=
  data.text (placeOf textAddr pointer) addressSpace

def wordAt (textAddr pointer : Word) (j : Nat) : Word :=
  (data.behind (placeOf textAddr pointer)).word (4 * j)

end

/-- What `snprintf` makes of a format without arguments. A conversion would read one. -/
def expand : Text → Option Text
  | [] => some []
  | [c] => if c = '%' then none else some [c]
  | c :: d :: rest =>
      if c = '%' then if d = '%' then (expand rest).map ('%' :: ·) else none
      else (expand (d :: rest)).map (c :: ·)

-- The database, and what `snprintf` writes for a format whose arguments are missing.
structure Session where
  imports : Imports
  missing : Text → Text

-- `snprintf(name, sizeof(name), funcName)`.
def Session.formatted (session : Session) (funcName : Text) : Text :=
  ((expand funcName).getD (session.missing funcName)).take 63

def Session.libraryName (session : Session) (libName : Text) (nid : Word) : Text :=
  match findNameByNid session.imports libName nid with
  | some funcName => session.formatted funcName
  | none => (libName ++ '_' :: hex8 nid).take 63

-- What is in the buffer `name` behind the branches for an export entry.
def Session.exportName (session : Session) (libName : Option Text) (nid : Word) (name : Text) :
    Text :=
  match libName with
  | some libName => session.libraryName libName nid
  | none => syslibNids.foldl (fun name entry => if entry.1 = nid then entry.2 else name) name

/-- A call of `addSymbol` for an export, with what the entry names. -/
structure ExportCall where
  libName : Option Text
  nid : Word
  addr : Word
  name : Text
deriving DecidableEq

-- `name` is the stack buffer, which keeps its contents from entry to entry.
structure Exporting where
  i : Word
  name : Text
  calls : List ExportCall

structure SymbolCall where
  addr : Word
  name : Text
deriving DecidableEq

structure Importing where
  i : Word
  calls : List SymbolCall

section

variable (session : Session) (data : Segment) (textAddr : Word)

-- The entries of a table from entry `j` on, and the buffer behind the last one.
def exportEntries (exp : SceExportsTable) : Nat → Nat → Text → List ExportCall × Text
  | 0, _, name => ([], name)
  | left + 1, j, name =>
      let libName := if exp.libName = 0 then none else some (stringAt data textAddr exp.libName)
      let nid := wordAt data textAddr exp.nidTable j
      let addr := wordAt data textAddr exp.entryTable j
      let name := session.exportName libName nid name
      let later := exportEntries exp left (j + 1) name
      (⟨libName, nid, addr &&& ~~~0x1, name⟩ :: later.1, later.2)

-- `num_functions + num_vars` is unsigned.
def SceExportsTable.entries (exp : SceExportsTable) : Nat :=
  (exp.numFunctions.setWidth 32 + exp.numVars).toNat

def exportPass (st : Exporting) : Exporting :=
  let exp := exportsTable data st.i
  let entries := exportEntries session data textAddr exp exp.entries 0 st.name
  ⟨st.i + exp.size.setWidth 32, entries.2, st.calls ++ entries.1⟩

def exportLoop (expBtm : Word) : Loop Exporting where
  more st := decide (st.i < expBtm)
  pass := exportPass session data textAddr

def importEntries (imp : SceImportsTable3xx) : List SymbolCall :=
  if imp.libName = 0 then []
  else
    let libName := stringAt data textAddr imp.libName
    (List.range imp.numFunctions.toNat).flatMap fun j =>
      let name := session.libraryName libName (wordAt data textAddr imp.funcNidTable j)
      let addr := wordAt data textAddr imp.funcEntryTable j
      [⟨addr, name⟩, ⟨addr + 4, name⟩]

def importPass (st : Importing) : Importing :=
  let imp := convertToImportsTable3xx data st.i
  ⟨st.i + imp.size.setWidth 32, st.calls ++ importEntries session data textAddr imp⟩

def importLoop (impBtm : Word) : Loop Importing where
  more st := decide (st.i < impBtm)
  pass := importPass session data textAddr

-- The two loops one after the other. `name` is what the stack holds before the first.
def analyseVitaModule (offset : Word) (name : Text) (fuel : Nat) :
    Option (List ExportCall × List SymbolCall) :=
  let info := moduleInfo data offset
  ((exportLoop session data textAddr info.expBtm).run fuel ⟨info.expTop, name, []⟩).bind
    fun exported =>
      ((importLoop session data textAddr info.impBtm).run fuel ⟨info.impTop, []⟩).map
        fun imported => (exported.calls, imported.calls)

end

end VitaTools.VitaModule
