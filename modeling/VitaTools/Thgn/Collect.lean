import VitaTools.Library.Memory

set_option autoImplicit false

/-!
`getExports` and `getImports` walk the export and import tables of a module. Places
in the segment are offsets from `segment1`.
-/

namespace VitaTools.Thgn

open VitaTools.Library

abbrev Text := List Char

inductive NidType
  | exported
  | imported
deriving DecidableEq, Repr

-- `nidRoom` are the bytes asked of `malloc` for the name.
structure HookEntry where
  nid : BitVec 32
  libNid : BitVec 32
  nidType : NidType
  libName : Text
  nidName : Text
  nidRoom : Nat
deriving DecidableEq, Repr

structure Stub where
  name : Text
  nid : BitVec 32

structure ImportsModule where
  name : Text
  functions : List (Option Stub)

-- `vita_imports_t`: the modules of each library. Pointers may be NULL.
abbrev Imports := List (Option (List (Option ImportsModule)))

-- The first module of that name decides, also when it has no such function.
def findNameByNid (imports : Imports) (libname : Text) (nid : BitVec 32) : Option Text :=
  let modules := (imports.filterMap id).flatMap fun libEntry => libEntry.filterMap id
  (modules.find? fun moduleEntry => moduleEntry.name = libname).bind fun moduleEntry =>
    ((moduleEntry.functions.filterMap id).find? fun stubEntry => stubEntry.nid = nid).map
      fun stubEntry => stubEntry.name

-- Pointer arithmetic may leave the segment on either side.
abbrev Segment := Int → Byte

namespace Segment

variable (segment1 : Segment)

def behind (offset : Int) : Memory := fun k => segment1 (offset + k)

-- The string at `offset`, of at most `limit` characters.
def text (offset : Int) : Nat → Text
  | 0 => []
  | limit + 1 =>
      if segment1 offset = 0 then []
      else Char.ofNat (segment1 offset).toNat :: text (offset + 1) limit

end Segment

structure LibTable where
  size : Nat
  numFunctions : Nat
  moduleNid : BitVec 32
  libName : BitVec 32
  nidTable : BitVec 32

def exportsTable (segment1 : Segment) (i : Nat) : LibTable :=
  let expTable := segment1.behind i
  ⟨(expTable.half 0).toNat, (expTable.half 6).toNat, expTable.word 16, expTable.word 20,
    expTable.word 24⟩

-- `convertToImportsTable3xx`: an entry of neither size stays zero.
def importsTable (segment1 : Segment) (i : Nat) : LibTable :=
  let import2xx := segment1.behind i
  let size := (import2xx.half 0).toNat
  if size = 52 then
    ⟨size, (import2xx.half 6).toNat, import2xx.word 16, import2xx.word 20, import2xx.word 28⟩
  else if size = 36 then
    ⟨size, (import2xx.half 6).toNat, import2xx.word 12, import2xx.word 16, import2xx.word 20⟩
  else ⟨0, 0, 0, 0, 0⟩

-- `%08X`.
def hex8 (nid : BitVec 32) : Text :=
  (List.range 8).map fun k => ((nid.toNat / 16 ^ (7 - k) % 16).digitChar).toUpper

-- `snprintf` into `char name[64]`.
def hookName (imports : Imports) (libName : Text) (nid : BitVec 32) : Text :=
  match findNameByNid imports libName nid with
  | some funcName => ('_' :: funcName).take 63
  | none => (libName ++ '_' :: hex8 nid).take 63

def addressSpace : Nat := 2 ^ 32

section

variable (imports : Imports) (segment1 : Segment) (vaddr : BitVec 32) (lib : Option Text)

-- The loop over the functions of an entry: `libText` is the name as it is compared and
-- looked up, `libName` the one that is kept, `room` what is asked for the hook's name.
def tableHooks (nidType : NidType) (room : Text → Nat) (table : LibTable)
    (libText libName : Text) : List HookEntry :=
  (List.range table.numFunctions).filterMap fun j =>
    if table.libName = 0 then none
    else if lib.any fun wanted => libText ≠ wanted then none
    else
      let nid := (segment1.behind ((table.nidTable.toNat : Int) - vaddr.toNat)).word (4 * j)
      let name := hookName imports libText nid
      some ⟨nid, table.moduleNid, nidType, libName, name, room name⟩

def exportHooks (i : Nat) : List HookEntry :=
  let expTable := exportsTable segment1 i
  let libName := segment1.text ((expTable.libName.toNat : Int) - vaddr.toNat) addressSpace
  tableHooks imports segment1 vaddr lib .exported (fun _ => 64) expTable libName libName

-- `segment1 + (imp_table.lib_name - vaddr)` wraps at 2^32, `segment1 + imp_table.lib_name -
-- vaddr` does not. The name gets `strlen(name)` bytes, none of them for its NUL.
def importHooks (i : Nat) : List HookEntry :=
  let impTable := importsTable segment1 i
  let libText := segment1.text (impTable.libName - vaddr).toNat addressSpace
  let libName := segment1.text ((impTable.libName.toNat : Int) - vaddr.toNat) addressSpace
  tableHooks imports segment1 vaddr lib .imported List.length impTable libText libName

-- `while (i < bottom) { ... i += size; }`. There are 2^32 values of `i`, so a walk that is
-- not over after as many passes goes on for ever.
def walk (hooks : Nat → List HookEntry) (size : Nat → Nat) (bottom : Nat) :
    Nat → Nat → Option (List HookEntry)
  | 0, _ => none
  | passes + 1, i =>
      if i < bottom then
        (walk hooks size bottom passes ((i + size i) % 2 ^ 32)).map (hooks i ++ ·)
      else some []

end

structure ModuleInfo where
  expTop : Nat
  expBtm : Nat
  impTop : Nat
  impBtm : Nat

structure Image where
  modInfo : ModuleInfo
  segment1 : Segment
  vaddr : BitVec 32

def getExports (imports : Imports) (image : Image) (lib : Option Text) :
    Option (List HookEntry) :=
  walk (exportHooks imports image.segment1 image.vaddr lib)
    (fun i => (exportsTable image.segment1 i).size) image.modInfo.expBtm (addressSpace + 1)
    image.modInfo.expTop

def getImports (imports : Imports) (image : Image) (lib : Option Text) :
    Option (List HookEntry) :=
  walk (importHooks imports image.segment1 image.vaddr lib)
    (fun i => (importsTable image.segment1 i).size) image.modInfo.impBtm (addressSpace + 1)
    image.modInfo.impTop

-- `argv[2]`.
inductive Selection
  | exports
  | imports
  | all
  | library (name : Text)

-- `table` as `main` fills it.
def collect (imports : Imports) (image : Image) : Selection → Option (List HookEntry)
  | .exports => getExports imports image none
  | .imports => getImports imports image none
  | .all => do
      let exported ← getExports imports image none
      let imported ← getImports imports image none
      pure (exported ++ imported)
  | .library name => do
      let exported ← getExports imports image (some name)
      let imported ← getImports imports image (some name)
      pure (exported ++ imported)

end VitaTools.Thgn
