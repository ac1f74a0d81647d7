import VitaTools.Yaml.Model

set_option autoImplicit false

/-!
The database of NIDs is read from the tree of a YAML file. The decompiler and THGN have the same
file.
-/

namespace VitaTools.VitaImport

open VitaTools.Thgn (Text Stub)
open VitaTools.Yaml

structure VitaImportsModule where
  name : Text
  nid : BitVec 32
  isKernel : Bool
  functions : List Stub
  vars : List Stub

structure VitaImportsLib where
  name : Text
  nid : BitVec 32
  modules : List VitaImportsModule

-- `vita_imports_t`
abbrev VitaImports := List VitaImportsLib

-- What `findNameByNid` goes through.
def listed (imports : VitaImports) : Thgn.Imports :=
  imports.map fun libEntry => some <| libEntry.modules.map fun moduleEntry =>
    some ⟨moduleEntry.name, moduleEntry.functions.map some⟩

abbrev Result (α : Type) := Except (Option Text) α

def position : YamlNode → YamlPosition
  | .scalar position _ _ => position
  | .sequence position _ => position
  | .mapping position _ => position

def nodeTypeStr : YamlNode → String
  | .scalar _ _ _ => "scalar"
  | .sequence _ _ => "sequence"
  | .mapping _ _ => "mapping"

def iteratePairs {σ : Type} (functor : YamlNode → YamlNode → σ → Result σ) :
    List (YamlNode × YamlNode) → σ → Result σ
  | [], userdata => .ok userdata
  | (lhs, rhs) :: pairs, userdata =>
      (functor lhs rhs userdata).bind (iteratePairs functor pairs)

def yamlIterateMapping {σ : Type} (node : YamlNode) (functor : YamlNode → YamlNode → σ → Result σ)
    (userdata : σ) : Result σ :=
  match node with
  | .mapping _ pairs => iteratePairs functor pairs userdata
  | _ => .error none

def isSpace (c : Char) : Bool := " \t\n\x0b\x0c\r".toList.contains c

-- A character that is no digit in any base has the value 36.
def digitOf (c : Char) : Nat :=
  if '0' ≤ c ∧ c ≤ '9' then c.toNat - 48
  else if 'a' ≤ c ∧ c ≤ 'z' then c.toNat - 87
  else if 'A' ≤ c ∧ c ≤ 'Z' then c.toNat - 55
  else 36

def accumulate (base : Nat) (digits : Text) : Nat :=
  digits.foldl (fun value c => value * base + digitOf c) 0

-- The base and the digits behind its mark. A `0x` without a digit is a zero.
def baseOf : Text → Nat × Text
  | '0' :: x :: digit :: rest =>
      if (x = 'x' ∨ x = 'X') ∧ digitOf digit < 16 then (16, digit :: rest)
      else (8, '0' :: x :: digit :: rest)
  | '0' :: rest => (8, '0' :: rest)
  | s => (10, s)

def ulongMax : Nat := 2 ^ 64 - 1

def signOf : Text → Bool × Text
  | '-' :: rest => (true, rest)
  | '+' :: rest => (false, rest)
  | s => (false, s)

-- `strtoul(s, &endptr, 0)` and the text from `endptr` on.
def strtoul (s : Text) : Nat × Text :=
  let signed := signOf (s.dropWhile isSpace)
  let based := baseOf signed.2
  let digits := based.2.takeWhile fun c => digitOf c < based.1
  if digits = [] then (0, s)
  else
    let value := accumulate based.1 digits
    (if ulongMax < value then ulongMax
      else if signed.1 then (2 ^ 64 - value) % 2 ^ 64 else value, based.2.drop digits.length)

def process32bitInteger : YamlNode → Option (BitVec 32)
  | .scalar _ value _ =>
      let res := strtoul value
      if res.2 = [] then some (BitVec.ofNat 32 res.1) else none
  | _ => none

def processBool : YamlNode → Option Bool
  | .scalar _ value _ =>
      if value = "true".toList then some true
      else if value = "false".toList then some false
      else none
  | _ => none

def errorAt (node : YamlNode) (text : Text) : Text :=
  "error: line: ".toList ++ Nat.toDigits 10 (position node).line ++ ", column: ".toList ++
    Nat.toDigits 10 (position node).column ++ ", ".toList ++ text ++ ".\n".toList

def expectingScalar (what : String) (node : YamlNode) : Result Text :=
  match node with
  | .scalar _ value _ => .ok value
  | _ =>
      .error (some (errorAt node ("expecting ".toList ++ what.toList ++
        " to be scalar, got '".toList ++ (nodeTypeStr node).toList ++ ['\''])))

-- `value` is that of the node.
def convertNid (what : String) (node : YamlNode) (value : Text) : Result (BitVec 32) :=
  match process32bitInteger node with
  | some nid => .ok nid
  | none =>
      .error (some (errorAt node ("could not convert ".toList ++ what.toList ++ " nid '".toList ++
        value ++ "' to 32 bit integer".toList)))

-- `process_import_functions` and `process_import_variables` up to the list.
def processStub (what : String) (parent child : YamlNode) : Result Stub :=
  (expectingScalar what parent).bind fun key =>
    (expectingScalar (what ++ " value") child).bind fun value =>
      (convertNid what child value).map fun nid => ⟨key, nid⟩

def processImportFunctions (parent child : YamlNode) (library : VitaImportsModule) :
    Result VitaImportsModule :=
  (processStub "function" parent child).map fun symbol =>
    { library with functions := library.functions ++ [symbol] }

def processImportVariables (parent child : YamlNode) (library : VitaImportsModule) :
    Result VitaImportsModule :=
  (processStub "variable" parent child).map fun symbol =>
    { library with vars := library.vars ++ [symbol] }

def processLibrary (parent child : YamlNode) (library : VitaImportsModule) :
    Result VitaImportsModule :=
  (expectingScalar "library key" parent).bind fun key =>
    if key = "kernel".toList then
      (expectingScalar "library syscall flag" child).bind fun value =>
        match processBool child with
        | some flag => .ok { library with isKernel := flag }
        | none =>
            .error (some (errorAt child
              ("could not convert library flag to boolean, got '".toList ++ value ++
                "'. expected 'true' or 'false'".toList)))
    else if key = "functions".toList then
      yamlIterateMapping child processImportFunctions library
    else if key = "variables".toList then
      yamlIterateMapping child processImportVariables library
    else if key = "nid".toList then
      (expectingScalar "library nid" child).bind fun value =>
        (convertNid "library" child value).map fun nid => { library with nid }
    else
      .error (some (errorAt child
        ("unrecognised library key '".toList ++ key ++ ['\''])))

def processLibraries (parent child : YamlNode) (import_ : VitaImportsLib) :
    Result VitaImportsLib :=
  (expectingScalar "library key" parent).bind fun key =>
    (yamlIterateMapping child processLibrary ⟨key, 0, false, [], []⟩).map fun library =>
      { import_ with modules := import_.modules ++ [library] }

def processImport (parent child : YamlNode) (import_ : VitaImportsLib) : Result VitaImportsLib :=
  (expectingScalar "module key" parent).bind fun key =>
    if key = "nid".toList then
      (expectingScalar "module nid" child).bind fun value =>
        (convertNid "module" child value).map fun nid => { import_ with nid }
    else if key = "libraries".toList then yamlIterateMapping child processLibraries import_
    else
      .error (some (errorAt child
        ("unrecognised module key '".toList ++ key ++ ['\''])))

def processImportList (parent child : YamlNode) (imports : VitaImports) : Result VitaImports :=
  (expectingScalar "modules key" parent).bind fun key =>
    (yamlIterateMapping child processImport ⟨key, 0, []⟩).map fun import_ => imports ++ [import_]

-- A root key other than `modules` is passed by.
def processRoot (lhs rhs : YamlNode) (imports : VitaImports) : Result VitaImports :=
  match lhs with
  | .scalar _ value _ =>
      if value = "modules".toList then yamlIterateMapping rhs processImportList imports
      else .ok imports
  | _ => .ok imports

def readVitaImports (doc : YamlNode) : Result VitaImports :=
  match doc with
  | .mapping _ [] =>
      .error (some (errorAt doc "expecting at least one entry within root mapping, got 0".toList))
  | .mapping _ pairs => iteratePairs processRoot pairs []
  | _ =>
      .error (some (errorAt doc ("expecting root node to be a mapping, got '".toList ++
        (nodeTypeStr doc).toList ++ ['\''])))

-- `none` is out of fuel. A missing text is printed as `(null)`.
def vitaImportsLoads (fuel : Nat) (events : List YamlEvent) (failure : Option YamlParserError) :
    Option (Result VitaImports) :=
  (parseYamlStream fuel events failure).map fun tree =>
    match tree.1 with
    | none =>
        .error (some ("error: ".toList ++ tree.2.getD "(null)".toList ++ ['\n']))
    | some [doc] => readVitaImports doc
    | some docs =>
        .error (some ("error: expecting a single yaml document, got: ".toList ++
          Nat.toDigits 10 docs.length ++ ['\n']))

end VitaTools.VitaImport
