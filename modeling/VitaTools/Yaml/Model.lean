import VitaTools.Thgn.Collect

set_option autoImplicit false

/-!
A tree is read from the events of libyaml with one event of lookahead. The decompiler and THGN have
the same file.
-/

namespace VitaTools.Yaml

open VitaTools.Thgn (Text)

structure YamlPosition where
  line : Nat
  column : Nat

inductive YamlNode
  | scalar (position : YamlPosition) (value : Text) (len : Nat)
  | sequence (position : YamlPosition) (nodes : List YamlNode)
  | mapping (position : YamlPosition) (pairs : List (YamlNode × YamlNode))

-- `yaml_event_t`, with the start mark where it is read.
inductive YamlEvent
  | noEvent
  | streamStart
  | streamEnd
  | documentStart
  | documentEnd
  | aliasEvent
  | scalar (startMark : YamlPosition) (value : Text)
  | sequenceStart (startMark : YamlPosition)
  | sequenceEnd
  | mappingStart (startMark : YamlPosition)
  | mappingEnd

def eventToString : YamlEvent → Text
  | .noEvent => "YAML_NO_EVENT".toList
  | .streamStart => "YAML_STREAM_START_EVENT".toList
  | .streamEnd => "YAML_STREAM_END_EVENT".toList
  | .documentStart => "YAML_DOCUMENT_START_EVENT".toList
  | .documentEnd => "YAML_DOCUMENT_END_EVENT".toList
  | .aliasEvent => "YAML_ALIAS_EVENT".toList
  | .scalar _ _ => "YAML_SCALAR_EVENT".toList
  | .sequenceStart _ => "YAML_SEQUENCE_START_EVENT".toList
  | .sequenceEnd => "YAML_SEQUENCE_END_EVENT".toList
  | .mappingStart _ => "YAML_MAPPING_START_EVENT".toList
  | .mappingEnd => "YAML_MAPPING_END_EVENT".toList

inductive YamlErrorType
  | memory
  | reader
  | scanner
  | parser
  | composer
  | writer
  | emitter
deriving DecidableEq

structure YamlParserError where
  error : YamlErrorType
  problem : Text
  problemValue : Int
  line : Nat
  column : Nat

-- What `yaml_parser_parse` gives one after the other, and the error behind it, if any.
structure YamlParser where
  events : List YamlEvent
  failure : Option YamlParserError
  error : Option YamlParserError

def yamlParserParse (parser : YamlParser) : YamlEvent × YamlParser :=
  match parser.events with
  | event :: events => (event, { parser with events })
  | [] => (.noEvent, { parser with error := parser.failure })

structure ParserContext where
  parser : YamlParser
  event : YamlEvent
  nextEvent : YamlEvent
  -- `error->problem`
  problem : Option Text

def atPlace (e : YamlParserError) : Text :=
  "' at line ".toList ++ Nat.toDigits 10 e.line ++ ", column ".toList ++ Nat.toDigits 10 e.column ++
    ".".toList

-- `problem_value` is printed as an unsigned int.
def formatErrorString (e : YamlParserError) : Text :=
  let named (name : String) : Text :=
    "libyaml: ".toList ++ name.toList ++ " error: '".toList ++ e.problem ++ atPlace e
  match e.error with
  | .memory => "libyaml: failed to allocate or reallocate a block of memory.".toList
  | .reader =>
      if e.problemValue ≠ -1 then
        "libyaml: reader error: '".toList ++ e.problem ++ ":#".toList ++
          (Nat.toDigits 16 (BitVec.ofInt 32 e.problemValue).toNat).map Char.toUpper ++ atPlace e
      else named "reader"
  | .scanner => named "scanner"
  | .parser => named "parser"
  | .composer => named "composer"
  | .writer => named "writer"
  | .emitter => named "emitter"

namespace ParserContext

-- `set_error`, and whether it set one.
def setError (ctx : ParserContext) : Bool × ParserContext :=
  match ctx.problem, ctx.parser.error with
  | none, some e => (true, { ctx with problem := some (formatErrorString e) })
  | _, _ => (false, ctx)

-- `process_event`, and whether its result is 0.
def processEvent (ctx : ParserContext) : Bool × ParserContext :=
  let parsed := yamlParserParse ctx.parser
  let set := setError { ctx with event := ctx.nextEvent, nextEvent := parsed.1, parser := parsed.2 }
  (!set.1, set.2)

-- `next_event`
def next (ctx : ParserContext) : YamlEvent × ParserContext :=
  let processed := ctx.processEvent
  (if processed.1 then processed.2.event else .noEvent, processed.2)

def fail (ctx : ParserContext) (problem : Text) : ParserContext :=
  { ctx with problem := some problem }

end ParserContext

-- What `strdup` takes of a value.
def strdup (value : Text) : Text := value.takeWhile fun c => c ≠ '\x00'

mutual

-- A result of `none` is out of fuel, one with `none` is NULL.
def processNode : Nat → ParserContext → Option (Option YamlNode × ParserContext)
  | 0, _ => none
  | fuel + 1, ctx =>
      match ctx.next with
      | (.aliasEvent, ctx) =>
          some (none, ctx.fail "yamltree: there is no support for aliases implemented.".toList)
      | (.scalar mark value, ctx) =>
          some (some (.scalar mark (strdup value) value.length), ctx)
      | (.sequenceStart mark, ctx) =>
          (processSequence fuel ctx []).map fun done => (done.1.map (.sequence mark), done.2)
      | (.mappingStart mark, ctx) =>
          (processMapping fuel ctx []).map fun done => (done.1.map (.mapping mark), done.2)
      | (_, ctx) => some (none, ctx)

-- The loop of `process_sequence`, with the nodes it has.
def processSequence : Nat → ParserContext → List YamlNode →
    Option (Option (List YamlNode) × ParserContext)
  | 0, _, _ => none
  | fuel + 1, ctx, nodes =>
      match ctx.nextEvent with
      | .sequenceEnd =>
          let processed := ctx.processEvent
          some (if processed.1 then some nodes else none, processed.2)
      | _ =>
          match processNode fuel ctx with
          | none => none
          | some (none, ctx) => some (none, ctx)
          | some (some node, ctx) => processSequence fuel ctx (nodes ++ [node])

def processMapping : Nat → ParserContext → List (YamlNode × YamlNode) →
    Option (Option (List (YamlNode × YamlNode)) × ParserContext)
  | 0, _, _ => none
  | fuel + 1, ctx, pairs =>
      match ctx.nextEvent with
      | .mappingEnd =>
          let processed := ctx.processEvent
          some (if processed.1 then some pairs else none, processed.2)
      | _ =>
          match processNode fuel ctx with
          | none => none
          | some (none, ctx) => some (none, ctx)
          | some (some lhs, ctx) =>
              match processNode fuel ctx with
              | none => none
              | some (none, ctx) => some (none, ctx)
              | some (some rhs, ctx) => processMapping fuel ctx (pairs ++ [(lhs, rhs)])

end

def expecting (event : String) (got : YamlEvent) : Text :=
  "yamltree: expecting ".toList ++ event.toList ++ " got '".toList ++ eventToString got ++
    "'.".toList

def processDocument (fuel : Nat) (ctx : ParserContext) :
    Option (Option YamlNode × ParserContext) :=
  match ctx.next with
  | (.documentStart, ctx) =>
      match processNode fuel ctx with
      | none => none
      | some (none, ctx) => some (none, ctx)
      | some (some doc, ctx) =>
          match ctx.next with
          | (.documentEnd, ctx) => some (some doc, ctx)
          | (_, ctx) =>
              if ctx.problem.isSome then some (none, ctx)
              else some (none, ctx.fail (expecting "YAML_DOCUMENT_END_EVENT" ctx.event))
  | (_, ctx) =>
      if ctx.problem.isSome then some (none, ctx)
      else some (none, ctx.fail (expecting "YAML_DOCUMENT_START_EVENT" ctx.event))

-- The loop of `parse_yaml_stream`.
def streamLoop : Nat → ParserContext → List YamlNode →
    Option (Option (List YamlNode) × ParserContext)
  | 0, _, _ => none
  | fuel + 1, ctx, docs =>
      match ctx.next with
      | (.streamEnd, ctx) => some (some docs, ctx)
      | (_, ctx) =>
          if ctx.problem.isSome then some (none, ctx)
          else
            match processDocument fuel ctx with
            | none => none
            | some (none, ctx) => some (none, ctx)
            | some (some document, ctx) => streamLoop fuel ctx (docs ++ [document])

-- The documents or NULL, and `error->problem`.
def parseYamlStream (fuel : Nat) (events : List YamlEvent) (failure : Option YamlParserError) :
    Option (Option (List YamlNode) × Option Text) :=
  let processed : Bool × ParserContext :=
    ParserContext.processEvent ⟨⟨events, failure, none⟩, .noEvent, .noEvent, none⟩
  let ctx := processed.2
  if processed.1 then
    match ctx.nextEvent with
    | .streamStart => (streamLoop fuel ctx []).map fun done => (done.1, done.2.problem)
    | _ => some (none, some (expecting "YAML_STREAM_START_EVENT" ctx.nextEvent))
  else some (none, ctx.problem)

end VitaTools.Yaml
