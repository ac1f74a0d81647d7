import VitaTools.Yaml.Model

set_option autoImplicit false

namespace VitaTools.Yaml

open VitaTools.Thgn (Text)

mutual

inductive Emits : YamlNode → List YamlEvent → Prop
  | scalar (mark : YamlPosition) (value : Text) :
      Emits (.scalar mark (strdup value) value.length) [.scalar mark value]
  | sequence {nodes : List YamlNode} {body : List YamlEvent} (mark : YamlPosition) :
      EmitsAll nodes body →
        Emits (.sequence mark nodes) (.sequenceStart mark :: (body ++ [.sequenceEnd]))
  | mapping {pairs : List (YamlNode × YamlNode)} {body : List YamlEvent} (mark : YamlPosition) :
      EmitsPairs pairs body →
        Emits (.mapping mark pairs) (.mappingStart mark :: (body ++ [.mappingEnd]))

inductive EmitsAll : List YamlNode → List YamlEvent → Prop
  | nil : EmitsAll [] []
  | cons {node : YamlNode} {nodes : List YamlNode} {first rest : List YamlEvent} :
      Emits node first → EmitsAll nodes rest → EmitsAll (node :: nodes) (first ++ rest)

inductive EmitsPairs : List (YamlNode × YamlNode) → List YamlEvent → Prop
  | nil : EmitsPairs [] []
  | cons {lhs rhs : YamlNode} {pairs : List (YamlNode × YamlNode)}
      {left right rest : List YamlEvent} :
      Emits lhs left → Emits rhs right → EmitsPairs pairs rest →
        EmitsPairs ((lhs, rhs) :: pairs) (left ++ (right ++ rest))

end

theorem Emits.length_pos {node : YamlNode} {body : List YamlEvent} (emits : Emits node body) :
    0 < body.length := by
  cases emits <;> simp

theorem Emits.head {node : YamlNode} {body : List YamlEvent} (emits : Emits node body) :
    ∃ event rest, body = event :: rest ∧ event ≠ .sequenceEnd ∧ event ≠ .mappingEnd := by
  cases emits with
  | scalar mark value =>
      exact ⟨_, _, rfl, (fun same => by cases same), fun same => by cases same⟩
  | sequence mark _ =>
      exact ⟨_, _, rfl, (fun same => by cases same), fun same => by cases same⟩
  | mapping mark _ =>
      exact ⟨_, _, rfl, (fun same => by cases same), fun same => by cases same⟩

inductive Pending
  | node
  | items
  | pairs
  | documentEnd
  | documents

/-- Events in the order of libyaml's grammar, which a failure can break off anywhere. -/
inductive Delivers (failure : Option YamlParserError) : List Pending → List YamlEvent → Prop
  | complete : failure = none → Delivers failure [] []
  | broken {first : Pending} {pending : List Pending} :
      failure ≠ none → Delivers failure (first :: pending) []
  | aliased {pending : List Pending} {events : List YamlEvent} :
      Delivers failure pending events → Delivers failure (.node :: pending) (.aliasEvent :: events)
  | scalar {pending : List Pending} {events : List YamlEvent} (mark : YamlPosition)
      (value : Text) : Delivers failure pending events →
        Delivers failure (.node :: pending) (.scalar mark value :: events)
  | sequence {pending : List Pending} {events : List YamlEvent} (mark : YamlPosition) :
      Delivers failure (.items :: pending) events →
        Delivers failure (.node :: pending) (.sequenceStart mark :: events)
  | item {pending : List Pending} {events : List YamlEvent} :
      Delivers failure (.node :: .items :: pending) events →
        Delivers failure (.items :: pending) events
  | sequenceEnd {pending : List Pending} {events : List YamlEvent} :
      Delivers failure pending events →
        Delivers failure (.items :: pending) (.sequenceEnd :: events)
  | mapping {pending : List Pending} {events : List YamlEvent} (mark : YamlPosition) :
      Delivers failure (.pairs :: pending) events →
        Delivers failure (.node :: pending) (.mappingStart mark :: events)
  | pair {pending : List Pending} {events : List YamlEvent} :
      Delivers failure (.node :: .node :: .pairs :: pending) events →
        Delivers failure (.pairs :: pending) events
  | mappingEnd {pending : List Pending} {events : List YamlEvent} :
      Delivers failure pending events →
        Delivers failure (.pairs :: pending) (.mappingEnd :: events)
  | document {pending : List Pending} {events : List YamlEvent} :
      Delivers failure (.node :: .documentEnd :: .documents :: pending) events →
        Delivers failure (.documents :: pending) (.documentStart :: events)
  | documentEnd {pending : List Pending} {events : List YamlEvent} :
      Delivers failure pending events →
        Delivers failure (.documentEnd :: pending) (.documentEnd :: events)
  | streamEnd {pending : List Pending} {events : List YamlEvent} :
      Delivers failure pending events →
        Delivers failure (.documents :: pending) (.streamEnd :: events)

/-- The events of a whole file. -/
inductive Stream (failure : Option YamlParserError) : List YamlEvent → Prop
  | unread : failure ≠ none → Stream failure []
  | start {events : List YamlEvent} :
      Delivers failure [.documents] events → Stream failure (.streamStart :: events)

variable {failure : Option YamlParserError} {ctx : ParserContext} {events : List YamlEvent}
  {pending : List Pending}

theorem Delivers.nonempty {first : Pending}
    (delivers : Delivers failure (first :: pending) events) :
    events ≠ [] ∨ failure ≠ none := by
  generalize stack : first :: pending = opened at delivers
  induction delivers generalizing first pending with
  | complete _ => cases stack
  | broken failed => exact Or.inr failed
  | item _ ih => exact ih rfl
  | pair _ ih => exact ih rfl
  | _ => exact Or.inl (List.cons_ne_nil _ _)

structure At (failure : Option YamlParserError) (ctx : ParserContext)
    (events : List YamlEvent) : Prop where
  events : ctx.nextEvent :: ctx.parser.events = events ∨
    (events = [] ∧ ctx.nextEvent = .noEvent ∧ ctx.parser.events = [] ∧ failure = none)
  failure : ctx.parser.failure = failure
  error : ctx.parser.error = none
  problem : ctx.problem = none

theorem At.nextEvent {event : YamlEvent} {rest : List YamlEvent}
    (here : At failure ctx (event :: rest)) : ctx.nextEvent = event := by
  rcases here.events with same | ⟨empty, -⟩
  · exact (List.cons.inj same).1
  · cases empty

theorem At.next {event : YamlEvent} {rest : List YamlEvent}
    (here : At failure ctx (event :: rest)) (more : rest ≠ [] ∨ failure = none) :
    ∃ later, ctx.processEvent = (true, later) ∧ ctx.next = (event, later) ∧
      later.event = event ∧ At failure later rest := by
  obtain ⟨⟨coming, broken, error⟩, current, next, problem⟩ := ctx
  obtain ⟨same, rfl, rfl, rfl⟩ := here
  rcases same with same | ⟨empty, -⟩
  · obtain ⟨rfl, rfl⟩ : next = event ∧ coming = rest := List.cons.inj same
    cases coming with
    | nil =>
        obtain rfl : broken = none := by simpa using more
        exact ⟨_, rfl, rfl, rfl, Or.inr ⟨rfl, rfl, rfl, rfl⟩, rfl, rfl, rfl⟩
    | cons first rest => exact ⟨_, rfl, rfl, rfl, Or.inl rfl, rfl, rfl, rfl⟩
  · cases empty

theorem At.next_failure {event : YamlEvent} (here : At failure ctx [event])
    (failed : failure ≠ none) : ∃ later, ctx.processEvent = (false, later) ∧
      ctx.next = (.noEvent, later) ∧ later.problem ≠ none := by
  obtain ⟨⟨coming, broken, error⟩, current, next, problem⟩ := ctx
  obtain ⟨same, rfl, rfl, rfl⟩ := here
  rcases same with same | ⟨empty, -⟩
  · obtain ⟨rfl, rfl⟩ : next = event ∧ coming = [] := List.cons.inj same
    cases broken with
    | none => exact absurd rfl failed
    | some e => exact ⟨_, rfl, rfl, by simp [ParserContext.setError, yamlParserParse]⟩
  · cases empty

theorem At.nil (here : At failure ctx []) : failure = none := by
  rcases here.events with same | ⟨-, -, -, complete⟩
  · cases same
  · exact complete

theorem At.more {first : Pending} (here : At failure ctx events)
    (delivers : Delivers failure (first :: pending) events) :
    ∃ event rest, events = event :: rest := by
  rcases delivers.nonempty with more | failed
  · exact List.exists_cons_of_ne_nil more
  · cases events with
    | nil => exact absurd here.nil failed
    | cons event rest => exact ⟨event, rest, rfl⟩

theorem At.step {event : YamlEvent} {rest : List YamlEvent}
    (here : At failure ctx (event :: rest)) :
    (∃ later, ctx.processEvent = (true, later) ∧ ctx.next = (event, later) ∧
      later.event = event ∧ At failure later rest) ∨
    ∃ later, ctx.processEvent = (false, later) ∧ ctx.next = (.noEvent, later) ∧
      later.problem ≠ none := by
  by_cases more : rest ≠ [] ∨ failure = none
  · exact Or.inl (here.next more)
  · obtain ⟨empty, failed⟩ := not_or.mp more
    rw [not_not.mp empty] at here
    exact Or.inr (here.next_failure failed)

section Steps

variable {fuel : Nat} {later : ParserContext} {nodes : List YamlNode}
  {pairs : List (YamlNode × YamlNode)}

theorem processNode_sequence {mark : YamlPosition}
    {done : Option (List YamlNode) × ParserContext} (next : ctx.next = (.sequenceStart mark, later))
    (read : processSequence fuel later [] = some done) :
    processNode (fuel + 1) ctx = some (done.1.map (.sequence mark), done.2) := by
  rw [processNode, next]
  simp only [read, Option.map_some]

theorem processNode_mapping {mark : YamlPosition}
    {done : Option (List (YamlNode × YamlNode)) × ParserContext}
    (next : ctx.next = (.mappingStart mark, later))
    (read : processMapping fuel later [] = some done) :
    processNode (fuel + 1) ctx = some (done.1.map (.mapping mark), done.2) := by
  rw [processNode, next]
  simp only [read, Option.map_some]

theorem processSequence_end {closed : Bool} (next : ctx.nextEvent = .sequenceEnd)
    (processed : ctx.processEvent = (closed, later)) :
    processSequence (fuel + 1) ctx nodes =
      some (if closed then some nodes else none, later) := by
  rw [processSequence]
  split
  · rw [processed]
  next other => exact absurd next other

theorem processSequence_failed (next : ctx.nextEvent ≠ .sequenceEnd)
    (failed : processNode fuel ctx = some (none, later)) :
    processSequence (fuel + 1) ctx nodes = some (none, later) := by
  rw [processSequence]
  split
  next same => exact absurd same next
  · rw [failed]

theorem processSequence_item {node : YamlNode} (next : ctx.nextEvent ≠ .sequenceEnd)
    (item : processNode fuel ctx = some (some node, later)) :
    processSequence (fuel + 1) ctx nodes = processSequence fuel later (nodes ++ [node]) := by
  rw [processSequence]
  split
  next same => exact absurd same next
  · rw [item]

theorem processMapping_end {closed : Bool} (next : ctx.nextEvent = .mappingEnd)
    (processed : ctx.processEvent = (closed, later)) :
    processMapping (fuel + 1) ctx pairs =
      some (if closed then some pairs else none, later) := by
  rw [processMapping]
  split
  · rw [processed]
  next other => exact absurd next other

theorem processMapping_failed (next : ctx.nextEvent ≠ .mappingEnd)
    (failed : processNode fuel ctx = some (none, later)) :
    processMapping (fuel + 1) ctx pairs = some (none, later) := by
  rw [processMapping]
  split
  next same => exact absurd same next
  · rw [failed]

theorem processMapping_half {middle : ParserContext} {lhs : YamlNode}
    (next : ctx.nextEvent ≠ .mappingEnd) (left : processNode fuel ctx = some (some lhs, middle))
    (failed : processNode fuel middle = some (none, later)) :
    processMapping (fuel + 1) ctx pairs = some (none, later) := by
  rw [processMapping]
  split
  next same => exact absurd same next
  · simp only [left, failed]

theorem processMapping_pair {middle : ParserContext} {lhs rhs : YamlNode}
    (next : ctx.nextEvent ≠ .mappingEnd) (left : processNode fuel ctx = some (some lhs, middle))
    (right : processNode fuel middle = some (some rhs, later)) :
    processMapping (fuel + 1) ctx pairs = processMapping fuel later (pairs ++ [(lhs, rhs)]) := by
  rw [processMapping]
  split
  next same => exact absurd same next
  · simp only [left, right]

end Steps

def Outcome {α : Type} (failure : Option YamlParserError) (pending : List Pending)
    (emits : α → List YamlEvent → Prop) (events : List YamlEvent)
    (done : Option α × ParserContext) : Prop :=
  (done.1 = none ∧ done.2.problem ≠ none) ∨
    ∃ tree body rest, done.1 = some tree ∧ events = body ++ rest ∧ emits tree body ∧
      At failure done.2 rest ∧ Delivers failure pending rest

def NodeRead (failure : Option YamlParserError) (fuel : Nat) : Prop :=
  ∀ {ctx : ParserContext} {events : List YamlEvent} {pending : List Pending},
    At failure ctx events → Delivers failure (.node :: pending) events →
      2 * events.length < fuel →
      ∃ done, processNode fuel ctx = some done ∧ Outcome failure pending Emits events done

def SequenceRead (failure : Option YamlParserError) (fuel : Nat) : Prop :=
  ∀ {ctx : ParserContext} {events : List YamlEvent} {pending : List Pending}
    (nodes : List YamlNode),
    At failure ctx events → Delivers failure (.items :: pending) events →
      2 * events.length + 1 < fuel →
      ∃ done, processSequence fuel ctx nodes = some done ∧
        Outcome failure pending
          (fun all body => ∃ more inner, all = nodes ++ more ∧ body = inner ++ [.sequenceEnd] ∧
            EmitsAll more inner) events done

def MappingRead (failure : Option YamlParserError) (fuel : Nat) : Prop :=
  ∀ {ctx : ParserContext} {events : List YamlEvent} {pending : List Pending}
    (pairs : List (YamlNode × YamlNode)),
    At failure ctx events → Delivers failure (.pairs :: pending) events →
      2 * events.length + 1 < fuel →
      ∃ done, processMapping fuel ctx pairs = some done ∧
        Outcome failure pending
          (fun all body => ∃ more inner, all = pairs ++ more ∧ body = inner ++ [.mappingEnd] ∧
            EmitsPairs more inner) events done

theorem node_read {fuel : Nat} (sequence : SequenceRead failure fuel)
    (mapping : MappingRead failure fuel) : NodeRead failure (fuel + 1) := by
  intro ctx events pending here delivers bound
  cases delivers with
  | broken failed => exact absurd here.nil failed
  | aliased after =>
      rcases here.step with ⟨later, -, next, -, there⟩ | ⟨later, -, next, problem⟩
      · exact ⟨_, by rw [processNode, next], Or.inl ⟨rfl, by simp [ParserContext.fail]⟩⟩
      · exact ⟨_, by rw [processNode, next], Or.inl ⟨rfl, problem⟩⟩
  | scalar mark value after =>
      rcases here.step with ⟨later, -, next, -, there⟩ | ⟨later, -, next, problem⟩
      · exact ⟨_, by rw [processNode, next],
          Or.inr ⟨_, [.scalar mark value], _, rfl, rfl, .scalar mark value, there, after⟩⟩
      · exact ⟨_, by rw [processNode, next], Or.inl ⟨rfl, problem⟩⟩
  | sequence mark after =>
      rcases here.step with ⟨later, -, next, -, there⟩ | ⟨later, -, next, problem⟩
      · obtain ⟨done, read, outcome⟩ :=
          sequence [] there after (by simp only [List.length_cons] at bound; omega)
        refine ⟨_, processNode_sequence next read, ?_⟩
        rcases outcome with ⟨null, problem⟩ |
          ⟨_, _, rest, found, rfl, ⟨nodes, body, rfl, rfl, emits⟩, last⟩
        · exact Or.inl ⟨by simp [null], problem⟩
        · exact Or.inr ⟨_, _, rest, by rw [found]; rfl, by simp, .sequence mark emits, last⟩
      · exact ⟨_, by rw [processNode, next], Or.inl ⟨rfl, problem⟩⟩
  | mapping mark after =>
      rcases here.step with ⟨later, -, next, -, there⟩ | ⟨later, -, next, problem⟩
      · obtain ⟨done, read, outcome⟩ :=
          mapping [] there after (by simp only [List.length_cons] at bound; omega)
        refine ⟨_, processNode_mapping next read, ?_⟩
        rcases outcome with ⟨null, problem⟩ |
          ⟨_, _, rest, found, rfl, ⟨pairs, body, rfl, rfl, emits⟩, last⟩
        · exact Or.inl ⟨by simp [null], problem⟩
        · exact Or.inr ⟨_, _, rest, by rw [found]; rfl, by simp, .mapping mark emits, last⟩
      · exact ⟨_, by rw [processNode, next], Or.inl ⟨rfl, problem⟩⟩

theorem next_of_node (here : At failure ctx events)
    (delivers : Delivers failure (.node :: pending) events) :
    ctx.nextEvent ≠ .sequenceEnd ∧ ctx.nextEvent ≠ .mappingEnd ∧
      ctx.nextEvent ≠ .documentStart := by
  cases delivers with
  | broken failed => exact absurd here.nil failed
  | aliased _ => rw [here.nextEvent]; simp
  | scalar _ _ _ => rw [here.nextEvent]; simp
  | sequence _ _ => rw [here.nextEvent]; simp
  | mapping _ _ => rw [here.nextEvent]; simp

theorem sequence_read {fuel : Nat} (node : NodeRead failure fuel)
    (sequence : SequenceRead failure fuel) : SequenceRead failure (fuel + 1) := by
  intro ctx events pending nodes here delivers bound
  cases delivers with
  | broken failed => exact absurd here.nil failed
  | sequenceEnd after =>
      rcases here.step with ⟨later, processed, -, -, there⟩ | ⟨later, processed, -, problem⟩
      · exact ⟨_, processSequence_end here.nextEvent processed, Or.inr ⟨nodes, [.sequenceEnd], _,
          rfl, rfl, ⟨[], [], by simp, rfl, .nil⟩, there, after⟩⟩
      · exact ⟨_, processSequence_end here.nextEvent processed, Or.inl ⟨rfl, problem⟩⟩
  | item after =>
      have goesOn := (next_of_node here after).1
      obtain ⟨⟨item, later⟩, read, ⟨rfl, problem⟩ |
        ⟨item, body, rest, rfl, rfl, emits, there, then_⟩⟩ := node here after (by omega)
      · exact ⟨_, processSequence_failed goesOn read, Or.inl ⟨rfl, problem⟩⟩
      · have shorter := emits.length_pos
        rw [List.length_append] at bound
        obtain ⟨done, read', outcome⟩ := sequence (nodes ++ [item]) there then_ (by omega)
        refine ⟨done, (processSequence_item goesOn read).trans read', ?_⟩
        rcases outcome with null |
          ⟨_, _, rest', found, rfl, ⟨more, inner, rfl, rfl, emitsAll⟩, last⟩
        · exact Or.inl null
        · exact Or.inr ⟨_, body ++ (inner ++ [.sequenceEnd]), rest', found, by simp,
            ⟨item :: more, body ++ inner, by simp, by simp, .cons emits emitsAll⟩, last⟩

theorem mapping_read {fuel : Nat} (node : NodeRead failure fuel)
    (mapping : MappingRead failure fuel) : MappingRead failure (fuel + 1) := by
  intro ctx events pending pairs here delivers bound
  cases delivers with
  | broken failed => exact absurd here.nil failed
  | mappingEnd after =>
      rcases here.step with ⟨later, processed, -, -, there⟩ | ⟨later, processed, -, problem⟩
      · exact ⟨_, processMapping_end here.nextEvent processed, Or.inr ⟨pairs, [.mappingEnd], _,
          rfl, rfl, ⟨[], [], by simp, rfl, .nil⟩, there, after⟩⟩
      · exact ⟨_, processMapping_end here.nextEvent processed, Or.inl ⟨rfl, problem⟩⟩
  | pair after =>
      have goesOn := (next_of_node here after).2.1
      obtain ⟨⟨lhs, middle⟩, readLeft, ⟨rfl, problem⟩ |
        ⟨lhs, left, rest, rfl, rfl, emitsLeft, there, value⟩⟩ := node here after (by omega)
      · exact ⟨_, processMapping_failed goesOn readLeft, Or.inl ⟨rfl, problem⟩⟩
      have shorter := emitsLeft.length_pos
      rw [List.length_append] at bound
      obtain ⟨⟨rhs, later⟩, readRight, ⟨rfl, problem⟩ |
        ⟨rhs, right, rest, rfl, rfl, emitsRight, there, then_⟩⟩ := node there value (by omega)
      · exact ⟨_, processMapping_half goesOn readLeft readRight, Or.inl ⟨rfl, problem⟩⟩
      rw [List.length_append] at bound
      obtain ⟨done, read, outcome⟩ := mapping (pairs ++ [(lhs, rhs)]) there then_ (by omega)
      refine ⟨done, (processMapping_pair goesOn readLeft readRight).trans read, ?_⟩
      rcases outcome with null |
        ⟨_, _, rest', found, rfl, ⟨more, inner, rfl, rfl, emitsPairs⟩, last⟩
      · exact Or.inl null
      · exact Or.inr ⟨_, left ++ (right ++ (inner ++ [.mappingEnd])), rest', found, by simp,
          ⟨(lhs, rhs) :: more, left ++ (right ++ inner), by simp, by simp,
            .cons emitsLeft emitsRight emitsPairs⟩, last⟩

theorem all_read (failure : Option YamlParserError) (fuel : Nat) :
    NodeRead failure fuel ∧ SequenceRead failure fuel ∧ MappingRead failure fuel := by
  induction fuel with
  | zero =>
      refine ⟨?_, ?_, ?_⟩
      · intro ctx events pending here delivers bound
        omega
      · intro ctx events pending nodes here delivers bound
        omega
      · intro ctx events pending pairs here delivers bound
        omega
  | succ fuel ih =>
      obtain ⟨node, sequence, mapping⟩ := ih
      exact ⟨node_read sequence mapping, sequence_read node sequence, mapping_read node mapping⟩

mutual

theorem Emits.is_read {node : YamlNode} {body rest : List YamlEvent} (emits : Emits node body)
    (fuel : Nat) {ctx : ParserContext} (here : At failure ctx (body ++ rest))
    (more : rest ≠ [] ∨ failure = none) (bound : 2 * body.length < fuel) :
    ∃ later, processNode fuel ctx = some (some node, later) ∧ At failure later rest := by
  obtain ⟨fuel, rfl⟩ : ∃ n, fuel = n + 1 := ⟨fuel - 1, by omega⟩
  cases emits with
  | scalar mark value =>
      obtain ⟨later, -, next, -, there⟩ := here.next more
      exact ⟨later, by rw [processNode, next], there⟩
  | sequence mark items =>
      simp only [List.length_cons, List.length_append, List.length_nil] at bound
      rw [List.cons_append, List.append_assoc] at here
      obtain ⟨middle, -, next, -, there⟩ := here.next (Or.inl (by simp))
      obtain ⟨later, read, last⟩ := items.is_read [] fuel there more (by omega)
      exact ⟨later, processNode_sequence next read, last⟩
  | mapping mark items =>
      simp only [List.length_cons, List.length_append, List.length_nil] at bound
      rw [List.cons_append, List.append_assoc] at here
      obtain ⟨middle, -, next, -, there⟩ := here.next (Or.inl (by simp))
      obtain ⟨later, read, last⟩ := items.is_read [] fuel there more (by omega)
      exact ⟨later, processNode_mapping next read, last⟩

theorem EmitsAll.is_read {nodes : List YamlNode} {body rest : List YamlEvent}
    (emits : EmitsAll nodes body) (before : List YamlNode) (fuel : Nat) {ctx : ParserContext}
    (here : At failure ctx (body ++ ([.sequenceEnd] ++ rest)))
    (more : rest ≠ [] ∨ failure = none) (bound : 2 * body.length + 1 < fuel) :
    ∃ later, processSequence fuel ctx before = some (some (before ++ nodes), later) ∧
      At failure later rest := by
  obtain ⟨fuel, rfl⟩ : ∃ n, fuel = n + 1 := ⟨fuel - 1, by omega⟩
  cases emits with
  | nil =>
      obtain ⟨later, processed, -, -, there⟩ := here.next more
      exact ⟨later, by rw [processSequence_end here.nextEvent processed, List.append_nil]; rfl,
        there⟩
  | @cons node nodes first body item items =>
      have shorter := item.length_pos
      obtain ⟨event, tail, headed, notEnd, -⟩ := item.head
      have goesOn : ctx.nextEvent ≠ .sequenceEnd := by
        rw [headed] at here
        rw [here.nextEvent]
        exact notEnd
      rw [List.length_append] at bound
      rw [List.append_assoc] at here
      obtain ⟨middle, read, there⟩ := item.is_read fuel here (Or.inl (by simp)) (by omega)
      obtain ⟨later, read', last⟩ :=
        items.is_read (before ++ [node]) fuel there more (by omega)
      exact ⟨later, by rw [processSequence_item goesOn read, read']; simp, last⟩

theorem EmitsPairs.is_read {pairs : List (YamlNode × YamlNode)} {body rest : List YamlEvent}
    (emits : EmitsPairs pairs body) (before : List (YamlNode × YamlNode)) (fuel : Nat)
    {ctx : ParserContext} (here : At failure ctx (body ++ ([.mappingEnd] ++ rest)))
    (more : rest ≠ [] ∨ failure = none) (bound : 2 * body.length + 1 < fuel) :
    ∃ later, processMapping fuel ctx before = some (some (before ++ pairs), later) ∧
      At failure later rest := by
  obtain ⟨fuel, rfl⟩ : ∃ n, fuel = n + 1 := ⟨fuel - 1, by omega⟩
  cases emits with
  | nil =>
      obtain ⟨later, processed, -, -, there⟩ := here.next more
      exact ⟨later, by rw [processMapping_end here.nextEvent processed, List.append_nil]; rfl,
        there⟩
  | @cons lhs rhs pairs left right body key value items =>
      have shorter := key.length_pos
      obtain ⟨event, tail, headed, -, notEnd⟩ := key.head
      have goesOn : ctx.nextEvent ≠ .mappingEnd := by
        rw [headed] at here
        rw [here.nextEvent]
        exact notEnd
      simp only [List.length_append] at bound
      simp only [List.append_assoc] at here
      obtain ⟨middle, readLeft, half⟩ :=
        key.is_read fuel here (Or.inl (by simp)) (by omega)
      obtain ⟨last, readRight, there⟩ :=
        value.is_read fuel half (Or.inl (by simp)) (by omega)
      obtain ⟨later, read, done⟩ :=
        items.is_read (before ++ [(lhs, rhs)]) fuel there more (by omega)
      exact ⟨later, by rw [processMapping_pair goesOn readLeft readRight, read]; simp, done⟩

end

def EmitsDocument (node : YamlNode) (events : List YamlEvent) : Prop :=
  ∃ body, Emits node body ∧ events = .documentStart :: (body ++ [.documentEnd])

theorem processDocument_unexpected {fuel : Nat} {event : YamlEvent} {later : ParserContext}
    (next : ctx.next = (event, later)) (other : event ≠ .documentStart) :
    ∃ final, processDocument fuel ctx = some (none, final) ∧ final.problem ≠ none := by
  rw [processDocument, next]
  split
  next same => exact absurd (congrArg Prod.fst same) other
  next same =>
    cases same
    split
    next problem => exact ⟨_, rfl, Option.isSome_iff_ne_none.mp problem⟩
    · exact ⟨_, rfl, by simp [ParserContext.fail]⟩

theorem processDocument_failed {fuel : Nat} {middle later : ParserContext}
    (next : ctx.next = (.documentStart, middle))
    (node : processNode fuel middle = some (none, later)) :
    processDocument fuel ctx = some (none, later) := by
  rw [processDocument, next]
  simp only [node]

theorem processDocument_unended {fuel : Nat} {event : YamlEvent} {doc : YamlNode}
    {first middle later : ParserContext} (start : ctx.next = (.documentStart, first))
    (node : processNode fuel first = some (some doc, middle))
    (next : middle.next = (event, later)) (other : event ≠ .documentEnd) :
    ∃ final, processDocument fuel ctx = some (none, final) ∧ final.problem ≠ none := by
  rw [processDocument, start]
  simp only [node]
  rw [next]
  split
  next same => exact absurd (congrArg Prod.fst same) other
  next same =>
    cases same
    split
    next problem => exact ⟨_, rfl, Option.isSome_iff_ne_none.mp problem⟩
    · exact ⟨_, rfl, by simp [ParserContext.fail]⟩

theorem processDocument_ended {fuel : Nat} {doc : YamlNode} {first middle later : ParserContext}
    (start : ctx.next = (.documentStart, first))
    (node : processNode fuel first = some (some doc, middle))
    (next : middle.next = (.documentEnd, later)) :
    processDocument fuel ctx = some (some doc, later) := by
  rw [processDocument, start]
  simp only [node, next]

theorem document_read (fuel : Nat) (here : At failure ctx events)
    (delivers : Delivers failure [.documents] events) (bound : 2 * events.length < fuel) :
    ∃ done, processDocument fuel ctx = some done ∧
      Outcome failure [.documents] EmitsDocument events done := by
  have null {final : ParserContext} (read : processDocument fuel ctx = some (none, final))
      (problem : final.problem ≠ none) : ∃ done, processDocument fuel ctx = some done ∧
        Outcome failure [.documents] EmitsDocument events done :=
    ⟨_, read, Or.inl ⟨rfl, problem⟩⟩
  cases delivers with
  | broken failed => exact absurd here.nil failed
  | streamEnd _ =>
      rcases here.step with ⟨later, -, next, -⟩ | ⟨later, -, next, -⟩
      · obtain ⟨final, read, problem⟩ := processDocument_unexpected next (by simp)
        exact null read problem
      · obtain ⟨final, read, problem⟩ := processDocument_unexpected next (by simp)
        exact null read problem
  | document after =>
      rcases here.step with ⟨first, -, start, -, there⟩ | ⟨later, -, next, -⟩
      · rw [List.length_cons] at bound
        obtain ⟨⟨doc, middle⟩, node, ⟨rfl, problem⟩ |
          ⟨doc, body, rest, rfl, rfl, emits, at_, ending⟩⟩ :=
            (all_read failure fuel).1 there after (by omega)
        · exact null (processDocument_failed start node) problem
        cases ending with
        | broken failed => exact absurd at_.nil failed
        | documentEnd behind =>
            rcases at_.step with ⟨later, -, next, -, last⟩ | ⟨later, -, next, -⟩
            · exact ⟨_, processDocument_ended start node next, Or.inr ⟨doc,
                .documentStart :: (body ++ [.documentEnd]), _, rfl, by simp, ⟨body, emits, rfl⟩,
                last, behind⟩⟩
            · obtain ⟨final, read, problem⟩ := processDocument_unended start node next (by simp)
              exact null read problem
      · obtain ⟨final, read, problem⟩ := processDocument_unexpected next (by simp)
        exact null read problem

theorem Emits.document_is_read {node : YamlNode} {body rest : List YamlEvent}
    (emits : Emits node body) (fuel : Nat)
    (here : At failure ctx (.documentStart :: (body ++ .documentEnd :: rest)))
    (more : rest ≠ []) (bound : 2 * body.length < fuel) :
    ∃ later, processDocument fuel ctx = some (some node, later) ∧ At failure later rest := by
  obtain ⟨first, -, start, -, there⟩ := here.next (Or.inl (by simp))
  obtain ⟨middle, read, ending⟩ := emits.is_read fuel there (Or.inl (by simp)) bound
  obtain ⟨later, -, next, -, last⟩ := ending.next (Or.inl more)
  exact ⟨later, processDocument_ended start read next, last⟩

section Loop

variable {fuel : Nat} {docs : List YamlNode} {event : YamlEvent} {later final : ParserContext}

theorem streamLoop_end (next : ctx.next = (.streamEnd, later)) :
    streamLoop (fuel + 1) ctx docs = some (some docs, later) := by
  rw [streamLoop, next]

theorem streamLoop_problem (next : ctx.next = (event, later)) (other : event ≠ .streamEnd)
    (problem : later.problem ≠ none) :
    streamLoop (fuel + 1) ctx docs = some (none, later) := by
  rw [streamLoop, next]
  split
  next same => exact absurd (congrArg Prod.fst same) other
  next same =>
    cases same
    exact if_pos (Option.isSome_iff_ne_none.mpr problem)

theorem streamLoop_null (next : ctx.next = (event, later)) (other : event ≠ .streamEnd)
    (unset : later.problem = none) (null : processDocument fuel later = some (none, final)) :
    streamLoop (fuel + 1) ctx docs = some (none, final) := by
  rw [streamLoop, next]
  split
  next same => exact absurd (congrArg Prod.fst same) other
  next same =>
    cases same
    rw [unset, null]
    rfl

theorem streamLoop_document {doc : YamlNode} (next : ctx.next = (event, later))
    (other : event ≠ .streamEnd) (unset : later.problem = none)
    (read : processDocument fuel later = some (some doc, final)) :
    streamLoop (fuel + 1) ctx docs = streamLoop fuel final (docs ++ [doc]) := by
  rw [streamLoop, next]
  split
  next same => exact absurd (congrArg Prod.fst same) other
  next same =>
    cases same
    rw [unset, read]
    rfl

end Loop

theorem streamLoop_last (fuel : Nat) (docs : List YamlNode) (here : At failure ctx events)
    (delivers : Delivers failure [.documents] events) :
    ∃ done, streamLoop (fuel + 2) ctx docs = some done ∧
      ((done.1 = none ∧ done.2.problem ≠ none) ∨
        (done.1 = some docs ∧ done.2.problem = none ∧ events = [.streamEnd] ∧ failure = none)) := by
  cases delivers with
  | broken failed => exact absurd here.nil failed
  | streamEnd after =>
      rcases here.step with ⟨later, -, next, -, last⟩ | ⟨later, -, next, problem⟩
      · cases after with
        | complete done =>
            exact ⟨_, streamLoop_end next, Or.inr ⟨rfl, last.problem, rfl, done⟩⟩
      · exact ⟨_, streamLoop_problem next (by simp) problem, Or.inl ⟨rfl, problem⟩⟩
  | document after =>
      rcases here.step with ⟨later, -, next, -, there⟩ | ⟨later, -, next, problem⟩
      · have ⟨final, null, problem⟩ : ∃ final,
            processDocument (fuel + 1) later = some (none, final) ∧ final.problem ≠ none := by
          obtain ⟨event, rest, rfl⟩ := there.more after
          have notStart := (next_of_node there after).2.2
          rw [there.nextEvent] at notStart
          rcases there.step with ⟨_, -, taken, -⟩ | ⟨_, -, taken, -⟩
          · exact processDocument_unexpected taken notStart
          · exact processDocument_unexpected taken (by simp)
        exact ⟨_, streamLoop_null next (by simp) there.problem null, Or.inl ⟨rfl, problem⟩⟩
      · exact ⟨_, streamLoop_problem next (by simp) problem, Or.inl ⟨rfl, problem⟩⟩

/-- The events of a stream with one document and no aliases. -/
def OneDocument (node : YamlNode) (events : List YamlEvent) : Prop :=
  ∃ body, Emits node body ∧
    events = .streamStart :: .documentStart :: (body ++ [.documentEnd, .streamEnd])

theorem parse_started (failure : Option YamlParserError) (rest : List YamlEvent) (fuel : Nat) :
    ∃ ctx, At failure ctx (.streamStart :: rest) ∧
      parseYamlStream fuel (.streamStart :: rest) failure =
        (streamLoop fuel ctx []).map fun done => (done.1, done.2.problem) :=
  ⟨⟨⟨rest, failure, none⟩, .noEvent, .streamStart, none⟩, ⟨Or.inl rfl, rfl, rfl, rfl⟩, rfl⟩

theorem parse_outcome {fuel : Nat} (stream : Stream failure events)
    (enough : 2 * events.length + 2 ≤ fuel) :
    ∃ result problem, parseYamlStream fuel events failure = some (result, problem) ∧
      ((result = none ∧ problem ≠ none) ∨
        ∃ node, result = some [node] ∧ problem = none ∧ failure = none ∧
          OneDocument node events) := by
  cases stream with
  | unread failed =>
      obtain ⟨e, rfl⟩ := Option.ne_none_iff_exists'.mp failed
      exact ⟨none, some (formatErrorString e), rfl, Or.inl ⟨rfl, by simp⟩⟩
  | @start rest delivers =>
      obtain ⟨ctx, here, parsed⟩ := parse_started failure rest fuel
      rw [List.length_cons] at enough
      have null {final : ParserContext} (run : streamLoop fuel ctx [] = some (none, final))
          (problem : final.problem ≠ none) : parseYamlStream fuel (.streamStart :: rest) failure =
            some (none, final.problem) := by rw [parsed, run]; rfl
      obtain ⟨fuel, rfl⟩ : ∃ n, fuel = n + 3 := ⟨fuel - 3, by omega⟩
      rcases here.step with ⟨first, -, next, -, there⟩ | ⟨later, -, next, problem⟩
      · obtain ⟨⟨doc, later⟩, read, ⟨rfl, problem⟩ |
          ⟨node, _, rest, rfl, rfl, ⟨body, emits, rfl⟩, last, after⟩⟩ :=
            document_read (fuel + 2) there delivers (by omega)
        · exact ⟨_, _, null (streamLoop_null next (by simp) there.problem read) problem,
            Or.inl ⟨rfl, problem⟩⟩
        · obtain ⟨⟨docs, final⟩, run, ended⟩ := streamLoop_last fuel [node] last after
          have run : streamLoop (fuel + 3) ctx [] = some (docs, final) :=
            (streamLoop_document next (by simp) there.problem read).trans run
          rcases ended with ⟨rfl, problem⟩ | ⟨rfl, unset, rfl, complete⟩
          · exact ⟨_, _, null run problem, Or.inl ⟨rfl, problem⟩⟩
          · exact ⟨_, _, by rw [parsed, run]; rfl,
              Or.inr ⟨node, rfl, unset, complete, body, emits, by simp⟩⟩
      · exact ⟨_, _, null (streamLoop_problem next (by simp) problem) problem,
          Or.inl ⟨rfl, problem⟩⟩

theorem OneDocument.is_parsed {fuel : Nat} {node : YamlNode} (one : OneDocument node events)
    (enough : 2 * events.length + 2 ≤ fuel) :
    parseYamlStream fuel events none = some (some [node], none) := by
  obtain ⟨body, emits, rfl⟩ := one
  obtain ⟨ctx, here, parsed⟩ := parse_started none
    (.documentStart :: (body ++ [.documentEnd, .streamEnd])) fuel
  simp only [List.length_cons, List.length_append, List.length_nil] at enough
  obtain ⟨fuel, rfl⟩ : ∃ n, fuel = n + 2 := ⟨fuel - 2, by omega⟩
  obtain ⟨first, -, start, -, there⟩ := here.next (Or.inl (by simp))
  obtain ⟨middle, read, last⟩ :=
    emits.document_is_read (fuel + 1) there (by simp) (by omega)
  obtain ⟨final, -, next, -, done⟩ := last.next (Or.inr rfl)
  rw [parsed, streamLoop_document start (by simp) there.problem read, streamLoop_end next,
    List.nil_append, Option.map_some, done.problem]

-- A file is a tree when it is one document without aliases, and any other has an error text.
theorem parseYamlStream_reads {fuel : Nat} (stream : Stream failure events)
    (enough : 2 * events.length + 2 ≤ fuel) :
    ∃ result problem, parseYamlStream fuel events failure = some (result, problem) ∧
      (∀ docs, result = some docs ↔
        failure = none ∧ ∃ node, docs = [node] ∧ OneDocument node events) ∧
      (result = none ↔ problem ≠ none) := by
  obtain ⟨result, problem, parsed, outcome⟩ := parse_outcome stream enough
  refine ⟨result, problem, parsed, fun docs => ⟨fun found => ?_, ?_⟩, ?_⟩
  · rcases outcome with ⟨rfl, -⟩ | ⟨node, rfl, -, complete, one⟩
    · cases found
    · cases found
      exact ⟨complete, node, rfl, one⟩
  · rintro ⟨rfl, node, rfl, one⟩
    rw [one.is_parsed enough] at parsed
    cases parsed
    rfl
  · rcases outcome with ⟨rfl, problem⟩ | ⟨node, rfl, rfl, -⟩
    · simp [problem]
    · simp

theorem parseYamlStream_reads_mapping : ∃ result problem,
    parseYamlStream 20 [.streamStart, .documentStart, .mappingStart ⟨0, 0⟩,
        .scalar ⟨0, 0⟩ ['v'], .sequenceStart ⟨0, 3⟩, .sequenceEnd, .mappingEnd, .documentEnd,
        .streamEnd] none = some (result, problem) ∧
      (∀ docs, result = some docs ↔ (none : Option YamlParserError) = none ∧
        ∃ node, docs = [node] ∧ OneDocument node [.streamStart, .documentStart,
          .mappingStart ⟨0, 0⟩, .scalar ⟨0, 0⟩ ['v'], .sequenceStart ⟨0, 3⟩, .sequenceEnd,
          .mappingEnd, .documentEnd, .streamEnd]) ∧ (result = none ↔ problem ≠ none) :=
  parseYamlStream_reads (.start (.document (.mapping _ (.pair (.scalar _ _
    (.sequence _ (.sequenceEnd (.mappingEnd (.documentEnd (.streamEnd (.complete rfl)))))))))))
    (by decide)

end VitaTools.Yaml
