import Mathlib.Data.List.TakeWhile
import VitaTools.Yaml.Parse

set_option autoImplicit false

namespace VitaTools.Yaml

open VitaTools.Thgn (Text)

inductive Block
  | scalar (value : Text)
  | mapping (pairs : List (Text × Block))

namespace Block

mutual

def renderValue (indent : Nat) : Block → Text
  | .scalar value => ' ' :: (value ++ ['\n'])
  | .mapping pairs => '\n' :: renderPairs (indent + 2) pairs

def renderPairs (indent : Nat) : List (Text × Block) → Text
  | [] => []
  | (key, value) :: pairs =>
      List.replicate indent ' ' ++ (key ++ ':' :: renderValue indent value) ++
        renderPairs indent pairs

end

theorem renderPairs_append (indent : Nat) (front back : List (Text × Block)) :
    renderPairs indent (front ++ back) = renderPairs indent front ++ renderPairs indent back := by
  induction front with
  | nil => rw [List.nil_append, renderPairs, List.nil_append]
  | cons first rest ih =>
      obtain ⟨key, value⟩ := first
      rw [List.cons_append, renderPairs, renderPairs, ih, ← List.append_assoc]

theorem renderPairs_flatMap {α : Type} (indent : Nat) (pairs : α → List (Text × Block))
    (entries : List α) : renderPairs indent (entries.flatMap pairs) =
      entries.flatMap fun entry => renderPairs indent (pairs entry) := by
  induction entries with
  | nil => rw [List.flatMap_nil, List.flatMap_nil, renderPairs]
  | cons entry entries ih =>
      rw [List.flatMap_cons, List.flatMap_cons, renderPairs_append, ih]

def PlainText (text : Text) : Prop :=
  text ≠ [] ∧ text.length ≤ 1000 ∧ ∀ c ∈ text, c.isAlphanum ∨ c = '_' ∨ c = '.'

mutual

def Plain : Block → Prop
  | .scalar value => PlainText value
  | .mapping pairs => PlainPairs pairs

def PlainPairs : List (Text × Block) → Prop
  | [] => True
  | (key, value) :: pairs => PlainText key ∧ Plain value ∧ PlainPairs pairs

end

end Block

mutual

/-- The nodes of a text. Where nothing is indented below a key, its value is the empty scalar. -/
inductive Reads : Block → YamlNode → Prop
  | scalar (mark : YamlPosition) (value : Text) :
      Reads (.scalar value) (.scalar mark value value.length)
  | null (mark : YamlPosition) : Reads (.mapping []) (.scalar mark [] 0)
  | mapping {first : Text × Block} {pairs : List (Text × Block)}
      {nodes : List (YamlNode × YamlNode)} (mark : YamlPosition) :
      ReadsPairs (first :: pairs) nodes →
        Reads (.mapping (first :: pairs)) (.mapping mark nodes)

inductive ReadsPairs : List (Text × Block) → List (YamlNode × YamlNode) → Prop
  | nil : ReadsPairs [] []
  | cons {value : Block} {node : YamlNode} {pairs : List (Text × Block)}
      {nodes : List (YamlNode × YamlNode)} (mark : YamlPosition) (key : Text) :
      Reads value node → ReadsPairs pairs nodes →
        ReadsPairs ((key, value) :: pairs) ((.scalar mark key key.length, node) :: nodes)

end

/-- What YAML has for a text of plain block mappings is what libyaml delivers for it. -/
def Delivered (libyaml : Text → List YamlEvent × Option YamlParserError)
    (pairs : List (Text × Block)) : Prop :=
  Block.PlainPairs pairs → ∃ node events, Reads (.mapping pairs) node ∧
    OneDocument node events ∧ libyaml (Block.renderPairs 0 pairs) = (events, none)

mutual

def eventsOf : YamlNode → List YamlEvent
  | .scalar mark value _ => [.scalar mark value]
  | .sequence mark nodes => .sequenceStart mark :: (eventsOfAll nodes ++ [.sequenceEnd])
  | .mapping mark pairs => .mappingStart mark :: (eventsOfPairs pairs ++ [.mappingEnd])

def eventsOfAll : List YamlNode → List YamlEvent
  | [] => []
  | node :: nodes => eventsOf node ++ eventsOfAll nodes

def eventsOfPairs : List (YamlNode × YamlNode) → List YamlEvent
  | [] => []
  | (lhs, rhs) :: pairs => eventsOf lhs ++ (eventsOf rhs ++ eventsOfPairs pairs)

end

theorem Block.PlainText.strdup {text : Text} (plain : Block.PlainText text) :
    strdup text = text := by
  rw [Yaml.strdup, List.takeWhile_eq_self_iff]
  intro c member
  have shown := plain.2.2 c member
  by_contra end_
  obtain rfl : c = '\x00' := by simpa using end_
  revert shown
  decide

mutual

theorem Reads.emits {block : Block} {node : YamlNode} (reads : Reads block node)
    (plain : block.Plain) : Emits node (eventsOf node) := by
  cases reads with
  | scalar mark value =>
      have emits := Emits.scalar mark value
      rwa [plain.strdup] at emits
  | null mark => exact Emits.scalar mark []
  | mapping mark pairs => exact Emits.mapping mark (pairs.emits plain)

theorem ReadsPairs.emits {pairs : List (Text × Block)} {nodes : List (YamlNode × YamlNode)}
    (reads : ReadsPairs pairs nodes) (plain : Block.PlainPairs pairs) :
    EmitsPairs nodes (eventsOfPairs nodes) := by
  cases reads with
  | nil => exact EmitsPairs.nil
  | cons mark key value rest =>
      have keyEmits := Emits.scalar mark key
      rw [plain.1.strdup] at keyEmits
      exact EmitsPairs.cons keyEmits (value.emits plain.2.1) (rest.emits plain.2.2)

end

def streamOf (node : YamlNode) : List YamlEvent :=
  .streamStart :: .documentStart :: (eventsOf node ++ [.documentEnd, .streamEnd])

theorem delivered_streamOf {libyaml : Text → List YamlEvent × Option YamlParserError}
    {pairs : List (Text × Block)} {node : YamlNode} (reads : Reads (.mapping pairs) node)
    (given : libyaml (Block.renderPairs 0 pairs) = (streamOf node, none)) :
    Delivered libyaml pairs :=
  fun plain => ⟨node, streamOf node, reads, ⟨_, reads.emits plain, rfl⟩, given⟩

namespace Block

theorem PlainPairs.mem {pairs : List (Text × Block)} (plain : PlainPairs pairs) {key : Text}
    {value : Block} (member : (key, value) ∈ pairs) : PlainText key ∧ value.Plain := by
  induction pairs with
  | nil => cases member
  | cons first pairs ih =>
      rcases List.mem_cons.mp member with rfl | later
      · exact ⟨plain.1, plain.2.1⟩
      · exact ih plain.2.2 later

theorem PlainText.not_percent {text : Text} (plain : PlainText text) : '%' ∉ text := by
  intro member
  have shown := plain.2.2 _ member
  revert shown
  decide

end Block

end VitaTools.Yaml
