import VitaTools.Library.Tokens

set_option autoImplicit false

/-!
Assignments to variables and to memory, read word by word with a stack of what is still open.
A slot is read as an operand, so that a template is read before its slots are filled.
-/

namespace VitaTools.Library

namespace C

inductive Ty
  | uint8 | int8 | uint16 | int16 | uint32
deriving DecidableEq

inductive Swap
  | bswap16 | bswap32
deriving DecidableEq

inductive Op
  | mul | add | sub | shl | shr | and | xor | or
deriving DecidableEq

inductive Expr
  | word (text : List Char)
  | slot (name : List Char)
  | complement (body : Expr)
  | negate (body : Expr)
  | binary (op : Op) (left right : Expr)
  | cast (ty : Ty) (body : Expr)
  | load (ty : Ty) (address : Expr)
  | swap (order : Swap) (body : Expr)
deriving DecidableEq

structure Assignment where
  target : Expr
  value : Expr
deriving DecidableEq

def types : List (List Char × Ty) :=
  [(['u', 'i', 'n', 't', '8', '_', 't'], .uint8), (['i', 'n', 't', '8', '_', 't'], .int8),
    (['u', 'i', 'n', 't', '1', '6', '_', 't'], .uint16),
    (['i', 'n', 't', '1', '6', '_', 't'], .int16),
    (['u', 'i', 'n', 't', '3', '2', '_', 't'], .uint32)]

def typeOf : Token → Option Ty
  | .word text => types.lookup text
  | _ => none

def bswap : List Char := ['_', '_', 'b', 'u', 'i', 'l', 't', 'i', 'n', '_', 'b', 's', 'w', 'a', 'p']

def swaps : List (List Char × Swap) :=
  [(bswap ++ ['3', '2'], .bswap32), (bswap ++ ['1', '6'], .bswap16)]

def Op.level : Op → Nat
  | .mul => 0
  | .add | .sub => 1
  | .shl | .shr => 2
  | .and => 3
  | .xor => 4
  | .or => 5

def signOf (c : Char) : Option Op :=
  if c = '*' then some .mul
  else if c = '+' then some .add
  else if c = '-' then some .sub
  else if c = '&' then some .and
  else if c = '^' then some .xor
  else if c = '|' then some .or
  else none

inductive Frame
  | complement
  | negate
  | cast (ty : Ty)
  | load (ty : Ty)
  | binary (op : Op) (left : Expr)
  | bracket
  | swap (order : Swap)
deriving DecidableEq

inductive Stage
  | operand
  | expr (e : Expr)
  -- Behind the first half of a shift.
  | angle (half : Char) (op : Op) (e : Expr)
  -- Behind a bracket that a cast may follow, and behind the type of one.
  | opened
  | typed (ty : Ty)
  -- Behind `*`, `*(`, `*(type` and `*(type *`.
  | star
  | starOpened
  | starTyped (ty : Ty)
  | starPointer (ty : Ty)
  -- Behind the name of a function.
  | called (order : Swap)
deriving DecidableEq

structure Reader where
  done : List Assignment
  target : Option Expr
  frames : List Frame
  stage : Stage
deriving DecidableEq

def close : Expr → List Frame → Expr × List Frame
  | e, .complement :: frames => close (.complement e) frames
  | e, .negate :: frames => close (.negate e) frames
  | e, .cast ty :: frames => close (.cast ty e) frames
  | e, .load ty :: frames => close (.load ty e) frames
  | e, frames => (e, frames)

-- The operators that bind at least as tight as level `n` have their right operand.
def gather (n : Nat) : Expr → List Frame → Expr × List Frame
  | e, .binary op left :: frames =>
      if op.level ≤ n then gather n (.binary op left e) frames else (e, .binary op left :: frames)
  | e, frames => (e, frames)

namespace Reader

variable (r : Reader)

def enter (stage : Stage) : Reader := { r with stage }

def push (frame : Frame) : Reader := { r with frames := frame :: r.frames, stage := .operand }

def place (e : Expr) : Reader :=
  { r with frames := (close e r.frames).2, stage := .expr (close e r.frames).1 }

def begin : Token → Option Reader
  | .word text =>
      match swaps.lookup text with
      | some order => some (r.enter (.called order))
      | none =>
          match types.lookup text with
          | some _ => none
          | none => some (r.place (.word text))
  | .slot name => some (r.place (.slot name))
  | .mark c =>
      if c = '~' then some (r.push .complement)
      else if c = '-' then some (r.push .negate)
      else if c = '*' then some (r.enter .star)
      else if c = '(' then some (r.enter .opened)
      else none

def operator (op : Op) (e : Expr) : Reader :=
  { r with
    frames := .binary op (gather op.level e r.frames).1 :: (gather op.level e r.frames).2
    stage := .operand }

def shut (e : Expr) : Option Reader :=
  match (gather 5 e r.frames).2 with
  | .bracket :: frames => some ({ r with frames }.place (gather 5 e r.frames).1)
  | .swap order :: frames =>
      some ({ r with frames }.place (.swap order (gather 5 e r.frames).1))
  | _ => none

def equals (e : Expr) : Option Reader :=
  match r.frames, r.target with
  | [], none => some { r with target := some e, stage := .operand }
  | _, _ => none

def finish (e : Expr) : Option Reader :=
  match (gather 5 e r.frames).2, r.target with
  | [], some target =>
      some ⟨r.done ++ [⟨target, (gather 5 e r.frames).1⟩], none, [], .operand⟩
  | _, _ => none

def goOn (e : Expr) : Token → Option Reader
  | .mark c =>
      if c = ')' then r.shut e
      else if c = '=' then r.equals e
      else if c = ';' then r.finish e
      else if c = '<' then some (r.enter (.angle '<' .shl e))
      else if c = '>' then some (r.enter (.angle '>' .shr e))
      else (signOf c).map fun op => r.operator op e
  | _ => none

def only (c : Char) (next : Reader) : Token → Option Reader
  | .mark d => if d = c then some next else none
  | _ => none

def step (token : Token) : Option Reader :=
  match r.stage with
  | .operand => r.begin token
  | .expr e => r.goOn e token
  | .angle c op e => only c (r.operator op e) token
  | .opened =>
      match typeOf token with
      | some ty => some (r.enter (.typed ty))
      | none => (r.push .bracket).begin token
  | .typed ty => only ')' (r.push (.cast ty)) token
  | .star => only '(' (r.enter .starOpened) token
  | .starOpened => (typeOf token).map fun ty => r.enter (.starTyped ty)
  | .starTyped ty => only '*' (r.enter (.starPointer ty)) token
  | .starPointer ty => only ')' (r.push (.load ty)) token
  | .called order => only '(' (r.push (.swap order)) token

def run (tokens : List Token) : Option Reader := tokens.foldlM step r

end Reader

def start : Reader := ⟨[], none, [], .operand⟩

def parse (tokens : List Token) : Option (List Assignment) :=
  (start.run tokens).bind fun r =>
    if r.target = none ∧ r.frames = [] ∧ r.stage = .operand then some r.done else none

def Expr.fill (g : List Char → Expr) : Expr → Expr
  | .word text => .word text
  | .slot name => g name
  | .complement body => .complement (body.fill g)
  | .negate body => .negate (body.fill g)
  | .binary op left right => .binary op (left.fill g) (right.fill g)
  | .cast ty body => .cast ty (body.fill g)
  | .load ty address => .load ty (address.fill g)
  | .swap order body => .swap order (body.fill g)

def Assignment.fill (g : List Char → Expr) (s : Assignment) : Assignment :=
  ⟨s.target.fill g, s.value.fill g⟩

def Frame.fill (g : List Char → Expr) : Frame → Frame
  | .binary op left => .binary op (left.fill g)
  | frame => frame

def Stage.fill (g : List Char → Expr) : Stage → Stage
  | .expr e => .expr (e.fill g)
  | .angle half op e => .angle half op (e.fill g)
  | stage => stage

def Reader.fill (g : List Char → Expr) (r : Reader) : Reader :=
  ⟨r.done.map (Assignment.fill g), r.target.map (Expr.fill g), r.frames.map (Frame.fill g),
    r.stage.fill g⟩

section

variable {g : List Char → Expr} {r : Reader}

theorem close_fill (e : Expr) (frames : List Frame) :
    close (e.fill g) (frames.map (Frame.fill g)) =
      ((close e frames).1.fill g, (close e frames).2.map (Frame.fill g)) := by
  induction frames generalizing e with
  | nil => rfl
  | cons frame rest ih =>
      cases frame with
      | complement => exact ih (.complement e)
      | negate => exact ih (.negate e)
      | cast ty => exact ih (.cast ty e)
      | load ty => exact ih (.load ty e)
      | binary | bracket | swap => rfl

theorem gather_fill (n : Nat) (e : Expr) (frames : List Frame) :
    gather n (e.fill g) (frames.map (Frame.fill g)) =
      ((gather n e frames).1.fill g, (gather n e frames).2.map (Frame.fill g)) := by
  induction frames generalizing e with
  | nil => rfl
  | cons frame rest ih =>
      cases frame with
      | binary op left =>
          rw [List.map_cons, Frame.fill, gather, gather]
          split
          next => exact ih (.binary op left e)
          next => rfl
      | complement | negate | cast | load | bracket | swap => rfl

namespace Reader

theorem place_fill (e : Expr) : (r.fill g).place (e.fill g) = (r.place e).fill g := by
  simp only [place, fill, close_fill, Stage.fill]

theorem push_fill {frame : Frame} (plain : frame.fill g = frame) :
    (r.fill g).push frame = (r.push frame).fill g := by
  simp only [push, fill, List.map_cons, plain, Stage.fill]

theorem operator_fill (op : Op) (e : Expr) :
    (r.fill g).operator op (e.fill g) = (r.operator op e).fill g := by
  simp only [operator, fill, gather_fill, List.map_cons, Frame.fill, Stage.fill]

theorem begin_fill {token : Token} (closed : ∀ name, token ≠ .slot name) :
    (r.fill g).begin token = (r.begin token).map (fill g) := by
  cases token with
  | slot name => exact absurd rfl (closed name)
  | word text =>
      rw [begin, begin]
      cases swaps.lookup text with
      | some order => rfl
      | none =>
          cases types.lookup text with
          | some ty => rfl
          | none => exact congrArg some (place_fill (.word text))
  | mark c =>
      simp only [begin]
      split_ifs
      · exact congrArg some (push_fill rfl)
      · exact congrArg some (push_fill rfl)
      · rfl
      · rfl
      · rfl

theorem shut_fill (e : Expr) : (r.fill g).shut (e.fill g) = (r.shut e).map (fill g) := by
  have frames : (r.fill g).frames = r.frames.map (Frame.fill g) := rfl
  rw [shut, shut, frames, gather_fill]
  cases (gather 5 e r.frames).2 with
  | nil => rfl
  | cons frame rest =>
      cases frame with
      | bracket => exact congrArg some (place_fill (r := { r with frames := rest }) _)
      | swap order =>
          exact congrArg some (place_fill (r := { r with frames := rest }) (.swap order _))
      | complement | negate | cast | load | binary => rfl

theorem equals_fill (e : Expr) : (r.fill g).equals (e.fill g) = (r.equals e).map (fill g) := by
  obtain ⟨done, target, frames, stage⟩ := r
  cases frames with
  | nil => cases target <;> rfl
  | cons frame rest => rfl

theorem finish_fill (e : Expr) : (r.fill g).finish (e.fill g) = (r.finish e).map (fill g) := by
  obtain ⟨done, target, frames, stage⟩ := r
  simp only [finish, fill, gather_fill]
  cases (gather 5 e frames).2 with
  | nil =>
      cases target with
      | none => rfl
      | some target => simp [fill, Assignment.fill, Stage.fill]
  | cons frame rest => rfl

theorem goOn_fill (e : Expr) {token : Token} :
    (r.fill g).goOn (e.fill g) token = (r.goOn e token).map (fill g) := by
  cases token with
  | word | slot => rfl
  | mark c =>
      simp only [goOn]
      split_ifs
      · exact shut_fill e
      · exact equals_fill e
      · exact finish_fill e
      · rfl
      · rfl
      · rw [Option.map_map]
        congr 1
        funext op
        exact operator_fill op e

theorem only_fill (c : Char) (next : Reader) (token : Token) :
    only c (next.fill g) token = (only c next token).map (fill g) := by
  cases token with
  | word | slot => rfl
  | mark d =>
      rw [only, only]
      split <;> rfl

theorem step_fill {token : Token} (closed : ∀ name, token ≠ .slot name) :
    (r.fill g).step token = (r.step token).map (fill g) := by
  have pushed {frame : Frame} (plain : frame.fill g = frame) (c : Char) :
      only c ((r.fill g).push frame) token = (only c (r.push frame) token).map (fill g) := by
    rw [push_fill plain, only_fill]
  have stages : (r.fill g).stage = r.stage.fill g := rfl
  rw [step, step, stages]
  cases r.stage with
  | operand => exact begin_fill closed
  | expr e => exact goOn_fill e
  | angle c op e => exact (congrArg (only c · token) (operator_fill op e)).trans (only_fill _ _ _)
  | opened =>
      simp only [Stage.fill]
      cases typeOf token with
      | some ty => rfl
      | none =>
          dsimp only
          rw [push_fill rfl, begin_fill closed]
  | starOpened =>
      simp only [Stage.fill]
      cases typeOf token <;> rfl
  | typed | starPointer | called => exact pushed rfl _
  | star => exact only_fill '(' (r.enter .starOpened) token
  | starTyped ty => exact only_fill '*' (r.enter (.starPointer ty)) token

theorem step_slot {name : List Char} {next : Reader} (read : r.step (.slot name) = some next) :
    r.stage = .operand ∧ next = r.place (.slot name) ∨
      r.stage = .opened ∧ next = (r.push .bracket).place (.slot name) := by
  rw [step] at read
  cases stage : r.stage with
  | operand =>
      rw [stage] at read
      exact .inl ⟨rfl, (Option.some.inj read).symm⟩
  | opened =>
      rw [stage] at read
      exact .inr ⟨rfl, (Option.some.inj read).symm⟩
  | expr | angle | typed | star | starOpened | starTyped | starPointer | called =>
      rw [stage] at read
      cases read

theorem run_cons (token : Token) (rest : List Token) :
    r.run (token :: rest) = (r.step token).bind fun next => next.run rest := rfl

theorem run_append (front back : List Token) :
    r.run (front ++ back) = (r.run front).bind fun next => next.run back :=
  List.foldlM_append

end Reader

end

/-- The tokens are one operand wherever an operand is to come. -/
structure Phrase (tokens : List Token) (e : Expr) : Prop where
  placed : ∀ r : Reader, r.stage = .operand → r.run tokens = some (r.place e)
  first : ∀ token rest, tokens = token :: rest → typeOf token = none

namespace Phrase

variable {tokens front back : List Token} {e left right : Expr} {r : Reader}

theorem unique {other : Expr} (first : Phrase tokens e) (second : Phrase tokens other) :
    e = other := by
  have same := (first.placed start rfl).symm.trans (second.placed start rfl)
  exact Stage.expr.inj (congrArg Reader.stage (Option.some.inj same))

theorem word {text : List Char} (noFunction : swaps.lookup text = none)
    (noType : types.lookup text = none) : Phrase [.word text] (.word text) := by
  constructor
  case placed =>
    intro r stage
    rw [Reader.run_cons, Reader.step, stage]
    simp only [Reader.begin, noFunction, noType]
    rfl
  case first =>
    intro token rest whole
    rw [← (List.cons.inj whole).1]
    exact noType

theorem negate (phrase : Phrase tokens e) : Phrase (.mark '-' :: tokens) (.negate e) := by
  constructor
  case placed =>
    intro r stage
    have first : r.step (.mark '-') = some (r.push .negate) := by
      rw [Reader.step, stage]
      rfl
    rw [Reader.run_cons, first, Option.bind_some, phrase.placed _ rfl]
    rfl
  case first =>
    intro token rest whole
    rw [← (List.cons.inj whole).1]
    rfl

theorem opened (phrase : Phrase tokens e) (stage : r.stage = .opened) :
    r.run tokens = some ((r.push .bracket).place e) := by
  cases tokens with
  | nil =>
      have placed := congrArg Reader.stage (Option.some.inj (phrase.placed start rfl))
      cases placed
  | cons token rest =>
      have first := phrase.first token rest rfl
      rw [← phrase.placed (r.push .bracket) rfl, Reader.run_cons, Reader.run_cons, Reader.step,
        Reader.step, stage]
      dsimp only
      rw [first]
      rfl

theorem shift {c : Char} {op : Op} (sign : c = '<' ∧ op = .shl ∨ c = '>' ∧ op = .shr)
    (first : Phrase front left) (second : Phrase back right) :
    Phrase (.mark '(' :: front ++ .mark c :: .mark c :: back ++ [.mark ')'])
      (.binary op left right) := by
  constructor
  case placed =>
    intro r stage
    -- The operands wait under the bracket.
    let inner : Reader := { r with frames := .bracket :: r.frames, stage := .expr left }
    let waiting : Reader :=
      { r with frames := .binary op left :: .bracket :: r.frames, stage := .operand }
    let whole : Reader :=
      { r with frames := .binary op left :: .bracket :: r.frames, stage := .expr right }
    have bracket : r.step (.mark '(') = some (r.enter .opened) := by
      rw [Reader.step, stage]
      rfl
    have before : (r.enter .opened).run front = some inner := first.opened rfl
    have middle : inner.run [.mark c, .mark c] = some waiting := by
      obtain ⟨rfl, rfl⟩ | ⟨rfl, rfl⟩ := sign <;> rfl
    have behind : waiting.run back = some whole := second.placed waiting rfl
    have shut : whole.run [.mark ')'] = some (r.place (.binary op left right)) := by
      obtain ⟨-, rfl⟩ | ⟨-, rfl⟩ := sign <;> rfl
    have split : (.mark '(' :: front ++ .mark c :: .mark c :: back ++ [.mark ')'] : List Token) =
        .mark '(' :: (front ++ ([.mark c, .mark c] ++ (back ++ [.mark ')']))) := by simp
    rw [split, Reader.run_cons, bracket, Option.bind_some, Reader.run_append, before,
      Option.bind_some, Reader.run_append, middle, Option.bind_some, Reader.run_append, behind,
      Option.bind_some, shut]
  case first =>
    intro token rest whole
    rw [List.cons_append, List.cons_append] at whole
    rw [← (List.cons.inj whole).1]
    rfl

end Phrase

structure Stuck (tokens : List Token) : Prop where
  stops : ∀ r : Reader, r.stage = .operand → r.run tokens = none
  first : ∀ token rest, tokens = token :: rest → typeOf token = none

namespace Stuck

variable {tokens front back : List Token} {e : Expr} {r : Reader}

theorem opened (stuck : Stuck tokens) (stage : r.stage = .opened) : r.run tokens = none := by
  cases tokens with
  | nil => cases stuck.stops start rfl
  | cons token rest =>
      have first := stuck.first token rest rfl
      rw [← stuck.stops (r.push .bracket) rfl, Reader.run_cons, Reader.run_cons, Reader.step,
        Reader.step, stage]
      dsimp only
      rw [first]
      rfl

theorem pair (phrase : Phrase front e) (text : List Char) :
    Stuck (.mark '(' :: front ++ .word text :: back) := by
  constructor
  case stops =>
    intro r stage
    let inner : Reader := { r with frames := .bracket :: r.frames, stage := .expr e }
    have bracket : r.step (.mark '(') = some (r.enter .opened) := by
      rw [Reader.step, stage]
      rfl
    have before : (r.enter .opened).run front = some inner := phrase.opened rfl
    rw [List.cons_append, Reader.run_cons, bracket, Option.bind_some, Reader.run_append, before,
      Option.bind_some, Reader.run_cons]
    rfl
  case first =>
    intro token rest whole
    rw [List.cons_append] at whole
    rw [← (List.cons.inj whole).1]
    rfl

end Stuck

section

variable {f : List Char → List Token} {g : List Char → Expr} {tokens : List Token}

theorem run_fill (phrases : ∀ name, .slot name ∈ tokens → Phrase (f name) (g name))
    {r next : Reader} (read : r.run tokens = some next) :
    (r.fill g).run (fillTokens f tokens) = some (next.fill g) := by
  induction tokens generalizing r with
  | nil => exact congrArg (fun r => some (r.fill g)) (Option.some.inj read)
  | cons token rest ih =>
      rw [Reader.run_cons, Option.bind_eq_some_iff] at read
      obtain ⟨middle, first, second⟩ := read
      have later := ih (fun name member => phrases name (List.mem_cons_of_mem token member)) second
      have closed (other : ∀ name, token ≠ .slot name) :
          (r.fill g).run (token :: fillTokens f rest) = some (next.fill g) := by
        rw [Reader.run_cons, Reader.step_fill other, first]
        exact later
      cases token with
      | word text => exact closed fun _ => by simp
      | mark c => exact closed fun _ => by simp
      | slot name =>
          have phrase := phrases name List.mem_cons_self
          rw [fillTokens_slot, Reader.run_append]
          obtain ⟨stage, rfl⟩ | ⟨stage, rfl⟩ := Reader.step_slot first
          · rw [phrase.placed _ (congrArg (Stage.fill g) stage), ← later]
            exact congrArg (Reader.run · _) (Reader.place_fill (.slot name))
          · rw [phrase.opened (congrArg (Stage.fill g) stage), ← later]
            have pushed : (r.fill g).push .bracket = (r.push .bracket).fill g :=
              Reader.push_fill rfl
            rw [Option.bind_some, pushed]
            exact congrArg (Reader.run · _) (Reader.place_fill (.slot name))

theorem parse_fill (phrases : ∀ name, .slot name ∈ tokens → Phrase (f name) (g name))
    {statements : List Assignment} (read : parse tokens = some statements) :
    parse (fillTokens f tokens) = some (statements.map (Assignment.fill g)) := by
  rw [parse, Option.bind_eq_some_iff] at read
  obtain ⟨r, first, second⟩ := read
  have filled : start.run (fillTokens f tokens) = some (r.fill g) := run_fill phrases first
  obtain ⟨done, target, frames, stage⟩ := r
  rw [Option.ite_none_right_eq_some] at second
  obtain ⟨⟨noTarget, noFrames, waits⟩, same⟩ := second
  cases noTarget
  cases noFrames
  cases waits
  cases same
  rw [parse, filled]
  rfl

theorem parse_stuck {bad : List Char}
    (phrases : ∀ name, .slot name ∈ tokens → name ≠ bad → Phrase (f name) (g name))
    (stuck : Stuck (f bad)) (member : .slot bad ∈ tokens) {statements : List Assignment}
    (read : parse tokens = some statements) : parse (fillTokens f tokens) = none := by
  obtain ⟨front, back, rfl, apart⟩ := List.eq_append_cons_of_mem member
  rw [parse, Option.bind_eq_some_iff] at read
  obtain ⟨r, first, -⟩ := read
  rw [Reader.run_append, Option.bind_eq_some_iff] at first
  obtain ⟨middle, before, behind⟩ := first
  rw [Reader.run_cons, Option.bind_eq_some_iff] at behind
  obtain ⟨next, slot, -⟩ := behind
  have filled : start.run (fillTokens f front) = some (middle.fill g) :=
    run_fill (fun name inside => phrases name (List.mem_append_left _ inside) fun same =>
      apart (same ▸ inside)) before
  have stops : (middle.fill g).run (f bad) = none := by
    obtain ⟨stage, -⟩ | ⟨stage, -⟩ := Reader.step_slot slot
    · exact stuck.stops _ (congrArg (Stage.fill g) stage)
    · exact stuck.opened (congrArg (Stage.fill g) stage)
  rw [parse, fillTokens_append, fillTokens_slot, Reader.run_append, filled, Option.bind_some,
    Reader.run_append, stops]
  rfl

end

end C

end VitaTools.Library
