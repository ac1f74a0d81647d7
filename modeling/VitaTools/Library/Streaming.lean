import Mathlib.Tactic.Common

set_option autoImplicit false

/-!
A coder is given what input there is and what room there is for output. It stops when either is
used up, when its stream is at an end or when it refuses what it reads.
-/

namespace VitaTools.Library

universe u v w x

structure Call (State : Type u) (Code : Type v) (α : Type w) (β : Type x) where
  code : Code
  state : State
  rest : List α
  output : List β

structure Coder (State : Type u) (Code : Type v) (α : Type w) (β : Type x) where
  call : State → List α → Nat → Call State Code α β
  goesOn : Code → Prop
  ended : Code → Prop
  refused : Code → Prop

namespace Coder

variable {State : Type u} {Code : Type v} {α : Type w} {β : Type x} (coder : Coder State Code α β)
  (R : State → List α → List β → Prop)

/-- The call gives the first of the output that is to come, and stops for more input only when it
has none. -/
structure GoesOn (s : State) (input more : List α) (output : List β) (room : Nat) : Prop where
  code : coder.goesOn (coder.call s input room).code
  fits : (coder.call s input room).output.length ≤ room
  later : ∃ rest, output = (coder.call s input room).output ++ rest ∧
    R (coder.call s input room).state ((coder.call s input room).rest ++ more) rest
  taken : (coder.call s input room).output.length < room → (coder.call s input room).rest = []

/-- The source has a whole stream: `R s source output` when the output of the stream is still to
come from what is left of the source. -/
structure Streams (Done : State → Prop) : Prop where
  call : ∀ {s : State} {input more : List α} {output : List β} {room : Nat},
    R s (input ++ more) output → 0 < room →
      coder.ended (coder.call s input room).code ∧ (coder.call s input room).output = output ∧
          output.length ≤ room ∧ Done (coder.call s input room).state ∨
        coder.GoesOn R s input more output room ∧
          ((coder.call s input room).output.length < room → more ≠ [])
  done : ∀ {s : State} {input : List α} {room : Nat}, Done s → 0 < room →
    coder.ended (coder.call s input room).code ∧ (coder.call s input room).output = [] ∧
      Done (coder.call s input room).state

structure Refuses : Prop where
  call : ∀ {s : State} {input more : List α} {output : List β} {room : Nat},
    R s (input ++ more) output → 0 < room →
      coder.refused (coder.call s input room).code ∨ coder.GoesOn R s input more output room

end Coder

end VitaTools.Library
