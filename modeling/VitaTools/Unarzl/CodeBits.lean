import Mathlib.Data.List.Induction
import Mathlib.Tactic.IntervalCases
import VitaTools.Library.LeadingOne
import VitaTools.Unarzl.Steering

set_option autoImplicit false

namespace VitaTools.Unarzl

open VitaTools.Library

namespace Coder

inductive Piece
  | modelled (index : Int)
  | direct (count : Nat)

namespace Piece

def bits : Piece → Nat
  | modelled _ => 1
  | direct count => count

def decode (input : Memory) : Piece → Nat × Coder → Nat × Coder
  | modelled index, p => append input index p
  | direct count, p => directBits count p.1 (p.2.renorm input)

-- The range a piece leaves of one of at least `low`.
def leaves (low : Nat) : Piece → Nat
  | modelled _ => widened low
  | direct count => min (2 ^ 8 * low) (2 ^ 24) / 2 ^ count

end Piece

def decodePieces (input : Memory) : List Piece → Nat × Coder → Nat × Coder
  | [], p => p
  | piece :: rest, p => decodePieces input rest (piece.decode input p)

def leavesPieces : Nat → List Piece → Nat
  | low, [] => low
  | low, piece :: rest => leavesPieces (piece.leaves low) rest

def bitsOf (pieces : List Piece) : Nat := (pieces.map Piece.bits).sum

-- Two cells and the direct bits from four bits on, the other two unless they are skipped.
def pieces (cell : Int) (n : Nat) : List Piece :=
  .modelled cell ::
    ((if 3 ≤ n then
        (if n ≠ 3 then
          .modelled cell :: (if n ≠ 4 then [.direct (n - 4)] else [])
        else []) ++ [.modelled (cell + 24)]
      else []) ++
    (if n ≠ 0 then
        .modelled (cell + 8) :: (if n ≠ 1 then [.modelled (cell + 16)] else [])
      else []))

theorem codeBits_pieces (input : Memory) (cell : Int) (n : Nat) (c : Coder) :
    c.codeBits input cell n = decodePieces input (pieces cell n) (1, c) := by
  unfold codeBits pieces
  split_ifs <;> rfl

theorem bitsOf_pieces (cell : Int) (n : Nat) : bitsOf (pieces cell n) = n + 1 := by
  unfold bitsOf pieces
  split_ifs <;> simp [Piece.bits] <;> omega

section

variable (input : Memory)

/-- `count` more bits were decoded, and the value grew by exactly these. -/
def Gathers (count : Nat) (older : List Bool) (c : Coder) (p : Nat × Coder) : Prop :=
  ∃ bits : List Bool, bits.length = count ∧ p.1 = leadingOne (bits ++ older) ∧
    p.2.decoded = bits ++ c.decoded

theorem renorm_decoded (c : Coder) : (c.renorm input).decoded = c.decoded := by
  unfold renorm
  split <;> rfl

theorem decodeBit_decoded (c : Coder) (index : Int) (shift step : Nat) :
    (c.decodeBit input index shift step).2.decoded =
      (c.decodeBit input index shift step).1 :: c.decoded := by
  unfold decodeBit
  dsimp only
  split <;> rw [renorm_decoded]

theorem directBits_gathers (count : Nat) (older : List Bool) (c : Coder) :
    Gathers count older c (directBits count (leadingOne older) c) := by
  induction count generalizing older c with
  | zero => exact ⟨[], rfl, rfl, rfl⟩
  | succ count ih =>
      have behind (bit : Bool) (rest : Coder) (decoded : rest.decoded = bit :: c.decoded) :
          Gathers (count + 1) older c (directBits count (leadingOne (bit :: older)) rest) := by
        obtain ⟨bits, length, value, gathered⟩ := ih (bit :: older) rest
        refine ⟨bits ++ [bit], by simp [length], ?_, ?_⟩
        · rw [value, List.append_assoc, List.singleton_append]
        · rw [gathered, decoded, List.append_assoc, List.singleton_append]
      rw [directBits_halve]
      split
      · exact behind false _ rfl
      · exact behind true _ rfl

theorem Piece.decode_gathers (piece : Piece) (older : List Bool) (c : Coder) :
    Gathers piece.bits older c (piece.decode input (leadingOne older, c)) := by
  cases piece with
  | modelled index =>
      exact ⟨[(c.flagBit input index).1], rfl, rfl, decodeBit_decoded input c index 4 15⟩
  | direct count =>
      obtain ⟨bits, length, value, gathered⟩ :=
        directBits_gathers count older (c.renorm input)
      exact ⟨bits, length, value, by rw [← renorm_decoded input c]; exact gathered⟩

theorem decodePieces_gathers (pieces : List Piece) (older : List Bool) (c : Coder) :
    Gathers (bitsOf pieces) older c (decodePieces input pieces (leadingOne older, c)) := by
  induction pieces generalizing older c with
  | nil => exact ⟨[], rfl, rfl, rfl⟩
  | cons piece rest ih =>
      obtain ⟨first, firstLength, firstValue, firstDecoded⟩ :=
        piece.decode_gathers input older c
      dsimp only [decodePieces]
      generalize piece.decode input (leadingOne older, c) = p at firstValue firstDecoded ⊢
      obtain ⟨value, d⟩ := p
      dsimp only at firstValue firstDecoded
      rw [firstValue]
      obtain ⟨bits, length, grown, gathered⟩ := ih (first ++ older) d
      refine ⟨bits ++ first, ?_, ?_, ?_⟩
      · simp only [List.length_append, length, firstLength, bitsOf, List.map_cons, List.sum_cons]
        exact Nat.add_comm _ _
      · rw [grown, List.append_assoc]
      · rw [gathered, firstDecoded, List.append_assoc]

theorem codeBits_gathers (cell : Int) (n : Nat) (c : Coder) :
    Gathers (n + 1) [] c (c.codeBits input cell n) := by
  rw [codeBits_pieces, ← bitsOf_pieces cell n]
  exact decodePieces_gathers input (pieces cell n) [] c

end

theorem Piece.decode_steers (piece : Piece) (value : Nat) :
    Steers fun input c => piece.decode input (value, c) := by
  cases piece with
  | modelled index => exact append_steers index value
  | direct count => exact renorm_steers.bind fun _ => directBits_steers count value

theorem decodePieces_steers (pieces : List Piece) (value : Nat) :
    Steers fun input c => decodePieces input pieces (value, c) := by
  induction pieces generalizing value with
  | nil => exact .pure value
  | cons piece rest ih => exact (piece.decode_steers value).bind ih

theorem codeBits_steers (cell : Int) (n : Nat) :
    Steers fun input c => c.codeBits input cell n := by
  simp only [codeBits_pieces]
  exact decodePieces_steers (pieces cell n) 1

/-- The coder can be led from `c` through `piece` with just these bits. -/
def Admits (piece : Memory → Nat × Coder → Nat × Coder) (low : Nat) (bits older : List Bool)
    (c : Coder) : Prop :=
  ∃ d, Healthy low d ∧ d.decoded = bits ++ c.decoded ∧
    Leads c d fun ahead code v7 =>
      piece ahead (leadingOne older, c.withCode code) = (leadingOne (bits ++ older), d.withCode v7)

theorem directBits_leads (bits older : List Bool) (c : Coder) :
    Leads c { c with v10 := c.v10 / 2 ^ bits.length, decoded := bits ++ c.decoded }
      fun _ code v7 => directBits bits.length (leadingOne older) (c.withCode code) =
        (leadingOne (bits ++ older), Coder.withCode
          { c with v10 := c.v10 / 2 ^ bits.length, decoded := bits ++ c.decoded } v7) := by
  induction bits using List.reverseRecOn generalizing older c with
  | nil =>
      rw [List.length_nil, Nat.pow_zero, Nat.div_one]
      refine (Leads.refl c).mono fun ahead code v7 same => ?_
      rw [same]
      rfl
  | append_singleton bits bit ih =>
      have left : c.v10 / 2 ^ (bits ++ [bit]).length = c.v10 / 2 / 2 ^ bits.length := by
        rw [List.length_append, Nat.div_div_eq_div_mul, Nat.mul_comm, ← Nat.pow_succ]
        rfl
      have behind (rest : List Bool) : bits ++ [bit] ++ rest = bits ++ bit :: rest := by
        rw [List.append_assoc, List.singleton_append]
      rw [left, behind, behind]
      have first := halve_leads c bit bits.length (leadingOne older)
      refine (first.trans (ih (bit :: older) (c.halve bit))).mono ?_
      rintro ahead code v7 ⟨between, goes, comes⟩
      rw [List.length_append, List.length_singleton]
      exact goes.trans comes

theorem Piece.decode_admits (piece : Piece) {low : Nat} {c : Coder} (healthy : Healthy low c)
    (room : 1 ≤ piece.leaves low) (bits older : List Bool) (length : bits.length = piece.bits) :
    Admits (fun input => piece.decode input) (piece.leaves low) bits older c := by
  cases piece with
  | modelled index =>
      obtain ⟨bit, rfl⟩ := List.length_eq_one_iff.mp length
      have positive : 1 ≤ low := by
        dsimp only [leaves, widened] at room
        omega
      have blank : Memory := fun _ => 0
      refine ⟨(c.renorm blank).narrow index 4 15 bit,
        narrow_healthy blank adapts_flag positive healthy index bit, ?_, ?_⟩
      · exact congrArg (bit :: ·) (renorm_decoded blank c)
      · refine (narrow_leads blank healthy.sized index 4 15 bit).mono ?_
        intro ahead code v7 goes
        dsimp only [decode, append, flagBit]
        rw [goes]
        rfl
  | direct count =>
      have blank : Memory := fun _ => 0
      have renormed := renorm_healthy blank healthy
      dsimp only [Piece.bits] at length
      subst length
      refine ⟨{ c.renorm blank with
          v10 := (c.renorm blank).v10 / 2 ^ bits.length
          decoded := bits ++ (c.renorm blank).decoded }, ?_, ?_, ?_⟩
      · exact ⟨renormed.cells, Nat.div_le_div_right renormed.wide,
          Nat.lt_of_le_of_lt (Nat.div_le_self _ _) renormed.fits, renormed.past⟩
      · exact congrArg (bits ++ ·) (renorm_decoded blank c)
      · refine ((renorm_leads blank healthy.sized).trans
          (directBits_leads bits older (c.renorm blank))).mono ?_
        rintro ahead code v7 ⟨between, goes, comes⟩
        dsimp only [decode]
        rw [goes]
        exact comes

theorem leavesPieces_zero (pieces : List Piece) : leavesPieces 0 pieces = 0 := by
  induction pieces with
  | nil => rfl
  | cons piece rest ih =>
      have closed : piece.leaves 0 = 0 := by
        cases piece with
        | modelled index => rfl
        | direct count => exact Nat.zero_div _
      rw [leavesPieces, closed, ih]

theorem decodePieces_admits (pieces : List Piece) {low : Nat} {c : Coder}
    (healthy : Healthy low c) (room : 1 ≤ leavesPieces low pieces) (bits older : List Bool)
    (length : bits.length = bitsOf pieces) :
    Admits (fun input => decodePieces input pieces) (leavesPieces low pieces) bits older c := by
  induction pieces generalizing low c bits older with
  | nil =>
      obtain rfl := List.length_eq_zero_iff.mp length
      refine ⟨c, healthy, rfl, (Leads.refl c).mono fun ahead code v7 same => ?_⟩
      rw [same]
      rfl
  | cons piece rest ih =>
      have within : 1 ≤ piece.leaves low := by
        by_contra closed
        rw [leavesPieces, (by omega : piece.leaves low = 0), leavesPieces_zero] at room
        omega
      have total : bits.length = piece.bits + bitsOf rest := length
      -- The bits of the first piece are the oldest.
      obtain ⟨d, open_, decoded, leads⟩ := piece.decode_admits healthy within
        (bits.drop (bitsOf rest)) older (by rw [List.length_drop]; omega)
      obtain ⟨e, last, gathered, onward⟩ := ih open_ room (bits.take (bitsOf rest))
        (bits.drop (bitsOf rest) ++ older) (by rw [List.length_take]; omega)
      have whole (behind : List Bool) : bits.take (bitsOf rest) ++
          (bits.drop (bitsOf rest) ++ behind) = bits ++ behind := by
        rw [← List.append_assoc, List.take_append_drop]
      refine ⟨e, last, by rw [gathered, decoded, whole], (leads.trans onward).mono ?_⟩
      rintro ahead code v7 ⟨between, goes, comes⟩
      dsimp only [decodePieces] at goes comes ⊢
      rw [goes]
      rw [whole] at comes
      exact comes

theorem leavesPieces_pieces (cell : Int) {n : Nat} (near : n ≤ 27) :
    1 ≤ leavesPieces 16807 (pieces cell n) := by
  interval_cases n <;> simp [pieces, leavesPieces, Piece.leaves, widened]

theorem codeBits_admits (cell : Int) {n : Nat} (near : n ≤ 27) {c : Coder}
    (healthy : Healthy 16807 c) (bits : List Bool) (length : bits.length = n + 1) :
    ∃ d : Coder, 0 < d.v10 ∧ d.decoded = bits ++ c.decoded ∧ Leads c d fun ahead code v7 =>
      (c.withCode code).codeBits ahead cell n = (leadingOne bits, d.withCode v7) := by
  have room := leavesPieces_pieces cell near
  obtain ⟨d, last, decoded, leads⟩ := decodePieces_admits (pieces cell n) healthy room bits []
    (by rw [bitsOf_pieces, length])
  have wide := last.wide
  refine ⟨d, by omega, decoded, leads.mono fun ahead code v7 goes => ?_⟩
  rw [codeBits_pieces, ← List.append_nil bits]
  exact goes

section

variable {low : Nat} (positive : 1 ≤ low) (ceiling : low ≤ 7 * 2 ^ 16)

include positive ceiling

theorem decodeBit_admits {shift step : Nat} (adapts : Adapts shift step) {c : Coder}
    (healthy : Healthy low c) (index : Int) (bit : Bool) :
    ∃ d, Healthy low d ∧ Leads c d fun ahead code v7 =>
      (c.withCode code).decodeBit ahead index shift step = (bit, d.withCode v7) := by
  have blank : Memory := fun _ => 0
  have left := narrow_healthy blank adapts positive healthy index bit
  exact ⟨_, left.weaken (le_widened positive ceiling),
    narrow_leads blank healthy.sized index shift step bit⟩

theorem classLoop_admits (target : Int) (fuel : Nat) (v19 v28 : Int) {c : Coder}
    (healthy : Healthy low c) (least : v28 ≤ target) (most : target ≤ v28 + fuel)
    (last : v28 + fuel = 6) :
    ∃ d, Healthy low d ∧ Leads c d fun ahead code v7 =>
      (c.withCode code).classLoop ahead v19 fuel v28 = (target, d.withCode v7) := by
  induction fuel generalizing v19 v28 c with
  | zero =>
      obtain rfl : v28 = target := by omega
      refine ⟨c, healthy, (Leads.refl c).mono fun ahead code v7 same => ?_⟩
      rw [same]
      rfl
  | succ fuel ih =>
      have flag (bit : Bool) : ∃ d, Healthy low d ∧ Leads c d fun ahead code v7 =>
          (c.withCode code).flagBit ahead (v19 + 2928) = (bit, d.withCode v7) :=
        decodeBit_admits positive ceiling adapts_flag healthy (v19 + 2928) bit
      by_cases here : v28 = target
      next =>
        obtain ⟨d, open_, leads⟩ := flag false
        refine ⟨d, open_, leads.mono fun ahead code v7 goes => ?_⟩
        dsimp only [classLoop]
        rw [goes, here]
        rfl
      next =>
        obtain ⟨d, open_, leads⟩ := flag true
        by_cases six : v28 + 1 = 6
        next =>
          refine ⟨d, open_, leads.mono fun ahead code v7 goes => ?_⟩
          dsimp only [classLoop]
          rw [goes, if_pos rfl, if_pos six, (by omega : v28 + 1 = target)]
        next =>
          obtain ⟨e, wide, onward⟩ := ih (v19 + 8) (v28 + 1) open_ (by omega) (by omega) (by omega)
          refine ⟨e, wide, (leads.trans onward).mono ?_⟩
          rintro ahead code v7 ⟨between, goes, comes⟩
          dsimp only [classLoop]
          rw [goes, if_pos rfl, if_neg six]
          exact comes

theorem positionLoop_admits (v34 : Int) (bits older : List Bool) {c : Coder}
    (healthy : Healthy low c) (five : bits.length + older.length = 5) :
    ∃ d, Healthy low d ∧ Leads c d fun ahead code v7 =>
      (c.withCode code).positionLoop ahead v34 256 bits.length (8 * leadingOne older) =
        (8 * leadingOne (bits ++ older), d.withCode v7) := by
  induction bits using List.reverseRecOn generalizing older c with
  | nil =>
      refine ⟨c, healthy, (Leads.refl c).mono fun ahead code v7 same => ?_⟩
      rw [same]
      rfl
  | append_singleton bits bit ih =>
      rw [List.length_append, List.length_singleton] at five ⊢
      have grown : 2 * (8 * leadingOne older) + 8 * bit.toNat = 8 * leadingOne (bit :: older) := by
        rw [leadingOne]
        omega
      have leaf : ∃ d, Healthy low d ∧ Leads c d fun ahead code v7 =>
          (c.withCode code).treeBit ahead (v34 + (8 * leadingOne older : Nat) + 2033) =
            (bit, d.withCode v7) :=
        decodeBit_admits positive ceiling adapts_tree healthy _ bit
      obtain ⟨d, open_, leads⟩ := leaf
      obtain ⟨e, wide, onward⟩ := ih (bit :: older) open_ (by rw [List.length_cons]; omega)
      rw [List.append_assoc, List.singleton_append]
      refine ⟨e, wide, (leads.trans onward).mono ?_⟩
      rintro ahead code v7 ⟨between, goes, comes⟩
      dsimp only [positionLoop]
      rw [goes]
      dsimp only
      rw [grown]
      by_cases again : 8 * leadingOne (bit :: older) < 256
      next => rw [if_pos again, comes]
      next =>
        -- The tree is left with its last bit only.
        have high := (leadingOne_range (bit :: older)).2
        rw [List.length_cons] at high
        have few : bits.length = 0 := by
          by_contra more
          have most : 2 ^ (older.length + 1 + 1) ≤ 2 ^ 5 :=
            Nat.pow_le_pow_right (by decide) (by omega)
          omega
        rw [few] at comes
        rw [if_neg again, ← comes]
        rfl

end

end Coder

end VitaTools.Unarzl
