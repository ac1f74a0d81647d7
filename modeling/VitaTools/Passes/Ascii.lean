import VitaTools.Passes.Segments
import VitaTools.Library.Cycle

set_option autoImplicit false

namespace VitaTools.Passes

open VitaTools.Library

namespace Segment

-- Inside, and not at the first byte.
def Inside (segment : Segment) (text : Nat) : Prop :=
  segment.seg < text ∧ text < segment.seg + segment.size.toNat

def Has (segment : Segment) (a : Nat) : Prop :=
  segment.seg ≤ a ∧ a < segment.seg + segment.size.toNat

end Segment

namespace Segments

variable (s : Segments)

def ranged (text : Nat) : Bool := s.between s.data text 4 || s.between s.text text 4

-- `while (string[i] >= 0x20) i++;`
def scan (string : Nat) : Loop Nat where
  more i := 0x20 ≤ (s.memory (string + i)).toInt
  pass i := i + 1

/-- `isascii4` with its scan; `none` when the passes do not suffice. -/
def isascii4Scan (fuel text : Nat) : Option Bool :=
  if s.ranged text then
    let len := s.strnlen text 4
    ((s.scan text).run fuel 0).map fun i =>
      (0 < i && len ≤ i && len != 0) ||
        (s.between s.text text 0 && i == 0 && s.memory (text + i) == 0)
  else some false

/-- The bytes that are read: by `strnlen`, and by the scan. -/
inductive AsciiReads (text : Nat) : Nat → Prop
  | strnlen (k : Nat) : s.ranged text = true → k < 4 → (∀ j < k, s.memory (text + j) ≠ 0) →
      AsciiReads text (text + k)
  | scan (i : Nat) : s.ranged text = true → (s.scan text).Visits 0 i → AsciiReads text (text + i)

/-- A pointer is returned only from inside a segment, and what is read belongs to it. -/
structure AsciiInside (text : Nat) : Prop where
  answers : ∀ fuel, s.isascii4Scan fuel text = some true →
    ∃ segment ∈ [s.data, s.text], segment.Inside text
  reads : ∀ a, s.AsciiReads text a →
    ∃ segment ∈ [s.data, s.text], segment.Inside text ∧ segment.Has a

-- A byte that ends the scan, and four bytes or a terminator, before the segment ends.
structure AsciiEnds (segment : Segment) (text : Nat) : Prop where
  scan : ∃ k, text + k < segment.seg + segment.size.toNat ∧ (s.memory (text + k)).toInt < 0x20
  strnlen : text + 4 ≤ segment.seg + segment.size.toNat ∨
    ∃ k < 4, text + k < segment.seg + segment.size.toNat ∧ s.memory (text + k) = 0

variable {s}

theorem inside_unique {first second : Segment} {text : Nat} (one : first ∈ [s.data, s.text])
    (two : second ∈ [s.data, s.text]) (inside : first.Inside text) (also : second.Inside text) :
    first = second := by
  have apart := s.apart
  simp only [Segment.Inside, List.mem_cons, List.not_mem_nil, or_false] at *
  rcases one with rfl | rfl <;> rcases two with rfl | rfl <;> first | rfl | omega

theorem visits_scan {text i : Nat} : (s.scan text).Visits 0 i ↔
    ∀ j < i, 0x20 ≤ (s.memory (text + j)).toInt := by
  constructor
  next =>
    intro visited
    apply visited.invariant fun i => ∀ j < i, 0x20 ≤ (s.memory (text + j)).toInt
    · exact fun j less => absurd less (Nat.not_lt_zero j)
    · intro i _ before more j less
      rcases Nat.lt_succ_iff_lt_or_eq.mp less with earlier | rfl
      · exact before j earlier
      · exact of_decide_eq_true more
  next =>
    intro printable
    have steps : ∀ k, (s.scan text).pass^[k] 0 = k := by
      intro k
      induction k with
      | zero => rfl
      | succ k ih => rw [Function.iterate_succ_apply', ih]; rfl
    have visited : (s.scan text).Visits 0 ((s.scan text).pass^[i] 0) := by
      refine Loop.Visits.iterate i fun k less => ?_
      rw [steps]
      exact decide_eq_true (printable k less)
    rwa [steps] at visited

theorem takeWhile_range {p : Nat → Bool} {i : Nat} (before : ∀ j < i, p j = true)
    (stops : p i = false) (n : Nat) : ((List.range n).takeWhile p).length = min i n := by
  induction n with
  | zero => simp
  | succ n ih =>
      rw [List.range_succ, List.takeWhile_append, ih, List.length_range]
      rcases Nat.lt_trichotomy n i with less | rfl | more
      · rw [if_pos (by omega), List.takeWhile_cons, before n less]
        simp
        omega
      · rw [if_pos (by omega), List.takeWhile_cons, stops]
        simp
      · rw [if_neg (by omega), ih]
        omega

theorem printable_eq {text i : Nat} (visited : (s.scan text).Visits 0 i)
    (ended : (s.scan text).more i = false) : s.printable text = min i 4 :=
  takeWhile_range (fun j less => decide_eq_true (visits_scan.mp visited j less)) ended 4

theorem strnlen_le (text max : Nat) : s.strnlen text max ≤ max := by
  rw [strnlen]
  exact (List.takeWhile_sublist _).length_le.trans List.length_range.le

theorem isascii4Scan_eq {fuel text : Nat} {answer : Bool}
    (returned : s.isascii4Scan fuel text = some answer) : answer = s.isascii4 text := by
  rw [isascii4Scan] at returned
  rw [isascii4, ← ranged]
  split at returned
  next inRange =>
    obtain ⟨i, ran, same⟩ := Option.map_eq_some_iff.mp returned
    obtain ⟨visited, ended⟩ := Loop.run_iff.mp ⟨fuel, ran⟩
    have short := s.strnlen_le text 4
    have count : (s.strnlen text 4 ≤ i ↔ s.strnlen text 4 ≤ min i 4) ∧
        (0 < i ↔ 0 < min i 4) := by omega
    rw [if_pos inRange, ← same]
    simp only [printable_eq visited ended, count]
    cases i <;> simp
  next outside =>
    rw [if_neg outside]
    exact (Option.some.inj returned).symm

theorem AsciiInside.ends {text : Nat} (inside : s.AsciiInside text)
    (inRange : s.ranged text = true) : ∃ segment ∈ [s.data, s.text],
      segment.Inside text ∧ s.AsciiEnds segment text := by
  have first := inside.reads _ (.strnlen 0 inRange (by decide) fun j less =>
    absurd less (Nat.not_lt_zero j))
  obtain ⟨segment, member, within, -⟩ := first
  -- The byte behind the segment belongs to no segment that the pointer is inside of.
  have behind : ¬ s.AsciiReads text (segment.seg + segment.size.toNat) := by
    intro read
    obtain ⟨other, also, around, has⟩ := inside.reads _ read
    rw [inside_unique also member around within] at has
    exact absurd has.2 (Nat.lt_irrefl _)
  have distance : text + (segment.seg + segment.size.toNat - text) =
      segment.seg + segment.size.toNat := Nat.add_sub_cancel' within.2.le
  refine ⟨segment, member, within, ?_, ?_⟩
  · by_contra endless
    push Not at endless
    refine behind (distance ▸ .scan _ inRange (visits_scan.mpr fun j less => ?_))
    exact endless j (by omega)
  · by_contra short
    push Not at short
    refine behind (distance ▸ .strnlen _ inRange (by omega) fun j less => ?_)
    exact short.2 j (by omega) (by omega)

theorem AsciiEnds.reads {segment : Segment} {text : Nat} (ends : s.AsciiEnds segment text)
    (within : segment.Inside text) {a : Nat} (read : s.AsciiReads text a) : segment.Has a := by
  cases read with
  | strnlen k inRange few before =>
      refine ⟨by have := within.1; omega, ?_⟩
      rcases ends.strnlen with room | ⟨last, -, inside, zero⟩
      · omega
      · have le : k ≤ last := by
          by_contra less
          exact before last (by omega) zero
        omega
  | scan i inRange visited =>
      obtain ⟨last, inside, low⟩ := ends.scan
      refine ⟨by have := within.1; omega, ?_⟩
      have le : i ≤ last := by
        by_contra less
        have printable := visits_scan.mp visited last (by omega)
        omega
      omega

theorem AsciiReads.ranged {text a : Nat} (read : s.AsciiReads text a) : s.ranged text = true := by
  cases read with
  | strnlen k inRange few before => exact inRange
  | scan i inRange visited => exact inRange

theorem asciiInside_of_ends {text : Nat} (ends : s.ranged text = true →
    ∃ segment ∈ [s.data, s.text], segment.Inside text ∧ s.AsciiEnds segment text) :
    s.AsciiInside text := by
  constructor
  case answers =>
    intro fuel returned
    rw [isascii4Scan] at returned
    split at returned
    next inRange =>
      obtain ⟨segment, member, within, -⟩ := ends inRange
      exact ⟨segment, member, within⟩
    next => cases returned
  case reads =>
    intro a read
    obtain ⟨segment, member, within, ends⟩ := ends read.ranged
    exact ⟨segment, member, within, ends.reads within read⟩

/-- A pointer is handled inside its segment exactly when the range test fails, or it is inside a
segment that ends the scan and has four bytes or a terminator for `strnlen`. Where the scan ends,
its answer is `isascii4`'s. -/
theorem asciiInside_iff {text : Nat} :
    (s.AsciiInside text ↔ (s.ranged text = true → ∃ segment ∈ [s.data, s.text],
      segment.Inside text ∧ s.AsciiEnds segment text)) ∧
    ∀ fuel answer, s.isascii4Scan fuel text = some answer → answer = s.isascii4 text :=
  ⟨⟨AsciiInside.ends, asciiInside_of_ends⟩, fun _ _ returned => isascii4Scan_eq returned⟩

def letters : Segments where
  memory a := if 0x1000 ≤ a ∧ a < 0x1100 then 0x41 else 0
  pointerSize := 4
  text := ⟨0x1000, 0x81000000, 0x100⟩
  data := ⟨0x3000, 0x82000000, 0⟩
  wide := by decide
  apart := by decide

-- The scan of a constant leaves the segment.
theorem letters_left : letters.text.holds 0x810000F0 = true ∧
    letters.AsciiReads (letters.text.place 0x810000F0) 0x1100 ∧
      ¬ letters.AsciiInside (letters.text.place 0x810000F0) := by
  have place : letters.text.place 0x810000F0 = 0x10F0 := by decide
  have ranged : letters.ranged 0x10F0 = true := by decide
  have read : letters.AsciiReads 0x10F0 0x1100 :=
    .scan 16 ranged (visits_scan.mpr (by decide))
  rw [place]
  refine ⟨by decide, read, fun inside => ?_⟩
  obtain ⟨segment, member, -, has⟩ := inside.reads _ read
  have text : letters.text.seg + letters.text.size.toNat = 0x1100 := by decide
  have data : letters.data.seg + letters.data.size.toNat = 0x3000 := by decide
  have start : letters.data.seg = 0x3000 := rfl
  simp only [List.mem_cons, List.not_mem_nil, or_false] at member
  rcases member with rfl | rfl
  · have := has.1
    omega
  · have := has.2
    omega

end Segments

end VitaTools.Passes
