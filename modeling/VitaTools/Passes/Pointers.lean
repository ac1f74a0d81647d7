import VitaTools.Library.Cycle
import VitaTools.Passes.Segments

set_option autoImplicit false

namespace VitaTools.Passes

open VitaTools.Library Relation
open VitaTools.Decompiler (Word)

namespace Segments

variable (s : Segments)

-- The word at the address `a` of the segment is `b`.
def Points (segment : Segment) (a b : Word) : Prop :=
  segment.holds a = true ∧ b = s.memory.word (segment.place a)

def Whole (segment : Segment) (a : Word) : Prop :=
  a.toNat - segment.addr.toNat + s.pointerSize ≤ segment.size.toNat

instance (segment : Segment) (a : Word) : Decidable (s.Whole segment a) :=
  inferInstanceAs (Decidable (_ ≤ _))

/-- The words of the segment lead from `start` to no address twice, and each address they lead
to has its whole word in the segment. -/
def Straight (segment : Segment) (start : Word) : Prop :=
  ∀ a, ReflTransGen (s.Points segment) start a →
    ¬ TransGen (s.Points segment) a a ∧ (segment.holds a = true → s.Whole segment a)

def Ends (value : Word) : Prop := ∃ fuel, (s.checkDwordValue fuel value).isSome

def Inside (ptr : Nat) : Prop :=
  s.text.seg ≤ ptr ∧ ptr + s.pointerSize ≤ s.text.seg + s.text.size.toNat ∨
    s.data.seg ≤ ptr ∧ ptr + s.pointerSize ≤ s.data.seg + s.data.size.toNat

theorem place_lt (segment : Segment) (a : Word) (held : segment.holds a = true) :
    a.toNat - segment.addr.toNat < segment.size.toNat := by
  simp only [Segment.holds, Bool.and_eq_true, decide_eq_true_eq, BitVec.lt_def,
    BitVec.toNat_add] at held
  obtain ⟨above, below⟩ := held
  have wraps := Nat.mod_le (segment.addr.toNat + segment.size.toNat) (2 ^ 32)
  omega

theorem inside_text_iff (a : Word) (held : s.text.holds a = true) :
    s.Inside (s.text.place a) ↔ s.Whole s.text a := by
  have below := place_lt s.text a held
  have apart := s.apart
  have wide := s.wide
  simp only [Inside, Whole, Segment.place]
  omega

theorem inside_data_iff (a : Word) (held : s.data.holds a = true) :
    s.Inside (s.data.place a) ↔ s.Whole s.data a := by
  have below := place_lt s.data a held
  have apart := s.apart
  have wide := s.wide
  simp only [Inside, Whole, Segment.place]
  omega

def addresses (segment : Segment) : Loop Word where
  more a := segment.holds a
  pass a := s.memory.word (segment.place a)

theorem visits_addresses (segment : Segment) (c : Chase) (a : Word) :
    ReflTransGen (s.Points segment) c.currentAddr a ↔
      ∃ d, (s.chase segment).Visits c d ∧ d.currentAddr = a := by
  have led : (s.addresses segment).Visits c.currentAddr a ↔
      ReflTransGen (s.Points segment) c.currentAddr a := Loop.visits_iff
  refine Iff.trans led.symm ⟨fun visited => ?_, ?_⟩
  · have lifted := @Loop.Visits.lift _ (s.chase segment) _ _ Chase.currentAddr
      (fun _ => rfl) (fun _ => rfl) c a visited
    obtain ⟨d, reached, same⟩ := lifted
    exact ⟨d, reached, same.symm⟩
  · rintro ⟨d, reached, rfl⟩
    exact reached.map Chase.currentAddr (fun _ => rfl) fun _ => rfl

theorem returns_chase_iff (segment : Segment) (c : Chase) :
    (s.chase segment).Returns c ↔
      ∀ a, ReflTransGen (s.Points segment) c.currentAddr a →
        ¬ TransGen (s.Points segment) a a := by
  have same (fuel : Nat) : (s.addresses segment).run fuel c.currentAddr =
      ((s.chase segment).run fuel c).map Chase.currentAddr :=
    Loop.run_map Chase.currentAddr (fun _ => rfl) (fun _ => rfl) fuel c
  have returns : (s.chase segment).Returns c ↔ (s.addresses segment).Returns c.currentAddr :=
    exists_congr fun fuel => by rw [same, Option.isSome_map]
  exact returns.trans Loop.returns_iff

theorem not_holds_zero (segment : Segment) : segment.holds 0 = false := by
  simp [Segment.holds]

theorem ends_iff (value : Word) (nonzero : value ≠ 0) :
    s.Ends value ↔ (s.chase s.text).Returns ⟨none, value⟩ ∧
      ∀ c, (s.chase s.text).Visits ⟨none, value⟩ c → s.text.holds c.currentAddr = false →
        (s.chase s.data).Returns c := by
  constructor
  · rintro ⟨fuel, returned⟩
    rw [checkDwordValue, if_neg nonzero] at returned
    obtain ⟨ptr, returned⟩ := Option.isSome_iff_exists.mp returned
    obtain ⟨c, first, returned⟩ := Option.bind_eq_some_iff.mp returned
    obtain ⟨d, second, -⟩ := Option.bind_eq_some_iff.mp returned
    refine ⟨⟨fuel, by simp [first]⟩, fun other visited left => ?_⟩
    obtain ⟨again, third⟩ := Loop.run_iff.mpr ⟨visited, left⟩
    have same := Loop.run_more (Nat.le_max_left fuel again) first
    rw [Loop.run_more (Nat.le_max_right fuel again) third] at same
    cases same
    exact ⟨fuel, by simp [second]⟩
  · rintro ⟨returns, later⟩
    obtain ⟨c, visited, left⟩ := returns.visits
    obtain ⟨fuel, first⟩ := Loop.run_iff.mpr ⟨visited, left⟩
    obtain ⟨again, second⟩ := later c visited left
    obtain ⟨d, second⟩ := Option.isSome_iff_exists.mp second
    refine ⟨max fuel again, ?_⟩
    rw [checkDwordValue, if_neg nonzero, Loop.run_more (Nat.le_max_left _ _) first]
    simp [Loop.run_more (Nat.le_max_right fuel again) second]

theorem straight_of_not_holds {segment : Segment} {start : Word}
    (outside : segment.holds start = false) : s.Straight segment start := by
  have still {a : Word} : ¬ s.Points segment start a := by
    rintro ⟨held, -⟩
    rw [outside] at held
    contradiction
  intro a led
  rcases ReflTransGen.cases_head led with rfl | ⟨next, step, -⟩
  · refine ⟨fun circle => ?_, fun held => absurd held (by simp [outside])⟩
    obtain ⟨next, step, -⟩ := TransGen.head'_iff.mp circle
    exact still step
  · exact absurd step still

theorem straight_iff (segment : Segment) (c : Chase) :
    s.Straight segment c.currentAddr ↔
      (s.chase segment).Returns c ∧
        ∀ d, (s.chase segment).Visits c d → segment.holds d.currentAddr = true →
          s.Whole segment d.currentAddr := by
  rw [returns_chase_iff]
  constructor
  · intro straight
    refine ⟨fun a led => (straight a led).1, fun d visited held => ?_⟩
    exact (straight _ ((visits_addresses s segment c _).mpr ⟨d, visited, rfl⟩)).2 held
  · rintro ⟨acyclic, whole⟩ a led
    refine ⟨acyclic a led, fun held => ?_⟩
    obtain ⟨d, visited, rfl⟩ := (visits_addresses s segment c a).mp led
    exact whole d visited held

theorem reads_inside_iff (value : Word) (nonzero : value ≠ 0) :
    (∀ ptr, s.Reads value ptr → s.Inside ptr) ↔
      (∀ c, (s.chase s.text).Visits ⟨none, value⟩ c → s.text.holds c.currentAddr = true →
          s.Whole s.text c.currentAddr) ∧
        ∀ begun, (s.chase s.text).Visits ⟨none, value⟩ begun →
          s.text.holds begun.currentAddr = false → ∀ c, (s.chase s.data).Visits begun c →
            s.data.holds c.currentAddr = true → s.Whole s.data c.currentAddr := by
  constructor
  · intro inside
    constructor
    · intro c visited held
      exact (inside_text_iff s _ held).mp (inside _ (.text c nonzero visited held))
    · intro begun first left c second held
      obtain ⟨fuel, returned⟩ := Loop.run_iff.mpr ⟨first, left⟩
      exact (inside_data_iff s _ held).mp
        (inside _ (.data fuel begun c nonzero returned second held))
  · rintro ⟨text, data⟩ ptr read
    cases read with
    | text c _ visited held => exact (inside_text_iff s _ held).mpr (text c visited held)
    | data fuel begun c _ returned visited held =>
        obtain ⟨first, left⟩ := Loop.run_iff.mp ⟨fuel, returned⟩
        exact (inside_data_iff s _ held).mpr (data begun first left c visited held)

/-- Chasing ends inside the segments exactly when their words run straight from `value`. -/
theorem chased_iff (value : Word) :
    (s.Ends value ∧ ∀ ptr, s.Reads value ptr → s.Inside ptr) ↔
      s.Straight s.text value ∧
        ∀ a, ReflTransGen (s.Points s.text) value a → s.text.holds a = false →
          s.Straight s.data a := by
  by_cases nonzero : value = 0
  case pos =>
    subst nonzero
    refine iff_of_true ⟨⟨0, rfl⟩, fun ptr read => ?_⟩
      ⟨s.straight_of_not_holds (not_holds_zero _), fun a led left => ?_⟩
    · cases read <;> contradiction
    · rcases ReflTransGen.cases_head led with rfl | ⟨next, step, -⟩
      · exact s.straight_of_not_holds (not_holds_zero _)
      · exact absurd step.1 (Bool.eq_false_iff.mp (not_holds_zero _))
  case neg =>
    rw [ends_iff s value nonzero, reads_inside_iff s value nonzero,
      straight_iff s s.text ⟨none, value⟩]
    have data : (∀ a, ReflTransGen (s.Points s.text) value a → s.text.holds a = false →
          s.Straight s.data a) ↔
        ∀ c, (s.chase s.text).Visits ⟨none, value⟩ c → s.text.holds c.currentAddr = false →
          (s.chase s.data).Returns c ∧ ∀ d, (s.chase s.data).Visits c d →
            s.data.holds d.currentAddr = true → s.Whole s.data d.currentAddr := by
      constructor
      · intro straight c visited left
        exact (straight_iff s s.data c).mp (straight _
          ((visits_addresses s s.text ⟨none, value⟩ _).mpr ⟨c, visited, rfl⟩) left)
      · intro both a led left
        obtain ⟨c, visited, rfl⟩ := (visits_addresses s s.text ⟨none, value⟩ a).mp led
        exact (straight_iff s s.data c).mpr (both c visited left)
    rw [data]
    constructor
    · rintro ⟨⟨returns, later⟩, text, inside⟩
      exact ⟨⟨returns, text⟩, fun c visited left =>
        ⟨later c visited left, inside c visited left⟩⟩
    · rintro ⟨⟨returns, text⟩, both⟩
      exact ⟨⟨returns, fun c visited left => (both c visited left).1⟩, text,
        fun c visited left => (both c visited left).2⟩

-- The word at the offset `0x10` of the text segment is its own address.
def selfPointing : Segments where
  memory a := if a = 0x1010 then 0x10 else if a = 0x1013 then 0x81 else 0
  pointerSize := 8
  text := ⟨0x1000, 0x81000000, 0x100⟩
  data := ⟨0x2000, 0x82000000, 0x100⟩
  wide := by decide
  apart := by decide

def cutShort : Segments :=
  { selfPointing with memory := fun a => if a = 0x10FE then 0x10 else 0 }

theorem chase_endless_or_outside :
    (selfPointing.chases 0x81000010 = true ∧ ¬ selfPointing.Ends 0x81000010) ∧
      cutShort.chases 0x810000FE = true ∧
        ¬ ∀ ptr, cutShort.Reads 0x810000FE ptr → cutShort.Inside ptr := by
  have circle : selfPointing.Points selfPointing.text 0x81000010 0x81000010 := by
    constructor <;> decide
  refine ⟨⟨by decide, fun ends => ?_⟩, by decide, fun inside => ?_⟩
  · have returns := ((ends_iff selfPointing 0x81000010 (by decide)).mp ends).1
    exact (returns_chase_iff selfPointing _ _).mp returns _ .refl (.single circle)
  · have read := inside _ (.text ⟨none, 0x810000FE⟩ (by decide) .start (by decide))
    exact absurd ((inside_text_iff cutShort _ (by decide)).mp read) (by decide)

end Segments

end VitaTools.Passes
