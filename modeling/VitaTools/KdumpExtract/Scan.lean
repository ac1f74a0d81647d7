import VitaTools.Library.Cycle
import VitaTools.Library.Memory

set_option autoImplicit false

/-!
The dump is the first `sz` bytes of `input`, the rest is what lies behind it. What is done with a
module that is found changes neither the dump nor the cursor.
-/

namespace VitaTools.KdumpExtract

open VitaTools.Library

abbrev Word := BitVec 32

def check : List Byte := [0x00, 0x00, 0x00, 0x00, 0x07, 0x00, 0x01, 0x01]

structure Scan where
  off : Word
  i : Word
  -- Whether it is in the inner loop.
  inner : Bool
  -- The offsets for which the module behind the signature was looked at.
  considered : List Nat
  reads : List Nat

namespace Scan

def start : Scan := ⟨0, 0, false, [], []⟩

variable (sz : Nat) (input : Memory)

-- One pass of `while (i < sizeof(check))`.
def compare (s : Scan) : Scan :=
  let read := s.off.toNat + s.i.toNat
  let reads := s.reads ++ [read]
  if input read ≠ check.getD s.i.toNat 0 then
    if s.i = 6 then { s with i := s.i + 1, reads := reads }
    else { s with off := s.off + 1, i := 0, reads := reads }
  else { s with i := s.i + 1, reads := reads }

def finish (s : Scan) : Scan :=
  { s with
    considered := if s.off.toNat < sz then s.considered ++ [s.off.toNat] else s.considered
    off := s.off + 1
    inner := false }

def loop : Loop Scan where
  more s := s.inner || s.off.toNat < sz
  pass s :=
    if s.inner then
      if s.i < 8 ∧ ¬ sz < s.off.toNat then s.compare input else s.finish sz
    else { s with i := 0, inner := true }

end Scan

/-- The signature agrees with the bytes at `off` in its first `count` bytes; the one at 6 may be
anything. -/
def Agrees (input : Memory) (off count : Nat) : Prop :=
  ∀ k < count, k ≠ 6 → input (off + k) = check.getD k 0

instance (input : Memory) (off count : Nat) : Decidable (Agrees input off count) :=
  inferInstanceAs (Decidable (∀ k < count, k ≠ 6 → input (off + k) = check.getD k 0))

/-- The whole signature is at `off`. -/
abbrev Signature (input : Memory) (off : Nat) : Prop := Agrees input off 8

def occurrences (sz : Nat) (input : Memory) : List Nat :=
  (List.range sz).filter fun off => off + 8 ≤ sz ∧ Signature input off

namespace Scan

/-- Each occurrence is considered once, in increasing order, and nothing else. -/
def Exact (sz : Nat) (input : Memory) : Prop :=
  (∀ s, (loop sz input).Visits start s → s.considered <+: occurrences sz input) ∧
    ∃ s, (loop sz input).Visits start s ∧ s.considered = occurrences sz input

def Inside (sz : Nat) (input : Memory) : Prop :=
  ∀ s, (loop sz input).Visits start s → ∀ read ∈ s.reads, read < sz

end Scan

theorem Agrees.zero (input : Memory) (off : Nat) : Agrees input off 0 := by
  intro k none
  exact absurd none (Nat.not_lt_zero k)

theorem agrees_succ {input : Memory} {off count : Nat} :
    Agrees input off (count + 1) ↔
      Agrees input off count ∧ (count ≠ 6 → input (off + count) = check.getD count 0) := by
  constructor
  · intro agrees
    exact ⟨fun k below => agrees k (Nat.lt_succ_of_lt below), agrees count (Nat.lt_succ_self count)⟩
  · rintro ⟨before, last⟩ k below
    rcases Nat.lt_succ_iff_lt_or_eq.mp below with earlier | rfl
    · exact before k earlier
    · exact last

theorem Agrees.mono {input : Memory} {off count less : Nat} (agrees : Agrees input off count)
    (least : less ≤ count) : Agrees input off less :=
  fun k below => agrees k (Nat.lt_of_lt_of_le below least)

theorem exists_miss {input : Memory} {off : Nat} (missing : ¬ Signature input off) :
    ∃ k < 8, Agrees input off k ∧ ¬ Agrees input off (k + 1) := by
  by_contra none
  push Not at none
  have all (k : Nat) : k ≤ 8 → Agrees input off k := by
    induction k with
    | zero => exact fun _ => .zero input off
    | succ k ih => exact fun below => none k below (ih (by omega))
  exact missing (all 8 (Nat.le_refl 8))

namespace Scan

variable {sz : Nat} {input : Memory} {s : Scan}

theorem compare_hit {k : Nat} (place : s.i = BitVec.ofNat 32 k) (small : k < 8)
    (agrees : Agrees input s.off.toNat (k + 1)) :
    s.compare input =
      { s with i := BitVec.ofNat 32 (k + 1), reads := s.reads ++ [s.off.toNat + k] } := by
  have value : s.i.toNat = k := by
    rw [place, BitVec.toNat_ofNat]
    omega
  have next : s.i + 1 = BitVec.ofNat 32 (k + 1) := by
    rw [place, BitVec.ofNat_add]
    rfl
  unfold compare
  simp only [value, next]
  split
  case isTrue other =>
    have wild : k = 6 := by
      by_contra plain
      exact other ((agrees_succ.mp agrees).2 plain)
    rw [if_pos (by rw [place, wild]; rfl)]
  case isFalse => rfl

theorem compare_miss {k : Nat} (place : s.i = BitVec.ofNat 32 k) (small : k < 8)
    (agrees : Agrees input s.off.toNat k) (missing : ¬ Agrees input s.off.toNat (k + 1)) :
    s.compare input =
      { s with off := s.off + 1, i := 0, reads := s.reads ++ [s.off.toNat + k] } := by
  have value : s.i.toNat = k := by
    rw [place, BitVec.toNat_ofNat]
    omega
  have plain : k ≠ 6 ∧ input (s.off.toNat + k) ≠ check.getD k 0 := by
    rw [agrees_succ] at missing
    exact Classical.not_imp.mp fun last => missing ⟨agrees, last⟩
  have listed : s.i ≠ 6 := fun six => plain.1 (by rw [← value, six]; rfl)
  unfold compare
  simp only [value]
  rw [if_pos plain.2, if_neg listed]

theorem pass_compare (inner : s.inner = true) (small : s.i < 8) (inside : s.off.toNat ≤ sz) :
    (loop sz input).more s = true ∧ (loop sz input).pass s = s.compare input := by
  refine ⟨by simp [loop, inner], ?_⟩
  have goes : s.i < 8 ∧ ¬ sz < s.off.toNat := ⟨small, Nat.not_lt.mpr inside⟩
  simp only [loop, inner, if_true, if_pos goes]

theorem pass_finish (inner : s.inner = true) (left : 8 ≤ s.i ∨ sz < s.off.toNat) :
    (loop sz input).more s = true ∧ (loop sz input).pass s = s.finish sz := by
  refine ⟨by simp [loop, inner], ?_⟩
  have ended : ¬ (s.i < 8 ∧ ¬ sz < s.off.toNat) := by
    rintro ⟨small, inside⟩
    rcases left with done | behind
    · exact absurd small (BitVec.not_lt.mpr done)
    · exact inside behind
  simp only [loop, inner, if_true, if_neg ended]

theorem pass_enter (outer : s.inner = false) (more : s.off.toNat < sz) :
    (loop sz input).more s = true ∧
      (loop sz input).pass s = { s with i := 0, inner := true } :=
  ⟨by simp [loop, outer, more], by simp [loop, outer]⟩

/-- After `count` comparisons at its offset. -/
def compared (s : Scan) (count : Nat) : Scan :=
  { s with
    i := BitVec.ofNat 32 count
    reads := s.reads ++ (List.range count).map (s.off.toNat + ·) }

theorem visits_compared (inner : s.inner = true) (first : s.i = 0) (inside : s.off.toNat ≤ sz)
    {count : Nat} (small : count ≤ 8) (agrees : Agrees input s.off.toNat count) :
    (loop sz input).Visits s (s.compared count) := by
  induction count with
  | zero =>
      have same : s.compared 0 = s := by simp [compared, show 0#32 = s.i from first.symm]
      rw [same]
      exact .start
  | succ count ih =>
      have before := ih (by omega) (agrees.mono (Nat.le_succ count))
      have less : (s.compared count).i < 8 := by
        rw [BitVec.lt_def, compared, BitVec.toNat_ofNat]
        exact Nat.lt_of_le_of_lt (Nat.mod_le _ _) small
      obtain ⟨more, passed⟩ := @pass_compare sz input (s.compared count) inner less inside
      have next := before.next more
      rw [passed, compare_hit (s := s.compared count) rfl small agrees] at next
      simpa only [compared, List.range_succ, List.map_append, List.map_singleton,
        List.append_assoc] using next

def Ready (s : Scan) : Prop := s.inner = true → s.i = 0

def hit (input : Memory) (off : Nat) : List Nat := if Signature input off then [off] else []

theorem visits_next (ready : s.Ready) (inside : s.off.toNat < sz) :
    ∃ t, (loop sz input).Visits s t ∧ t.Ready ∧ t.off = s.off + 1 ∧
      t.considered = s.considered ++ hit input s.off.toNat ∧
      (t.inner = false → Signature input s.off.toNat) ∧
      ∀ k < 8, Agrees input s.off.toNat k → s.off.toNat + k ∈ t.reads := by
  obtain ⟨r, entered, inner, first, off, considered⟩ : ∃ r, (loop sz input).Visits s r ∧
      r.inner = true ∧ r.i = 0 ∧ r.off = s.off ∧ r.considered = s.considered := by
    cases inner : s.inner with
    | true => exact ⟨s, .start, inner, ready inner, rfl, rfl⟩
    | false =>
        obtain ⟨more, passed⟩ := @pass_enter sz input s inner inside
        exact ⟨{ s with i := 0, inner := true }, passed ▸ Loop.Visits.next .start more,
          rfl, rfl, rfl, rfl⟩
  rw [← off] at inside ⊢
  rw [← considered]
  by_cases found : Signature input r.off.toNat
  case pos =>
    have compared := visits_compared inner first inside.le (Nat.le_refl 8) found
    obtain ⟨more, passed⟩ := @pass_finish sz input (r.compared 8) inner
        (.inl (show (8 : Word) ≤ 8 by decide))
    refine ⟨(r.compared 8).finish sz, passed ▸ entered.trans (compared.next more), ?_, rfl,
      ?_, fun _ => found, ?_⟩
    · intro again
      cases again
    · simp [finish, Scan.compared, hit, found, inside]
    · intro k small _
      simp [finish, Scan.compared, small]
  case neg =>
    obtain ⟨k, small, agrees, missing⟩ := exists_miss found
    have compared := visits_compared inner first inside.le small.le agrees
    have less : (r.compared k).i < 8 := by
      rw [BitVec.lt_def, Scan.compared, BitVec.toNat_ofNat]
      exact Nat.lt_of_le_of_lt (Nat.mod_le _ _) small
    obtain ⟨more, passed⟩ := @pass_compare sz input (r.compared k) inner less inside.le
    rw [compare_miss (s := r.compared k) rfl small agrees missing] at passed
    refine ⟨_, passed ▸ entered.trans (compared.next more), fun _ => rfl, rfl, ?_, ?_, ?_⟩
    · simp [Scan.compared, hit, found]
    · intro outer
      rw [show (r.compared k).inner = true from inner] at outer
      contradiction
    · intro j below reached
      have least : j ≤ k := by
        by_contra beyond
        exact missing (reached.mono (by omega))
      simp only [Scan.compared, List.mem_append, List.mem_map, List.mem_range,
        List.mem_singleton]
      rcases Nat.lt_or_eq_of_le least with earlier | rfl
      · exact .inl (.inr ⟨j, earlier, rfl⟩)
      · exact .inr rfl

/-- What is considered on the way over `count` offsets. -/
def hits (input : Memory) (off : Word) (count : Nat) : List Nat :=
  (List.range count).flatMap fun k => hit input (off + BitVec.ofNat 32 k).toNat

theorem visits_over (ready : s.Ready) {count : Nat}
    (inside : ∀ k < count, (s.off + BitVec.ofNat 32 k).toNat < sz) :
    ∃ t, (loop sz input).Visits s t ∧ t.Ready ∧ t.off = s.off + BitVec.ofNat 32 count ∧
      t.considered = s.considered ++ hits input s.off count := by
  induction count with
  | zero => exact ⟨s, .start, ready, by simp, by simp [hits]⟩
  | succ count ih =>
      obtain ⟨t, before, readyThen, off, considered⟩ :=
        ih fun k below => inside k (Nat.lt_succ_of_lt below)
      have here : t.off.toNat < sz := by
        rw [off]
        exact inside count (Nat.lt_succ_self count)
      obtain ⟨u, next, readyNext, offNext, consideredNext, -, -⟩ := visits_next readyThen here
      refine ⟨u, before.trans next, readyNext, ?_, ?_⟩
      · rw [offNext, off, BitVec.ofNat_add, BitVec.add_assoc]
        rfl
      · rw [consideredNext, considered, off, hits, hits, List.range_succ, List.flatMap_append,
          List.append_assoc, List.flatMap_singleton]

/-- Only what agrees with the signature makes it look further. -/
structure Sound (sz : Nat) (input : Memory) (s : Scan) : Prop where
  small : s.i.toNat ≤ 8
  agrees : s.inner = true → Agrees input s.off.toNat s.i.toNat
  considered : ∀ off ∈ s.considered, off < sz ∧ off < 2 ^ 32 ∧ Signature input off
  reads : ∀ read ∈ s.reads, ∃ off < 2 ^ 32, ∃ k < 8, Agrees input off k ∧ read = off + k

theorem pass_cases (goes : (loop sz input).more s = true) (sound : s.Sound sz input) :
    s.inner = false ∧ s.off.toNat < sz ∧
        (loop sz input).pass s = { s with i := 0, inner := true } ∨
      s.inner = true ∧ s.i.toNat < 8 ∧ s.off.toNat ≤ sz ∧
        (Agrees input s.off.toNat (s.i.toNat + 1) ∧
            (loop sz input).pass s =
              { s with
                i := BitVec.ofNat 32 (s.i.toNat + 1)
                reads := s.reads ++ [s.off.toNat + s.i.toNat] } ∨
          ¬ Agrees input s.off.toNat (s.i.toNat + 1) ∧
            (loop sz input).pass s =
              { s with
                off := s.off + 1
                i := 0
                reads := s.reads ++ [s.off.toNat + s.i.toNat] }) ∨
      s.inner = true ∧ (Signature input s.off.toNat ∨ sz < s.off.toNat) ∧
        (loop sz input).pass s = s.finish sz := by
  have place : s.i = BitVec.ofNat 32 s.i.toNat := by simp
  by_cases inner : s.inner = true
  case neg =>
      have outer := Bool.eq_false_of_not_eq_true inner
      have more : s.off.toNat < sz := by simpa [loop, outer] using goes
      exact .inl ⟨outer, more, (pass_enter outer more).2⟩
  case pos =>
      refine .inr ?_
      by_cases compares : s.i.toNat < 8 ∧ s.off.toNat ≤ sz
      case pos =>
        refine .inl ⟨inner, compares.1, compares.2, ?_⟩
        rw [(pass_compare inner (BitVec.lt_def.mpr compares.1) compares.2).2]
        by_cases agrees : Agrees input s.off.toNat (s.i.toNat + 1)
        case pos => exact .inl ⟨agrees, compare_hit place compares.1 agrees⟩
        case neg =>
          exact .inr ⟨agrees, compare_miss place compares.1 (sound.agrees inner) agrees⟩
      case neg =>
        have small := sound.small
        rcases Nat.lt_or_ge sz s.off.toNat with behind | inside
        · exact .inr ⟨inner, .inr behind, (pass_finish inner (.inr behind)).2⟩
        · have all : s.i.toNat = 8 := by omega
          have found := sound.agrees inner
          rw [all] at found
          exact .inr ⟨inner, .inl found,
            (pass_finish inner (.inl (BitVec.le_def.mpr (Nat.le_of_eq all.symm)))).2⟩

theorem mem_append_read {reads : List Nat} {holds : Nat → Prop} {last : Nat}
    (before : ∀ read ∈ reads, holds read) (here : holds last) :
    ∀ read ∈ reads ++ [last], holds read := by
  intro read member
  rcases List.mem_append.mp member with earlier | this
  · exact before read earlier
  · rw [List.mem_singleton.mp this]
    exact here

theorem Sound.pass (sound : s.Sound sz input) (goes : (loop sz input).more s = true) :
    ((loop sz input).pass s).Sound sz input := by
  rcases pass_cases goes sound with ⟨-, -, passed⟩ |
    ⟨inner, less, -, ⟨agrees, passed⟩ | ⟨missing, passed⟩⟩ | ⟨inner, found, passed⟩
  · rw [passed]
    exact ⟨Nat.zero_le 8, fun _ => .zero input _, sound.considered, sound.reads⟩
  · have value : (BitVec.ofNat 32 (s.i.toNat + 1)).toNat = s.i.toNat + 1 := by
      rw [BitVec.toNat_ofNat]
      omega
    rw [passed]
    refine ⟨?_, fun _ => ?_, sound.considered, mem_append_read sound.reads
      ⟨_, s.off.isLt, _, less, sound.agrees inner, rfl⟩⟩
    · change (BitVec.ofNat 32 (s.i.toNat + 1)).toNat ≤ 8
      rwa [value]
    · change Agrees input s.off.toNat (BitVec.ofNat 32 (s.i.toNat + 1)).toNat
      rwa [value]
  · rw [passed]
    exact ⟨Nat.zero_le 8, fun _ => .zero input _, sound.considered, mem_append_read sound.reads
      ⟨_, s.off.isLt, _, less, sound.agrees inner, rfl⟩⟩
  · rw [passed]
    refine ⟨sound.small, (by intro again; cases again), ?_, sound.reads⟩
    simp only [finish]
    split
    case isTrue inside =>
      have signature : Signature input s.off.toNat := by
        rcases found with here | behind
        · exact here
        · exact absurd inside (Nat.lt_asymm behind)
      exact mem_append_read sound.considered ⟨inside, s.off.isLt, signature⟩
    case isFalse => exact sound.considered

theorem sound_of_visits (visited : (loop sz input).Visits start s) : s.Sound sz input := by
  apply visited.invariant (Sound sz input)
  · exact ⟨Nat.zero_le 8, (by intro inner; cases inner), by simp [start], by simp [start]⟩
  · exact fun s _ sound goes => sound.pass goes

/-- The offsets below `count` that are considered. -/
def hitsBelow (sz : Nat) (input : Memory) (count : Nat) : List Nat :=
  (List.range count).filter fun off => off < sz ∧ Signature input off

theorem hitsBelow_succ (off : Nat) :
    hitsBelow sz input (off + 1) =
      hitsBelow sz input off ++ if off < sz ∧ Signature input off then [off] else [] := by
  rw [hitsBelow, List.range_succ, List.filter_append, List.filter_singleton]
  simp only [Bool.cond_decide, hitsBelow]

structure Counted (sz : Nat) (input : Memory) (s : Scan) : Prop where
  place : s.off.toNat ≤ sz + 2
  inside : s.inner = true → s.off.toNat ≤ sz + 1
  considered : s.considered = hitsBelow sz input s.off.toNat

def remaining (sz : Nat) (s : Scan) : Nat :=
  (sz + 3 - s.off.toNat) * 20 + if s.inner then 8 - s.i.toNat else 9

theorem Counted.pass (room : sz + 2 < 2 ^ 32) (sound : s.Sound sz input)
    (counted : s.Counted sz input) (goes : (loop sz input).more s = true) :
    ((loop sz input).pass s).Counted sz input ∧
      remaining sz ((loop sz input).pass s) < remaining sz s := by
  obtain ⟨place, inside, considered⟩ := counted
  rcases pass_cases goes sound with ⟨outer, more, passed⟩ |
    ⟨inner, less, most, ⟨agrees, passed⟩ | ⟨missing, passed⟩⟩ | ⟨inner, found, passed⟩
  · rw [passed]
    exact ⟨⟨place, fun _ => by change s.off.toNat ≤ sz + 1; omega, considered⟩,
      by simp [remaining, outer]⟩
  · rw [passed]
    refine ⟨⟨place, inside, considered⟩, ?_⟩
    simp only [remaining, inner, if_true, BitVec.toNat_ofNat]
    omega
  · have next : (s.off + 1).toNat = s.off.toNat + 1 := by
      rw [BitVec.toNat_add]
      exact Nat.mod_eq_of_lt (by change s.off.toNat + 1 < _; omega)
    have none : ¬ (s.off.toNat < sz ∧ Signature input s.off.toNat) :=
      fun both => missing (both.2.mono (by omega))
    rw [passed]
    refine ⟨⟨?_, fun _ => ?_, ?_⟩, ?_⟩
    · change (s.off + 1).toNat ≤ sz + 2
      omega
    · change (s.off + 1).toNat ≤ sz + 1
      omega
    · change s.considered = hitsBelow sz input (s.off + 1).toNat
      rw [next, hitsBelow_succ, if_neg none, List.append_nil, considered]
    · simp only [remaining, inner, if_true, next]
      omega
  · have most := inside inner
    have next : (s.off + 1).toNat = s.off.toNat + 1 := by
      rw [BitVec.toNat_add]
      exact Nat.mod_eq_of_lt (by change s.off.toNat + 1 < _; omega)
    rw [passed]
    refine ⟨⟨?_, (by intro again; cases again), ?_⟩, ?_⟩
    · change (s.off + 1).toNat ≤ sz + 2
      omega
    · simp only [finish]
      rw [next, hitsBelow_succ, considered]
      split
      case isTrue here =>
        have signature : Signature input s.off.toNat :=
          found.resolve_right (Nat.lt_asymm here)
        rw [if_pos ⟨here, signature⟩]
      case isFalse beyond => rw [if_neg fun both => beyond both.1, List.append_nil]
    · simp only [remaining, inner, if_true, finish, next, Bool.false_eq_true, if_false]
      omega

theorem counted_of_visits (room : sz + 2 < 2 ^ 32) (visited : (loop sz input).Visits start s) :
    s.Counted sz input := by
  apply visited.invariant (Counted sz input)
  · exact ⟨Nat.zero_le _, (by intro inner; cases inner), rfl⟩
  · exact fun s before counted goes => (counted.pass room (sound_of_visits before) goes).1

theorem returns (room : sz + 2 < 2 ^ 32) : (loop sz input).Returns start := by
  refine Loop.returns_of_falls (fun s => s.Sound sz input ∧ s.Counted sz input) (remaining sz)
    ?_ start ⟨sound_of_visits .start, counted_of_visits room .start⟩
  rintro s ⟨sound, counted⟩ goes
  obtain ⟨countedNext, falls⟩ := counted.pass room sound goes
  exact ⟨⟨sound.pass goes, countedNext⟩, falls⟩

theorem mem_occurrences {off : Nat} :
    off ∈ occurrences sz input ↔ off + 8 ≤ sz ∧ Signature input off := by
  simp only [occurrences, List.mem_filter, List.mem_range, decide_eq_true_eq]
  exact ⟨fun both => both.2, fun both => ⟨by omega, both⟩⟩

theorem mem_hits {first : Word} {count off : Nat} :
    off ∈ hits input first count ↔
      Signature input off ∧ ∃ k < count, (first + BitVec.ofNat 32 k).toNat = off := by
  simp only [hits, List.mem_flatMap, List.mem_range, hit]
  constructor
  · rintro ⟨k, below, member⟩
    split at member
    case isTrue signature =>
      obtain rfl := List.mem_singleton.mp member
      exact ⟨signature, k, below, rfl⟩
    case isFalse => cases member
  · rintro ⟨signature, k, below, rfl⟩
    exact ⟨k, below, by rw [if_pos signature]; exact List.mem_singleton_self _⟩

theorem visits_offset {off : Nat} (range : off < 2 ^ 32) (inside : off ≤ sz) :
    ∃ s, (loop sz input).Visits start s ∧ s.Ready ∧ s.off.toNat = off ∧
      s.considered = hits input 0 off := by
  have value {k : Nat} (below : k ≤ off) : ((0 : Word) + BitVec.ofNat 32 k).toNat = k := by
    rw [show (0 : Word) + BitVec.ofNat 32 k = BitVec.ofNat 32 k from BitVec.zero_add _,
      BitVec.toNat_ofNat]
    omega
  obtain ⟨s, visited, ready, place, considered⟩ :=
    @visits_over sz input start (by intro inner; cases inner) off
      (fun k below => by
        change ((0 : Word) + BitVec.ofNat 32 k).toNat < sz
        rw [value below.le]
        omega)
  refine ⟨s, visited, ready, ?_, considered⟩
  rw [place]
  exact value (Nat.le_refl off)

theorem not_inside (positive : 0 < sz) (room : sz < 2 ^ 32) : ¬ Inside sz input := by
  intro all
  obtain ⟨s, visited, ready, place, -⟩ := @visits_offset sz input (sz - 1) (by omega) (by omega)
  obtain ⟨t, next, readyThen, off, -, left, reads⟩ :=
    visits_next ready (by omega : s.off.toNat < sz)
  have reached := visited.trans next
  have offset : t.off.toNat = sz := by
    rw [off, BitVec.toNat_add, place, show ((1 : Word)).toNat = 1 from rfl]
    omega
  cases inner : t.inner with
  | false =>
      have signature := left inner
      have read := reads 1 (by omega) (signature.mono (by omega))
      have := all t reached _ read
      omega
  | true =>
      obtain ⟨more, passed⟩ := @pass_compare sz input t inner
        (by rw [readyThen inner]; decide) (Nat.le_of_eq offset)
      have read : sz ∈ (t.compare input).reads := by
        have first : t.off.toNat + t.i.toNat = sz := by
          rw [readyThen inner, offset]
          rfl
        unfold compare
        simp only [first]
        split_ifs <;> simp
      have := all _ (reached.next more) sz (passed ▸ read)
      omega

theorem exact_iff (room : sz + 2 < 2 ^ 32) :
    Exact sz input ↔ ∀ off < sz, Signature input off → off + 8 ≤ sz := by
  constructor
  · rintro ⟨prefixes, -⟩ off inside signature
    obtain ⟨s, visited, ready, place, -⟩ := @visits_offset sz input off (by omega) (by omega)
    obtain ⟨t, next, -, -, considered, -⟩ := visits_next ready (by omega : s.off.toNat < sz)
    have member : off ∈ t.considered := by
      rw [considered, place, hit, if_pos signature]
      exact List.mem_append_right _ (List.mem_singleton_self off)
    exact (mem_occurrences.mp ((prefixes t (visited.trans next)).subset member)).1
  · intro uncut
    have same (count : Nat) : hitsBelow sz input count =
        (List.range count).filter fun off => off + 8 ≤ sz ∧ Signature input off := by
      apply List.filter_congr
      intro off _
      refine decide_eq_decide.mpr ⟨fun both => ⟨uncut off both.1 both.2, both.2⟩, ?_⟩
      exact fun both => ⟨by omega, both.2⟩
    constructor
    · intro s visited
      obtain ⟨place, -, considered⟩ := counted_of_visits room visited
      have whole : occurrences sz input = hitsBelow sz input (sz + 2) := by
        rw [hitsBelow_succ, hitsBelow_succ, if_neg (by omega), if_neg (by omega), List.append_nil,
          List.append_nil, same, occurrences]
      have first : List.range s.off.toNat <+: List.range (sz + 2) := by
        rw [List.prefix_iff_eq_take, List.length_range, List.take_range, Nat.min_eq_left place]
      rw [considered, whole]
      exact first.filter _
    · obtain ⟨s, visited, -, place, -⟩ := @visits_offset sz input sz (by omega) (Nat.le_refl sz)
      refine ⟨s, visited, ?_⟩
      rw [(counted_of_visits room visited).considered, place, same, occurrences]

theorem no_occurrence (exactly : Exact sz input) (wide : 2 ^ 32 ≤ sz) (off : Nat)
    (inside : off + 8 ≤ sz) : ¬ Signature input off := by
  intro signature
  obtain ⟨prefixes, final, visitedFinal, whole⟩ := exactly
  have range : off < 2 ^ 32 := by
    have member : off ∈ final.considered := by
      rw [whole]
      exact mem_occurrences.mpr ⟨inside, signature⟩
    exact ((sound_of_visits visitedFinal).considered off member).2.1
  obtain ⟨s, visited, ready, place, -⟩ := @visits_offset sz input _ range (by omega)
  obtain ⟨t, next, readyThen, offNext, considered, -⟩ :=
    visits_next ready (by omega : s.off.toNat < sz)
  have around (k : Nat) : (t.off + BitVec.ofNat 32 k).toNat < sz :=
    Nat.lt_of_lt_of_le (t.off + BitVec.ofNat 32 k).isLt wide
  obtain ⟨u, again, -, -, consideredAgain⟩ :=
    @visits_over _ _ _ readyThen (2 ^ 32) fun k _ => around k
  have once : off ∈ t.considered := by
    rw [considered, place, hit, if_pos signature]
    exact List.mem_append_right _ (List.mem_singleton_self off)
  have twice : off ∈ hits input t.off (2 ^ 32) := by
    refine mem_hits.mpr ⟨signature, 2 ^ 32 - 1, by omega, ?_⟩
    rw [offNext, BitVec.add_assoc, show (1 : Word) + BitVec.ofNat 32 (2 ^ 32 - 1) = 0#32 from rfl,
      BitVec.add_zero, place]
  have reached := (visited.trans next).trans again
  have distinct : (t.considered ++ hits input t.off (2 ^ 32)).Nodup := by
    rw [← consideredAgain]
    exact (List.nodup_range.filter _).sublist (prefixes u reached).sublist
  exact (List.nodup_append.mp distinct).2.2 off once off twice rfl

/-- A dump that leaves the cursor room makes the scan read behind it. Else the cursor wraps
around, and there may be nothing to find. -/
theorem scan_iff (input : Memory) (long : 8 ≤ sz) :
    (Exact sz input ∧ Inside sz input ↔
      2 ^ 32 ≤ sz ∧ (∀ off, off + 8 ≤ sz → ¬ Signature input off) ∧
        ∀ off < 2 ^ 32, ∀ k < 8, Agrees input off k → off + k < sz) ∧
      (sz + 2 < 2 ^ 32 → (loop sz input).Returns start ∧
        (Exact sz input ↔ ∀ off < sz, Signature input off → off + 8 ≤ sz)) := by
  refine ⟨⟨?_, ?_⟩, fun room => ⟨returns room, exact_iff room⟩⟩
  · rintro ⟨exactly, inside⟩
    have wide : 2 ^ 32 ≤ sz := by
      by_contra narrow
      exact not_inside (by omega) (by omega) inside
    refine ⟨wide, no_occurrence exactly wide, fun off range k small agrees => ?_⟩
    obtain ⟨s, visited, ready, place, -⟩ := @visits_offset sz input _ range (by omega)
    obtain ⟨t, next, -, -, -, -, reads⟩ := visits_next ready (by omega : s.off.toNat < sz)
    have read := reads k small (place ▸ agrees)
    rw [place] at read
    exact inside t (visited.trans next) _ read
  · rintro ⟨wide, none, uncut⟩
    have empty : occurrences sz input = [] := by
      refine List.eq_nil_iff_forall_not_mem.mpr fun off member => ?_
      obtain ⟨inside, signature⟩ := mem_occurrences.mp member
      exact none off inside signature
    have nothing : ∀ s, (loop sz input).Visits start s → s.considered = [] := by
      intro s visited
      refine List.eq_nil_iff_forall_not_mem.mpr fun off member => ?_
      obtain ⟨-, range, signature⟩ := (sound_of_visits visited).considered off member
      have last := uncut off range 7 (by omega) (signature.mono (by omega))
      exact none off (by omega) signature
    refine ⟨⟨fun s visited => ?_, start, .start, empty.symm⟩, fun s visited read member => ?_⟩
    · rw [nothing s visited]
      exact List.nil_prefix
    · obtain ⟨off, range, k, small, agrees, rfl⟩ := (sound_of_visits visited).reads read member
      exact uncut off range k small agrees

theorem scan_iff_zeros :
    (Exact 8 (fun _ => 0) ∧ Inside 8 (fun _ => 0) ↔
      2 ^ 32 ≤ 8 ∧ (∀ off, off + 8 ≤ 8 → ¬ Signature (fun _ => 0) off) ∧
        ∀ off < 2 ^ 32, ∀ k < 8, Agrees (fun _ => 0) off k → off + k < 8) ∧
      (8 + 2 < 2 ^ 32 → (loop 8 fun _ => 0).Returns start ∧
        (Exact 8 (fun _ => 0) ↔ ∀ off < 8, Signature (fun _ => 0) off → off + 8 ≤ 8)) :=
  scan_iff (fun _ => 0) (Nat.le_refl 8)

-- A dump of eight zeros.
theorem zeros_read_behind : ¬ (Exact 8 (fun _ => 0) ∧ Inside 8 (fun _ => 0)) :=
  fun both => not_inside (by decide) (by decide) both.2

end Scan

end VitaTools.KdumpExtract
