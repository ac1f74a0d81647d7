import VitaTools.Unarzl.FilterInjective

set_option autoImplicit false

namespace VitaTools.Unarzl

open VitaTools.Library

/-- `arzl_deobfuscate` reads and writes only the `len` bytes of its buffer, and
what it leaves there depends on nothing else. -/
structure StaysInside (mem : Memory) (len version : Int) : Prop where
  words : ∀ start ∈ (arzlDeobfuscate mem len version).words, (start : Int) + 4 ≤ len
  beyond : ∀ a : Nat, len ≤ a → (arzlDeobfuscate mem len version).mem a = mem a
  alone : ∀ behind : Memory, (∀ a : Nat, (a : Int) < len → behind a = mem a) →
    ∀ a : Nat, (a : Int) < len →
      (arzlDeobfuscate behind len version).mem a = (arzlDeobfuscate mem len version).mem a

-- The words before `len` follow each other up to it: a word whose upper half has
-- 11110 for its top bits is followed two bytes on, any other four bytes on.
def WordsEndAt (mem : Memory) (len : Int) : Prop := Tiled shortWord len mem 0

theorem body0_words (s : Scan) (start : Nat) :
    (s.body0 start).1.words = s.words ++ [start] := by
  dsimp only [Scan.body0]
  split_ifs <;> rfl

section

variable (len : Int) (s : Scan) (buf : Nat)

theorem loop0_words (inside : (buf : Int) < len) : (s.loop0 len buf).words = s.words ++
    (readings (moveBl back) shortWord len s.mem buf).map Prod.fst := by
  fun_induction Scan.loop0 len s buf with
  | case1 s buf more ih =>
      rw [ih more, body0_words, readings_inside _ _ _ _ _ inside, (body0_eq s buf).1,
        (body0_eq s buf).2, List.append_assoc]
      rfl
  | case2 s buf done =>
      rw [(body0_eq s buf).2] at done
      rw [body0_words, readings_inside _ _ _ _ _ inside, readings, if_neg done]
      rfl

theorem loop1_words : (s.loop1 len buf).words = s.words ++
    (readings (moveBl ahead) shortWord len s.mem buf).map Prod.fst := by
  fun_induction Scan.loop1 len s buf with
  | case1 s buf inside v12 bl ih =>
      rw [ih, readings_inside _ _ _ _ _ inside, moveBl_bl bl, stride_of_isBl bl]
      simp [Scan.label13, Scan.storeBefore, Scan.visit, ahead, v12]
  | case2 s buf inside v12 other ih =>
      rw [ih, label9_eq, readings_inside _ _ _ _ _ inside, moveBl_other other,
        Memory.storeWord_word]
      simp [Scan.visit, v12]
  | case3 s buf outside => rw [readings, if_neg outside, List.map_nil, List.append_nil]

end

theorem arzlDeobfuscate_scan (len version : Int) (positive : 0 < len) :
    ∃ r : Rewriter, r.short = shortWord ∧ ∀ mem : Memory,
      (arzlDeobfuscate mem len version).mem = rescan r.forward r.short len mem 0 ∧
        (arzlDeobfuscate mem len version).words =
          (readings r.forward r.short len mem 0).map Prod.fst := by
  by_cases two : version = 2
  · refine ⟨filterRewriter back, rfl, fun mem => ?_⟩
    rw [two, arzlDeobfuscate_two mem len positive, loop2_mem len _ 0 positive, loop2_words,
      classes2_eq len _ 0 positive, List.nil_append, List.map_map]
    exact ⟨rfl, rfl⟩
  by_cases one : version = 1
  · refine ⟨branchRewriter ahead, rfl, fun mem => ?_⟩
    simp only [arzlDeobfuscate, if_neg positive.ne', if_neg two, if_pos one]
    rw [version1_eq len _ positive, loop1_mem, loop1_words, List.nil_append]
    exact ⟨rfl, rfl⟩
  · refine ⟨branchRewriter back, rfl, fun mem => ?_⟩
    simp only [arzlDeobfuscate, if_neg positive.ne', if_neg two, if_neg one]
    rw [loop0_words len _ 0 positive, List.nil_append]
    exact ⟨loop0_mem len _ 0 positive, rfl⟩

theorem staysInside_empty (mem : Memory) (version : Int) : StaysInside mem 0 version where
  words := by simp [arzlDeobfuscate]
  beyond := by simp [arzlDeobfuscate]
  alone _ _ a before := by omega

theorem words_inside_iff (mem : Memory) (len version : Int) (positive : 0 < len) :
    (∀ start ∈ (arzlDeobfuscate mem len version).words, (start : Int) + 4 ≤ len) ↔
      WordsEndAt mem len := by
  obtain ⟨r, same, scan⟩ := arzlDeobfuscate_scan len version positive
  rw [(scan mem).2, List.forall_mem_map, r.readings_fit_iff 0 positive.le, same]
  rfl

/-- The filter stays inside its buffer exactly when a word ends where the buffer does. -/
theorem arzlDeobfuscate_inside_iff (mem : Memory) (len version : Int) (natural : 0 ≤ len) :
    StaysInside mem len version ↔ WordsEndAt mem len := by
  rcases natural.eq_or_lt with empty | positive
  · subst empty
    exact iff_of_true (staysInside_empty mem version) (.finish rfl)
  obtain ⟨r, same, scan⟩ := arzlDeobfuscate_scan len version positive
  constructor
  · intro inside
    exact (words_inside_iff mem len version positive).mp inside.words
  · intro ends
    have tiled : Tiled r.short len mem 0 := by rwa [same]
    constructor
    next => exact (words_inside_iff mem len version positive).mpr ends
    next =>
      intro a beyond
      rw [(scan mem).1, r.rescan_beyond tiled a beyond]
    next =>
      intro behind agree a before
      rw [(scan mem).1, (scan behind).1, r.rescan_same tiled agree a before]

theorem arzlDeobfuscate_inside_iff_zeros :
    StaysInside (fun _ => 0) 6 2 ↔ WordsEndAt (fun _ => 0) 6 :=
  arzlDeobfuscate_inside_iff _ 6 2 (by decide)

def lastPair : Memory := fun a => ([0x00, 0x00, 0x00, 0xF0, 0x00, 0xF8] : List Byte).getD a 0

theorem lastPair_written :
    ((arzlDeobfuscate lastPair 4 2).mem 4, lastPair 4) = (0xFD, 0x00) := by
  have second : (Scan.body2 ⟨lastPair, []⟩ 0).2 = 2 := by decide
  rw [arzlDeobfuscate_two _ _ (by decide), Scan.loop2, second, if_pos (by decide), Scan.loop2,
    if_neg (by decide)]
  decide

theorem lastPair_not_inside : ¬ StaysInside lastPair 4 2 := by
  intro inside
  have kept := inside.beyond 4 (by decide)
  have written := lastPair_written
  rw [kept] at written
  contradiction

end VitaTools.Unarzl
