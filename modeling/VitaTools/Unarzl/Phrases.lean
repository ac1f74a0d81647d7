import VitaTools.Library.Lz
import VitaTools.Unarzl.CodeBits

set_option autoImplicit false

namespace VitaTools.Unarzl

open VitaTools.Library

/-- What the format has codes for. Short copies use the smaller position tree. -/
def Coded (length distance : Nat) : Prop :=
  2 ≤ length ∧ length ≤ 255 ∧ (length ≤ 3 → distance < 2 ^ 8)

namespace Coder

variable (input : Memory)

theorem codeBits_range (cell : Int) (n : Nat) (c : Coder) :
    2 ^ (n + 1) ≤ (c.codeBits input cell n).1 ∧ (c.codeBits input cell n).1 < 2 ^ (n + 2) := by
  obtain ⟨bits, count, value, -⟩ := codeBits_gathers input cell n c
  have range := leadingOne_range bits
  rw [count] at range
  rwa [value, List.append_nil]

theorem positionLoop_below (v34 : Int) (v105 fuel v61 : Nat) (c : Coder) (below : v61 < v105)
    (eighths : 8 ∣ v61) (eighth : 8 ∣ v105) :
    (c.positionLoop input v34 v105 fuel v61).1 < 2 * v105 := by
  induction fuel generalizing v61 c with
  | zero =>
      dsimp only [positionLoop]
      omega
  | succ fuel ih =>
      have bit := Bool.toNat_lt (c.treeBit input (v34 + v61 + 2033)).1
      dsimp only [positionLoop]
      split_ifs with again
      · exact ih _ _ again (by omega)
      · dsimp only
        omega

end Coder

namespace Decoder

section

variable (p : Args)

-- The phrase the next step settles. The last byte of a copy is still to be stored then.
def phrases (s : Decoder) : List (Phrase Byte) :=
  match s.pc with
  | .literal => if s.v8 = p.buflen then [] else [.literal (BitVec.ofNat 8 (s.step p).v9)]
  | .copy =>
      if s.v66 < s.v8 ∧ s.v8 + s.v35 < p.buflen then [.copy (s.v35 + 1) (s.v66 + 1)] else []
  | .store | .length | .position | .distance | .done _ => []

def runPhrases : Nat → Decoder → List (Phrase Byte)
  | 0, _ => []
  | n + 1, s => s.phrases p ++ runPhrases n (s.step p)

theorem runPhrases_succ (n : Nat) (s : Decoder) :
    runPhrases p (n + 1) s = runPhrases p n s ++ (s.run p n).phrases p := by
  induction n generalizing s with
  | zero => simp [runPhrases, run]
  | succ n ih =>
      rw [runPhrases, ih, runPhrases, List.append_assoc]
      rfl

end

def byte (s : Decoder) : Byte := BitVec.ofNat 8 s.v9

def Told (s : Decoder) (phrases : List (Phrase Byte)) : Prop :=
  ∃ text, Lies s.out 0 text ∧
    match s.pc with
    | .literal | .length => Makes Coded phrases text ∧ s.v8 = text.length
    | .store => Makes Coded phrases (text ++ [s.byte]) ∧ s.i = text.length
    | .position =>
        Makes Coded phrases text ∧ s.v8 = text.length ∧ 1 ≤ s.v35 ∧ s.v35 ≤ 254 ∧
          (s.v35 ≤ 2 → s.v105 = 64)
    | .distance =>
        Makes Coded phrases text ∧ s.v8 = text.length ∧ 1 ≤ s.v35 ∧ s.v35 ≤ 254 ∧
          (s.v35 ≤ 2 → s.slot ≤ 7)
    | .copy =>
        Makes Coded phrases text ∧ s.v8 = text.length ∧ 1 ≤ s.v35 ∧ s.v35 ≤ 254 ∧
          (s.v35 ≤ 2 → s.v66 + 1 < 2 ^ 8)
    | .done ret =>
        ret = badDistance ∨ ret = outOfSpace ∨ Makes Coded phrases text ∧ ret = text.length

theorem lies_store {out : Memory} {text : List Byte} (lies : Lies out 0 text) (b : Byte) :
    Lies (Function.update out text.length b) 0 (text ++ [b]) := by
  rw [lies_append]
  refine ⟨lies_congr lies fun k _ below => Function.update_of_ne (by omega) _ _, ?_⟩
  simp [Lies]

theorem lies_behind {out : Memory} {text : List Byte} (lies : Lies out 0 text) {distance : Nat}
    (back : 1 ≤ distance) (inside : distance ≤ text.length) :
    out (text.length - distance) = itemBehind distance text := by
  have item := lies_getD lies default (k := text.length - distance) (by omega)
  rwa [Nat.zero_add] at item

theorem copyLoop_copies (count : Nat) (s : Decoder) (text : List Byte) (lies : Lies s.out 0 text)
    (inside : s.v66 + 1 ≤ text.length) (next : s.byte = itemBehind (s.v66 + 1) text) :
    Lies (copyLoop count text.length s).out 0 (copies (s.v66 + 1) count text) ∧
      (copyLoop count text.length s).byte =
        itemBehind (s.v66 + 1) (copies (s.v66 + 1) count text) := by
  induction count generalizing s text with
  | zero => exact ⟨lies, next⟩
  | succ count ih =>
      have stored := lies_store lies s.byte
      have longer : (text ++ [s.byte]).length = text.length + 1 := by simp
      have source := lies_behind stored (Nat.succ_pos s.v66) (by omega)
      let t := { s with
        out := Function.update s.out text.length s.byte
        accesses := .load (text.length + 1 - (s.v66 + 1)) :: .store text.length :: s.accesses
        v9 := (Function.update s.out text.length s.byte (text.length + 1 - (s.v66 + 1))).toNat }
      have loaded : t.byte = itemBehind (t.v66 + 1) (text ++ [s.byte]) := by
        rw [← source, longer]
        exact BitVec.ofNat_toNat _ _
      have rest := ih t (text ++ [s.byte]) stored (inside.trans (by omega)) loaded
      rw [longer] at rest
      rw [copies, ← next]
      exact rest

theorem stepCopy_copies {p : Args} {s : Decoder} {text : List Byte} (lies : Lies s.out 0 text)
    (cursor : s.v8 = text.length) (inside : s.v66 < s.v8) (room : s.v8 + s.v35 < p.buflen) :
    Lies (s.stepCopy p).out 0 (copies (s.v66 + 1) s.v35 text) ∧
      (s.stepCopy p).byte = itemBehind (s.v66 + 1) (copies (s.v66 + 1) s.v35 text) ∧
      (s.stepCopy p).pc = .store ∧ (s.stepCopy p).i = text.length + s.v35 := by
  let loaded := { s with
    v9 := (s.out (s.v8 - (s.v66 + 1))).toNat
    accesses := .load (s.v8 - (s.v66 + 1)) :: s.accesses }
  have next : loaded.byte = itemBehind (loaded.v66 + 1) text := by
    rw [← lies_behind lies (Nat.succ_pos s.v66) (by omega), ← cursor]
    exact BitVec.ofNat_toNat _ _
  obtain ⟨copied, last⟩ := copyLoop_copies s.v35 loaded text lies
    (by rw [← cursor]; exact inside) next
  rw [← cursor] at copied last ⊢
  have stepped : s.stepCopy p = { copyLoop s.v35 s.v8 loaded with
      pc := .store, v11 := 7, i := s.v8 + s.v35 } := (if_neg (by omega)).trans (if_pos room)
  rw [stepped]
  exact ⟨copied, last, rfl, rfl⟩

section

variable (p : Args)

theorem told_start (out : Memory) : Told (p.start out) [] := ⟨[], trivial, .nil, rfl⟩

theorem step_told (s : Decoder) (bounds : Bounds s) (phrases : List (Phrase Byte))
    (told : Told s phrases) : Told (s.step p) (phrases ++ s.phrases p) := by
  obtain ⟨small, located⟩ := bounds
  obtain ⟨text, lies, told⟩ := told
  unfold Decoder.phrases
  cases pc : s.pc <;> simp only [pc, List.append_nil] at located told ⊢
  case literal =>
    obtain ⟨made, cursor⟩ := told
    have stepped : s.step p = s.stepLiteral p := by unfold step; rw [pc]
    rw [stepped]
    unfold stepLiteral
    split_ifs with full
    · refine ⟨text, lies, ?_⟩
      exact .inr (.inl rfl)
    · exact ⟨text, lies, .literal made _, cursor⟩
  case store =>
    obtain ⟨made, cursor⟩ := told
    have stepped : s.step p = s.stepStore p := by unfold step; rw [pc]
    have stored := lies_store lies s.byte
    have longer : text.length + 1 = (text ++ [s.byte]).length := by simp
    rw [stepped]
    unfold stepStore
    dsimp only
    rw [cursor]
    split_ifs with flag none
    · exact ⟨_, stored, made, longer, Nat.le_refl 1, Nat.le_add_left 1 253, fun _ => rfl⟩
    · exact ⟨_, stored, made, longer⟩
    · exact ⟨_, stored, made, longer⟩
  case length =>
    obtain ⟨made, cursor⟩ := told
    have stepped : s.step p = s.stepLength p := by unfold step; rw [pc]
    obtain ⟨least, most⟩ := Coder.codeBits_range p.input (s.lengthCell p + 2984)
      s.v28.toNat s.coder
    have low : 2 ^ 1 ≤ 2 ^ (s.v28.toNat + 1) := Nat.pow_le_pow_right (by decide) (by omega)
    have high : 2 ^ (s.v28.toNat + 2) ≤ 2 ^ 8 := Nat.pow_le_pow_right (by decide) (by omega)
    have range : 2 ≤ (s.coder.lengthCode p.input (s.lengthCell p) s.v28).1 ∧
        (s.coder.lengthCode p.input (s.lengthCell p) s.v28).1 ≤ 255 := by
      unfold Coder.lengthCode
      omega
    rw [stepped]
    unfold stepLength
    dsimp only
    split_ifs with last short
    · exact ⟨text, lies, .inr (.inr ⟨made, cursor⟩)⟩
    · refine ⟨text, lies, made, cursor, ?_⟩
      dsimp only
      omega
    · refine ⟨text, lies, made, cursor, ?_⟩
      dsimp only
      omega
  case position =>
    obtain ⟨made, cursor, least, most, near⟩ := told
    obtain ⟨-, -, size⟩ := located
    have stepped : s.step p = s.stepPosition p := by unfold step; rw [pc]
    have below := Coder.positionLoop_below p.input s.v34 s.v105 5 8 s.coder (by omega)
      (by omega) (by omega)
    rw [stepped]
    unfold stepPosition
    dsimp only
    split_ifs with far
    · refine ⟨text, lies, made, cursor, least, most, fun short => ?_⟩
      have small := near short
      dsimp only [slot]
      rw [Nat.shiftRight_eq_div_pow]
      omega
    · refine ⟨text, lies, made, cursor, least, most, fun short => ?_⟩
      dsimp only
      omega
  case distance =>
    obtain ⟨made, cursor, least, most, near⟩ := told
    have stepped : s.step p = s.stepDistance p := by unfold step; rw [pc]
    obtain ⟨low, high⟩ := Coder.codeBits_range p.input (s.distanceCell + 2344) (s.slot - 1) s.coder
    rw [stepped]
    refine ⟨text, lies, made, cursor, least, most, fun short => ?_⟩
    have few := near short
    have bound : 2 ^ (s.slot - 1 + 2) ≤ 2 ^ 8 := Nat.pow_le_pow_right (by decide) (by omega)
    dsimp only [stepDistance, Coder.distanceCode]
    omega
  case copy =>
    obtain ⟨made, cursor, least, most, near⟩ := told
    have stepped : s.step p = s.stepCopy p := by unfold step; rw [pc]
    rw [stepped]
    by_cases far : s.v8 ≤ s.v66
    next =>
      have stopped : s.stepCopy p = { s with pc := .done badDistance } := if_pos far
      rw [stopped, if_neg (by omega)]
      exact ⟨text, lies, .inl rfl⟩
    next =>
      by_cases room : s.v8 + s.v35 < p.buflen
      next =>
        have inside : s.v66 < s.v8 := Nat.lt_of_not_le far
        obtain ⟨copied, last, next, index⟩ := stepCopy_copies lies cursor inside room
        rw [if_pos ⟨inside, room⟩]
        refine ⟨_, copied, ?_⟩
        rw [next, last, ← copies_succ, copies_length]
        exact ⟨.copy made (Nat.succ_pos _) (by omega) ⟨by omega, by omega, fun short =>
          near (by omega)⟩, index⟩
      next =>
        have stopped : s.stepCopy p = { s with
            v9 := (s.out (s.v8 - (s.v66 + 1))).toNat
            accesses := .load (s.v8 - (s.v66 + 1)) :: s.accesses
            pc := .done outOfSpace } := (if_neg far).trans (if_neg room)
        rw [stopped, if_neg (by omega), List.append_nil]
        exact ⟨text, lies, .inr (.inl rfl)⟩
  case done ret =>
    have stepped : s.step p = s := step_done p pc
    rw [stepped]
    refine ⟨text, lies, ?_⟩
    rw [pc]
    exact told

theorem run_told (out : Memory) (n : Nat) :
    Told ((p.start out).run p n) (runPhrases p n (p.start out)) := by
  induction n with
  | zero => exact told_start p out
  | succ n ih =>
      rw [run_succ, runPhrases_succ]
      exact step_told p _ (run_bounds p n _ (bounds_start p out)) _ ih

theorem runPhrases_done {s : Decoder} {ret : Nat} (pc : s.pc = .done ret) (n : Nat) :
    runPhrases p n s = [] := by
  induction n with
  | zero => rfl
  | succ n ih =>
      rw [runPhrases, step_done p pc, ih]
      unfold Decoder.phrases
      rw [pc]
      rfl

theorem runPhrases_add (m n : Nat) (s : Decoder) :
    runPhrases p (m + n) s = runPhrases p m s ++ runPhrases p n (s.run p m) := by
  induction m generalizing s with
  | zero =>
      rw [Nat.zero_add]
      rfl
  | succ m ih =>
      rw [Nat.succ_add, runPhrases, ih, runPhrases, List.append_assoc]
      rfl

end

end Decoder

end VitaTools.Unarzl
