import Mathlib.Data.List.GetD
import Mathlib.Data.Nat.Log
import VitaTools.Unarzl.BufferSize
import VitaTools.Unarzl.Encode

set_option autoImplicit false

namespace VitaTools.Unarzl

open VitaTools.Library

namespace Decoder

section

variable {p : Args} {out : Memory} {s : Decoder} {phrases : List (Phrase Byte)}

theorem length_reaches (reaches : Reaches p out s phrases) (pc : s.pc = .store) (v35 : Nat)
    (least : 1 ≤ v35) (most : v35 ≤ 254) :
    ∃ t, Reaches p out t phrases ∧ t.pc = .position ∧ t.out = s.storing.out ∧ t.v8 = s.i + 1 ∧
      t.v35 = v35 ∧ t.v105 = if v35 ≤ 2 then 64 else 256 := by
  by_cases two : v35 = 1
  next =>
    obtain ⟨t, met, memory, cursor, position, -⟩ :=
      class_next reaches pc (-1) (by omega) (by omega)
    obtain ⟨next, length, tree⟩ := position rfl
    subst two
    exact ⟨t, met, next, memory, cursor, length, tree⟩
  next =>
    have low := Nat.pow_log_le_self 2 (by omega : v35 ≠ 0)
    have high := Nat.lt_pow_succ_log_self (by decide : 1 < 2) v35
    have few : Nat.log 2 v35 < 8 := Nat.log_lt_of_lt_pow (by omega) (by omega)
    have some_ : 1 ≤ Nat.log 2 v35 := Nat.le_log_of_pow_le (by decide) (by omega)
    obtain ⟨t, met, memory, cursor, -, coded⟩ :=
      class_next reaches pc (Nat.log 2 v35 - 1 : Nat) (by omega) (by omega)
    obtain ⟨next, class_⟩ := coded (by omega)
    have bits : t.v28.toNat + 1 = Nat.log 2 v35 := by rw [class_]; omega
    obtain ⟨u, again, -, same, still, -, more⟩ := length_next met next v35
      (by rw [bits]; exact low) (by rw [Nat.add_succ, bits]; exact high)
    obtain ⟨last, length, tree⟩ := more (by omega)
    refine ⟨u, again, last, same.trans memory, still.trans cursor, length, tree.trans ?_⟩
    exact if_congr (by omega) rfl rfl

theorem distance_reaches (reaches : Reaches p out s phrases) (pc : s.pc = .position)
    {distance : Nat} (back : 1 ≤ distance) (near : distance < 2 ^ 29)
    (tree : s.v105 = 256 ∨ s.v105 = 64 ∧ distance < 2 ^ 8) :
    ∃ t, Reaches p out t phrases ∧ t.pc = .copy ∧ t.out = s.out ∧ t.v8 = s.v8 ∧
      t.v35 = s.v35 ∧ t.v66 + 1 = distance := by
  have low := Nat.pow_log_le_self 2 (by omega : distance ≠ 0)
  have high := Nat.lt_pow_succ_log_self (by decide : 1 < 2) distance
  have few : Nat.log 2 distance < 29 := Nat.log_lt_of_lt_pow (by omega) near
  have slots : 8 * Nat.log 2 distance + 8 ≤ s.v105 := by
    rcases tree with large | ⟨small, short⟩
    · omega
    · have fewer : Nat.log 2 distance < 8 := Nat.log_lt_of_lt_pow (by omega) short
      omega
  obtain ⟨t, met, memory, cursor, length, first, later⟩ := position_next reaches pc slots
  by_cases none : Nat.log 2 distance = 0
  next =>
    obtain ⟨next, zero⟩ := first none
    rw [none] at high
    exact ⟨t, met, next, memory, cursor, length, by omega⟩
  next =>
    obtain ⟨next, slot⟩ := later (by omega)
    rw [← slot] at low high
    obtain ⟨u, again, last, same, still, kept, value⟩ :=
      distance_next met next (by omega) low high
    exact ⟨u, again, last, same.trans memory, still.trans cursor, kept.trans length, value⟩

end

end Decoder

/-- Led runs get to where all of `text` but its last byte is in the buffer, and that one comes
next. -/
def Writes (p : Args) (out : Memory) (phrases : List (Phrase Byte)) (text : List Byte) : Prop :=
  ∃ s front, Decoder.Reaches p out s phrases ∧ s.pc = .store ∧ Lies s.out 0 front ∧
    s.i = front.length ∧ text = front ++ [s.byte]

section

variable {p : Args} {out : Memory} {phrases : List (Phrase Byte)} {text : List Byte}

theorem writes_first (room : p.buflen ≠ 0) (b : Byte) : Writes p out [.literal b] [b] := by
  obtain ⟨t, reaches, pc, memory, index, last⟩ :=
    Decoder.literal_reaches (Decoder.reaches_start p out) rfl room.symm b
  exact ⟨t, [], reaches, pc, trivial, index, by rw [last]; rfl⟩

theorem lies_storing {s : Decoder} {front : List Byte} (lies : Lies s.out 0 front)
    (index : s.i = front.length) : Lies s.storing.out 0 (front ++ [s.byte]) := by
  have stored := Decoder.lies_store lies s.byte
  rwa [← index] at stored

theorem Writes.literal (writes : Writes p out phrases text) (room : text.length < p.buflen)
    (b : Byte) : Writes p out (phrases ++ [.literal b]) (text ++ [b]) := by
  obtain ⟨s, front, reaches, pc, lies, index, rfl⟩ := writes
  rw [List.length_append, List.length_singleton] at room
  obtain ⟨t, met, next, memory, cursor⟩ := Decoder.literal_next reaches pc
  obtain ⟨u, again, last, same, place, byte⟩ := Decoder.literal_reaches met next (by omega) b
  refine ⟨u, front ++ [s.byte], again, last, ?_, ?_, by rw [byte]⟩
  · rw [same, memory]
    exact lies_storing lies index
  · rw [place, cursor, index, List.length_append, List.length_singleton]

theorem Writes.copy (writes : Writes p out phrases text) {length distance : Nat}
    (coded : Coded length distance) (near : distance < 2 ^ 29) (back : 1 ≤ distance)
    (inside : distance ≤ text.length) (room : text.length + length ≤ p.buflen) :
    Writes p out (phrases ++ [.copy length distance]) (copies distance length text) := by
  obtain ⟨s, front, reaches, pc, lies, index, rfl⟩ := writes
  obtain ⟨least, most, short⟩ := coded
  have cursor : s.i + 1 = (front ++ [s.byte]).length := by simp [index]
  obtain ⟨t, met, next, memory, place, count, tree⟩ :=
    Decoder.length_reaches reaches pc (length - 1) (by omega) (by omega)
  have small : t.v105 = 256 ∨ t.v105 = 64 ∧ distance < 2 ^ 8 := by
    by_cases few : length - 1 ≤ 2
    · exact .inr ⟨tree.trans (if_pos few), short (by omega)⟩
    · exact .inl (tree.trans (if_neg few))
  obtain ⟨u, again, last, same, still, kept, value⟩ :=
    Decoder.distance_reaches met next back near small
  have held : Lies u.out 0 (front ++ [s.byte]) := by
    rw [same, memory]
    exact lies_storing lies index
  have now : u.v8 = (front ++ [s.byte]).length := by rw [still, place, cursor]
  obtain ⟨w, final, store, copied, behind, byte⟩ :=
    Decoder.copy_next again last held now (by omega) (by omega)
  rw [kept, count, value] at final copied byte
  rw [kept, count] at behind
  rw [Nat.sub_add_cancel (by omega : 1 ≤ length)] at final
  refine ⟨w, _, final, store, copied, by rw [behind, copies_length], ?_⟩
  rw [byte, ← copies_succ, Nat.sub_add_cancel (by omega : 1 ≤ length)]

theorem writes_of_makes (p : Args) (out : Memory) (made : Makes Coded phrases text)
    (phrased : phrases ≠ []) (short : text.length ≤ 2 ^ 29) (room : text.length ≤ p.buflen) :
    Writes p out phrases text := by
  induction made with
  | nil => contradiction
  | @literal phrases text made item ih =>
      rw [List.length_append, List.length_singleton] at short room
      by_cases first : phrases = []
      next =>
        subst first
        rw [made.text_empty] at room ⊢
        exact writes_first (by simpa using Nat.ne_of_gt room) item
      next => exact (ih first (by omega) (by omega)).literal room item
  | @copy phrases text made length distance back inside fits ih =>
      rw [copies_length] at short room
      have least := fits.1
      have before : phrases ≠ [] := by
        rintro rfl
        rw [made.text_empty, List.length_nil] at inside
        omega
      exact (ih before (by omega) (by omega)).copy fits (by omega) back inside room

theorem Writes.ends (writes : Writes p out phrases text) :
    ∃ s, Decoder.Reaches p out s phrases ∧ s.pc = .done text.length ∧ Lies s.out 0 text ∧
      0 < s.coder.v10 := by
  obtain ⟨s, front, reaches, pc, lies, index, rfl⟩ := writes
  obtain ⟨t, met, memory, cursor, -, coded⟩ :=
    Decoder.class_next reaches pc 6 (by decide) (by decide)
  obtain ⟨next, last⟩ := coded (by decide)
  obtain ⟨u, final, room, same, -, ends, -⟩ := Decoder.length_next met next 255
    (by rw [last]; decide) (by rw [last]; decide)
  refine ⟨u, final, ?_, ?_, room⟩
  · rw [ends rfl, cursor, index, List.length_append, List.length_singleton]
  · rw [same, memory]
    exact lies_storing lies index

end

theorem stream_of_reaches {p : Args} {out : Memory} {s : Decoder}
    {phrases : List (Phrase Byte)} (reaches : Decoder.Reaches p out s phrases)
    (room : 0 < s.coder.v10) :
    ∃ input n v7, input 0 = p.input 0 ∧
      ((p.reading input).start out).run (p.reading input) n = s.withCode v7 ∧
      Decoder.runPhrases (p.reading input) n ((p.reading input).start out) = phrases := by
  obtain ⟨n, leads⟩ := reaches.leads
  obtain ⟨code, below, ahead, goes⟩ := leads.back 0 room
  have word : code < 2 ^ 32 := Nat.lt_trans below (by decide : 2 ^ 32 - 1 < 2 ^ 32)
  refine ⟨stream (p.input 0) code ahead, n, 0, rfl, ?_⟩
  rw [stream_start p out code ahead word]
  refine goes (stream (p.input 0) code ahead) (fun k least _ => ?_) rfl
  have far : 5 ≤ k := Nat.le_trans (Nat.le_add_left _ _) least
  unfold stream
  rw [if_neg (by omega), if_neg (by omega)]

def Args.phrases (p : Args) (out : Memory) : List (Phrase Byte) :=
  Decoder.runPhrases p (6 * (p.buflen + 1)) (p.start out)

/-- The call returns the length of `text` with `text` in the buffer, made of these phrases, and
what lies behind it is left alone. -/
structure Unpacks (p : Args) (out : Memory) (phrases : List (Phrase Byte)) (text : List Byte) :
    Prop where
  returns : (arzlDecompress p out).pc = .done text.length
  buffer : (arzlDecompress p out).out = fun k => text.getD k (out k)
  phrases : p.phrases out = phrases

section

variable {p : Args} {out : Memory} {phrases : List (Phrase Byte)} {text : List Byte}

theorem unpacks_of_run (mode : p.compressed = true) (short : text.length < 2 ^ 31) {n : Nat}
    (pc : ((p.start out).run p n).pc = .done text.length)
    (lies : Lies ((p.start out).run p n).out 0 text)
    (told : Decoder.runPhrases p n (p.start out) = phrases) : Unpacks p out phrases text := by
  -- Neither run goes on once it is done.
  have later (m : Nat) : (p.start out).run p (n + m) = (p.start out).run p n := by
    rw [Decoder.run_add, Decoder.run_done p pc]
  have same : arzlDecompress p out = (p.start out).run p n := by
    rw [← arzlDecompress_steps p out mode (n + 6 * (p.buflen + 1)) (Nat.le_add_left _ _), later]
  have returns : (arzlDecompress p out).pc = .done text.length := by rw [same, pc]
  refine ⟨returns, ?_, ?_⟩
  · funext k
    by_cases inside : k < text.length
    next =>
      have byte := lies_getD lies (out k) inside
      rwa [Nat.zero_add, ← same] at byte
    next =>
      rw [arzlDecompress_behind returns short k (by omega), List.getD_eq_default _ _ (by omega)]
  · have done : ((p.start out).run p (6 * (p.buflen + 1))).pc = .done text.length := by
      rw [arzlDecompress_steps p out mode _ (Nat.le_refl _), returns]
    have first := Decoder.runPhrases_add p n (6 * (p.buflen + 1)) (p.start out)
    have second := Decoder.runPhrases_add p (6 * (p.buflen + 1)) n (p.start out)
    rw [Decoder.runPhrases_done p pc, List.append_nil, told] at first
    rw [Decoder.runPhrases_done p done, List.append_nil, Nat.add_comm] at second
    exact second.symm.trans first

theorem makes_of_unpacks (mode : p.compressed = true) (short : text.length ≤ 2 ^ 29)
    (unpacks : Unpacks p out phrases text) :
    phrases ≠ [] ∧ text.length ≤ p.buflen ∧ Makes Coded phrases text := by
  obtain ⟨returns, buffer, settled⟩ := unpacks
  obtain ⟨ret, pc, range⟩ := arzlDecompress_bounded p out mode
  obtain rfl : text.length = ret := Point.done.inj (returns.symm.trans pc)
  have bad : text.length ≠ badDistance := by unfold badDistance; omega
  have full : text.length ≠ outOfSpace := by unfold outOfSpace; omega
  obtain ⟨made, lies, told⟩ := Decoder.run_told p out (6 * (p.buflen + 1))
  rw [arzlDecompress_steps p out mode _ (Nat.le_refl _)] at lies told
  simp only [returns, bad, full, false_or] at told
  obtain ⟨makes, size⟩ := told
  have same : made = text := by
    refine List.ext_getElem size.symm fun k within inside => ?_
    have byte := lies_getD lies 0 within
    rw [Nat.zero_add, buffer] at byte
    dsimp only at byte
    rw [List.getD_eq_getElem _ _ inside, List.getD_eq_getElem _ _ within] at byte
    exact byte.symm
  rw [same] at makes
  change Makes Coded (p.phrases out) text at makes
  rw [settled] at makes
  refine ⟨?_, by omega, makes⟩
  rintro rfl
  rw [makes.text_empty, List.length_nil] at range bad full
  omega

end

/-- Whatever the first byte says of the contexts and of the initial odds, the streams that start
with it and unpack to `text` by these phrases exist exactly for the phrases that make `text`. -/
theorem arzlDecompress_unpacks_iff (p : Args) (mode : p.compressed = true) (out : Memory)
    (phrases : List (Phrase Byte)) (text : List Byte) (short : text.length ≤ 2 ^ 29) :
    (∃ input, input 0 = p.input 0 ∧ Unpacks (p.reading input) out phrases text) ↔
      phrases ≠ [] ∧ text.length ≤ p.buflen ∧ Makes Coded phrases text := by
  have compressed (input : Memory) (head : input 0 = p.input 0) :
      (p.reading input).compressed = true := by
    rw [← mode]
    exact congrArg (fun byte : Byte => byte.toNat &&& 0x80 == 0) head
  constructor
  · rintro ⟨input, head, unpacks⟩
    have made := makes_of_unpacks (compressed input head) short unpacks
    exact made
  · rintro ⟨phrased, room, made⟩
    obtain ⟨s, reaches, pc, lies, open_⟩ := (writes_of_makes p out made phrased short room).ends
    obtain ⟨input, n, v7, head, run, told⟩ := stream_of_reaches reaches open_
    refine ⟨input, head, unpacks_of_run (compressed input head) (by omega) ?_ ?_ told⟩
    · rw [run]
      exact pc
    · rw [run]
      exact lies

-- A byte and a copy that repeats it.
theorem arzlDecompress_unpacks_iff_repeat :
    ∃ input, input 0 = 0 ∧
      Unpacks ((zeros 4).reading input) (fun _ => 0) [.literal 7, .copy 3 1] [7, 7, 7, 7] := by
  have first : Makes Coded [.literal 7] [(7 : Byte)] := .literal .nil 7
  have coded : Coded 3 1 := ⟨by decide, by decide, by decide⟩
  have made : Makes Coded ([.literal 7] ++ [.copy 3 1]) (copies 1 3 [(7 : Byte)]) :=
    first.copy (by decide) (by decide) coded
  exact (arzlDecompress_unpacks_iff (zeros 4) (by decide) _ _ _ (by decide)).mpr
    ⟨List.cons_ne_nil _ _, by decide, made⟩

end VitaTools.Unarzl
