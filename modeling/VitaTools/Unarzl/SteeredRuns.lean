import VitaTools.Unarzl.CodeBits

set_option autoImplicit false

namespace VitaTools.Unarzl

open VitaTools.Library

def Args.reading (p : Args) (input : Memory) : Args := { p with input := input }

namespace Decoder

def withCoder (s : Decoder) (c : Coder) : Decoder := { s with coder := c }

def withCode (s : Decoder) (v7 : Nat) : Decoder := s.withCoder (s.coder.withCode v7)

structure Parts (p : Args) (s : Decoder) {α : Type} (piece : Memory → Coder → α × Coder)
    (finish : α → Coder → Decoder) : Prop where
  steers : Coder.Steers piece
  coder : ∀ a d, (finish a d).coder = d
  code : ∀ a d v7, finish a (d.withCode v7) = (finish a d).withCode v7
  step : ∀ input code, input 0 = p.input 0 →
    (s.withCode code).step (p.reading input) =
      finish (piece input (s.coder.withCode code)).1 (piece input (s.coder.withCode code)).2

def InParts (p : Args) (s : Decoder) : Prop :=
  ∃ (α : Type) (piece : Memory → Coder → α × Coder) (finish : α → Coder → Decoder),
    Parts p s piece finish

variable (p : Args)

theorem literalTree_reading (s : Decoder) (input : Memory) (code : Nat)
    (head : input 0 = p.input 0) :
    (s.withCode code).literalTree (p.reading input) = s.literalTree p := by
  have shift : (p.reading input).v6 = p.v6 :=
    congrArg (fun byte : Byte => byte.toNat &&& 7) head
  unfold literalTree
  rw [shift]
  rfl

theorem literal_parts (s : Decoder) (pc : s.pc = .literal) : InParts p s := by
  by_cases full : s.v8 = p.buflen
  next =>
    refine ⟨Unit, fun _ c => ((), c), fun _ d => { s with pc := .done outOfSpace, coder := d },
      .pure (), fun _ _ => rfl, fun _ _ _ => rfl, fun input code head => ?_⟩
    unfold step
    rw [show (s.withCode code).pc = .literal from pc]
    exact if_pos full
  next =>
    refine ⟨Nat, fun input c => c.literalLoop input (s.literalTree p) 8 1,
      fun v9 d => { s with pc := .store, coder := d, v9 := v9, i := s.v8 },
      Coder.literalLoop_steers _ 8 1, fun _ _ => rfl, fun _ _ _ => rfl, fun input code head => ?_⟩
    unfold step
    rw [show (s.withCode code).pc = .literal from pc]
    dsimp only [stepLiteral]
    rw [literalTree_reading p s input code head]
    exact if_neg full

theorem store_parts (s : Decoder) (pc : s.pc = .store) : InParts p s := by
  -- The class is 0 where none is decoded.
  have rest (flag : Bool) : Coder.Steers fun input c =>
      if flag then ((flag, (c.classLoop input s.v11 7 (-1)).1), (c.classLoop input s.v11 7 (-1)).2)
      else ((flag, 0), c) := by
    split
    · exact (Coder.classLoop_steers s.v11 7 (-1)).bind fun v28 => .pure (flag, v28)
    · exact .pure _
  let stored := { s with
    out := Function.update s.out s.i (BitVec.ofNat 8 s.v9)
    accesses := .store s.i :: s.accesses
    v8 := s.i + 1 }
  refine ⟨Bool × Int, _, fun a d =>
      if a.1 then
        if a.2 = -1 then
          { stored with
            pc := .position, coder := d, v28 := a.2, v35 := 1, v34 := a.2 + 248, v105 := 64 }
        else { stored with pc := .length, coder := d, v28 := a.2, v34 := a.2 }
      else { stored with pc := .literal, coder := d, v11 := s.v11 - 1 },
    (Coder.flagBit_steers (s.v11 + 2920)).bind rest, fun a d => ?_, fun a d v7 => ?_,
    fun input code head => ?_⟩
  · split_ifs <;> rfl
  · split_ifs <;> rfl
  · unfold step
    rw [show (s.withCode code).pc = .store from pc]
    dsimp only [stepStore, Args.reading, withCode, withCoder]
    cases ((s.coder.withCode code).flagBit input (s.v11 + 2920)).1
    · rfl
    · rfl

theorem length_parts (s : Decoder) (pc : s.pc = .length) : InParts p s := by
  refine ⟨Nat, fun input c => c.lengthCode input (s.lengthCell p) s.v28, fun v35 d =>
      if v35 = 255 then { s with pc := .done s.v8, coder := d, v35 := v35, endptr := d.input1 + 5 }
      else if v35 ≠ 2 then { s with pc := .position, coder := d, v35 := v35, v105 := 256 }
      else { s with pc := .position, coder := d, v35 := v35, v34 := s.v34 + 248, v105 := 64 },
    Coder.codeBits_steers _ _, fun v35 d => ?_, fun v35 d v7 => ?_, fun input code head => ?_⟩
  · split_ifs <;> rfl
  · split_ifs <;> rfl
  · unfold step
    rw [show (s.withCode code).pc = .length from pc]
    rfl

theorem position_parts (s : Decoder) (pc : s.pc = .position) : InParts p s := by
  refine ⟨Nat, fun input c => c.positionLoop input s.v34 s.v105 5 8, fun v61 d =>
      { s with
        pc := if v61 ≠ s.v105 then .distance else .copy
        coder := d
        v66 := v61 - s.v105 },
    Coder.positionLoop_steers _ _ 5 8, fun _ _ => rfl, fun _ _ _ => rfl,
    fun input code head => ?_⟩
  unfold step
  rw [show (s.withCode code).pc = .position from pc]
  rfl

theorem distance_parts (s : Decoder) (pc : s.pc = .distance) : InParts p s := by
  refine ⟨Nat, fun input c => c.distanceCode input s.distanceCell s.slot, fun v75 d =>
      { s with pc := .copy, coder := d, v66 := v75 - 1 },
    Coder.codeBits_steers _ _, fun _ _ => rfl, fun _ _ _ => rfl, fun input code head => ?_⟩
  unfold step
  rw [show (s.withCode code).pc = .distance from pc]
  rfl

theorem copyLoop_withCoder (count v95 : Nat) (s : Decoder) (c : Coder) :
    copyLoop count v95 (s.withCoder c) = (copyLoop count v95 s).withCoder c := by
  induction count generalizing v95 s with
  | zero => rfl
  | succ count ih =>
      let stored := Function.update s.out v95 (BitVec.ofNat 8 s.v9)
      exact ih (v95 + 1) { s with
        out := stored
        accesses := .load (v95 + 1 - (s.v66 + 1)) :: .store v95 :: s.accesses
        v9 := (stored (v95 + 1 - (s.v66 + 1))).toNat }

theorem stepCopy_withCoder (s : Decoder) (c : Coder) :
    (s.withCoder c).stepCopy p = (s.stepCopy p).withCoder c := by
  let loaded : Decoder := { s with
    v9 := (s.out (s.v8 - (s.v66 + 1))).toNat
    accesses := .load (s.v8 - (s.v66 + 1)) :: s.accesses }
  by_cases far : s.v8 ≤ s.v66
  next =>
    have stopped : s.stepCopy p = { s with pc := .done badDistance } := if_pos far
    rw [stopped]
    exact if_pos far
  next =>
    by_cases room : s.v8 + s.v35 < p.buflen
    next =>
      have copied : s.stepCopy p = { copyLoop s.v35 s.v8 loaded with
          pc := .store, v11 := 7, i := s.v8 + s.v35 } := (if_neg far).trans (if_pos room)
      have again : (s.withCoder c).stepCopy p = { copyLoop s.v35 s.v8 (loaded.withCoder c) with
          pc := .store, v11 := 7, i := s.v8 + s.v35 } := (if_neg far).trans (if_pos room)
      rw [copied, again, copyLoop_withCoder]
      rfl
    next =>
      have stopped : s.stepCopy p = { loaded with pc := .done outOfSpace } :=
        (if_neg far).trans (if_neg room)
      rw [stopped]
      exact (if_neg far).trans (if_neg room)

theorem copy_parts (s : Decoder) (pc : s.pc = .copy) : InParts p s := by
  refine ⟨Unit, fun _ c => ((), c), fun _ d => (s.stepCopy p).withCoder d, .pure (),
    fun _ _ => rfl, fun _ _ _ => rfl, fun input code head => ?_⟩
  unfold step
  rw [show (s.withCode code).pc = .copy from pc]
  exact stepCopy_withCoder p s (s.coder.withCode code)

theorem step_parts (s : Decoder) : InParts p s := by
  cases pc : s.pc with
  | literal => exact literal_parts p s pc
  | store => exact store_parts p s pc
  | length => exact length_parts p s pc
  | position => exact position_parts p s pc
  | distance => exact distance_parts p s pc
  | copy => exact copy_parts p s pc
  | done ret =>
      refine ⟨Unit, fun _ c => ((), c), fun _ d => s.withCoder d, .pure (), fun _ _ => rfl,
        fun _ _ _ => rfl, fun input code head => ?_⟩
      unfold step
      rw [show (s.withCode code).pc = .done ret from pc]
      rfl

theorem step_leads (s : Decoder) (sized : Coder.Sized s.coder) :
    Coder.Sized (s.step p).coder ∧
      Coder.Leads s.coder (s.step p).coder fun ahead code v7 => ahead 0 = p.input 0 →
        (s.withCode code).step (p.reading ahead) = (s.step p).withCode v7 := by
  obtain ⟨α, piece, finish, parts⟩ := step_parts p s
  have own : s.step p = finish (piece p.input s.coder).1 (piece p.input s.coder).2 :=
    parts.step p.input s.coder.v7 rfl
  rw [own, parts.coder]
  refine ⟨parts.steers.sized _ _ sized, (parts.steers.leads p.input s.coder sized).mono ?_⟩
  intro ahead code v7 goes head
  rw [parts.step ahead code head, goes, parts.code]

theorem run_leads (n : Nat) (s : Decoder) (sized : Coder.Sized s.coder) :
    Coder.Sized (s.run p n).coder ∧
      Coder.Leads s.coder (s.run p n).coder fun ahead code v7 => ahead 0 = p.input 0 →
        (s.withCode code).run (p.reading ahead) n = (s.run p n).withCode v7 := by
  induction n with
  | zero =>
      refine ⟨sized, (Coder.Leads.refl s.coder).mono fun ahead code v7 same head => ?_⟩
      rw [same]
      rfl
  | succ n ih =>
      obtain ⟨between, leads⟩ := ih
      rw [run_succ]
      obtain ⟨last, onward⟩ := step_leads p (s.run p n) between
      refine ⟨last, (leads.trans onward).mono ?_⟩
      rintro ahead code v7 ⟨middle, goes, comes⟩ head
      rw [run_succ, goes head, comes head]

end Decoder

def stream (head : Byte) (code : Nat) (ahead : Memory) : Memory := fun k =>
  if k = 0 then head
  else if k < 5 then BitVec.ofNat 8 (code / 2 ^ (8 * (4 - k)))
  else ahead k

theorem stream_header (p : Args) (code : Nat) (ahead : Memory) (word : code < 2 ^ 32) :
    (p.reading (stream (p.input 0) code ahead)).header = code := by
  have digit (k : Nat) (low : 0 < k) (high : k < 5) :
      (stream (p.input 0) code ahead k).toNat = code / 2 ^ (8 * (4 - k)) % 2 ^ 8 := by
    unfold stream
    rw [if_neg (by omega), if_pos high, BitVec.toNat_ofNat]
  unfold Args.header Args.reading
  dsimp only
  rw [digit 1 (by decide) (by decide), digit 2 (by decide) (by decide),
    digit 3 (by decide) (by decide), digit 4 (by decide) (by decide)]
  norm_num
  omega

theorem stream_start (p : Args) (out : Memory) (code : Nat) (ahead : Memory)
    (word : code < 2 ^ 32) :
    (p.reading (stream (p.input 0) code ahead)).start out = (p.start out).withCode code := by
  have header := stream_header p code ahead word
  unfold Args.start Args.initialCoder
  rw [header]
  rfl

/-- For `n` steps the run of `q` is that of `p` but for the code word. -/
structure Follows (p q : Args) (out : Memory) (n : Nat) : Prop where
  buffer : q.buffer = p.buffer
  buflen : q.buflen = p.buflen
  head : q.input 0 = p.input 0
  same : ∃ v7, (q.start out).run q n = ((p.start out).run p n).withCode v7

def Inside (p : Args) (out : Memory) (n : Nat) : Prop :=
  ∀ touch ∈ ((p.start out).run p n).coder.touched, InTable touch.index

theorem Inside.earlier {p : Args} {out : Memory} {n : Nat} (inside : Inside p out (n + 1)) :
    Inside p out n := by
  intro touch member
  have later := (Decoder.step_touches p _ (Decoder.run_bounds p n _
    (Decoder.bounds_start p out))).subset member
  rw [← Decoder.run_succ] at later
  exact inside touch later

theorem Inside.succ {p : Args} {out : Memory} {n : Nat} (inside : Inside p out n)
    (near : ((p.start out).run p n).pc = .distance → ((p.start out).run p n).slot ≤ 28) :
    Inside p out (n + 1) := by
  have touches := Decoder.step_touches p _ (Decoder.run_bounds p n _ (Decoder.bounds_start p out))
  unfold Inside
  rw [Decoder.run_succ]
  refine (touches.mono fun index within => ?_).all inside
  rcases within with table | ⟨pc, far⟩
  · exact table
  · exact absurd (near pc) (Nat.not_le.mpr far)

theorem Follows.compressed {p q : Args} {out : Memory} {n : Nat} (follows : Follows p q out n) :
    q.compressed = p.compressed := by
  unfold Args.compressed
  rw [follows.head]

theorem Follows.inside {p q : Args} {out : Memory} {n : Nat} (follows : Follows p q out n)
    (inside : Inside p out n) : Inside q out n := by
  obtain ⟨v7, same⟩ := follows.same
  unfold Inside
  rw [same]
  exact inside

theorem Follows.inside_succ {p q : Args} {out : Memory} {n : Nat} (follows : Follows p q out n)
    (inside : Inside p out (n + 1)) : Inside q out (n + 1) := by
  obtain ⟨v7, same⟩ := follows.same
  have near := Decoder.near_of_inside p (Decoder.bounds_start p out) inside n (by omega)
  apply (follows.inside inside.earlier).succ
  rw [same]
  exact near

theorem follows_stream {p : Args} {out : Memory} {n : Nat} (d : Coder) (room : 0 < d.v10)
    {goes : Memory → Nat → Nat → Prop}
    (leads : Coder.Leads ((p.start out).run p n).coder d goes) :
    ∃ q v7, Follows p q out n ∧
      (q.start out).run q n = ((p.start out).run p n).withCode v7 ∧ goes q.input v7 0 := by
  have sized : Coder.Sized (p.start out).coder := (Decoder.start_healthy p out).sized
  obtain ⟨-, before⟩ := Decoder.run_leads p n (p.start out) sized
  obtain ⟨code, below, ahead, goes⟩ := (before.trans leads).back 0 room
  have word : code < 2 ^ 32 := Nat.lt_trans below (by decide : 2 ^ 32 - 1 < 2 ^ 32)
  obtain ⟨v7, comes, next⟩ := goes (stream (p.input 0) code ahead) fun k least _ => by
    have far : 5 ≤ k := Nat.le_trans (Nat.le_add_left _ _) least
    unfold stream
    rw [if_neg (by omega), if_neg (by omega)]
  have run := comes rfl
  rw [← stream_start p out code ahead word] at run
  exact ⟨p.reading (stream (p.input 0) code ahead), v7, ⟨rfl, rfl, rfl, v7, run⟩, run, next⟩

end VitaTools.Unarzl
