import VitaTools.Unarzl.RangeInvariant

set_option autoImplicit false

namespace VitaTools.Unarzl

open VitaTools.Library

namespace Coder

def withCode (c : Coder) (v7 : Nat) : Coder := { c with v7 := v7 }

-- What the type of a cell and that of `v10` promise.
structure Sized (c : Coder) : Prop where
  cells : ∀ index, c.v109 index < 2 ^ 8
  fits : c.v10 < 2 ^ 32

theorem Healthy.sized {low : Nat} {c : Coder} (healthy : Healthy low c) : Sized c :=
  ⟨fun index => Nat.lt_of_le_of_lt (healthy.cells index).2 (by decide), healthy.fits⟩

theorem Sized.withCode {c : Coder} (sized : Sized c) (v7 : Nat) : Sized (c.withCode v7) :=
  ⟨sized.cells, sized.fits⟩

/-- Every code word in the range of `d` comes from one in the range of `c`, given the right
bytes between their cursors. -/
structure Leads (c d : Coder) (goes : Memory → Nat → Nat → Prop) : Prop where
  onward : c.input1 ≤ d.input1
  back : ∀ v7, v7 < d.v10 → ∃ code, code < c.v10 ∧ ∃ ahead : Memory, ∀ input : Memory,
    (∀ k, c.input1 + 5 ≤ k → k < d.input1 + 5 → input k = ahead k) → goes input code v7

theorem Leads.refl (c : Coder) : Leads c c fun _ code v7 => code = v7 :=
  ⟨Nat.le_refl _, fun v7 within => ⟨v7, within, fun _ => 0, fun _ _ => rfl⟩⟩

theorem Leads.mono {c d : Coder} {goes comes : Memory → Nat → Nat → Prop}
    (leads : Leads c d goes)
    (implies : ∀ input code v7, goes input code v7 → comes input code v7) :
    Leads c d comes := by
  refine ⟨leads.onward, fun v7 within => ?_⟩
  obtain ⟨code, below, ahead, same⟩ := leads.back v7 within
  exact ⟨code, below, ahead, fun input agree => implies input code v7 (same input agree)⟩

theorem Leads.recode {c d : Coder} {v7 : Nat} {goes : Memory → Nat → Nat → Prop}
    (leads : Leads (c.withCode v7) d goes) : Leads c d goes := ⟨leads.onward, leads.back⟩

theorem Leads.trans {c d e : Coder} {goes comes : Memory → Nat → Nat → Prop}
    (first : Leads c d goes) (second : Leads d e comes) :
    Leads c e fun input code v7 => ∃ between, goes input code between ∧ comes input between v7 := by
  have onward := first.onward
  have further := second.onward
  refine ⟨onward.trans further, fun v7 within => ?_⟩
  obtain ⟨between, inside, later, comesBack⟩ := second.back v7 within
  obtain ⟨code, below, sooner, goesBack⟩ := first.back between inside
  -- The two pieces fetch disjoint bytes.
  refine ⟨code, below, fun k => if k < d.input1 + 5 then sooner k else later k, ?_⟩
  intro input agree
  refine ⟨between, goesBack input fun k least most => ?_, comesBack input fun k least most => ?_⟩
  · exact (agree k least (by omega)).trans (if_pos most)
  · exact (agree k (by omega) most).trans (if_neg (by omega))

structure Steers {α : Type} (piece : Memory → Coder → α × Coder) : Prop where
  sized : ∀ input c, Sized c → Sized (piece input c).2
  leads : ∀ input c, Sized c → Leads c (piece input c).2 fun ahead code v7 =>
    piece ahead (c.withCode code) = ((piece input c).1, (piece input c).2.withCode v7)

theorem Steers.pure {α : Type} (a : α) : Steers fun _ c => (a, c) := by
  refine ⟨fun _ _ sized => sized, fun _ c _ => (Leads.refl c).mono ?_⟩
  intro _ code v7 same
  rw [same]

theorem Steers.bind {α β : Type} {piece : Memory → Coder → α × Coder}
    {rest : α → Memory → Coder → β × Coder} (first : Steers piece)
    (second : ∀ a, Steers (rest a)) :
    Steers fun input c => rest (piece input c).1 input (piece input c).2 := by
  constructor
  · intro input c sized
    exact (second _).sized input _ (first.sized input c sized)
  · intro input c sized
    have onward := first.leads input c sized
    have further := (second (piece input c).1).leads input _ (first.sized input c sized)
    refine (onward.trans further).mono ?_
    rintro ahead code v7 ⟨between, goes, comes⟩
    rw [goes]
    exact comes

variable (input : Memory)

theorem renorm_sized {c : Coder} (sized : Sized c) : Sized (c.renorm input) := by
  refine ⟨by rw [renorm_v109]; exact sized.cells, ?_⟩
  have fits := sized.fits
  rw [renorm_v10 input fits]
  split <;> omega

theorem renorm_leads {c : Coder} (sized : Sized c) :
    Leads c (c.renorm input) fun ahead code v7 =>
      (c.withCode code).renorm ahead = (c.renorm input).withCode v7 := by
  have fits := sized.fits
  by_cases narrow : c.v10 / 2 ^ 24 = 0
  · have renormed : c.renorm input = { c with
        v10 := c.v10 * 2 ^ 8 % 2 ^ 32
        v7 := ((input (c.input1 + 5)).toNat + c.v7 * 2 ^ 8) % 2 ^ 32
        input1 := c.input1 + 1
        fetched := (c.input1 + 5) :: c.fetched } := if_pos narrow
    rw [renormed]
    refine ⟨Nat.le_succ _, fun v7 within => ?_⟩
    dsimp only at within
    -- The byte is the last digit of the new code word.
    refine ⟨v7 / 2 ^ 8, by omega, fun _ => BitVec.ofNat 8 v7, fun ahead agree => ?_⟩
    have fetched : ((ahead (c.input1 + 5)).toNat + v7 / 2 ^ 8 * 2 ^ 8) % 2 ^ 32 = v7 := by
      rw [agree _ (Nat.le_refl _) (by dsimp only; omega), BitVec.toNat_ofNat]
      omega
    have again : (c.withCode (v7 / 2 ^ 8)).renorm ahead = { c with
        v10 := c.v10 * 2 ^ 8 % 2 ^ 32
        v7 := ((ahead (c.input1 + 5)).toNat + v7 / 2 ^ 8 * 2 ^ 8) % 2 ^ 32
        input1 := c.input1 + 1
        fetched := (c.input1 + 5) :: c.fetched } := if_pos narrow
    rw [again, fetched]
    rfl
  · have renormed : c.renorm input = c := if_neg narrow
    rw [renormed]
    refine (Leads.refl c).mono fun ahead code v7 same => ?_
    rw [same]
    exact if_neg narrow

def bound (c : Coder) (index : Int) : Nat := c.v109 index * (c.v10 / 2 ^ 8)

def narrow (c : Coder) (index : Int) (shift step : Nat) (bit : Bool) : Coder :=
  let smaller := c.v109 index - c.v109 index / 2 ^ shift
  { c with
    v10 := if bit then c.bound index else c.v10 - c.bound index
    v109 := Function.update c.v109 index (if bit then (smaller + step) % 2 ^ 8 else smaller)
    touched := ⟨index, c.v109 index, c.v10⟩ :: c.touched
    decoded := bit :: c.decoded }

theorem bound_le {c : Coder} (sized : Sized c) (index : Int) : c.bound index ≤ c.v10 := by
  calc c.bound index
      ≤ 2 ^ 8 * (c.v10 / 2 ^ 8) := Nat.mul_le_mul_right _ (Nat.le_of_lt (sized.cells index))
    _ ≤ c.v10 := Nat.mul_div_le _ _

theorem narrow_sized {c : Coder} (sized : Sized c) (index : Int) (shift step : Nat)
    (bit : Bool) : Sized (c.narrow index shift step bit) := by
  have fits := sized.fits
  have part := bound_le sized index
  constructor
  next =>
    intro other
    have cell := sized.cells index
    have smaller := Nat.sub_le (c.v109 index) (c.v109 index / 2 ^ shift)
    dsimp only [narrow]
    by_cases same : other = index
    next =>
      rw [same, Function.update_self]
      split
      · exact Nat.mod_lt _ (by decide)
      · omega
    next =>
      rw [Function.update_of_ne same]
      exact sized.cells other
  next =>
    dsimp only [narrow]
    split <;> omega

theorem decodeBit_narrow {c : Coder} (sized : Sized c) (index : Int) (shift step : Nat) :
    c.decodeBit input index shift step =
      if (c.renorm input).bound index ≤ (c.renorm input).v7 then
        (false, ((c.renorm input).narrow index shift step false).withCode
          ((c.renorm input).v7 - (c.renorm input).bound index))
      else (true, (c.renorm input).narrow index shift step true) := by
  have renormed := renorm_sized input sized
  have fits := renormed.fits
  have part := bound_le renormed index
  have cell : c.v109 index = (c.renorm input).v109 index := by rw [renorm_v109]
  unfold decodeBit
  dsimp only
  rw [cell]
  generalize c.renorm input = r at fits part
  unfold bound at part
  have cut : r.v109 index * (r.v10 / 2 ^ 8) % 2 ^ 32 = r.bound index := Nat.mod_eq_of_lt (by omega)
  have upper : (r.v10 + 2 ^ 32 - r.bound index) % 2 ^ 32 = r.v10 - r.bound index := by
    unfold bound
    omega
  rw [cut, upper]
  rfl

theorem narrow_leads {c : Coder} (sized : Sized c) (index : Int) (shift step : Nat)
    (bit : Bool) : Leads c ((c.renorm input).narrow index shift step bit) fun ahead code v7 =>
      (c.withCode code).decodeBit ahead index shift step =
        (bit, ((c.renorm input).narrow index shift step bit).withCode v7) := by
  have part := bound_le (renorm_sized input sized) index
  obtain ⟨onward, back⟩ := renorm_leads input sized
  refine ⟨onward, fun v7 within => ?_⟩
  cases bit with
  | false =>
      dsimp only [narrow] at within
      rw [if_neg Bool.false_ne_true] at within
      obtain ⟨code, below, ahead, goes⟩ :=
        back (v7 + (c.renorm input).bound index) (by omega)
      refine ⟨code, below, ahead, fun bytes agree => ?_⟩
      rw [decodeBit_narrow bytes (sized.withCode code), goes bytes agree]
      have upper : (c.renorm input).bound index ≤ v7 + (c.renorm input).bound index :=
        Nat.le_add_left _ _
      refine (if_pos upper).trans ?_
      exact congrArg
        (fun word => (false, ((c.renorm input).narrow index shift step false).withCode word))
        (Nat.add_sub_cancel v7 ((c.renorm input).bound index))
  | true =>
      dsimp only [narrow] at within
      rw [if_pos rfl] at within
      obtain ⟨code, below, ahead, goes⟩ := back v7 (by omega)
      refine ⟨code, below, ahead, fun bytes agree => ?_⟩
      rw [decodeBit_narrow bytes (sized.withCode code), goes bytes agree]
      exact if_neg (Nat.not_le.mpr within)

theorem decodeBit_steers (index : Int) (shift step : Nat) :
    Steers fun input c => c.decodeBit input index shift step := by
  constructor
  · intro input c sized
    have either := narrow_sized (renorm_sized input sized) index shift step
    rw [decodeBit_narrow input sized]
    split
    · exact (either false).withCode _
    · exact either true
  · intro input c sized
    have either := narrow_leads input sized index shift step
    rw [decodeBit_narrow input sized]
    split
    · exact ⟨(either false).onward, (either false).back⟩
    · exact either true

theorem Healthy.withCode {low : Nat} {c : Coder} (healthy : Healthy low c) (v7 : Nat) :
    Healthy low (c.withCode v7) :=
  ⟨healthy.cells, healthy.wide, healthy.fits, healthy.past⟩

theorem narrow_healthy {shift step : Nat} (adapts : Adapts shift step) {low : Nat}
    (positive : 1 ≤ low) {c : Coder} (healthy : Healthy low c) (index : Int) (bit : Bool) :
    Healthy (widened low) ((c.renorm input).narrow index shift step bit) := by
  have renormed := renorm_healthy input healthy
  have wide := renormed.wide
  have splits : Splits ⟨index, (c.renorm input).v109 index, (c.renorm input).v10⟩ :=
    splits_of_open (renormed.cells index) (by dsimp only; omega) renormed.fits
  have lower := splits.lower
  have upper := splits.upper
  dsimp only at lower upper
  have room : 0 < ((c.renorm input).narrow index shift step bit).v10 := by
    dsimp only [narrow, bound]
    split <;> omega
  obtain ⟨code, -, ahead, goes⟩ :=
    (narrow_leads input healthy.sized index shift step bit).back 0 room
  have left := decodeBit_healthy ahead adapts positive (healthy.withCode code) index
  rw [goes ahead fun _ _ _ => rfl] at left
  exact ⟨left.cells, left.wide, left.fits, left.past⟩

def halve (c : Coder) (bit : Bool) : Coder :=
  { c with v10 := c.v10 / 2, decoded := bit :: c.decoded }

theorem halve_sized {c : Coder} (sized : Sized c) (bit : Bool) : Sized (c.halve bit) :=
  ⟨sized.cells, Nat.lt_of_le_of_lt (Nat.div_le_self _ _) sized.fits⟩

theorem directBits_halve (count value : Nat) (c : Coder) :
    directBits (count + 1) value c =
      if c.v10 / 2 ≤ c.v7 then
        directBits count (2 * value) ((c.halve false).withCode (c.v7 - c.v10 / 2))
      else directBits count (2 * value + 1) (c.halve true) := rfl

theorem halve_leads (c : Coder) (bit : Bool) (count value : Nat) :
    Leads c (c.halve bit) fun _ code v7 => directBits (count + 1) value (c.withCode code) =
      directBits count (2 * value + bit.toNat) ((c.halve bit).withCode v7) := by
  refine ⟨Nat.le_refl _, fun v7 within => ?_⟩
  dsimp only [halve] at within
  cases bit with
  | false =>
      refine ⟨v7 + c.v10 / 2, by omega, fun _ => 0, fun _ _ => ?_⟩
      refine (if_pos (Nat.le_add_left _ _)).trans ?_
      exact congrArg (fun word => directBits count (2 * value) ((c.halve false).withCode word))
        (Nat.add_sub_cancel v7 (c.v10 / 2))
  | true =>
      refine ⟨v7, by omega, fun _ => 0, fun _ _ => ?_⟩
      exact if_neg (Nat.not_le.mpr within)

theorem directBits_steers (count value : Nat) :
    Steers fun _ c => directBits count value c := by
  induction count generalizing value with
  | zero => exact .pure value
  | succ count ih =>
      constructor
      · intro input c sized
        have either := halve_sized sized
        rw [directBits_halve]
        split
        · exact (ih _).sized input _ ((either false).withCode _)
        · exact (ih _).sized input _ (either true)
      · intro input c sized
        have either := halve_sized sized
        rw [directBits_halve]
        split
        · have rest := (ih (2 * value)).leads input _
            ((either false).withCode (c.v7 - c.v10 / 2))
          refine ((halve_leads c false count value).trans rest.recode).mono ?_
          rintro ahead code v7 ⟨between, goes, comes⟩
          exact goes.trans comes
        · have rest := (ih (2 * value + 1)).leads input _ (either true)
          refine ((halve_leads c true count value).trans rest).mono ?_
          rintro ahead code v7 ⟨between, goes, comes⟩
          exact goes.trans comes

theorem renorm_steers : Steers fun input c => ((), c.renorm input) := by
  refine ⟨fun input _ sized => renorm_sized input sized, fun input c sized => ?_⟩
  refine (renorm_leads input sized).mono fun ahead code v7 same => ?_
  rw [same]

theorem treeBit_steers (index : Int) : Steers fun input c => c.treeBit input index :=
  decodeBit_steers index 3 31

theorem flagBit_steers (index : Int) : Steers fun input c => c.flagBit input index :=
  decodeBit_steers index 4 15

theorem literalLoop_steers (v13 : Int) (fuel v9 : Nat) :
    Steers fun input c => c.literalLoop input v13 fuel v9 := by
  induction fuel generalizing v9 with
  | zero => exact .pure v9
  | succ fuel ih =>
      have rest (bit : Bool) : Steers fun input c =>
          if 2 * v9 + bit.toNat ≤ 255 then c.literalLoop input v13 fuel (2 * v9 + bit.toNat)
          else (2 * v9 + bit.toNat, c) := by
        split
        · exact ih _
        · exact .pure _
      exact (treeBit_steers (v13 + v9 - 1)).bind rest

theorem classLoop_steers (v19 : Int) (fuel : Nat) (v28 : Int) :
    Steers fun input c => c.classLoop input v19 fuel v28 := by
  induction fuel generalizing v19 v28 with
  | zero => exact .pure v28
  | succ fuel ih =>
      have rest (bit : Bool) : Steers fun input c =>
          if bit then
            if v28 + 1 = 6 then (v28 + 1, c) else c.classLoop input (v19 + 8) fuel (v28 + 1)
          else (v28, c) := by
        split_ifs
        · exact .pure _
        · exact ih _ _
        · exact .pure _
      exact (flagBit_steers (v19 + 2928)).bind rest

theorem positionLoop_steers (v34 : Int) (v105 fuel v61 : Nat) :
    Steers fun input c => c.positionLoop input v34 v105 fuel v61 := by
  induction fuel generalizing v61 with
  | zero => exact .pure v61
  | succ fuel ih =>
      have rest (bit : Bool) : Steers fun input c =>
          if 2 * v61 + 8 * bit.toNat < v105 then
            c.positionLoop input v34 v105 fuel (2 * v61 + 8 * bit.toNat)
          else (2 * v61 + 8 * bit.toNat, c) := by
        split
        · exact ih _
        · exact .pure _
      exact (treeBit_steers (v34 + v61 + 2033)).bind rest

theorem append_steers (index : Int) (value : Nat) :
    Steers fun input c => append input index (value, c) :=
  (flagBit_steers index).bind fun bit => .pure (2 * value + bit.toNat)

end Coder

end VitaTools.Unarzl
