import Mathlib.Tactic.IntervalCases
import VitaTools.Sha256.Model

set_option autoImplicit false

namespace VitaTools.Sha256

open VitaTools.Library

def primes : List Nat :=
  [2, 3, 5, 7, 11, 13, 17, 19, 23, 29, 31, 37, 41, 43, 47, 53, 59, 61, 67, 71, 73, 79, 83, 89, 97,
    101, 103, 107, 109, 113, 127, 131, 137, 139, 149, 151, 157, 163, 167, 173, 179, 181, 191, 193,
    197, 199, 211, 223, 227, 229, 233, 239, 241, 251, 257, 263, 269, 271, 277, 281, 283, 293, 307,
    311]

theorem primes_counted : ∀ t < 64, Nat.Prime (primes.getD t 0) ∧
    Nat.count Nat.Prime (primes.getD t 0) = t := by
  decide +kernel

theorem nth_prime {t : Nat} (small : t < 64) : Nat.nth Nat.Prime t = primes.getD t 0 := by
  obtain ⟨prime, counted⟩ := primes_counted t small
  have place := Nat.nth_count prime
  rwa [counted] at place

theorem k_roots : ∀ t < 64, ∃ whole < 7,
    (whole * 2 ^ 32 + (k.getD t 0).toNat) ^ 3 ≤ primes.getD t 0 * 2 ^ 96 ∧
      primes.getD t 0 * 2 ^ 96 < (whole * 2 ^ 32 + (k.getD t 0).toNat + 1) ^ 3 := by
  decide +kernel

theorem initial_roots : ∀ t < 8, ∃ whole < 5,
    (whole * 2 ^ 32 + ((sha256Init fun _ => 0).state.toList.getD t 0).toNat) ^ 2 ≤
      primes.getD t 0 * 2 ^ 64 ∧
    primes.getD t 0 * 2 ^ 64 <
      (whole * 2 ^ 32 + ((sha256Init fun _ => 0).state.toList.getD t 0).toNat + 1) ^ 2 := by
  decide +kernel

theorem rootFraction_table {degree n whole : Nat} {word : Word} (positive : degree ≠ 0)
    (below : (whole * 2 ^ 32 + word.toNat) ^ degree ≤ n * 2 ^ (32 * degree))
    (above : n * 2 ^ (32 * degree) < (whole * 2 ^ 32 + word.toNat + 1) ^ degree) :
    Standard.rootFraction degree n = word := by
  rw [Standard.rootFraction_eq positive below above]
  apply BitVec.eq_of_toNat_eq
  rw [BitVec.toNat_ofNat]
  have small := word.isLt
  omega

theorem k_eq_constant {t : Nat} (small : t < 64) : k.getD t 0 = Standard.constant t := by
  obtain ⟨whole, -, below, above⟩ := k_roots t small
  rw [Standard.constant, nth_prime small]
  exact (rootFraction_table (by decide) below above).symm

theorem init_eq_initial (data : Memory) : (sha256Init data).state = Standard.initial := by
  have word (t : Nat) (small : t < 8) : Standard.rootFraction 2 (Nat.nth Nat.Prime t) =
      (sha256Init fun _ => 0).state.toList.getD t 0 := by
    obtain ⟨whole, -, below, above⟩ := initial_roots t small
    rw [nth_prime (by omega)]
    exact rootFraction_table (by decide) below above
  simp only [Standard.initial, word 0 (by decide), word 1 (by decide), word 2 (by decide),
    word 3 (by decide), word 4 (by decide), word 5 (by decide), word 6 (by decide),
    word 7 (by decide)]
  rfl

theorem rotright_eq (a : Word) {b : Nat} (small : b < 32) : rotright a b = a.rotateRight b := by
  rw [BitVec.rotateRight_def, Nat.mod_eq_of_lt small, rotright]

theorem ep0_eq (x : Word) : ep0 x = Standard.bigSigma0 x := by
  rw [ep0, rotright_eq x (by decide), rotright_eq x (by decide), rotright_eq x (by decide),
    Standard.bigSigma0]

theorem ep1_eq (x : Word) : ep1 x = Standard.bigSigma1 x := by
  rw [ep1, rotright_eq x (by decide), rotright_eq x (by decide), rotright_eq x (by decide),
    Standard.bigSigma1]

theorem sig0_eq (x : Word) : sig0 x = Standard.smallSigma0 x := by
  rw [sig0, rotright_eq x (by decide), rotright_eq x (by decide), Standard.smallSigma0]

theorem sig1_eq (x : Word) : sig1 x = Standard.smallSigma1 x := by
  rw [sig1, rotright_eq x (by decide), rotright_eq x (by decide), Standard.smallSigma1]

theorem bytes_eq_append (b0 b1 b2 b3 : Byte) :
    b0.setWidth 32 <<< 24 ||| b1.setWidth 32 <<< 16 ||| b2.setWidth 32 <<< 8 ||| b3.setWidth 32 =
      b0 ++ b1 ++ b2 ++ b3 := by
  apply BitVec.eq_of_getLsbD_eq
  intro i small
  simp only [BitVec.getLsbD_or, BitVec.getLsbD_shiftLeft, BitVec.getLsbD_setWidth,
    BitVec.getLsbD_append]
  interval_cases i <;> simp

theorem slice_getD (m : Memory) {count i : Nat} (inside : i < count) :
    (m.slice 0 count).getD i 0 = m i := by
  simp [Memory.slice, List.getD_eq_getElem?_getD, inside]

theorem mWord_low (data : Memory) (m : List Word) {t : Nat} (low : t < 16) :
    mWord data m t = Standard.schedule (data.slice 0 64) t := by
  rw [mWord, if_pos low, Standard.schedule, if_pos low, Standard.blockWord,
    slice_getD data (by omega), slice_getD data (by omega), slice_getD data (by omega),
    slice_getD data (by omega)]
  exact bytes_eq_append _ _ _ _

theorem range_map_getD {count i : Nat} (f : Nat → Word) (inside : i < count) :
    ((List.range count).map f).getD i 0 = f i := by
  simp [List.getD_eq_getElem?_getD, inside]

theorem mWords_upto (data : Memory) (count : Nat) :
    (List.range count).foldl (fun m i => m ++ [mWord data m i]) [] =
      (List.range count).map (Standard.schedule (data.slice 0 64)) := by
  induction count with
  | zero => rfl
  | succ t ih =>
      rw [List.range_succ, List.foldl_append, ih, List.map_append, List.foldl_cons,
        List.foldl_nil, List.map_singleton]
      congr 2
      by_cases low : t < 16
      next => exact mWord_low data _ low
      next =>
        rw [mWord, if_neg low, Standard.schedule, if_neg low, sig0_eq, sig1_eq,
          range_map_getD _ (by omega), range_map_getD _ (by omega), range_map_getD _ (by omega),
          range_map_getD _ (by omega)]

theorem transform_state (ctx : Sha256Ctx) (data : Memory) :
    sha256Transform ctx data =
      { ctx with state := Standard.compress ctx.state (data.slice 0 64) } := by
  have rounds : (List.range 64).foldl (transformRound (mWords data)) ctx.state =
      (List.range 64).foldl (fun u t => Standard.round (Standard.constant t)
        (Standard.schedule (data.slice 0 64) t) u) ctx.state := by
    apply List.foldl_ext
    intro v t inside
    have small := List.mem_range.mp inside
    rw [transformRound, mWords, mWords_upto, range_map_getD _ small, k_eq_constant small, ep0_eq,
      ep1_eq]
    rfl
  rw [sha256Transform, rounds, Standard.compress]

theorem toNat_joined (high low : Word) :
    (high ++ low).toNat = high.toNat * 2 ^ 32 + low.toNat := by
  rw [BitVec.toNat_append, ← Nat.shiftLeft_add_eq_or_of_lt low.isLt, Nat.shiftLeft_eq]

theorem dblIntAdd_append (a b c : Word) :
    (dblIntAdd a b c).2 ++ (dblIntAdd a b c).1 = (b ++ a + c.setWidth 64 : BitVec 64) := by
  have carry : (0xffffffff - c < a) ↔ 2 ^ 32 ≤ a.toNat + c.toNat := by
    have room : (0xffffffff - c : Word).toNat = 2 ^ 32 - 1 - c.toNat :=
      BitVec.toNat_sub_of_le (BitVec.le_def.mpr (by have small := c.isLt; simp; omega))
    rw [BitVec.lt_def, room]
    have small := c.isLt
    omega
  have wide : (c.setWidth 64).toNat = c.toNat :=
    BitVec.toNat_setWidth_of_le (by decide)
  have high := b.isLt
  have low := a.isLt
  have added := c.isLt
  apply BitVec.eq_of_toNat_eq
  rw [BitVec.toNat_add, toNat_joined, toNat_joined, wide, dblIntAdd]
  dsimp only
  rw [BitVec.toNat_add]
  by_cases overflows : 2 ^ 32 ≤ a.toNat + c.toNat
  next =>
    rw [if_pos (carry.mpr overflows), BitVec.toNat_add]
    have one : (1 : Word).toNat = 1 := rfl
    rw [one]
    omega
  next =>
    rw [if_neg (carry.not.mpr overflows)]
    omega

noncomputable def chain (s : Words × BitVec 64) (block : List Byte) : Words × BitVec 64 :=
  (Standard.compress s.1 block, s.2 + 512)

theorem foldl_chain (blocks : List (List Byte)) (v : Words) (bits : BitVec 64) :
    blocks.foldl chain (v, bits) =
      (blocks.foldl Standard.compress v, bits + BitVec.ofNat 64 (512 * blocks.length)) := by
  induction blocks generalizing v bits with
  | nil => simp
  | cons block rest ih =>
      rw [List.foldl_cons, chain, ih, List.foldl_cons, List.length_cons, Nat.mul_succ,
        Nat.add_comm _ 512, BitVec.ofNat_add, BitVec.add_assoc]
      rfl

structure Holds (ctx : Sha256Ctx) (s : (Words × BitVec 64) × List Byte) : Prop where
  short : s.2.length < 64
  datalen : ctx.datalen = s.2.length
  data : ctx.data.slice 0 ctx.datalen = s.2
  state : ctx.state = s.1.1
  bitlen : ctx.bitlen1 ++ ctx.bitlen0 = s.1.2

theorem slice_update (m : Memory) (count : Nat) (byte : Byte) :
    Memory.slice (Function.update m count byte) 0 (count + 1) = m.slice 0 count ++ [byte] := by
  rw [Memory.slice_append]
  congr 1
  · apply Memory.slice_congr
    intro i inside
    rw [Function.update_of_ne (by omega)]
  · simp [Memory.slice]

theorem Holds.update {ctx : Sha256Ctx} {s : (Words × BitVec 64) × List Byte} (holds : Holds ctx s)
    (byte : Byte) : Holds (updateByte ctx byte) (absorb 64 chain s byte) := by
  have filled : Memory.slice (Function.update ctx.data ctx.datalen byte) 0 (ctx.datalen + 1) =
      s.2 ++ [byte] := by
    rw [slice_update, holds.data]
  have short := holds.short
  have datalen := holds.datalen
  rw [updateByte, absorb]
  dsimp only
  rw [datalen] at filled ⊢
  split
  next full =>
    rw [full] at filled
    rw [transform_state]
    refine ⟨Nat.succ_pos 63, rfl, rfl, ?_, ?_⟩
    · show Standard.compress ctx.state _ = Standard.compress s.1.1 _
      rw [holds.state, filled]
    · show (dblIntAdd ctx.bitlen0 ctx.bitlen1 512).2 ++ (dblIntAdd ctx.bitlen0 ctx.bitlen1 512).1 =
        s.1.2 + 512
      rw [dblIntAdd_append, holds.bitlen]
      rfl
  next more =>
    refine ⟨?_, ?_, filled, holds.state, holds.bitlen⟩
    · simp only [List.length_append, List.length_singleton]
      omega
    · simp only [List.length_append, List.length_singleton]

theorem Holds.updates {ctx : Sha256Ctx} {s : (Words × BitVec 64) × List Byte}
    (holds : Holds ctx s) (data : Memory) (len : BitVec 32) :
    Holds (sha256Update ctx data len) ((data.slice 0 len.toNat).foldl (absorb 64 chain) s) := by
  rw [sha256Update, Memory.slice, List.foldl_map]
  generalize List.range len.toNat = places
  induction places generalizing ctx s with
  | nil => exact holds
  | cons i rest ih =>
      have next := holds.update (data i)
      rw [List.foldl_cons, List.foldl_cons, Nat.zero_add]
      exact ih next

theorem init_holds (data : Memory) : Holds (sha256Init data) ((Standard.initial, 0), []) :=
  ⟨Nat.succ_pos 63, rfl, rfl, init_eq_initial data, by
    show (0 : Word) ++ (0 : Word) = (0 : BitVec 64)
    decide⟩

def Element.bytes (e : Element) : List Byte := e.addr.slice 0 (e.len.setWidth 32).toNat

theorem vector_holds (data : Memory) (elements : List Element) :
    let message := elements.flatMap Element.bytes
    Holds (elements.foldl (fun ctx e => sha256Update ctx e.addr (e.len.setWidth 32))
        (sha256Init data))
      (message.foldl (absorb 64 chain) ((Standard.initial, 0), [])) := by
  intro message
  induction elements using List.reverseRecOn with
  | nil => exact init_holds data
  | append_singleton elements e ih =>
      have whole : message = elements.flatMap Element.bytes ++ e.bytes := by
        simp [message]
      rw [whole, List.foldl_append, List.foldl_append]
      exact ih.updates e.addr (e.len.setWidth 32)

theorem zeroFrom_apply (data : Memory) (i bound a : Nat) :
    zeroFrom data i bound a = if i ≤ a ∧ a < bound then 0 else data a := by
  rw [zeroFrom]
  generalize counted : bound - i = count
  induction count generalizing data i with
  | zero => rw [List.range'_zero, List.foldl_nil, if_neg (by omega)]
  | succ count ih =>
      rw [List.range'_succ, List.foldl_cons, ih _ (i + 1) (by omega)]
      by_cases here : a = i
      next =>
        rw [if_neg (by omega), if_pos (by omega), here, Function.update_self]
      next =>
        rw [Function.update_of_ne here]
        by_cases inside : i + 1 ≤ a ∧ a < bound
        next => rw [if_pos inside, if_pos (by omega)]
        next => rw [if_neg inside, if_neg (by omega)]

theorem slice_replicate {m : Memory} {start count : Nat} {byte : Byte}
    (same : ∀ i < count, m (start + i) = byte) :
    m.slice start count = List.replicate count byte := by
  rw [List.eq_replicate_iff]
  refine ⟨Memory.slice_length _ _ _, ?_⟩
  intro b member
  obtain ⟨i, inside, rfl⟩ := List.mem_map.mp member
  exact same i (List.mem_range.mp inside)

theorem slice_padded (data : Memory) {n bound : Nat} (room : n < bound) :
    (zeroFrom (Function.update data n 0x80) (n + 1) bound).slice 0 bound =
      data.slice 0 n ++ 0x80 :: List.replicate (bound - n - 1) 0 := by
  have split : bound = n + 1 + (bound - n - 1) := by omega
  have front : (zeroFrom (Function.update data n 0x80) (n + 1) bound).slice 0 (n + 1) =
      data.slice 0 n ++ [0x80] := by
    rw [← slice_update]
    apply Memory.slice_congr
    intro i inside
    rw [zeroFrom_apply, if_neg (by omega)]
  have behind : (zeroFrom (Function.update data n 0x80) (n + 1) bound).slice (0 + (n + 1))
      (bound - n - 1) = List.replicate (bound - n - 1) 0 :=
    slice_replicate fun i inside => by rw [zeroFrom_apply, if_pos (by omega)]
  calc (zeroFrom (Function.update data n 0x80) (n + 1) bound).slice 0 bound
      = (zeroFrom (Function.update data n 0x80) (n + 1) bound).slice 0 (n + 1) ++
          (zeroFrom (Function.update data n 0x80) (n + 1) bound).slice (0 + (n + 1))
            (bound - n - 1) := by
        rw [← Memory.slice_append, ← split]
    _ = data.slice 0 n ++ 0x80 :: List.replicate (bound - n - 1) 0 := by
        rw [front, behind, List.append_assoc, List.singleton_append]

theorem slice_appendLength (data : Memory) (bitlen0 bitlen1 : Word) :
    (appendLength data bitlen0 bitlen1).slice 0 64 =
      data.slice 0 56 ++ Standard.bigEndian 8 (bitlen1 ++ bitlen0) := by
  have kept : (appendLength data bitlen0 bitlen1).slice 0 56 = data.slice 0 56 := by
    apply Memory.slice_congr
    intro i inside
    simp only [appendLength]
    iterate 8 rw [Function.update_of_ne (by omega)]
  have stored : (appendLength data bitlen0 bitlen1).slice (0 + 56) 8 =
      [(bitlen1 >>> 24).setWidth 8, (bitlen1 >>> 16).setWidth 8, (bitlen1 >>> 8).setWidth 8,
        bitlen1.setWidth 8, (bitlen0 >>> 24).setWidth 8, (bitlen0 >>> 16).setWidth 8,
        (bitlen0 >>> 8).setWidth 8, bitlen0.setWidth 8] := rfl
  have low (start : Nat) (inside : start + 8 ≤ 32) :
      (bitlen1 ++ bitlen0).extractLsb' start 8 = (bitlen0 >>> start).setWidth 8 := by
    rw [BitVec.extractLsb'_append_eq_of_add_le inside,
      BitVec.setWidth_ushiftRight_eq_extractLsb]
  have high (start : Nat) (inside : 32 ≤ start) :
      (bitlen1 ++ bitlen0).extractLsb' start 8 = (bitlen1 >>> (start - 32)).setWidth 8 := by
    rw [BitVec.extractLsb'_append_eq_of_le inside, BitVec.setWidth_ushiftRight_eq_extractLsb]
  have length : Standard.bigEndian 8 (bitlen1 ++ bitlen0) = [56, 48, 40, 32, 24, 16, 8, 0].map
      fun start => (bitlen1 ++ bitlen0).extractLsb' start 8 := rfl
  rw [Memory.slice_append _ 0 56 8, kept, stored, length]
  simp only [List.map_cons, List.map_nil, high 56 (by decide), high 48 (by decide),
    high 40 (by decide), high 32 (by decide), low 24 (by decide), low 16 (by decide),
    low 8 (by decide), low 0 (by decide)]
  simp

theorem stored_bytes (v : Words) (hash : Memory) :
    ((List.range 4).foldl (storeBytes v) hash).slice 0 32 =
      v.toList.flatMap (Standard.bigEndian 4) := by
  have stored : ((List.range 4).foldl (storeBytes v) hash).slice 0 32 =
      v.toList.flatMap fun (word : Word) => (List.range 4).map fun i =>
        ((word >>> (24 - i * 8)) &&& 0xff).setWidth 8 := rfl
  have byte (word : Word) : ((List.range 4).map fun i =>
      ((word >>> (24 - i * 8)) &&& 0xff).setWidth 8) = Standard.bigEndian 4 word := by
    apply List.map_congr_left
    intro i inside
    have small := List.mem_range.mp inside
    have masked : (0xff : Word).setWidth 8 = BitVec.allOnes 8 := rfl
    rw [BitVec.setWidth_and, masked, BitVec.and_allOnes, BitVec.setWidth_ushiftRight_eq_extractLsb,
      show 24 - i * 8 = 8 * (4 - 1 - i) by omega]
  simp only [stored, byte]

theorem final_slice (ctx : Sha256Ctx) (hash : Memory) :
    let padded := padBuffer ctx
    let bitlen := dblIntAdd padded.bitlen0 padded.bitlen1 (BitVec.ofNat 32 (padded.datalen * 8))
    (sha256Final ctx hash).slice 0 32 = (Standard.compress padded.state
      (padded.data.slice 0 56 ++ Standard.bigEndian 8 (bitlen.2 ++ bitlen.1))).toList.flatMap
        (Standard.bigEndian 4) := by
  intro padded bitlen
  rw [sha256Final, transform_state, stored_bytes, slice_appendLength]

theorem final_state {ctx : Sha256Ctx} {s : (Words × BitVec 64) × List Byte} (holds : Holds ctx s)
    (hash : Memory) :
    (sha256Final ctx hash).slice 0 32 = ((fullBlocks 64 (s.2 ++ 0x80 ::
      (List.replicate ((119 - s.2.length) % 64) 0 ++ Standard.bigEndian 8
        (s.1.2 + BitVec.ofNat 64 (8 * s.2.length))))).foldl Standard.compress s.1.1).toList.flatMap
          (Standard.bigEndian 4) := by
  have short := holds.short
  have data := holds.data
  have length : (BitVec.ofNat 32 (ctx.datalen * 8)).setWidth 64 =
      BitVec.ofNat 64 (8 * s.2.length) := by
    apply BitVec.eq_of_toNat_eq
    rw [BitVec.toNat_setWidth, BitVec.toNat_ofNat, BitVec.toNat_ofNat, holds.datalen]
    omega
  have joined := dblIntAdd_append ctx.bitlen0 ctx.bitlen1 (BitVec.ofNat 32 (ctx.datalen * 8))
  rw [length, holds.bitlen] at joined
  rw [final_slice]
  generalize s.1.2 + BitVec.ofNat 64 (8 * s.2.length) = bits at joined
  have size : (Standard.bigEndian 8 bits).length = 8 := Standard.bigEndian_length 8 bits
  rw [holds.datalen] at data
  congr 2
  by_cases room : s.2.length < 56
  next =>
    have padded : padBuffer ctx = { ctx with
        data := zeroFrom (Function.update ctx.data ctx.datalen 0x80) (ctx.datalen + 1) 56 } := by
      rw [padBuffer, if_pos (by rw [holds.datalen]; exact room)]
    have zeros : (119 - s.2.length) % 64 = 56 - s.2.length - 1 := by omega
    rw [padded]
    dsimp only
    rw [joined, holds.state, holds.datalen, slice_padded _ room, data, zeros,
      fullBlocks_block (by decide)]
    next => rw [List.append_assoc, List.cons_append, List.foldl_cons, List.foldl_nil]
    next =>
      simp only [List.length_append, List.length_cons, List.length_replicate, size]
      omega
  next =>
    have padded : padBuffer ctx = { ctx with
        data := (zeroFrom (Function.update ctx.data ctx.datalen 0x80) (ctx.datalen + 1) 64).copy 0
          56 fun _ => 0
        state := Standard.compress ctx.state ((zeroFrom (Function.update ctx.data ctx.datalen 0x80)
          (ctx.datalen + 1) 64).slice 0 64) } := by
      rw [padBuffer, if_neg (by rw [holds.datalen]; exact room)]
      dsimp only
      rw [transform_state]
    have cleared (m : Memory) : (m.copy 0 56 fun _ => 0).slice 0 56 = List.replicate 56 0 :=
      slice_replicate fun i inside => by rw [Memory.copy, if_pos (by omega)]
    have zeros : (119 - s.2.length) % 64 = 64 - s.2.length - 1 + 56 := by omega
    rw [padded]
    dsimp only
    have whole (front : List Byte) :
        front ++ 0x80 :: (List.replicate (64 - s.2.length - 1 + 56) 0 ++
          Standard.bigEndian 8 bits) =
        (front ++ 0x80 :: List.replicate (64 - s.2.length - 1) 0) ++
          (List.replicate 56 0 ++ Standard.bigEndian 8 bits) := by
      simp only [List.replicate_add, List.append_assoc, List.cons_append]
    have first : (s.2 ++ 0x80 :: List.replicate (64 - s.2.length - 1) (0 : Byte)).length =
        64 * 1 := by
      simp only [List.length_append, List.length_cons, List.length_replicate]
      omega
    have second : (List.replicate 56 0 ++ Standard.bigEndian 8 bits).length = 64 := by
      rw [List.length_append, size, List.length_replicate]
    rw [joined, holds.state, holds.datalen, slice_padded _ short, data, cleared, zeros, whole,
      fullBlocks_append (by decide) first, fullBlocks_block (by decide) first,
      fullBlocks_block (by decide) second]
    rfl

theorem vector_digest (stack : Memory) (elements : List Element) (mac : Memory) :
    (sha256Vector stack elements mac).slice 0 32 =
      Standard.digest (elements.flatMap Element.bytes) := by
  have holds := vector_holds stack elements
  dsimp only at holds
  generalize elements.flatMap Element.bytes = message at holds
  rw [foldl_absorb (by decide), foldl_chain] at holds
  have blocks : (fullBlocks 64 message).length = message.length / 64 := by simp [fullBlocks]
  have bits : (0 : BitVec 64) + BitVec.ofNat 64 (512 * (message.length / 64)) +
      BitVec.ofNat 64 (8 * (message.length % 64)) = BitVec.ofNat 64 (8 * message.length) := by
    have zero : (0 : BitVec 64) = BitVec.ofNat 64 0 := rfl
    rw [zero, ← BitVec.ofNat_add, ← BitVec.ofNat_add]
    congr 1
    omega
  rw [sha256Vector, final_state holds, blocks, remainder_length, bits, Standard.digest,
    Standard.pad, fullBlocks_add (by decide) message, List.foldl_append]

theorem final_outside (ctx : Sha256Ctx) (hash : Memory) {a : Nat} (outside : 32 ≤ a) :
    sha256Final ctx hash a = hash a := by
  have pass (v : Words) (hash : Memory) {i : Nat} (small : i < 4) :
      storeBytes v hash i a = hash a := by
    simp only [storeBytes]
    iterate 8 rw [Function.update_of_ne (by omega)]
  rw [sha256Final]
  simp only [List.range_succ, List.range_zero, List.nil_append, List.cons_append,
    List.foldl_cons, List.foldl_nil]
  rw [pass _ _ (by decide), pass _ _ (by decide), pass _ _ (by decide), pass _ _ (by decide)]

/-- The digest of any elements, of any lengths, is that of what they hold together. Nothing is
written outside of the 32 bytes and the context's buffer. -/
theorem sha256Vector_digest (stack : Memory) (elements : List Element) (mac : Memory) :
    (sha256Vector stack elements mac).slice 0 32 =
      Standard.digest (elements.flatMap Element.bytes) ∧
    (∀ a, 32 ≤ a → sha256Vector stack elements mac a = mac a) ∧
    (elements.foldl (fun ctx e => sha256Update ctx e.addr (e.len.setWidth 32))
      (sha256Init stack)).datalen < 64 := by
  have holds := vector_holds stack elements
  dsimp only at holds
  refine ⟨vector_digest stack elements mac, fun a outside => final_outside _ mac outside, ?_⟩
  rw [holds.datalen]
  exact holds.short

end VitaTools.Sha256
