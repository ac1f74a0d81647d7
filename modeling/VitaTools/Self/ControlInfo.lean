import VitaTools.Self.Model
import VitaTools.Library.Fuel

set_option autoImplicit false

namespace VitaTools.Self

open VitaTools.Library

-- The `switch` of the injector.
def injectInfo (elfDigest : Memory) (selfFile : Memory) (info : Nat) : Memory :=
  let type := selfFile.word info
  if type = 4 then selfFile.copy (info + 36) 0x20 elfDigest
  else if type = 5 then selfFile.copy (info + 16) 0x100 fun _ => 0
  else selfFile

-- `current_self` and `orig_elf_digest` of `dumpThread`.
structure Stripping where
  header : Memory
  origElfDigest : Memory

-- The `switch` of `dumpThread`.
def stripInfo (s : Stripping) (info : Nat) : Stripping :=
  let type := s.header.word info
  if type = 4 then
    let header := s.header.storeWord (info + 76) 0
    ⟨header, s.origElfDigest.copy 0 0x20 fun k => header (info + 36 + k)⟩
  else if type = 5 then { s with header := s.header.copy (info + 16) 0x100 fun _ => 0 }
  else s

/-- A loop over control infos that knows of every offset in a record of each type what it stores
there, if anything. -/
structure Rewriting (State : Type) where
  image : State → Memory
  body : State → Nat → State
  -- Where the sum of a record's address and its size points.
  address : Nat → Nat
  stored : BitVec 32 → Nat → Option Byte
  head_kept : ∀ type x, x < 16 → stored type x = none
  image_body : ∀ s info a, image (body s info) a =
    if info ≤ a then (stored ((image s).word info) (a - info)).getD (image s a) else image s a

namespace Rewriting

variable {State : Type} (rewriting : Rewriting State)

-- The last state, and the records that went through the `switch`.
def run : Nat → State → Nat → Option (State × List Nat)
  | 0, _, _ => none
  | fuel + 1, s, info =>
      if (rewriting.image s).dword (info + 8) = 0 then some (s, [])
      else
        let s := rewriting.body s info
        let size := (rewriting.image s).word (info + 4)
        (run fuel s (rewriting.address (info + size.toNat))).map fun t => (t.1, info :: t.2)

def sizeAt (m : Memory) (info : Nat) : Nat := (m.word (info + 4)).toNat

/-- The records that lead on from `info`, and the last one. -/
inductive Chain (address : Nat → Nat) (m : Memory) : Nat → List Nat → Nat → Prop
  | last {info : Nat} : m.dword (info + 8) = 0 → Chain address m info [] info
  | next {info last : Nat} {rest : List Nat} : m.dword (info + 8) ≠ 0 →
      Chain address m (address (info + sizeAt m info)) rest last →
        Chain address m info (info :: rest) last

/-- All that is stored in a record of this type lies in front of its end. -/
def Fits (m : Memory) (info : Nat) : Prop :=
  ∀ x, (rewriting.stored (m.word info) x).isSome = true → x < sizeAt m info

/-- No record of the chain leaves the header. -/
structure Inside (m : Memory) (records : List Nat) (last headerLen : Nat) : Prop where
  ends : ∀ info ∈ records, info + sizeAt m info ≤ headerLen
  last : last + 16 ≤ headerLen

/-- Every record in which something is to be stored is rewritten, without leaving it, and every
other byte of the chain is kept. -/
structure Covers (m : Memory) (records : List Nat) (last : Nat) (handled : List Nat)
    (result : Memory) : Prop where
  all : ∀ info ∈ records ++ [last],
    (∃ x, (rewriting.stored (m.word info) x).isSome = true) → info ∈ handled
  within : ∀ info ∈ handled, info ∈ records ++ [last] → rewriting.Fits m info
  result : ∀ info ∈ records ++ [last], ∀ x < sizeAt m info,
    result (info + x) = (rewriting.stored (m.word info) x).getD (m (info + x))

variable {rewriting}

theorem Chain.last_head {address : Nat → Nat} {m : Memory} {info last : Nat}
    {records : List Nat} (chain : Chain address m info records last) : m.dword (last + 8) = 0 := by
  induction chain with
  | last ended => exact ended
  | next _ _ ih => exact ih

theorem Chain.unique {address : Nat → Nat} {m : Memory} {info last last' : Nat}
    {records records' : List Nat} (chain : Chain address m info records last)
    (also : Chain address m info records' last') : (records, last) = (records', last') := by
  induction chain generalizing records' with
  | last ended =>
      cases also with
      | last => rfl
      | next more _ => exact absurd ended more
  | next more _ ih =>
      cases also with
      | last ended => exact absurd ended more
      | next _ later =>
          cases ih later
          rfl

theorem Chain.head_ne {address : Nat → Nat} {m : Memory} {info last : Nat}
    {records : List Nat} (chain : Chain address m info records last) :
    ∀ r ∈ records, m.dword (r + 8) ≠ 0 := by
  induction chain with
  | last => exact fun r member => absurd member List.not_mem_nil
  | next more _ ih =>
      intro r member
      rcases List.mem_cons.mp member with rfl | later
      · exact more
      · exact ih r later

section

variable {m : Memory} {info last headerLen fuel : Nat} {records : List Nat} {s fin : State}
variable (straight : ∀ a ≤ headerLen, rewriting.address a = a)

theorem body_behind (fits : rewriting.Fits m info)
    (same : ∀ b, info ≤ b → rewriting.image s b = m b) {b : Nat}
    (behind : info + sizeAt m info ≤ b) :
    rewriting.image (rewriting.body s info) b = m b := by
  have type : (rewriting.image s).word info = m.word info :=
    Memory.word_congr fun a low _ => same a low
  have kept : rewriting.stored (m.word info) (b - info) = none := by
    by_contra written
    have inside := fits _ (Option.isSome_iff_ne_none.mpr written)
    omega
  rw [rewriting.image_body, if_pos (by omega), type, kept, Option.getD_none, same b (by omega)]

theorem body_head (same : ∀ b, info ≤ b → rewriting.image s b = m b) {b : Nat} (low : info ≤ b)
    (head : b < info + 16) : rewriting.image (rewriting.body s info) b = m b := by
  rw [rewriting.image_body, if_pos low, rewriting.head_kept _ _ (by omega), Option.getD_none,
    same b low]

theorem body_below {b : Nat} (below : b < info) :
    rewriting.image (rewriting.body s info) b = rewriting.image s b := by
  rw [rewriting.image_body, if_neg (by omega)]

theorem run_next (same : ∀ b, info ≤ b → rewriting.image s b = m b)
    (more : m.dword (info + 8) ≠ 0) :
    rewriting.run (fuel + 1) s info = (rewriting.run fuel (rewriting.body s info)
      (rewriting.address (info + sizeAt m info))).map fun t => (t.1, info :: t.2) := by
  have next : (rewriting.image s).dword (info + 8) = m.dword (info + 8) :=
    Memory.dword_congr fun a low _ => same a (by omega)
  have size : (rewriting.image (rewriting.body s info)).word (info + 4) = m.word (info + 4) :=
    Memory.word_congr fun a low high => body_head same (by omega) (by omega)
  rw [run, next, if_neg more]
  simp only [size]
  rfl

include straight in
theorem run_gives (chain : Chain rewriting.address m info records last)
    (ends : ∀ r ∈ records, r + sizeAt m r ≤ headerLen) (fits : ∀ r ∈ records, rewriting.Fits m r)
    (same : ∀ b, info ≤ b → rewriting.image s b = m b) (fuel : Nat) :
    Gives (rewriting.run fuel s info) (records.length < fuel)
      (records.foldl rewriting.body s, records) := by
  induction chain generalizing s fuel with
  | @last info ended =>
      cases fuel with
      | zero => exact Gives.of_none rfl (Nat.not_lt_zero _)
      | succ fuel =>
          apply Gives.of_eq
          have next : (rewriting.image s).dword (info + 8) = m.dword (info + 8) :=
            Memory.dword_congr fun a low _ => same a (by omega)
          rw [run, next, if_pos ended]
          rfl
  | @next info last rest more _ ih =>
      cases fuel with
      | zero => exact Gives.of_none rfl (Nat.not_lt_zero _)
      | succ fuel =>
          have own := fits info List.mem_cons_self
          have place := straight _ (ends info List.mem_cons_self)
          have later := ih (fun r member => ends r (List.mem_cons_of_mem _ member))
            (fun r member => fits r (List.mem_cons_of_mem _ member))
            (fun b low => body_behind own same (by omega)) fuel
          rw [run_next same more]
          constructor
          case only =>
            intro r found
            obtain ⟨t, has, rfl⟩ := Option.map_eq_some_iff.mp found
            rw [later.only t has]
            rfl
          case some =>
            intro enough
            rw [later.some (by simpa using enough)]
            rfl

include straight in
theorem fold_image (chain : Chain rewriting.address m info records last)
    (ends : ∀ r ∈ records, r + sizeAt m r ≤ headerLen) (fits : ∀ r ∈ records, rewriting.Fits m r)
    (same : ∀ b, info ≤ b → rewriting.image s b = m b) :
    (∀ b < info, rewriting.image (records.foldl rewriting.body s) b = rewriting.image s b) ∧
      (∀ r ∈ records, ∀ x < sizeAt m r, rewriting.image (records.foldl rewriting.body s) (r + x) =
        (rewriting.stored (m.word r) x).getD (m (r + x))) ∧
      ∀ b, last ≤ b → rewriting.image (records.foldl rewriting.body s) b = m b := by
  induction chain generalizing s with
  | last => exact ⟨fun _ _ => rfl, fun r member => absurd member List.not_mem_nil, same⟩
  | @next info last rest more _ ih =>
      have place := straight _ (ends info List.mem_cons_self)
      rw [place] at ih
      obtain ⟨below, inside, behind⟩ := ih
        (fun r member => ends r (List.mem_cons_of_mem _ member))
        (fun r member => fits r (List.mem_cons_of_mem _ member))
        (fun b low => body_behind (fits info List.mem_cons_self) same low)
      rw [List.foldl_cons]
      refine ⟨fun b low => ?_, fun r member x short => ?_, behind⟩
      · rw [below b (by omega), body_below low]
      · rcases List.mem_cons.mp member with rfl | later
        · have type : (rewriting.image s).word r = m.word r :=
            Memory.word_congr fun a low _ => same a low
          rw [below _ (by omega), rewriting.image_body, if_pos (by omega), type,
            Nat.add_sub_cancel_left, same _ (by omega)]
        · exact inside r later x short

include straight in
theorem fits_of_within (chain : Chain rewriting.address m info records last)
    (ends : ∀ r ∈ records, r + sizeAt m r ≤ headerLen)
    (same : ∀ b, info ≤ b → rewriting.image s b = m b) {handled : List Nat}
    (ran : rewriting.run fuel s info = some (fin, handled))
    (within : ∀ r ∈ handled, r ∈ records → rewriting.Fits m r) :
    ∀ r ∈ records, rewriting.Fits m r := by
  induction chain generalizing s fuel handled with
  | last => exact fun r member => absurd member List.not_mem_nil
  | @next info last rest more _ ih =>
      cases fuel with
      | zero => cases ran
      | succ fuel =>
          rw [run_next same more] at ran
          obtain ⟨t, has, pair⟩ := Option.map_eq_some_iff.mp ran
          cases pair
          have own := within info List.mem_cons_self List.mem_cons_self
          have place := straight _ (ends info List.mem_cons_self)
          have later := ih (fun r member => ends r (List.mem_cons_of_mem _ member))
            (fun b low => body_behind own same (by omega)) has
            (fun r member inside =>
              within r (List.mem_cons_of_mem _ member) (List.mem_cons_of_mem _ inside))
          intro r member
          rcases List.mem_cons.mp member with rfl | rest_member
          · exact own
          · exact later r rest_member

variable (rewriting s info) in
include straight in
theorem covers_iff :
    (∃ records last fuel fin handled,
      Chain rewriting.address (rewriting.image s) info records last ∧
      Inside (rewriting.image s) records last headerLen ∧
      rewriting.run fuel s info = some (fin, handled) ∧
      rewriting.Covers (rewriting.image s) records last handled (rewriting.image fin)) ↔
    ∃ records last, Chain rewriting.address (rewriting.image s) info records last ∧
      Inside (rewriting.image s) records last headerLen ∧
      (∀ r ∈ records, rewriting.Fits (rewriting.image s) r) ∧
      ∀ x, rewriting.stored ((rewriting.image s).word last) x = none := by
  constructor
  next =>
    rintro ⟨records, last, fuel, fin, handled, chain, inside, ran, covers⟩
    have fits := fits_of_within straight chain inside.ends (fun _ _ => rfl) ran
      fun r handles member => covers.within r handles (List.mem_append_left _ member)
    refine ⟨records, last, chain, inside, fits, fun x => ?_⟩
    by_contra written
    have handles := covers.all last (List.mem_append_right _ (List.mem_singleton_self last))
      ⟨x, Option.isSome_iff_ne_none.mpr written⟩
    have gives := run_gives straight chain inside.ends fits (fun _ _ => rfl) fuel
    cases gives.only _ ran
    exact chain.head_ne last handles chain.last_head
  next =>
    rintro ⟨records, last, chain, inside, fits, nothing⟩
    have gives := run_gives straight chain inside.ends fits (fun _ _ => rfl) (records.length + 1)
    obtain ⟨-, own, behind⟩ := fold_image straight chain inside.ends fits (fun _ _ => rfl)
    refine ⟨records, last, _, _, _, chain, inside, gives.some (Nat.lt_succ_self _), ?_, ?_, ?_⟩
    · rintro r member ⟨x, written⟩
      rcases List.mem_append.mp member with front | ended
      · exact front
      · rw [List.mem_singleton.mp ended, nothing] at written
        cases written
    · exact fun r handles _ => fits r handles
    · intro r member x short
      rcases List.mem_append.mp member with front | ended
      · exact own r front x short
      · rw [List.mem_singleton.mp ended, nothing, Option.getD_none]
        exact behind _ (Nat.le_add_right _ _)

end

end Rewriting

open Rewriting

-- Into a record of type 4 the program writes `digest` from `first` on, and type 5 is cleared.
def storedAt (first count : Nat) (digest : Memory) (type : BitVec 32) (x : Nat) : Option Byte :=
  if type = 4 then if first ≤ x ∧ x < first + count then some (digest (x - first)) else none
  else if type = 5 then if 16 ≤ x ∧ x < 16 + 0x100 then some 0 else none
  else none

theorem storedAt_head {first count x : Nat} {digest : Memory} (low : 16 ≤ first)
    (type : BitVec 32) (head : x < 16) : storedAt first count digest type x = none := by
  simp only [storedAt]
  split
  next => exact if_neg (by omega)
  next =>
    split
    next => exact if_neg (by omega)
    next => rfl

theorem copy_eq (m source : Memory) (info first count a : Nat) :
    m.copy (info + first) count source a =
      if info ≤ a then (if first ≤ a - info ∧ a - info < first + count then
        some (source (a - info - first)) else none).getD (m a) else m a := by
  rw [Memory.copy]
  by_cases low : info ≤ a
  next =>
    have place : a - (info + first) = a - info - first := by omega
    rw [if_pos low, place]
    by_cases inside : first ≤ a - info ∧ a - info < first + count
    next => rw [if_pos (by omega), if_pos inside, Option.getD_some]
    next => rw [if_neg (by omega), if_neg inside, Option.getD_none]
  next => rw [if_neg (by omega), if_neg low]

theorem storeWord_zero (m : Memory) (address : Nat) :
    m.storeWord address 0 = m.copy address 4 fun _ => 0 := by
  funext a
  by_cases inside : address ≤ a ∧ a < address + 4
  next =>
    obtain ⟨k, rfl⟩ := Nat.exists_eq_add_of_le inside.1
    rw [Memory.storeWord_byte m address 0 k (by omega), Memory.copy, if_pos inside]
    simp
  next => rw [Memory.storeWord_outside m address 0 a (by omega), Memory.copy, if_neg inside]

def injector (elfDigest : Memory) : Rewriting Memory where
  image := id
  body := injectInfo elfDigest
  address := id
  stored := storedAt 36 0x20 elfDigest
  head_kept type x := storedAt_head (by decide) type
  image_body := by
    intro m info a
    simp only [injectInfo, storedAt, id]
    split
    next => exact copy_eq m elfDigest info 36 0x20 a
    next =>
      split
      next => exact copy_eq m (fun _ => 0) info 16 0x100 a
      next => simp

def stripper : Rewriting Stripping where
  image := Stripping.header
  body := stripInfo
  -- a pointer has 32 bits
  address a := a % 2 ^ 32
  stored := storedAt 76 4 fun _ => 0
  head_kept type x := storedAt_head (by decide) type
  image_body := by
    intro s info a
    simp only [stripInfo, storedAt]
    split
    next =>
      dsimp only
      rw [storeWord_zero]
      exact copy_eq s.header (fun _ => 0) info 76 4 a
    next =>
      split
      next => exact copy_eq s.header (fun _ => 0) info 16 0x100 a
      next => simp

-- The loop of `dumpThread`.
def stripLoop : Nat → Stripping → Nat → Option Stripping
  | 0, _, _ => none
  | fuel + 1, s, info =>
      if s.header.dword (info + 8) = 0 then some s
      else
        let s := stripInfo s info
        stripLoop fuel s ((info + (s.header.word (info + 4)).toNat) % 2 ^ 32)

theorem controlLoop_eq_run (elfDigest : Memory) (fuel : Nat) (selfFile : Memory) (info : Nat) :
    controlLoop elfDigest fuel selfFile info =
      ((injector elfDigest).run fuel selfFile info).map Prod.fst := by
  induction fuel generalizing selfFile info with
  | zero => rfl
  | succ fuel ih =>
      have head : ((injector elfDigest).image selfFile).dword (info + 8) =
          selfFile.dword (info + 8) := rfl
      rw [controlLoop, Rewriting.run, head]
      simp only [ih]
      split
      next => rfl
      next =>
        rw [Option.map_map]
        rfl

theorem stripLoop_eq_run (fuel : Nat) (s : Stripping) (info : Nat) :
    stripLoop fuel s info = (stripper.run fuel s info).map Prod.fst := by
  induction fuel generalizing s info with
  | zero => rfl
  | succ fuel ih =>
      have head : (stripper.image s).dword (info + 8) = s.header.dword (info + 8) := rfl
      rw [stripLoop, Rewriting.run, head]
      simp only [ih]
      split
      next => rfl
      next =>
        rw [Option.map_map]
        rfl

def digestRecord (m : Memory) (records : List Nat) : Option Nat :=
  records.reverse.find? fun info => m.word info = 4

/-- The injector leaves the ELF's digest in every record of type 4, clears the body of every record
of type 5 and changes nothing else in the chain. -/
def InjectorCovers (elfDigest selfFile : Memory) (info headerLen : Nat) : Prop :=
  ∃ records last fuel fin handled, Chain id selfFile info records last ∧
    Inside selfFile records last headerLen ∧
    controlLoop elfDigest fuel selfFile info = some fin ∧
    (injector elfDigest).run fuel selfFile info = some (fin, handled) ∧
    (injector elfDigest).Covers selfFile records last handled fin

/-- `dumpThread` reads the digest of every record of type 4, clears its firmware, clears the body of
every record of type 5 and changes nothing else in the chain. -/
def StripperCovers (s : Stripping) (info headerLen : Nat) : Prop :=
  ∃ records last fuel fin handled, Chain (· % 2 ^ 32) s.header info records last ∧
    Inside s.header records last headerLen ∧ stripLoop fuel s info = some fin ∧
    stripper.run fuel s info = some (fin, handled) ∧
    stripper.Covers s.header records last handled fin.header ∧
    ∀ k < 0x20, fin.origElfDigest k = (digestRecord s.header (records ++ [last])).elim
      (s.origElfDigest k) fun info => s.header (info + 36 + k)

/-- The chain ends in the header, the records before the last one hold what is written for them, and
the last one is of neither type. -/
def Rewritable (address : Nat → Nat) (digestEnd : Nat) (m : Memory) (info headerLen : Nat) : Prop :=
  ∃ records last, Chain address m info records last ∧ Inside m records last headerLen ∧
    (∀ r ∈ records, (m.word r = 4 → digestEnd ≤ sizeAt m r) ∧
      (m.word r = 5 → 0x110 ≤ sizeAt m r)) ∧
    m.word last ≠ 4 ∧ m.word last ≠ 5

section

variable {first count : Nat} {digest : Memory}

theorem storedAt_fits {type : BitVec 32} {size : Nat} (some : 0 < count) :
    (∀ x, (storedAt first count digest type x).isSome = true → x < size) ↔
      (type = 4 → first + count ≤ size) ∧ (type = 5 → 0x110 ≤ size) := by
  constructor
  · intro fits
    constructor
    · rintro rfl
      have last := fits (first + count - 1) (by
        rw [storedAt, if_pos rfl, if_pos (by omega)]
        rfl)
      omega
    · rintro rfl
      have last := fits 0x10F (by
        rw [storedAt, if_neg (by decide), if_pos rfl, if_pos (by decide)]
        rfl)
      omega
  · rintro ⟨four, five⟩ x written
    simp only [storedAt] at written
    split at written
    next type_four =>
      have room := four type_four
      split at written
      next inside => omega
      next => cases written
    next =>
      split at written
      next type_five =>
        have room := five type_five
        split at written
        next inside => omega
        next => cases written
      next => cases written

theorem storedAt_none {type : BitVec 32} (some : 0 < count) :
    (∀ x, storedAt first count digest type x = none) ↔ type ≠ 4 ∧ type ≠ 5 := by
  constructor
  · intro nothing
    constructor
    · rintro rfl
      have here := nothing first
      rw [storedAt, if_pos rfl, if_pos (by omega)] at here
      cases here
    · rintro rfl
      have here := nothing 16
      rw [storedAt, if_neg (by decide), if_pos rfl, if_pos (by decide)] at here
      cases here
  · rintro ⟨four, five⟩ x
    rw [storedAt, if_neg four, if_neg five]

end

theorem digestRecord_cons (m : Memory) (info : Nat) (rest : List Nat) :
    digestRecord m (info :: rest) =
      (digestRecord m rest).or (if m.word info = 4 then some info else none) := by
  rw [digestRecord, List.reverse_cons, List.find?_append, digestRecord]
  congr 1
  rw [List.find?_singleton]
  simp

theorem digestRecord_concat {m : Memory} {last : Nat} (other : m.word last ≠ 4)
    (records : List Nat) : digestRecord m (records ++ [last]) = digestRecord m records := by
  rw [digestRecord, List.reverse_append, List.reverse_singleton, List.singleton_append,
    List.find?_cons_of_neg (by simpa using other), digestRecord]

theorem stripInfo_digest {m : Memory} {info : Nat} {s : Stripping}
    (same : ∀ b, info ≤ b → s.header b = m b) {k : Nat} (inside : k < 0x20) :
    (stripInfo s info).origElfDigest k =
      if m.word info = 4 then m (info + 36 + k) else s.origElfDigest k := by
  have type : s.header.word info = m.word info := Memory.word_congr fun a low _ => same a low
  simp only [stripInfo, type]
  split
  next =>
    dsimp only
    rw [Memory.copy, if_pos (by omega), Memory.storeWord_outside _ _ _ _ (by omega),
      same _ (by omega), Nat.sub_zero]
  next =>
    split
    next => rfl
    next => rfl

theorem fold_digest {m : Memory} {info last headerLen : Nat} {records : List Nat} {s : Stripping}
    (straight : ∀ a ≤ headerLen, stripper.address a = a)
    (chain : Chain stripper.address m info records last)
    (ends : ∀ r ∈ records, r + sizeAt m r ≤ headerLen) (fits : ∀ r ∈ records, stripper.Fits m r)
    (same : ∀ b, info ≤ b → s.header b = m b) {k : Nat} (inside : k < 0x20) :
    (records.foldl stripInfo s).origElfDigest k =
      (digestRecord m records).elim (s.origElfDigest k) fun r => m (r + 36 + k) := by
  induction chain generalizing s with
  | last => rfl
  | @next info last rest more _ ih =>
      have place := straight _ (ends info List.mem_cons_self)
      have later := ih (s := stripInfo s info)
        (fun r member => ends r (List.mem_cons_of_mem _ member))
        (fun r member => fits r (List.mem_cons_of_mem _ member))
        (fun b low => body_behind (fits info List.mem_cons_self) same (by omega))
      rw [List.foldl_cons, digestRecord_cons, later, stripInfo_digest same inside]
      cases digestRecord m rest with
      | some r => rfl
      | none =>
          split
          next => rfl
          next => rfl

theorem rewritable_iff {State : Type} {rewriting : Rewriting State} {m : Memory}
    {info headerLen : Nat} (first count : Nat) (digest : Memory) (some : 0 < count)
    (stored : rewriting.stored = storedAt first count digest) :
    (∃ records last, Chain rewriting.address m info records last ∧
      Inside m records last headerLen ∧ (∀ r ∈ records, rewriting.Fits m r) ∧
      ∀ x, rewriting.stored (m.word last) x = none) ↔
    Rewritable rewriting.address (first + count) m info headerLen := by
  have fits (r : Nat) : rewriting.Fits m r ↔
      (m.word r = 4 → first + count ≤ sizeAt m r) ∧ (m.word r = 5 → 0x110 ≤ sizeAt m r) := by
    rw [Fits, stored]
    exact storedAt_fits some
  simp only [fits, stored, storedAt_none some, Rewritable]

theorem injectorCovers_iff (elfDigest selfFile : Memory) (info headerLen : Nat) :
    InjectorCovers elfDigest selfFile info headerLen ↔
      Rewritable id 68 selfFile info headerLen := by
  have straight : ∀ a ≤ headerLen, (injector elfDigest).address a = a := fun _ _ => rfl
  refine Iff.trans ?_ ((covers_iff (injector elfDigest) info selfFile straight).trans
    (rewritable_iff 36 0x20 elfDigest (by decide) rfl))
  constructor
  next =>
    rintro ⟨records, last, fuel, fin, handled, chain, inside, -, ran, covers⟩
    exact ⟨records, last, fuel, fin, handled, chain, inside, ran, covers⟩
  next =>
    rintro ⟨records, last, fuel, fin, handled, chain, inside, ran, covers⟩
    refine ⟨records, last, fuel, fin, handled, chain, inside, ?_, ran, covers⟩
    rw [controlLoop_eq_run, ran]
    rfl

theorem stripperCovers_iff (s : Stripping) (info : Nat) : StripperCovers s info 0x1000 ↔
    Rewritable (· % 2 ^ 32) 80 s.header info 0x1000 := by
  have straight : ∀ a ≤ 0x1000, stripper.address a = a :=
    fun a low => Nat.mod_eq_of_lt (by omega)
  have settled := (covers_iff stripper info s straight).trans
    (rewritable_iff 76 4 (fun _ => 0) (by decide) rfl)
  constructor
  next =>
    rintro ⟨records, last, fuel, fin, handled, chain, inside, -, ran, covers, -⟩
    exact settled.mp ⟨records, last, fuel, fin, handled, chain, inside, ran, covers⟩
  next =>
    intro rewritable
    obtain ⟨records, last, fuel, fin, handled, chain, inside, ran, covers⟩ :=
      settled.mpr rewritable
    have fits := fits_of_within straight chain inside.ends (fun _ _ => rfl) ran
      fun r handles member => covers.within r handles (List.mem_append_left _ member)
    have gives := run_gives straight chain inside.ends fits (fun _ _ => rfl) fuel
    cases gives.only _ ran
    refine ⟨records, last, fuel, _, records, chain, inside, ?_, ran, covers, fun k short => ?_⟩
    · rw [stripLoop_eq_run, ran]
      rfl
    · have other : s.header.word last ≠ 4 := by
        obtain ⟨records', last', chain', -, -, other, -⟩ := rewritable
        cases chain.unique chain'
        exact other
      rw [digestRecord_concat other]
      exact fold_digest straight chain inside.ends fits (fun _ _ => rfl) short

/-- When the two loops cover a header's control infos. -/
theorem control_infos_iff (elfDigest selfFile : Memory) (s : Stripping) (info headerLen : Nat) :
    (InjectorCovers elfDigest selfFile info headerLen ↔
      Rewritable id 68 selfFile info headerLen) ∧
    (StripperCovers s info 0x1000 ↔ Rewritable (· % 2 ^ 32) 80 s.header info 0x1000) :=
  ⟨injectorCovers_iff elfDigest selfFile info headerLen, stripperCovers_iff s info⟩

-- One record of type 5, which is the last one.
def npdrmInfo : Memory := fun a => if a = 0 then 5 else if a = 4 ∨ a = 16 then 0x10 else if a = 5
  then 1 else 0

def zeroSize : Memory := fun a => if a = 8 then 1 else 0

theorem zeroSize_endless {address : Nat → Nat} (zero : address 0 = 0) {info last : Nat}
    {records : List Nat} (chain : Chain address zeroSize info records last) : info ≠ 0 := by
  induction chain with
  | last ended =>
      rintro rfl
      exact absurd ended (by decide)
  | next _ _ ih =>
      rintro rfl
      apply ih
      have size : sizeAt zeroSize 0 = 0 := by decide
      rw [size]
      exact zero

/-- The last record keeps its body, and a record without a size holds the loop. -/
theorem last_record_kept :
    ¬ InjectorCovers (fun _ => 0) npdrmInfo 0 0x1000 ∧
      ¬ StripperCovers ⟨npdrmInfo, fun _ => 0⟩ 0 0x1000 ∧
      ¬ InjectorCovers (fun _ => 0) zeroSize 0 0x1000 ∧
      ¬ StripperCovers ⟨zeroSize, fun _ => 0⟩ 0 0x1000 := by
  have ended : npdrmInfo.dword (0 + 8) = 0 := by decide
  have type : npdrmInfo.word 0 = 5 := by decide
  refine ⟨?_, ?_, ?_, ?_⟩
  · rw [injectorCovers_iff]
    rintro ⟨records, last, chain, -, -, -, other⟩
    cases chain with
    | last => exact other type
    | next more _ => exact more ended
  · rw [stripperCovers_iff]
    rintro ⟨records, last, chain, -, -, -, other⟩
    cases chain with
    | last => exact other type
    | next more _ => exact more ended
  · rw [injectorCovers_iff]
    rintro ⟨records, last, chain, -⟩
    exact zeroSize_endless rfl chain rfl
  · rw [stripperCovers_iff]
    rintro ⟨records, last, chain, -⟩
    exact zeroSize_endless rfl chain rfl

end VitaTools.Self
