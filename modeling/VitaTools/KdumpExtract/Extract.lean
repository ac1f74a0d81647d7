import VitaTools.KdumpExtract.Scan
import VitaTools.Library.File
import Mathlib.Order.Bounds.Basic

set_option autoImplicit false

namespace VitaTools.KdumpExtract

open VitaTools.Library

-- `sizeof(SceModuleInfo)`
def sizeofModuleInfo : Word := 0x5C

-- "SceSysmem", the module whose address is known.
def knownModname : List Byte := [0x53, 0x63, 0x65, 0x53, 0x79, 0x73, 0x6D, 0x65, 0x6D]

-- ".elf"
def extension : List Byte := [0x2E, 0x65, 0x6C, 0x66]

/-- Where the module information is; the sum is a `size_t` that is cut. -/
def modInfoOff (off : Word) : Word := BitVec.ofNat 32 (off.toNat + check.length - 4)

/-- The entry point of the module found at `off`. -/
def entryPoint (input : Memory) (off : Word) : Word :=
  input.word ((modInfoOff off).toNat + 36) - sizeofModuleInfo

structure Padding where
  seg0End : Word
  j : Word

namespace Padding

def loop (input : Memory) : Loop Padding where
  more s := s.j.slt 0x100
  pass s :=
    -- The step of the `for` follows the reset.
    if input (s.seg0End.toNat + s.j.toNat) ≠ input s.seg0End.toNat then ⟨s.seg0End + 1, 0 + 1⟩
    else { s with j := s.j + 1 }

end Padding

def zeros : Memory := fun _ => 0

def elfHeader (ep : Word) : Memory :=
  zeros.storeWord 0x00 0x464C457F
    |>.storeWord 0x04 0x00010101
    -- e_machine and e_type
    |>.storeWord 0x10 ((0x28 : BitVec 16) ++ (4 : BitVec 16))
    |>.storeWord 0x14 1
    |>.storeWord 0x18 ep
    |>.storeWord 0x1C 0x34
    |>.storeWord 0x24 0x05000000
    -- e_phentsize and e_ehsize, then e_phnum
    |>.storeWord 0x28 ((0x20 : BitVec 16) ++ (0x34 : BitVec 16))
    |>.storeWord 0x2C ((0 : BitVec 16) ++ (1 : BitVec 16))

def programHeader (vaddr size : Word) : Memory :=
  zeros.storeWord 0x00 1
    |>.storeWord 0x04 0xC0
    |>.storeWord 0x08 vaddr
    |>.storeWord 0x0C 0
    |>.storeWord 0x10 size
    |>.storeWord 0x14 size
    |>.storeWord 0x18 5
    |>.storeWord 0x1C 1

structure Saved where
  off : Word
  outpath : List Byte
  seg0Start : Word
  seg0End : Word
  -- What the last `fwrite` is to write.
  written : Nat
  file : File

def saveElf (input : Memory) (ep vaddr seg0Start size : Word) : File :=
  let fout := (File.empty.seek 0).write 0x34 (elfHeader ep)
  let fout := (fout.seek 0x34).write 0x20 (programHeader vaddr size)
  (fout.seek 0xC0).write size.toNat fun k => input (seg0Start.toNat + k)

def vaddrOffAfter (input : Memory) (name : Nat) (seg0Start vaddrOff : Word) : Word :=
  if input.slice name knownModname.length = knownModname ∧ vaddrOff = 0 then seg0Start
  else vaddrOff

/-- What is done with the module at `off`: the next `vaddr_off`, and the file that is saved. `none`
when the passes do not suffice. -/
def extract (fuel : Nat) (input : Memory) (off vaddrOff : Word) : Option (Word × Option Saved) :=
  let name := (modInfoOff off).toNat + 4
  let ep := entryPoint input off
  let seg0Start := modInfoOff off - ep
  if (0 : Word).slt seg0Start then do
    let padding ← (Padding.loop input).run fuel ⟨off, 0⟩
    let seg0Size := padding.seg0End - seg0Start
    let vaddrOff := vaddrOffAfter input name seg0Start vaddrOff
    if vaddrOff ≠ 0 then
      some (vaddrOff, some {
        off := off
        outpath := ((input.slice name 127).takeWhile (· != 0) ++ extension).take 127
        seg0Start := seg0Start
        seg0End := padding.seg0End
        written := seg0Size.toNat
        file := saveElf input ep (input.word 0 + seg0Start - vaddrOff) seg0Start seg0Size })
    else some (vaddrOff, none)
  else some (vaddrOff, none)

def extractAll (fuel : Nat) (input : Memory) : List Nat → Word → Option (List Saved)
  | [], _ => some []
  | off :: rest, vaddrOff => do
      let done ← extract fuel input (BitVec.ofNat 32 off) vaddrOff
      let later ← extractAll fuel input rest done.1
      some (done.2.toList ++ later)

def Run (input : Memory) (e : Nat) : Prop := ∀ k < 0x100, input (e + k) = input e

/-- 256 equal bytes of the dump. -/
def RunIn (sz : Nat) (input : Memory) (e : Nat) : Prop := e + 0x100 ≤ sz ∧ Run input e

structure Contains (sz : Nat) (input : Memory) (saved : Saved) : Prop where
  start : saved.seg0Start.toNat ≤ (modInfoOff saved.off).toNat
  module : (modInfoOff saved.off).toNat < saved.seg0End.toNat
  inside : saved.seg0End.toNat ≤ sz
  least : IsLeast { e | saved.off.toNat ≤ e ∧ RunIn sz input e } saved.seg0End.toNat
  size : (saved.file.bytes.word (0x34 + 0x10)).toNat = saved.written
  copied : ∀ k < saved.written,
    saved.file.get? (0xC0 + k) = some (input (saved.seg0Start.toNat + k))
  range : saved.seg0Start.toNat + saved.written = saved.seg0End.toNat
  entry : saved.seg0Start.toNat + (saved.file.bytes.word 0x18).toNat =
    (modInfoOff saved.off).toNat

variable {sz fuel : Nat} {input : Memory} {off : Word}

theorem saveElf_bytes (ep vaddr seg0Start size : Word) :
    (saveElf input ep vaddr seg0Start size).bytes =
      ((zeros.copy 0 0x34 (elfHeader ep)).copy 0x34 0x20 (programHeader vaddr size)).copy 0xC0
        size.toNat fun k => input (seg0Start.toNat + k) := rfl

theorem saveElf_entry (ep vaddr seg0Start size : Word) :
    (saveElf input ep vaddr seg0Start size).bytes.word 0x18 = ep := by
  have header : (elfHeader ep).word 0x18 = ep := by
    simp only [elfHeader]
    rw [Memory.word_storeWord_apart _ _ _ _ (by decide),
      Memory.word_storeWord_apart _ _ _ _ (by decide),
      Memory.word_storeWord_apart _ _ _ _ (by decide),
      Memory.word_storeWord_apart _ _ _ _ (by decide), Memory.word_storeWord]
  rw [saveElf_bytes, Memory.word_copy_below _ _ _ _ (by decide),
    Memory.word_copy_below _ _ _ _ (by decide)]
  exact (Memory.word_copy zeros 0 0x34 (elfHeader ep) (k := 0x18) (by decide)).trans header

theorem saveElf_size (ep vaddr seg0Start size : Word) :
    (saveElf input ep vaddr seg0Start size).bytes.word (0x34 + 0x10) = size := by
  have header : (programHeader vaddr size).word 0x10 = size := by
    simp only [programHeader]
    rw [Memory.word_storeWord_apart _ _ _ _ (by decide),
      Memory.word_storeWord_apart _ _ _ _ (by decide),
      Memory.word_storeWord_apart _ _ _ _ (by decide), Memory.word_storeWord]
  rw [saveElf_bytes, Memory.word_copy_below _ _ _ _ (by decide),
    Memory.word_copy _ _ _ _ (by decide), header]

theorem saveElf_copied (ep vaddr seg0Start size : Word) {k : Nat} (inside : k < size.toNat) :
    (saveElf input ep vaddr seg0Start size).get? (0xC0 + k) =
      some (input (seg0Start.toNat + k)) := by
  have place : 0xC0 + k = (0xC0 : Word).toNat + k := rfl
  rw [place]
  exact File.get?_write_inside k inside (by decide)

namespace Padding

structure Searching (input : Memory) (off : Word) (e : Nat) (s : Padding) : Prop where
  first : off.toNat ≤ s.seg0End.toNat
  most : s.seg0End.toNat ≤ e
  small : s.j.toNat ≤ 0x100
  equal : ∀ k < s.j.toNat, input (s.seg0End.toNat + k) = input s.seg0End.toNat

variable {s : Padding} {e : Nat}

theorem more_iff (small : s.j.toNat ≤ 0x100) :
    (loop input).more s = true ↔ s.j.toNat < 0x100 := by
  have positive : s.j.toInt = s.j.toNat := BitVec.toInt_eq_toNat_of_lt (by omega)
  change s.j.slt 0x100 = true ↔ _
  rw [BitVec.slt_iff_toInt_lt, positive]
  exact Int.ofNat_lt

theorem Searching.pass (searching : s.Searching input off e) (run : Run input e)
    (range : e < 2 ^ 32) (goes : (loop input).more s = true) :
    ((loop input).pass s).Searching input off e := by
  have less := (more_iff searching.small).mp goes
  obtain ⟨first, most, -, equal⟩ := searching
  simp only [loop]
  split
  case isTrue other =>
    have apart : s.seg0End.toNat ≠ e := fun same => other (by rw [same]; exact run _ less)
    have next : (s.seg0End + 1).toNat = s.seg0End.toNat + 1 := by
      rw [BitVec.toNat_add]
      exact Nat.mod_eq_of_lt (by change s.seg0End.toNat + 1 < _; omega)
    constructor
    · exact Nat.le_trans first (next ▸ Nat.le_succ _)
    · exact next.trans_le (Nat.lt_of_le_of_ne most apart)
    · exact show 1 ≤ 0x100 by decide
    · intro k small
      rw [Nat.lt_one_iff.mp small, Nat.add_zero]
  case isFalse same =>
    have next : (s.j + 1).toNat = s.j.toNat + 1 := by
      rw [BitVec.toNat_add]
      exact Nat.mod_eq_of_lt (by change s.j.toNat + 1 < _; omega)
    refine ⟨first, most, next.trans_le less, fun k below => ?_⟩
    have reached : k < s.j.toNat + 1 := next ▸ below
    rcases Nat.lt_succ_iff_lt_or_eq.mp reached with earlier | rfl
    · exact equal k earlier
    · exact Classical.not_not.mp same

theorem ends (returned : (loop input).run fuel ⟨off, 0⟩ = some s)
    (least : IsLeast { e | off.toNat ≤ e ∧ Run input e } e) (range : e < 2 ^ 32) :
    s.seg0End.toNat = e := by
  obtain ⟨visited, ended⟩ := Loop.run_iff.mp ⟨fuel, returned⟩
  have searching : s.Searching input off e := by
    apply visited.invariant (Searching input off e)
    · exact ⟨Nat.le_refl _, least.1.1, Nat.zero_le _, fun k none => absurd none (Nat.not_lt_zero k)⟩
    · exact fun s _ searching goes => searching.pass least.1.2 range goes
  have all : s.j.toNat = 0x100 := by
    refine Nat.le_antisymm searching.small (Nat.le_of_not_lt fun less => ?_)
    rw [(more_iff searching.small).mpr less] at ended
    contradiction
  have run : Run input s.seg0End.toNat := fun k below => searching.equal k (all ▸ below)
  exact Nat.le_antisymm searching.most (least.2 ⟨searching.first, run⟩)

end Padding

theorem run_behind {e : Nat} (signature : Signature input off.toNat) (first : off.toNat ≤ e)
    (run : Run input e) : off.toNat + 4 < e := by
  by_contra early
  obtain ⟨d, rfl⟩ := Nat.exists_eq_add_of_le first
  have byte (k : Nat) (inside : d + k < 8) (plain : d + k ≠ 6) (small : k < 0x100) :
      input (off.toNat + d) = check.getD (d + k) 0 := by
    rw [← run k small, Nat.add_assoc]
    exact signature (d + k) inside plain
  by_cases last : d = 4
  case pos =>
    subst last
    have seven := byte 0 (by decide) (by decide) (by decide)
    rw [byte 1 (by decide) (by decide) (by decide)] at seven
    exact absurd seven (by decide)
  case neg =>
    have zero := byte (3 - d) (by omega) (by omega) (by omega)
    rw [byte (4 - d) (by omega) (by omega) (by omega), show d + (3 - d) = 3 by omega,
      show d + (4 - d) = 4 by omega] at zero
    exact absurd zero (by decide)

structure Origin (fuel : Nat) (input : Memory) (saved : Saved) : Prop where
  padding : ∃ s, (Padding.loop input).run fuel ⟨saved.off, 0⟩ = some s ∧
    s.seg0End = saved.seg0End
  start : saved.seg0Start = modInfoOff saved.off - entryPoint input saved.off
  written : saved.written = (saved.seg0End - saved.seg0Start).toNat
  file : ∃ vaddr, saved.file = saveElf input (entryPoint input saved.off) vaddr saved.seg0Start
    (saved.seg0End - saved.seg0Start)

theorem extract_origin {vaddrOff next : Word} {saved : Saved}
    (extracted : extract fuel input off vaddrOff = some (next, some saved)) :
    saved.off = off ∧ Origin fuel input saved := by
  simp only [extract] at extracted
  split at extracted
  case isFalse => cases extracted
  case isTrue =>
    obtain ⟨s, returned, extracted⟩ := Option.bind_eq_some_iff.mp extracted
    split at extracted
    case isFalse => cases extracted
    case isTrue =>
      cases extracted
      exact ⟨rfl, ⟨s, returned, rfl⟩, rfl, rfl, _, rfl⟩

theorem extractAll_origin {offs : List Nat} {vaddrOff : Word} {saves : List Saved}
    (extracted : extractAll fuel input offs vaddrOff = some saves) {saved : Saved}
    (member : saved ∈ saves) :
    ∃ off ∈ offs, saved.off = BitVec.ofNat 32 off ∧ Origin fuel input saved := by
  induction offs generalizing vaddrOff saves with
  | nil =>
      cases extracted
      cases member
  | cons off rest ih =>
      obtain ⟨done, here, extracted⟩ := Option.bind_eq_some_iff.mp extracted
      obtain ⟨later, behind, extracted⟩ := Option.bind_eq_some_iff.mp extracted
      obtain rfl := Option.some.inj extracted
      rcases List.mem_append.mp member with first | further
      · obtain ⟨next, found⟩ : ∃ next, done = (next, some saved) :=
          ⟨done.1, Prod.ext rfl (Option.mem_toList.mp first)⟩
        exact ⟨off, List.mem_cons_self, extract_origin (found ▸ here)⟩
      · obtain ⟨other, inside, both⟩ := ih behind further
        exact ⟨other, List.mem_cons_of_mem _ inside, both⟩

theorem Origin.contains_iff {saved : Saved} (origin : Origin fuel input saved)
    (signature : Signature input saved.off.toNat) :
    Contains sz input saved ↔
      (entryPoint input saved.off).toNat ≤ (modInfoOff saved.off).toNat ∧
        ∃ e < 2 ^ 32, saved.off.toNat ≤ e ∧ RunIn sz input e := by
  obtain ⟨⟨s, returned, stop⟩, start, written, vaddr, file⟩ := origin
  have entry : saved.file.bytes.word 0x18 = entryPoint input saved.off := by
    rw [file, saveElf_entry]
  constructor
  · intro contains
    have sum := contains.entry
    rw [entry] at sum
    exact ⟨by omega, saved.seg0End.toNat, saved.seg0End.isLt, contains.least.1⟩
  · rintro ⟨low, e, range, behind, run⟩
    have exists_run : ∃ e, saved.off.toNat ≤ e ∧ Run input e := ⟨e, behind, run.2⟩
    classical
    have least : IsLeast { e | saved.off.toNat ≤ e ∧ Run input e } (Nat.find exists_run) :=
      ⟨Nat.find_spec exists_run, fun e found => Nat.find_min' exists_run found⟩
    generalize Nat.find exists_run = first at least
    have before : first ≤ e := least.2 ⟨behind, run.2⟩
    have whole : first + 0x100 ≤ sz := by
      have := run.1
      omega
    have ends : saved.seg0End.toNat = first := by
      rw [← stop]
      exact Padding.ends returned least (by omega)
    have past := run_behind signature least.1.1 least.1.2
    have place : (modInfoOff saved.off).toNat ≤ saved.off.toNat + 4 := by
      rw [modInfoOff, BitVec.toNat_ofNat]
      exact Nat.mod_le _ _
    have begins : saved.seg0Start.toNat =
        (modInfoOff saved.off).toNat - (entryPoint input saved.off).toNat := by
      rw [start, BitVec.toNat_sub_of_le (BitVec.le_def.mpr low)]
    have length : saved.written = saved.seg0End.toNat - saved.seg0Start.toNat := by
      rw [written, BitVec.toNat_sub_of_le (BitVec.le_def.mpr (by omega))]
    constructor
    · omega
    · omega
    · omega
    · rw [ends]
      exact ⟨⟨least.1.1, whole, least.1.2⟩, fun e found => least.2 ⟨found.1, found.2.2⟩⟩
    · rw [file, saveElf_size, written]
    · intro k inside
      rw [file]
      exact saveElf_copied _ _ _ _ (written ▸ inside)
    · omega
    · rw [entry]
      omega

theorem saved_contains_iff {s : Scan} (visited : (Scan.loop sz input).Visits Scan.start s)
    {saves : List Saved} (extracted : extractAll fuel input s.considered 0 = some saves) :
    ∀ saved ∈ saves, Contains sz input saved ↔
      (entryPoint input saved.off).toNat ≤ (modInfoOff saved.off).toNat ∧
        ∃ e < 2 ^ 32, saved.off.toNat ≤ e ∧ RunIn sz input e := by
  intro saved member
  obtain ⟨off, considered, place, origin⟩ := extractAll_origin extracted member
  obtain ⟨-, range, signature⟩ := (Scan.sound_of_visits visited).considered off considered
  refine origin.contains_iff ?_
  rw [place, BitVec.toNat_ofNat, Nat.mod_eq_of_lt range]
  exact signature

def sysmem (expTop : Byte) : Memory := fun a =>
  ([0, 0, 0, 0, 7, 0, 1, 1] ++ knownModname ++ List.replicate 23 0 ++ [expTop]).getD a 0

def found (expTop : Byte) : Scan := (Scan.loop 0x200 (sysmem expTop)).pass^[10] Scan.start

theorem found_visited (expTop : Byte)
    (more : ∀ k < 10, (Scan.loop 0x200 (sysmem expTop)).more
      ((Scan.loop 0x200 (sysmem expTop)).pass^[k] Scan.start) = true) :
    (Scan.loop 0x200 (sysmem expTop)).Visits Scan.start (found expTop) :=
  Loop.Visits.iterate 10 more

theorem saved_contains_iff_sysmem :
    ∃ saves, extractAll 1000 (sysmem 0x5C) (found 0x5C).considered 0 = some saves ∧
      saves.length = 1 ∧
      ∀ saved ∈ saves, Contains 0x200 (sysmem 0x5C) saved ↔
        (entryPoint (sysmem 0x5C) saved.off).toNat ≤ (modInfoOff saved.off).toNat ∧
          ∃ e < 2 ^ 32, saved.off.toNat ≤ e ∧ RunIn 0x200 (sysmem 0x5C) e := by
  have length : (extractAll 1000 (sysmem 0x5C) (found 0x5C).considered 0).map List.length =
      some 1 := by decide +kernel
  obtain ⟨saves, extracted, one⟩ := Option.map_eq_some_iff.mp length
  exact ⟨saves, extracted, one,
    saved_contains_iff (found_visited 0x5C (by decide +kernel)) extracted⟩

-- An entry point below zero puts the start behind the module.
theorem wrapped_entry :
    (Scan.loop 0x200 (sysmem 0)).Visits Scan.start (found 0) ∧
      ∃ saves, extractAll 1000 (sysmem 0) (found 0).considered 0 = some saves ∧
        ∃ saved ∈ saves, ¬ Contains 0x200 (sysmem 0) saved := by
  refine ⟨found_visited 0 (by decide +kernel), ?_⟩
  have starts : (extractAll 1000 (sysmem 0) (found 0).considered 0).map
      (List.map fun saved => (saved.off, saved.seg0Start)) = some [(0, 0x60)] := by
    decide +kernel
  obtain ⟨saves, extracted, one⟩ := Option.map_eq_some_iff.mp starts
  obtain ⟨saved, rfl, at_start⟩ := List.map_eq_singleton_iff.mp one
  refine ⟨_, extracted, saved, List.mem_singleton_self saved, fun contains => ?_⟩
  have low := contains.start
  rw [(Prod.mk.inj at_start).1, (Prod.mk.inj at_start).2] at low
  exact absurd low (by decide)

end VitaTools.KdumpExtract
