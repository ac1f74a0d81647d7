import VitaTools.Self.RoundTrip

set_option autoImplicit false

namespace VitaTools.Self

open VitaTools.Library

-- What a run meets outside the program.
structure Host where
  zlib : Zlib
  -- What lies behind the buffer of each input.
  behind : Nat → Memory
  -- What `malloc` leaves in `dest` for each segment, and whether it succeeds.
  heap : Nat → Memory
  allocates : Nat → Bool
  opens : Bool
  elfDigest : Memory
  fuel : Nat

inductive Exit
  | success
  | error
deriving DecidableEq

inductive Kind
  | self
  | elf
deriving DecidableEq

-- The magics of the input loop; `none` is `Unkown magic`.
def kind (input : Memory) : Option Kind :=
  if input.word 0 ≠ SCE_MAGIC then if isElf input 0 then some .elf else none
  else some .self

-- The segment loop; `false` where an allocation fails.
def injectSegments (host : Host) (elfFile : Memory) (phdrs sinfo : Nat) :
    List Nat → Injection → Injection × Bool
  | [], st => (st, true)
  | i :: rest, st =>
      if host.allocates i then
        injectSegments host elfFile phdrs sinfo rest
          (injectSegment host.zlib host.heap elfFile phdrs sinfo st i)
      else (st, false)

-- The rest of `main` after `fopen(output_path, "wb")`, which empties the file.
def rewrite (host : Host) (selfFile elfFile : Memory) : Option (Exit × File) :=
  let shdr := sceHeader selfFile
  let ehdr := ehdrAt elfFile 0
  if ehdr.phnum ≠ (ehdrAt selfFile shdr.elfOffset.toNat).phnum then some (.error, File.empty)
  else
    let (st, allocated) := injectSegments host elfFile ehdr.phoff.toNat shdr.sectionInfoOffset.toNat
      (List.range ehdr.phnum.toNat) ⟨selfFile, File.empty, 0⟩
    if allocated = false then some (.error, st.fout)
    else
      let controlInfo := (sceHeader st.selfFile).controlinfoOffset.toNat
      (controlLoop host.elfDigest host.fuel st.selfFile controlInfo).map fun selfFile =>
        (.success, writeHeaders selfFile elfFile st.fout)

-- `main` with the files at `argv[1]` and `argv[2]`: its exit, and the two files after it.
def injectMain (host : Host) (files : File × File) : Option (Exit × File × File) :=
  let first := files.1.image (host.behind 0)
  let second := files.2.image (host.behind 1)
  match kind first, kind second with
  | some .self, some .elf =>
      if host.opens then
        (rewrite host first second).map fun (exit, fout) => (exit, fout, files.2)
      else some (.error, files)
  | some .elf, some .self =>
      if host.opens then
        (rewrite host second first).map fun (exit, fout) => (exit, files.1, fout)
      else some (.error, files)
  | _, _ => some (.error, files)

/-- The SELF was opened for writing: there is one, and an ELF, and `fopen` succeeds. -/
def Opened (host : Host) (files : File × File) : Prop :=
  host.opens = true ∧
    (kind (files.1.image (host.behind 0)) = some .self ∧
        kind (files.2.image (host.behind 1)) = some .elf ∨
      kind (files.1.image (host.behind 0)) = some .elf ∧
        kind (files.2.image (host.behind 1)) = some .self)

def Untouched (files after : File × File) : Prop :=
  after.1.Same files.1 ∧ after.2.Same files.2

theorem injectSegments_done {host : Host} {elfFile : Memory} {phdrs sinfo : Nat}
    {segments : List Nat} {st : Injection}
    (allocated : (injectSegments host elfFile phdrs sinfo segments st).2 = true) :
    (injectSegments host elfFile phdrs sinfo segments st).1 =
      segments.foldl (injectSegment host.zlib host.heap elfFile phdrs sinfo) st := by
  induction segments generalizing st with
  | nil => rfl
  | cons i rest ih =>
      rw [injectSegments] at allocated ⊢
      split at allocated
      next allocates =>
        rw [if_pos allocates]
        exact ih allocated
      next => cases allocated

theorem rewrite_inject {host : Host} {selfFile elfFile : Memory}
    (magic : selfFile.word 0 = SCE_MAGIC) (elf : isElf elfFile 0 = true) {fout : File}
    (exits : rewrite host selfFile elfFile = some (.success, fout)) :
    inject host.zlib host.heap host.elfDigest host.fuel selfFile elfFile = some fout := by
  simp only [rewrite] at exits
  simp only [inject, magic, elf]
  split at exits
  next => cases exits
  next same =>
    split at exits
    next => cases exits
    next allocated =>
      rw [injectSegments_done (Bool.of_not_eq_false allocated)] at exits
      obtain ⟨header, ended, done⟩ := Option.map_eq_some_iff.mp exits
      cases done
      simp only [same, ended]
      rfl

/-- What `compress` makes begins like every zlib stream: the compression method is 8. -/
def Zlib.Headed (zlib : Zlib) : Prop :=
  ∀ source room dest, zlib.compress source room = some dest →
    ∃ first rest, dest = first :: rest ∧ first &&& 0x0F = 8

def sceFirst : Byte := 0x53

theorem method_ne_sce {first : Byte} (method : first &&& 0x0F = 8) : first ≠ sceFirst := by
  rintro rfl
  exact absurd method (by decide)

theorem injectSegment_first {zlib : Zlib} (headed : zlib.Headed) (heap : Nat → Memory)
    (elfFile : Memory) (phdrs sinfo : Nat) (st : Injection) (i : Nat)
    (foreign : st.fout.bytes 0 ≠ sceFirst) :
    (injectSegment zlib heap elfFile phdrs sinfo st i).fout.bytes 0 ≠ sceFirst := by
  unfold injectSegment
  dsimp only
  split
  next => exact foreign
  next dest found =>
    obtain ⟨first, rest, rfl, method⟩ := headed _ _ _ found
    dsimp only
    rcases File.write_first (st.fout.seek _) _ _ with kept | ⟨_, written⟩
    · rw [kept, File.seek_bytes]
      exact foreign
    · rw [written]
      exact method_ne_sce method

theorem injectSegments_first (host : Host) (headed : host.zlib.Headed) (elfFile : Memory)
    (phdrs sinfo : Nat) (segments : List Nat) (st : Injection)
    (foreign : st.fout.bytes 0 ≠ sceFirst) :
    (injectSegments host elfFile phdrs sinfo segments st).1.fout.bytes 0 ≠ sceFirst := by
  induction segments generalizing st with
  | nil => exact foreign
  | cons i rest ih =>
      rw [injectSegments]
      split
      next => exact ih _ (injectSegment_first headed host.heap elfFile phdrs sinfo st i foreign)
      next => exact foreign

theorem rewrite_error_first {host : Host} (headed : host.zlib.Headed) {selfFile elfFile : Memory}
    {fout : File} (failed : rewrite host selfFile elfFile = some (.error, fout)) :
    fout.bytes 0 ≠ sceFirst := by
  have empty : File.empty.bytes 0 ≠ sceFirst := by decide
  simp only [rewrite] at failed
  split at failed
  next =>
    cases failed
    exact empty
  next =>
    split at failed
    next =>
      cases failed
      exact injectSegments_first host headed _ _ _ _ _ empty
    next =>
      obtain ⟨_, _, exits⟩ := Option.map_eq_some_iff.mp failed
      cases exits

theorem kind_magic {input : Memory} (self : kind input = some .self) :
    input.word 0 = SCE_MAGIC := by
  by_contra other
  simp only [kind, if_pos other] at self
  split at self <;> cases self

theorem kind_isElf {input : Memory} (elf : kind input = some .elf) : isElf input 0 = true := by
  unfold kind at elf
  split at elf
  next =>
    split at elf
    next found => exact found
    next => cases elf
  next => cases elf

theorem kind_self_first {file : File} {behind : Memory} (nonempty : 0 < file.size)
    (self : kind (file.image behind) = some .self) : file.get? 0 = some sceFirst := by
  have magic := kind_magic self
  have first := (Memory.word_bytes (file.image behind) 0).1
  rw [magic] at first
  rw [File.get?, if_pos nonempty, show file.bytes 0 = file.image behind 0 by
    rw [File.image, if_pos nonempty], ← first]
  rfl

theorem not_same_of_first {file after : File} (first : file.get? 0 = some sceFirst)
    (foreign : after.bytes 0 ≠ sceFirst) : ¬ after.Same file := by
  intro same
  have byte := same 0
  rw [first, File.get?] at byte
  split at byte
  next => exact foreign (Option.some.inj byte)
  next => cases byte

theorem error_untouched_iff {host : Host} (headed : host.zlib.Headed) {files after : File × File}
    (firstRead : 0 < files.1.size) (secondRead : 0 < files.2.size)
    (exits : injectMain host files = some (.error, after)) :
    Untouched files after ↔ ¬ Opened host files := by
  simp only [injectMain] at exits
  split at exits
  next self elf =>
    split at exits
    next opens =>
      refine iff_of_false ?_ (not_not_intro ⟨opens, .inl ⟨self, elf⟩⟩)
      obtain ⟨⟨exit, fout⟩, failed, same⟩ := Option.map_eq_some_iff.mp exits
      cases same
      exact fun untouched => not_same_of_first (kind_self_first firstRead self)
        (rewrite_error_first headed failed) untouched.1
    next closed =>
      cases exits
      exact iff_of_true ⟨fun _ => rfl, fun _ => rfl⟩ fun opened => closed opened.1
  next elf self =>
    split at exits
    next opens =>
      refine iff_of_false ?_ (not_not_intro ⟨opens, .inr ⟨elf, self⟩⟩)
      obtain ⟨⟨exit, fout⟩, failed, same⟩ := Option.map_eq_some_iff.mp exits
      cases same
      exact fun untouched => not_same_of_first (kind_self_first secondRead self)
        (rewrite_error_first headed failed) untouched.2
    next closed =>
      cases exits
      exact iff_of_true ⟨fun _ => rfl, fun _ => rfl⟩ fun opened => closed opened.1
  next firstCase secondCase =>
    cases exits
    refine iff_of_true ⟨fun _ => rfl, fun _ => rfl⟩ ?_
    rintro ⟨_, ⟨self, elf⟩ | ⟨elf, self⟩⟩
    · exact firstCase self elf
    · exact secondCase elf self

-- The SELF among the two files, and what is in the buffers.
def selfOf (host : Host) (files : File × File) : Option (File × Pair) :=
  let first := files.1.image (host.behind 0)
  let second := files.2.image (host.behind 1)
  match kind first, kind second with
  | some .self, some .elf => some (files.1, ⟨first, second⟩)
  | some .elf, some .self => some (files.2, ⟨second, first⟩)
  | _, _ => none

theorem rewrite_same_iff {host : Host} (undoes : host.zlib.Undoes) {pair : Pair}
    (self : kind pair.selfFile = some .self) (elf : kind pair.elfFile = some .elf) {fout : File}
    (exits : rewrite host pair.selfFile pair.elfFile = some (.success, fout)) :
    ∃ header, pair.writtenHeader host.zlib host.heap host.elfDigest host.fuel = some header ∧
      ∀ old : File, fout.Same old ↔
        old.LeftBy (File.parts 0 (pair.writes host.zlib host.heap header)) := by
  have injected := rewrite_inject (kind_magic self) (kind_isElf elf) exits
  obtain ⟨-, -, header, written, finished⟩ := Pair.inject_writes undoes injected
  refine ⟨header, written, fun old => ?_⟩
  rw [finished]
  exact (File.madeOf_empty.puts _).same_iff

theorem success_untouched_iff {host : Host} (undoes : host.zlib.Undoes) {files after : File × File}
    (exits : injectMain host files = some (.success, after)) {self : File} {pair : Pair}
    (inputs : selfOf host files = some (self, pair)) :
    ∃ header, pair.writtenHeader host.zlib host.heap host.elfDigest host.fuel = some header ∧
      (Untouched files after ↔
        self.LeftBy (File.parts 0 (pair.writes host.zlib host.heap header))) := by
  simp only [injectMain] at exits
  simp only [selfOf] at inputs
  split at exits
  next isSelf isElf =>
    rw [isSelf, isElf] at inputs
    cases inputs
    split at exits
    next =>
      obtain ⟨⟨exit, fout⟩, done, same⟩ := Option.map_eq_some_iff.mp exits
      cases same
      obtain ⟨header, written, same⟩ := @rewrite_same_iff host undoes
        ⟨files.1.image (host.behind 0), files.2.image (host.behind 1)⟩ isSelf isElf fout done
      refine ⟨header, written, Iff.trans ?_ (same files.1)⟩
      exact and_iff_left fun _ => rfl
    next => cases exits
  next isElf isSelf =>
    rw [isSelf, isElf] at inputs
    cases inputs
    split at exits
    next =>
      obtain ⟨⟨exit, fout⟩, done, same⟩ := Option.map_eq_some_iff.mp exits
      cases same
      obtain ⟨header, written, same⟩ := @rewrite_same_iff host undoes
        ⟨files.2.image (host.behind 1), files.1.image (host.behind 0)⟩ isSelf isElf fout done
      refine ⟨header, written, Iff.trans ?_ (same files.2)⟩
      exact and_iff_right fun _ => rfl
    next => cases exits
  next => cases exits

theorem zeroZlib_headed : Pair.zeroZlib.Headed := by
  intro source room dest found
  simp only [Pair.zeroZlib] at found
  split at found
  next =>
    cases found
    exact ⟨0x78, _, rfl, rfl⟩
  next => cases found

def sampleHost : Host where
  zlib := Pair.zeroZlib
  behind := fun _ => Pair.blank
  heap := fun _ => Pair.blank
  allocates := fun _ => true
  opens := true
  elfDigest := Pair.blank
  fuel := 1

def mismatched : File × File :=
  (⟨Pair.sampleSelf Pair.zeros, 600, 0⟩, ⟨(Pair.sampleElf Pair.zeros).storeWord 44 3, 192, 0⟩)

theorem mismatched_exits :
    injectMain sampleHost mismatched = some (.error, File.empty, mismatched.2) := by
  have self : kind (mismatched.1.image Pair.blank) = some .self := by decide +kernel
  have elf : kind (mismatched.2.image Pair.blank) = some .elf := by decide +kernel
  simp only [injectMain, sampleHost, self, elf, rewrite]
  rfl

end VitaTools.Self
