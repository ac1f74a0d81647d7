import VitaTools.Library.Memory
import VitaTools.Library.Streaming

set_option autoImplicit false

namespace VitaTools.ElfBuilder

open VitaTools.Library

def CHUNK : Nat := 16384

def Z_OK : Int := 0
def Z_STREAM_END : Int := 1
def Z_NEED_DICT : Int := 2
def Z_STREAM_ERROR : Int := -2
def Z_DATA_ERROR : Int := -3
def Z_MEM_ERROR : Int := -4
def Z_BUF_ERROR : Int := -5

structure Zlib (State : Type) where
  inflateInit : Int × State
  inflate : State → List Byte → Nat → Call State Int Byte Byte

-- What the inner loop leaves. It returns from `inf` when `leaves` holds.
structure Progress (State : Type) where
  leaves : Bool
  ret : Int
  strm : State
  dest : List Byte

section

variable {State : Type} (zlib : Zlib State)

-- `none` where the assertion fails or the passes do not suffice. Writes to the host's files do
-- not fail here.
def infInner : Nat → State → List Byte → List Byte → Option (Progress State)
  | 0, _, _, _ => none
  | fuel + 1, strm, input, dest =>
      let step := zlib.inflate strm input CHUNK
      if step.code = Z_STREAM_ERROR then none
      else if step.code = Z_NEED_DICT then some ⟨true, Z_DATA_ERROR, step.state, dest⟩
      else if step.code = Z_DATA_ERROR ∨ step.code = Z_MEM_ERROR then
        some ⟨true, step.code, step.state, dest⟩
      else
        let dest := dest ++ step.output
        if step.output.length = CHUNK then infInner fuel step.state step.rest dest
        else some ⟨false, step.code, step.state, dest⟩

-- What `inflate` has left of a piece of the source is dropped when the next piece is read.
def infLoop (fuel : Nat) : Nat → State → Int → List Byte → List Byte → Option (Int × List Byte)
  | 0, _, _, _, _ => none
  | pieces + 1, strm, ret, source, dest =>
      let result (ret : Int) := if ret = Z_STREAM_END then Z_OK else Z_DATA_ERROR
      let input := source.take CHUNK
      if input.length = 0 then some (result ret, dest)
      else
        match infInner zlib fuel strm input dest with
        | none => none
        | some inner =>
            if inner.leaves then some (inner.ret, inner.dest)
            else if inner.ret = Z_STREAM_END then some (result inner.ret, inner.dest)
            else infLoop fuel pieces inner.strm inner.ret (source.drop CHUNK) inner.dest

/-- The code that `inf` returns, and the file it writes. -/
def inf (fuel : Nat) (source : List Byte) : Option (Int × List Byte) :=
  if zlib.inflateInit.1 ≠ Z_OK then some (zlib.inflateInit.1, [])
  else infLoop zlib fuel fuel zlib.inflateInit.2 Z_OK source []

def Zlib.coder : Coder State Int Byte Byte where
  call := zlib.inflate
  goesOn code := code = Z_OK ∨ code = Z_BUF_ERROR
  ended code := code = Z_STREAM_END
  refused code := code = Z_DATA_ERROR ∨ code = Z_NEED_DICT

end

section

variable {State : Type} {zlib : Zlib State} {R : State → List Byte → List Byte → Prop}
  {Done : State → Prop} {strm : State} {input more output dest : List Byte} {fuel : Nat}

/-- The call has given some of the output and taken some of the input. -/
def Gives (zlib : Zlib State) (R : State → List Byte → List Byte → Prop) (strm : State)
    (input more output : List Byte) : Prop :=
  let step := zlib.inflate strm input CHUNK
  (step.code = Z_OK ∨ step.code = Z_BUF_ERROR) ∧
    ∃ rest, output = step.output ++ rest ∧ R step.state (step.rest ++ more) rest ∧
      (step.output.length ≠ CHUNK → step.rest = [])

theorem gives_of_goesOn (goes : zlib.coder.GoesOn R strm input more output CHUNK) :
    Gives zlib R strm input more output := by
  obtain ⟨code, fits, ⟨rest, split, later⟩, taken⟩ := goes
  exact ⟨code, rest, split, later, fun short => taken (Nat.lt_of_le_of_ne fits short)⟩

theorem streams_call (streams : zlib.coder.Streams R Done) (here : R strm (input ++ more) output) :
    (zlib.inflate strm input CHUNK).code = Z_STREAM_END ∧
        (zlib.inflate strm input CHUNK).output = output ∧
        Done (zlib.inflate strm input CHUNK).state ∨
      Gives zlib R strm input more output ∧
        ((zlib.inflate strm input CHUNK).output.length ≠ CHUNK → more ≠ []) := by
  rcases streams.call here (show 0 < CHUNK by decide) with ⟨code, whole, -, done⟩ | ⟨goes, needs⟩
  · exact Or.inl ⟨code, whole, done⟩
  · exact Or.inr ⟨gives_of_goesOn goes, fun short => needs (Nat.lt_of_le_of_ne goes.fits short)⟩

theorem streams_done (streams : zlib.coder.Streams R Done) (done : Done strm) :
    (zlib.inflate strm input CHUNK).code = Z_STREAM_END ∧
      (zlib.inflate strm input CHUNK).output = [] := by
  obtain ⟨code, output, -⟩ := streams.done done (show 0 < CHUNK by decide)
  exact ⟨code, output⟩

theorem infInner_write (fine : (zlib.inflate strm input CHUNK).code = Z_OK ∨
      (zlib.inflate strm input CHUNK).code = Z_BUF_ERROR ∨
      (zlib.inflate strm input CHUNK).code = Z_STREAM_END) :
    infInner zlib (fuel + 1) strm input dest =
      if (zlib.inflate strm input CHUNK).output.length = CHUNK then
        infInner zlib fuel (zlib.inflate strm input CHUNK).state
          (zlib.inflate strm input CHUNK).rest (dest ++ (zlib.inflate strm input CHUNK).output)
      else
        some ⟨false, (zlib.inflate strm input CHUNK).code, (zlib.inflate strm input CHUNK).state,
          dest ++ (zlib.inflate strm input CHUNK).output⟩ := by
  rw [infInner]
  rcases fine with code | code | code <;>
    simp [code, Z_OK, Z_BUF_ERROR, Z_STREAM_END, Z_STREAM_ERROR, Z_NEED_DICT, Z_DATA_ERROR,
      Z_MEM_ERROR]

theorem infInner_done (streams : zlib.coder.Streams R Done) (done : Done strm) :
    ∃ strm', infInner zlib (fuel + 1) strm input dest =
      some ⟨false, Z_STREAM_END, strm', dest⟩ := by
  have ⟨code, output⟩ : (zlib.inflate strm input CHUNK).code = Z_STREAM_END ∧
      (zlib.inflate strm input CHUNK).output = [] := streams_done streams done
  rw [infInner_write (Or.inr (Or.inr code)), output, code, if_neg (by decide), List.append_nil]
  exact ⟨_, rfl⟩

theorem not_end {code : Int} (goes : code = Z_OK ∨ code = Z_BUF_ERROR) : code ≠ Z_STREAM_END := by
  rcases goes with rfl | rfl <;> decide

structure Taken (R : State → List Byte → List Byte → Prop) (more output dest : List Byte)
    (p : Progress State) : Prop where
  stays : p.leaves = false
  ret : p.ret ≠ Z_STREAM_END
  rest : ∃ rest, p.dest ++ rest = dest ++ output ∧ rest.length ≤ output.length ∧ R p.strm more rest

theorem Taken.extend {front rest : List Byte} {p : Progress State}
    (taken : Taken R more rest (dest ++ front) p) : Taken R more (front ++ rest) dest p where
  stays := taken.stays
  ret := taken.ret
  rest := by
    obtain ⟨last, whole, shorter, later⟩ := taken.rest
    refine ⟨last, by rw [whole, List.append_assoc], ?_, later⟩
    rw [List.length_append]
    omega

theorem infInner_streams (dest : List Byte) (streams : zlib.coder.Streams R Done)
    (here : R strm (input ++ more) output) (enough : output.length + 1 < fuel) :
    ∃ p, infInner zlib fuel strm input dest = some p ∧
      (p.leaves = false ∧ p.ret = Z_STREAM_END ∧ p.dest = dest ++ output ∨
        Taken R more output dest p ∧ more ≠ []) := by
  induction fuel generalizing strm input output dest with
  | zero => omega
  | succ fuel ih =>
      rcases streams_call streams here with
        ⟨code, whole, done⟩ | ⟨⟨code, rest, rfl, later, taken⟩, needs⟩
      next =>
        rw [infInner_write (Or.inr (Or.inr code)), whole]
        split
        next =>
          obtain ⟨fuel, rfl⟩ := Nat.exists_eq_succ_of_ne_zero (show fuel ≠ 0 by omega)
          obtain ⟨strm', finished⟩ := infInner_done streams done
          exact ⟨_, finished, Or.inl ⟨rfl, rfl, rfl⟩⟩
        next => exact ⟨_, rfl, Or.inl ⟨rfl, code, rfl⟩⟩
      next =>
        rw [infInner_write (code.imp_right Or.inl)]
        rw [List.length_append] at enough
        split
        next full =>
          have some : 0 < CHUNK := by decide
          obtain ⟨p, ran, result⟩ := ih _ later (by omega)
          refine ⟨p, ran, ?_⟩
          rcases result with ⟨stays, ret, whole⟩ | ⟨taken, needs⟩
          · exact Or.inl ⟨stays, ret, by rw [whole, List.append_assoc]⟩
          · exact Or.inr ⟨taken.extend, needs⟩
        next short =>
          refine ⟨_, rfl, Or.inr ⟨⟨rfl, not_end code, rest, List.append_assoc _ _ _, ?_, ?_⟩,
            needs short⟩⟩
          · rw [List.length_append]
            omega
          · rwa [taken short] at later

theorem infInner_refuses (dest : List Byte) (refuses : zlib.coder.Refuses R)
    (here : R strm (input ++ more) output) (enough : output.length < fuel) :
    ∃ p, infInner zlib fuel strm input dest = some p ∧
      (p.leaves = true ∧ p.ret = Z_DATA_ERROR ∨ Taken R more output dest p) := by
  induction fuel generalizing strm input output dest with
  | zero => omega
  | succ fuel ih =>
      rcases refuses.call here (show 0 < CHUNK by decide) with refused | goes
      next =>
        rw [infInner]
        rcases refused with code | code
        all_goals
          change (zlib.inflate strm input CHUNK).code = _ at code
          simp [code, Z_STREAM_ERROR, Z_NEED_DICT, Z_DATA_ERROR]
      next =>
        obtain ⟨code, rest, rfl, later, taken⟩ := gives_of_goesOn goes
        rw [infInner_write (code.imp_right Or.inl)]
        rw [List.length_append] at enough
        split
        next full =>
          have some : 0 < CHUNK := by decide
          obtain ⟨p, ran, result⟩ := ih _ later (by omega)
          exact ⟨p, ran, result.imp_right Taken.extend⟩
        next short =>
          refine ⟨_, rfl, Or.inr ⟨rfl, not_end code, rest, List.append_assoc _ _ _, ?_, ?_⟩⟩
          · rw [List.length_append]
            omega
          · rwa [taken short] at later

end

section

variable {State : Type} (zlib : Zlib State)

/-- The file begins with a stream of `data`. -/
def Zlib.Inflates (file data : List Byte) : Prop :=
  file ≠ [] ∧ zlib.inflateInit.1 = Z_OK ∧
    ∃ R Done, zlib.coder.Streams R Done ∧ R zlib.inflateInit.2 file data

def Zlib.Rejects (file : List Byte) : Prop :=
  zlib.inflateInit.1 = Z_OK ∧ ∃ R output, zlib.coder.Refuses R ∧ R zlib.inflateInit.2 file output

variable {zlib} {R : State → List Byte → List Byte → Prop} {Done : State → Prop} {strm : State}
  {source output dest : List Byte} {fuel pieces : Nat} {ret : Int}

theorem drop_shorter (some : source ≠ []) (enough : source.length < pieces + 1) :
    (source.drop CHUNK).length < pieces := by
  have nonempty := List.length_pos_iff.2 some
  rw [List.length_drop, CHUNK]
  omega

theorem take_some (some : source ≠ []) : (source.take CHUNK).length ≠ 0 := by
  have nonempty := List.length_pos_iff.2 some
  rw [List.length_take, CHUNK]
  omega

theorem infLoop_streams (streams : zlib.coder.Streams R Done) (some : source ≠ [])
    (here : R strm source output) (enough : output.length + 1 < fuel)
    (more : source.length < pieces) :
    infLoop zlib fuel pieces strm ret source dest = .some (Z_OK, dest ++ output) := by
  induction pieces generalizing strm source output dest ret with
  | zero => omega
  | succ pieces ih =>
      rw [← List.take_append_drop CHUNK source] at here
      obtain ⟨p, ran, result⟩ := infInner_streams dest streams here enough
      rw [infLoop, if_neg (take_some some), ran]
      rcases result with ⟨stays, ended, whole⟩ | ⟨⟨stays, goes, rest, whole, shorter, later⟩, needs⟩
      next => simp [stays, ended, whole]
      next => simp [stays, goes, ih needs later (by omega) (drop_shorter some more), whole]

theorem infLoop_refuses (dest : List Byte) (refuses : zlib.coder.Refuses R)
    (here : R strm source output) (goes : ret ≠ Z_STREAM_END) (enough : output.length < fuel)
    (more : source.length < pieces) :
    ∃ dest', infLoop zlib fuel pieces strm ret source dest = .some (Z_DATA_ERROR, dest') := by
  induction pieces generalizing strm source output dest ret with
  | zero => omega
  | succ pieces ih =>
      by_cases some : source = []
      next => exact ⟨dest, by simp [infLoop, some, goes]⟩
      next =>
        rw [← List.take_append_drop CHUNK source] at here
        obtain ⟨p, ran, result⟩ := infInner_refuses dest refuses here enough
        rw [infLoop, if_neg (take_some some), ran]
        rcases result with ⟨leaves, ret⟩ | ⟨stays, goes, rest, -, shorter, later⟩
        next => exact ⟨p.dest, by simp [leaves, ret]⟩
        next =>
          obtain ⟨dest', last⟩ := ih p.dest later goes (by omega) (drop_shorter some more)
          exact ⟨dest', by simp [stays, goes, last]⟩

theorem inf_inflates {file data : List Byte} (inflates : zlib.Inflates file data) :
    ∃ enough, ∀ fuel, enough ≤ fuel → inf zlib fuel file = .some (Z_OK, data) := by
  obtain ⟨some, init, R, Done, streams, here⟩ := inflates
  refine ⟨data.length + file.length + 2, fun fuel enough => ?_⟩
  rw [inf, if_neg (not_not.2 init), infLoop_streams streams some here (by omega) (by omega),
    List.nil_append]

theorem inf_rejects {file : List Byte} (rejects : zlib.Rejects file) :
    ∃ enough, ∀ fuel, enough ≤ fuel → ∃ dest, inf zlib fuel file = .some (Z_DATA_ERROR, dest) := by
  obtain ⟨init, R, output, refuses, here⟩ := rejects
  refine ⟨output.length + file.length + 1, fun fuel enough => ?_⟩
  rw [inf, if_neg (not_not.2 init)]
  exact infLoop_refuses [] refuses here (by decide) (by omega) (by omega)

end

end VitaTools.ElfBuilder
