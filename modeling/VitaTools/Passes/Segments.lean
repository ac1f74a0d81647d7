import VitaTools.Passes.Sweeps
import VitaTools.Library.Memory

set_option autoImplicit false

namespace VitaTools.Passes

open VitaTools.Library
open VitaTools.Decompiler (Text Word hexChar)

-- A segment's buffer is at `seg`, as long as the segment.
structure Segment where
  seg : Nat
  addr : Word
  size : Word

namespace Segment

variable (segment : Segment)

-- The first address is left out.
def holds (address : Word) : Bool := segment.addr < address && address < segment.addr + segment.size

def place (address : Word) : Nat := segment.seg + (address.toNat - segment.addr.toNat)

end Segment

/-- The segments in the memory of the program. `pointerSize` is `sizeof(uintptr_t)`. -/
structure Segments where
  memory : Memory
  pointerSize : Nat
  text : Segment
  data : Segment
  wide : 4 ≤ pointerSize
  apart : text.seg + text.size.toNat ≤ data.seg ∨ data.seg + data.size.toNat ≤ text.seg

namespace Segments

variable (s : Segments)

-- The pointers count in units of `uintptr_t`.
def between (segment : Segment) (text : Nat) (ahead : Nat) : Bool :=
  segment.seg < text &&
    text + ahead * s.pointerSize < segment.seg + segment.size.toNat * s.pointerSize

def strnlen (string max : Nat) : Nat :=
  ((List.range max).takeWhile fun k => s.memory (string + k) != 0).length

-- `char` is signed. The code counts on, but compares the count with four at most.
def printable (string : Nat) : Nat :=
  ((List.range 4).takeWhile fun k => 0x20 ≤ (s.memory (string + k)).toInt).length

def isascii4 (text : Nat) : Bool :=
  if s.between s.data text 4 || s.between s.text text 4 then
    let len := s.strnlen text 4
    let i := s.printable text
    (0 < i && len ≤ i && len != 0) || (s.between s.text text 0 && i == 0 && s.memory text == 0)
  else false

-- `currentPtr` is `none` as long as it points to the argument.
structure Chase where
  currentPtr : Option Nat
  currentAddr : Word

-- `while (currentAddr > addr && currentAddr < addr + size)`.
def chase (segment : Segment) : Loop Chase where
  more c := segment.holds c.currentAddr
  pass c :=
    let ptr := segment.place c.currentAddr
    ⟨some ptr, s.memory.word ptr⟩

def checkDwordValue (fuel : Nat) (value : Word) : Option (Option Nat) :=
  if value = 0 then some none
  else do
    let c ← (s.chase s.text).run fuel ⟨none, value⟩
    let c ← (s.chase s.data).run fuel c
    some c.currentPtr

-- The words that the loops read, by their first byte.
inductive Reads (value : Word) : Nat → Prop
  | text (c : Chase) : value ≠ 0 → (s.chase s.text).Visits ⟨none, value⟩ c →
      s.text.holds c.currentAddr = true → Reads value (s.text.place c.currentAddr)
  | data (fuel : Nat) (begun c : Chase) : value ≠ 0 →
      (s.chase s.text).run fuel ⟨none, value⟩ = some begun →
      (s.chase s.data).Visits begun c → s.data.holds c.currentAddr = true →
      Reads value (s.data.place c.currentAddr)

-- `%08X`.
def hex8 (value : Word) : Text :=
  [7, 6, 5, 4, 3, 2, 1, 0].map fun k => hexChar (value.extractLsb' (4 * k) 4)

-- `%s`, as far as a buffer takes it.
def cString (string : Nat) : Text :=
  (((List.range 1023).map fun k => s.memory (string + k)).takeWhile (· != 0)).map
    fun byte => Char.ofNat byte.toNat

def stringText (kind : String) (value : Word) (string : Nat) : Text :=
  "/*s_".toList ++ kind.toList ++ '_' :: hex8 value ++ "*/ \"".toList ++ s.cString string ++ ['"']

def wordText (kind : String) (value dword : Word) : Text :=
  "/*".toList ++ kind.toList ++ '_' :: hex8 value ++ "*/ 0x".toList ++ hex8 dword

-- `*dword_addr`.
def dword (value : Word) (ptr : Option Nat) : Word := (ptr.map s.memory.word).getD value

-- The string the constant points to, or the one its words lead to, or else where these lead.
def follow (segment : Segment) (fuel : Nat) (value : Word) : Option (Option Nat × Option Nat) :=
  if s.isascii4 (segment.place value) then some (some (segment.place value), none)
  else (s.checkDwordValue fuel value).map fun ptr => (ptr.filter s.isascii4, ptr)

-- A symbol's name is the format here; it holds no `%`.
def symbolText (symbolMap : SymbolMap) (value dword : Word) : Text :=
  let masked := value &&& ~~~1
  match symbolMap masked with
  | some entry =>
      if entry.is symbolSubroutine then entry.name else wordText "text" masked dword
  | none => hex8 value

-- `buf`; `none` when the words of the constant are still being followed.
def constantBuf (symbolMap : SymbolMap) (fuel : Nat) (value : Word) : Option Text :=
  if s.text.holds value then
    (s.follow s.text fuel value).map fun (string, ptr) =>
      match string with
      | some string => s.stringText "text" value string
      | none => symbolText symbolMap value (s.dword value ptr)
  else if s.data.holds value then
    (s.follow s.data fuel value).map fun (string, ptr) =>
      match string with
      | some string => s.stringText "data" value string
      | none => wordText "data" value (s.dword value ptr)
  else some ("/*data_".toList ++ hex8 value ++ "*/".toList)

-- `snprintf` fills 1023 places.
def constantText (symbolMap : SymbolMap) (fuel : Nat) (value : Word) : Option Text :=
  (s.constantBuf symbolMap fuel value).map fun buf =>
    replaceAll (buf.take 1023) ['\n'] "()n".toList

-- The values that are passed to `checkDwordValue`.
def chases (value : Word) : Bool :=
  if s.text.holds value then !s.isascii4 (s.text.place value)
  else s.data.holds value && !s.isascii4 (s.data.place value)

end Segments

end VitaTools.Passes
