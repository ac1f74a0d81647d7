import Mathlib.Logic.Function.Basic
import VitaTools.Library.EventFlag
import VitaTools.Library.Memory
import VitaTools.Library.Transition

set_option autoImplicit false

/-!
Any number of threads call `debugHandler` and `putchar_handler`, which append to the
buffer; `main_netdbg` drains it. A step is what lies between two calls into the kernel.
-/

namespace VitaTools.ShipLog

open VitaTools.Library

def bufSize : Nat := 1024 * 32

def sendOut : EventFlag := 2

-- Both fields are tested against zero only.
structure ConfigFile where
  netEnable : Bool
  fileLog : Bool

/-- The points of a call; `buf` is the text it appends. -/
inductive HandlerPoint
  | idle
  | called (buf : List Byte)
  | stopped (buf : List Byte)
  | flushing (buf : List Byte)
  | clearing (buf : List Byte)
  | copying (buf : List Byte)
  | copied (buf : List Byte)
  | leaving

/-- The points of `main_netdbg`, with its local `sent`. -/
inductive NetPoint
  | loop
  | test
  | waitNet
  | sendTest (sent : Nat)
  | send (sent : Nat)
  | sentAll (sent : Nat)
  | waitFile
  | written

def NetPoint.sent : NetPoint → Nat
  | .sendTest sent | .send sent | .sentAll sent => sent
  | _ => 0

structure Transfer where
  delivered : List Byte
  expected : List Byte
deriving DecidableEq

/-- `logged` are the bytes appended since the last `bufClear`, `accepted` those the socket
took in this drain. Each `bufClear` that ends a drain leaves an entry in `drains`, each
`log_write` of a full buffer one in `flushes`. -/
structure Logger (Thread : Type) where
  buffer : Memory
  bufPos : Nat
  sendFlag : EventFlag
  isConnected : Bool
  netPoint : NetPoint
  handler : Thread → HandlerPoint
  logged : List Byte
  accepted : List Byte
  drains : List Transfer
  flushes : List Transfer

inductive Action (Thread : Type)
  -- `text` is what the format and its arguments give.
  | debugHandler (thread : Thread) (text : List Byte)
  | putcharHandler (thread : Thread) (c : Byte)
  -- The next step of a call; `opens` tells whether `log_write` can open its file.
  | handler (thread : Thread) (opens : Bool)
  -- The next step of `main_netdbg`; `ret` is what the kernel answers in it.
  | net (ret : Int)

def logWrite (opens : Bool) (buffer : Memory) (length : Nat) : List Byte :=
  if opens then buffer.slice 0 length else []

namespace Logger

variable {Thread : Type} [DecidableEq Thread]

def bufClear (s : Logger Thread) : Logger Thread :=
  { s with
    buffer := s.buffer.copy 0 bufSize fun _ => 0
    bufPos := 0
    logged := [] }

def goto (s : Logger Thread) (thread : Thread) (point : HandlerPoint) : Logger Thread :=
  { s with handler := Function.update s.handler thread point }

def enter (s : Logger Thread) (thread : Thread) (buf : List Byte) : Option (Logger Thread) :=
  match s.handler thread with
  | .idle => some (s.goto thread (.called buf))
  | _ => none

-- `snprintf` into 512 bytes, then `strnlen`.
def debugHandler (s : Logger Thread) (thread : Thread) (text : List Byte) :
    Option (Logger Thread) :=
  s.enter thread ((text.take 511).takeWhile (· ≠ 0))

def putcharHandler (s : Logger Thread) (thread : Thread) (c : Byte) : Option (Logger Thread) :=
  s.enter thread [c]

def handlerStep (s : Logger Thread) (thread : Thread) (opens : Bool) : Option (Logger Thread) :=
  match s.handler thread with
  | .idle => none
  | .called buf =>
      some { s.goto thread (.stopped buf) with sendFlag := s.sendFlag.clear (~~~ sendOut) }
  | .stopped buf =>
      some (s.goto thread (if bufSize < s.bufPos + buf.length then .flushing buf else .copying buf))
  | .flushing buf =>
      some { s.goto thread (.clearing buf) with
        flushes := s.flushes ++ [⟨logWrite opens s.buffer bufSize, s.logged⟩] }
  | .clearing buf => some (s.bufClear.goto thread (.copying buf))
  | .copying buf =>
      some { s.goto thread (.copied buf) with
        buffer := s.buffer.copy s.bufPos buf.length fun k => buf.getD k 0 }
  | .copied buf =>
      some { s.goto thread .leaving with
        bufPos := s.bufPos + buf.length
        logged := s.logged ++ buf }
  | .leaving => some { s.goto thread .idle with sendFlag := s.sendFlag.set sendOut }

-- `ksceKernelWaitEventFlag` with `WAITCLEAR`; its result is not looked at.
def waitSendOut (s : Logger Thread) (ret : Int) (next : NetPoint) : Option (Logger Thread) :=
  if ret < 0 then some { s with netPoint := next }
  else if EventFlag.waitOr s.sendFlag sendOut then some { s with sendFlag := 0, netPoint := next }
  else none

variable (config : ConfigFile)

def netStep (s : Logger Thread) (ret : Int) : Option (Logger Thread) :=
  match s.netPoint with
  | .loop =>
      if config.netEnable && !s.isConnected then
        some { s with isConnected := -1 < ret, netPoint := .test }
      else some { s with netPoint := .test }
  | .test =>
      if 0 < s.bufPos then
        if s.isConnected && config.netEnable then some { s with netPoint := .waitNet }
        else if config.fileLog then some { s with netPoint := .waitFile }
        else some { s with netPoint := .loop }
      else some { s with netPoint := .loop }
  | .waitNet => { s with accepted := [] }.waitSendOut ret (.sendTest 0)
  | .sendTest sent =>
      some { s with netPoint := if sent < s.bufPos then .send sent else .sentAll sent }
  | .send sent =>
      if ret < 0 then some { s with isConnected := false, netPoint := .sentAll sent }
      -- The length passed is `bufLength()`, whatever has been sent.
      else if 1 ≤ ret ∧ ret ≤ s.bufPos then
        some { s with
          accepted := s.accepted ++ s.buffer.slice sent ret.toNat
          netPoint := .sendTest (sent + ret.toNat) }
      else none
  | .sentAll _ =>
      if s.isConnected then
        some { s.bufClear with
          netPoint := .loop
          drains := s.drains ++ [⟨s.accepted, s.buffer.slice 0 s.bufPos⟩] }
      else some { s with netPoint := .loop }
  | .waitFile => s.waitSendOut ret .written
  | .written => some { s.bufClear with netPoint := .loop }

def step (s : Logger Thread) : Action Thread → Option (Logger Thread)
  | .debugHandler thread text => s.debugHandler thread text
  | .putcharHandler thread c => s.putcharHandler thread c
  | .handler thread opens => s.handlerStep thread opens
  | .net ret => s.netStep config ret

end Logger

variable {Thread : Type} [DecidableEq Thread]

def shipLog (config : ConfigFile) : Transitions (Logger Thread) (Action Thread) :=
  ⟨Logger.step config⟩

-- The plugin has just started; `heap` is what lies behind the buffer.
def started (heap : Memory) : Logger Thread where
  buffer := heap.copy 0 bufSize fun _ => 0
  bufPos := 0
  sendFlag := 0
  isConnected := false
  netPoint := .loop
  handler := fun _ => .idle
  logged := []
  accepted := []
  drains := []
  flushes := []

end VitaTools.ShipLog
