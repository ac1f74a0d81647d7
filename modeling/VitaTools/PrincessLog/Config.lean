import VitaTools.Library.Machine
import VitaTools.Library.Memory

set_option autoImplicit false

namespace VitaTools.PrincessLog

open VitaTools.Library

-- `{'N', 'L', 'M', '\0'}`.
def nlmMagic : List Byte := [0x4E, 0x4C, 0x4D, 0x00]

def defaultPort : BitVec 16 := 8080

def nlmBitConfigLoaded : BitVec 32 := 1 <<< 2

def htons (value : BitVec 16) : BitVec 16 := value.extractLsb' 0 8 ++ value.extractLsb' 8 8

abbrev ErrorCode := { code : Int // code < 0 }

/-- The bytes of a `NetLoggingMgrConfig_t`: three words, a half word and its padding. -/
structure NetLoggingMgrConfig where
  bytes : List Byte
  sized : bytes.length = 16

namespace NetLoggingMgrConfig

variable (config : NetLoggingMgrConfig)

def memory : Memory := fun offset => config.bytes.getD offset 0

def magic : List Byte := config.bytes.take 4

def ipv4 : BitVec 32 := config.memory.word 4

def port : BitVec 16 := config.memory.half 12

def overwrite (data : List Byte) : NetLoggingMgrConfig where
  bytes := (data ++ config.bytes.drop data.length).take 16
  sized := by
    have := config.sized
    simp only [List.length_take, List.length_append, List.length_drop]
    omega

-- What both functions put into `server.sin_addr` and `server.sin_port`.
def target : BitVec 32 × BitVec 16 :=
  (config.ipv4, htons (if config.port ≠ 0 then config.port else defaultPort))

theorem eq_of_bytes {config other : NetLoggingMgrConfig} (same : config.bytes = other.bytes) :
    config = other := by
  cases config
  cases other
  cases same
  rfl

theorem overwrite_bytes {data : List Byte} (fits : data.length ≤ 16) :
    (config.overwrite data).bytes = data ++ config.bytes.drop data.length := by
  have sized := config.sized
  refine List.take_of_length_le ?_
  rw [List.length_append, List.length_drop]
  omega

theorem overwrite_eq_self_iff {data : List Byte} (fits : data.length ≤ 16) :
    config.overwrite data = config ↔ data <+: config.bytes := by
  have bytes := config.overwrite_bytes fits
  constructor
  · intro same
    rw [← bytes.symm.trans (congrArg NetLoggingMgrConfig.bytes same)]
    exact List.prefix_append _ _
  · intro repeats
    refine eq_of_bytes (bytes.trans ?_)
    conv_rhs => rw [← List.take_append_drop data.length config.bytes]
    rw [← List.prefix_iff_eq_take.mp repeats]

theorem overwrite_whole {data : List Byte} (fits : data.length = 16) :
    (config.overwrite data).bytes = data := by
  have sized := config.sized
  rw [config.overwrite_bytes fits.le, List.drop_of_length_le (by omega), List.append_nil]

theorem overwrite_magic {data : List Byte} (long : 16 ≤ data.length) :
    (config.overwrite (data.take 16)).magic = data.take 4 := by
  have whole : (data.take 16).length = 16 := by
    rw [List.length_take]
    omega
  rw [magic, config.overwrite_whole whole, List.take_take]
  rfl

theorem magic_of_prefix {data : List Byte} (long : 16 ≤ data.length)
    (repeats : data.take 16 <+: config.bytes) : config.magic = data.take 4 := by
  have same := (config.overwrite_eq_self_iff (List.length_take_le 16 data)).mpr repeats
  rw [← config.overwrite_magic long, same]

end NetLoggingMgrConfig

structure SceNetSockaddrIn where
  sinLen : Byte
  sinFamily : Byte
  sinPort : BitVec 16
  sinAddr : BitVec 32
  sinZero : List Byte
deriving DecidableEq

structure Globals where
  config : NetLoggingMgrConfig
  server : SceNetSockaddrIn
  flags : BitVec 32

-- What the file system answers about `ur0:data/NetLoggingMgrConfig.bin`.
inductive ConfigFile
  | missing (error : ErrorCode)
  | unreadable (error : ErrorCode)
  | content (bytes : List Byte)

/-- The outcome of `ksceKernelMemcpyUserToKernel`; one that fails may have copied a part. -/
structure UserCopy (size : Nat) where
  res : Int
  bytes : List Byte
  bounded : bytes.length ≤ size
  whole : ¬ res < 0 → bytes.length = size

namespace Globals

-- The fields of `server` that no other function writes.
def header (g : Globals) : Globals :=
  { g with server := { g.server with sinLen := 16, sinFamily := 2, sinZero := List.replicate 6 0 } }

def withConfig (g : Globals) (data : List Byte) : Globals :=
  { g with config := g.config.overwrite data }

def setServer (g : Globals) : Globals :=
  { g with server := { g.server with sinAddr := g.config.target.1, sinPort := g.config.target.2 } }

def netLoggingMgrLoadConfigForKernel (g : Globals) (file : ConfigFile) : Globals × Int :=
  let g := g.header
  match file with
  | .missing error => (g, error)
  | .unreadable _ => (g, -1)
  | .content bytes =>
      -- `ksceIoRead` reads into the live structure.
      let g := g.withConfig (bytes.take 16)
      if (bytes.take 16).length ≠ 16 then (g, -1)
      else if g.config.magic ≠ nlmMagic then (g, 0)
      else ({ g.setServer with flags := g.flags ||| nlmBitConfigLoaded }, 0)

-- `first` and `second` are the two copies of the same user buffer.
def netLoggingMgrUpdateConfig (g : Globals) (illegalType : ErrorCode) (first : UserCopy 4)
    (second : UserCopy 16) : Globals × Int :=
  if first.res < 0 then (g, first.res)
  else if first.bytes ≠ nlmMagic then (g, illegalType)
  else
    let g := g.withConfig second.bytes
    if second.res < 0 then (g, second.res) else (g.setServer, 0)

end Globals

inductive ConfigCall
  | load (file : ConfigFile)
  | update (first : UserCopy 4) (second : UserCopy 16)

def Globals.call (illegalType : ErrorCode) (g : Globals) : ConfigCall → Globals × Int
  | .load file => g.netLoggingMgrLoadConfigForKernel file
  | .update first second => g.netLoggingMgrUpdateConfig illegalType first second

-- The globals, and whether a call has returned 0 yet.
structure Session where
  globals : Globals
  started : Bool

def sessions (illegalType : ErrorCode) : Machine Session ConfigCall Int where
  step session call :=
    let (globals, res) := session.globals.call illegalType call
    (⟨globals, session.started || res == 0⟩, res)

def Globals.Coherent (g : Globals) : Prop :=
  g.config.magic = nlmMagic ∧ (g.server.sinAddr, g.server.sinPort) = g.config.target

def ConfigCall.Wrong : ConfigCall → Prop
  | .load (.content bytes) => bytes.length ≠ 16 ∨ bytes.take 4 ≠ nlmMagic
  | .load _ => False
  | .update first second => ¬ first.res < 0 ∧
      (first.bytes ≠ nlmMagic ∨ (¬ second.res < 0 ∧ second.bytes.take 4 ≠ nlmMagic))

/-- What the call is to keep: from the first success on the configuration is coherent,
and a wrong input changes nothing. -/
def Kept (illegalType : ErrorCode) (session : Session) (call : ConfigCall) : Prop :=
  let after := ((sessions illegalType).step session call).1
  (after.started = true → after.globals.Coherent) ∧
    (call.Wrong → after.globals.config = session.globals.config ∧
      after.globals.server = session.globals.server)

/-- A wrong file repeats what the structures hold already (an empty one does); the second
copy of a buffer has the magic too, and one that fails writes nothing that matters. -/
def Validated (session : Session) : ConfigCall → Prop
  | .load (.content bytes) =>
      (bytes.length = 16 ∧ bytes.take 4 = nlmMagic) ∨
        (session.globals.header = session.globals ∧ bytes.take 16 <+: session.globals.config.bytes ∧
          (16 ≤ bytes.length → session.globals.Coherent))
  | .load _ => True
  | .update first second => ¬ first.res < 0 → first.bytes = nlmMagic →
      if second.res < 0 then
        session.started = true →
          (session.globals.config.overwrite second.bytes).magic = nlmMagic ∧
          (session.globals.config.overwrite second.bytes).target = session.globals.config.target
      else second.bytes.take 4 = nlmMagic

namespace Globals

variable (g : Globals)

theorem setServer_coherent : g.setServer.Coherent ↔ g.config.magic = nlmMagic := by
  simp [Coherent, setServer]

variable {g} in
theorem withConfig_coherent (coherent : g.Coherent) (data : List Byte) :
    (g.withConfig data).Coherent ↔ (g.config.overwrite data).magic = nlmMagic ∧
      (g.config.overwrite data).target = g.config.target := by
  rw [eq_comm (b := g.config.target), ← coherent.2]
  rfl

variable {g} in
theorem coherent_congr {other : Globals} (config : other.config = g.config)
    (server : other.server = g.server) : other.Coherent ↔ g.Coherent := by
  rw [Coherent, Coherent, config, server]

theorem header_withConfig_iff {data : List Byte} (fits : data.length ≤ 16) :
    (g.header.withConfig data).config = g.config ∧ (g.header.withConfig data).server = g.server ↔
      g.header = g ∧ data <+: g.config.bytes := by
  rw [← g.config.overwrite_eq_self_iff fits, and_comm]
  refine and_congr_left fun _ => ?_
  cases g
  simp [header, withConfig]

theorem header_setServer_iff {data : List Byte} (fits : data.length ≤ 16) :
    (g.header.withConfig data).setServer.config = g.config ∧
        (g.header.withConfig data).setServer.server = g.server ↔
      g.header = g ∧ data <+: g.config.bytes ∧
        (g.server.sinAddr, g.server.sinPort) = g.config.target := by
  rw [← g.config.overwrite_eq_self_iff fits]
  obtain ⟨config, server, flags⟩ := g
  obtain ⟨len, family, port, addr, zero⟩ := server
  constructor
  · rintro ⟨same, server⟩
    simp_all [header, withConfig, setServer, Prod.ext_iff]
  · rintro ⟨header, same, target⟩
    simp_all [Globals.header, withConfig, setServer, Prod.ext_iff]

end Globals

variable {illegalType : ErrorCode} {session : Session}

theorem kept_of_result {call : ConfigCall} {g : Globals} {res : Int}
    (called : session.globals.call illegalType call = (g, res)) :
    Kept illegalType session call ↔
      (session.started = true ∨ res = 0 → g.Coherent) ∧
        (call.Wrong → g.config = session.globals.config ∧ g.server = session.globals.server) := by
  simp only [Kept, sessions, called, Bool.or_eq_true, beq_iff_eq]

theorem kept_unchanged {call : ConfigCall} {res : Int} (failed : res < 0)
    (sound : session.started = true → session.globals.Coherent)
    (called : session.globals.call illegalType call = (session.globals, res)) :
    Kept illegalType session call := by
  refine (kept_of_result called).mpr ⟨?_, fun _ => ⟨rfl, rfl⟩⟩
  rintro (begun | zero)
  · exact sound begun
  · omega

theorem update_kept_iff (first : UserCopy 4) (second : UserCopy 16)
    (sound : session.started = true → session.globals.Coherent) :
    Kept illegalType session (.update first second) ↔ Validated session (.update first second) := by
  by_cases unread : first.res < 0
  next =>
    have called : session.globals.call illegalType (.update first second) =
        (session.globals, first.res) := if_pos unread
    exact iff_of_true (kept_unchanged unread sound called) (absurd unread)
  by_cases marked : first.bytes = nlmMagic
  next =>
    by_cases torn : second.res < 0
    next =>
      have called : session.globals.call illegalType (.update first second) =
          (session.globals.withConfig second.bytes, second.res) := by
        simp [Globals.call, Globals.netLoggingMgrUpdateConfig, unread, marked, torn]
      rw [kept_of_result called]
      have nonzero : second.res ≠ 0 := by omega
      have fine : ¬ (ConfigCall.update first second).Wrong := by
        rintro ⟨_, unmarked | ⟨copied, _⟩⟩
        · exact unmarked marked
        · exact copied torn
      simp only [Validated, if_pos torn]
      constructor
      · rintro ⟨coherent, _⟩ _ _ begun
        exact (Globals.withConfig_coherent (sound begun) _).mp (coherent (.inl begun))
      · intro harmless
        refine ⟨?_, fun wrong => absurd wrong fine⟩
        rintro (begun | zero)
        · exact (Globals.withConfig_coherent (sound begun) _).mpr (harmless unread marked begun)
        · exact absurd zero nonzero
    next =>
      have called : session.globals.call illegalType (.update first second) =
          ((session.globals.withConfig second.bytes).setServer, 0) := by
        simp [Globals.call, Globals.netLoggingMgrUpdateConfig, unread, marked, torn]
      have whole := session.globals.config.overwrite_whole (second.whole torn)
      rw [kept_of_result called, Globals.setServer_coherent, Globals.withConfig,
        NetLoggingMgrConfig.magic, whole]
      simp only [Validated, if_neg torn]
      constructor
      · rintro ⟨coherent, _⟩ _ _
        exact coherent (.inr trivial)
      · intro checked
        refine ⟨fun _ => checked unread marked, ?_⟩
        rintro ⟨_, unmarked | ⟨_, unmarked⟩⟩
        · exact absurd marked unmarked
        · exact absurd (checked unread marked) unmarked
  next =>
    have called : session.globals.call illegalType (.update first second) =
        (session.globals, illegalType.1) := by
      simp [Globals.call, Globals.netLoggingMgrUpdateConfig, unread, marked]
    exact iff_of_true (kept_unchanged illegalType.2 sound called) fun _ same => absurd same marked

theorem load_missing_kept {file : ConfigFile} {res : Int} (failed : res < 0)
    (sound : session.started = true → session.globals.Coherent)
    (fine : ¬ (ConfigCall.load file).Wrong)
    (called : session.globals.call illegalType (.load file) = (session.globals.header, res)) :
    Kept illegalType session (.load file) := by
  refine (kept_of_result called).mpr ⟨?_, fun wrong => absurd wrong fine⟩
  rintro (begun | zero)
  · exact sound begun
  · omega

theorem load_short {bytes : List Byte} (short : bytes.length < 16) :
    session.globals.call illegalType (.load (.content bytes)) =
      (session.globals.header.withConfig (bytes.take 16), -1) := by
  have cut : (bytes.take 16).length ≠ 16 := by
    rw [List.length_take]
    omega
  exact if_pos cut

theorem load_whole {bytes : List Byte} (long : 16 ≤ bytes.length) :
    session.globals.call illegalType (.load (.content bytes)) =
      if bytes.take 4 ≠ nlmMagic then (session.globals.header.withConfig (bytes.take 16), 0)
      else ({ (session.globals.header.withConfig (bytes.take 16)).setServer with
        flags := session.globals.flags ||| nlmBitConfigLoaded }, 0) := by
  have whole : (bytes.take 16).length = 16 := by
    rw [List.length_take]
    omega
  rw [← session.globals.config.overwrite_magic long]
  exact if_neg (not_not_intro whole)

theorem load_content_kept_iff (bytes : List Byte)
    (sound : session.started = true → session.globals.Coherent) :
    Kept illegalType session (.load (.content bytes)) ↔
      Validated session (.load (.content bytes)) := by
  have repeats := session.globals.header_withConfig_iff (List.length_take_le 16 bytes)
  by_cases short : bytes.length < 16
  next =>
    have wrong : (ConfigCall.load (.content bytes)).Wrong := .inl (by omega)
    rw [kept_of_result (load_short short)]
    constructor
    · rintro ⟨_, same⟩
      obtain ⟨header, kept⟩ := repeats.mp (same wrong)
      exact .inr ⟨header, kept, fun long => absurd short (Nat.not_lt.mpr long)⟩
    · rintro (accepted | ⟨header, kept, _⟩)
      · omega
      · have same := repeats.mpr ⟨header, kept⟩
        refine ⟨?_, fun _ => same⟩
        rintro (begun | zero)
        · exact (Globals.coherent_congr same.1 same.2).mpr (sound begun)
        · contradiction
  have long := Nat.not_lt.mp short
  by_cases marked : bytes.take 4 = nlmMagic
  next =>
    rw [kept_of_result ((load_whole long).trans (if_neg (not_not_intro marked)))]
    have coherent : (session.globals.header.withConfig (bytes.take 16)).setServer.Coherent := by
      rw [Globals.setServer_coherent, Globals.withConfig]
      exact (NetLoggingMgrConfig.overwrite_magic _ long).trans marked
    have unchanged := session.globals.header_setServer_iff (List.length_take_le 16 bytes)
    constructor
    · rintro ⟨_, same⟩
      by_cases exactly : bytes.length = 16
      next => exact .inl ⟨exactly, marked⟩
      next =>
        obtain ⟨header, kept, target⟩ := unchanged.mp (same (.inl exactly))
        exact .inr ⟨header, kept, fun _ =>
          ⟨(NetLoggingMgrConfig.magic_of_prefix _ long kept).trans marked, target⟩⟩
    · rintro (⟨exactly, _⟩ | ⟨header, kept, held⟩)
      · refine ⟨fun _ => coherent, ?_⟩
        rintro (longer | unmarked)
        · exact absurd exactly longer
        · exact absurd marked unmarked
      · exact ⟨fun _ => coherent, fun _ => unchanged.mpr ⟨header, kept, (held long).2⟩⟩
  next =>
    rw [kept_of_result ((load_whole long).trans (if_pos marked))]
    refine iff_of_false ?_ ?_
    · rintro ⟨coherent, _⟩
      have magic := (coherent (.inr rfl)).1
      exact marked ((NetLoggingMgrConfig.overwrite_magic _ long).symm.trans magic)
    · rintro (⟨_, magic⟩ | ⟨_, kept, held⟩)
      · exact marked magic
      · have magic := (held long).1
        exact marked ((NetLoggingMgrConfig.magic_of_prefix _ long kept).symm.trans magic)

theorem kept_iff_validated (call : ConfigCall)
    (sound : session.started = true → session.globals.Coherent) :
    Kept illegalType session call ↔ Validated session call := by
  cases call with
  | load file =>
      cases file with
      | missing error => exact iff_of_true (load_missing_kept error.2 sound nofun rfl) trivial
      | unreadable error =>
          exact iff_of_true (load_missing_kept (by decide) sound nofun rfl) trivial
      | content bytes => exact load_content_kept_iff bytes sound
  | update first second => exact update_kept_iff first second sound

/-- A sequence of calls keeps the configuration coherent, and is not disturbed by wrong
inputs, exactly when every input in turn is validated. -/
theorem config_kept_iff (illegalType : ErrorCode) (globals : Globals) (calls : List ConfigCall) :
    (sessions illegalType).Along (Kept illegalType) ⟨globals, false⟩ calls ↔
      (sessions illegalType).Along Validated ⟨globals, false⟩ calls := by
  refine Machine.Along.congr (fun session => session.started = true → session.globals.Coherent)
    ?_ ?_ _ calls nofun
  · intro session call sound
    exact kept_iff_validated call sound
  · intro session call sound kept
    exact kept.1

def bootGlobals : Globals where
  config := ⟨List.replicate 16 0, rfl⟩
  server := ⟨0, 0, 0, 0, List.replicate 6 0⟩
  flags := 0

-- 192.168.0.2, no flags, port 0.
def goodFile : List Byte := nlmMagic ++ [192, 168, 0, 2, 0, 0, 0, 0, 0, 0, 0, 0]

def goodCopy : UserCopy 4 := ⟨0, nlmMagic, by decide, fun _ => rfl⟩

def clearedCopy : UserCopy 16 := ⟨0, List.replicate 16 0, by decide, fun _ => rfl⟩

/-- A file of one byte, read after a good one, takes the magic from the live configuration;
so does a user buffer that is cleared between its two copies. -/
theorem wrongInput_not_kept :
    (¬ (sessions ⟨-1, by decide⟩).Along (Kept ⟨-1, by decide⟩) ⟨bootGlobals, false⟩
      [.load (.content goodFile), .load (.content [0x58])]) ∧
    ¬ (sessions ⟨-1, by decide⟩).Along (Kept ⟨-1, by decide⟩) ⟨bootGlobals, false⟩
      [.load (.content goodFile), .update goodCopy clearedCopy] := by
  constructor
  · rintro ⟨_, ⟨coherent, _⟩, _⟩
    have magic : [0x58, 0x4C, 0x4D, 0x00] = nlmMagic := (coherent rfl).1
    exact absurd magic (by decide)
  · rintro ⟨_, ⟨coherent, _⟩, _⟩
    have magic : [0x00, 0x00, 0x00, 0x00] = nlmMagic := (coherent rfl).1
    exact absurd magic (by decide)

end VitaTools.PrincessLog
