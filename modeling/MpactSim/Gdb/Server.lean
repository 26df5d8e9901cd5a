import MpactSim.Gdb.Numbers
import MpactSim.Lib.Endings

namespace MpactSim.Gdb.GdbServer

open Lib

/-!
# The GDB server

A handler of a command calls the core that the command is for and sends a response.

* `Core`            — the interface of a core, over a type of what the simulated world is;
* `Session`         — the server, the world, what the client will send and what was sent to it;
* `gdbContinue`, `gdbVContinue` — the commands that run the cores.

What the source reads or removes out of bounds, an index of a core that there is not, and the value
of a result that is an error are faults, which end the session.
-/

/-! ### The interfaces -/

/-- `absl::Status`, of a call that failed. -/
structure Status where
  isUnimplemented : Bool
  message : Bytes
  deriving DecidableEq

/-- `CoreDebugInterface::RunStatus` -/
inductive RunStatus where
  | halted
  | running
  | singleStep
  | none
  deriving DecidableEq

/-- `AccessType` -/
inductive AccessType where
  | none
  | load
  | store
  | loadStore
  deriving DecidableEq

/-- A call of a core, which may change the world. -/
abbrev CoreCall (ω α : Type) := ω → α × ω

/-- `CoreDebugInterface`, as far as the server calls it.  A `DataBuffer*` is a number; its bytes are
    those of the register. -/
structure Core (ω : Type) where
  getRunStatus : CoreCall ω (Except Status RunStatus)
  getLastHaltReason : CoreCall ω (Except Status Nat)
  run : CoreCall ω (Except Status Unit)
  wait : CoreCall ω (Except Status Unit)
  step : Nat → CoreCall ω (Except Status Int)
  readRegister : Bytes → CoreCall ω (Except Status Nat)
  writeRegister : Bytes → Nat → CoreCall ω (Except Status Unit)
  getRegisterDataBuffer : Bytes → CoreCall ω (Except Status Nat)
  /-- The bytes of a buffer, and a write of one of them. -/
  bufferBytes : Nat → ω → Bytes
  setBufferByte : Nat → Nat → UInt8 → ω → ω
  /-- The count that is returned, and the bytes that are stored. -/
  readMemory : Nat → Nat → CoreCall ω (Except Status Nat × Bytes)
  writeMemory : Nat → Bytes → CoreCall ω (Except Status Nat)
  setSwBreakpoint : Nat → CoreCall ω (Except Status Unit)
  clearSwBreakpoint : Nat → CoreCall ω (Except Status Unit)
  getWatchpointInfo : Nat → AccessType → CoreCall ω (Nat × AccessType)
  getExecutableFileName : CoreCall ω Bytes

/-- `DebugInfo`.  The loop over the general registers counts beyond the last one in an `int`. -/
structure DebugInfo where
  debugRegisterMap : Nat → Option Bytes
  firstGpr : Int
  lastGpr : Int
  lastGpr_lt : lastGpr < 2 ^ 31 - 1
  pcRegister : Nat
  pcWidth : Nat
  gdbTargetXml : Bytes
  lldbHostInfo : Bytes

/-- What a server is made with. -/
structure Config (ω : Type) where
  cores : List (Core ω)
  debugInfo : DebugInfo
  /-- `reg_bitsize_map_` -/
  regBitsizeMap : Int → Option Nat
  /-- What a text is that `RE2` can read, and one that `.+` matches. -/
  text : Bytes → Bool
  anyText : Bytes → Bool
  /-- What `absl::SimpleHexAtoi` leaves of a text that it cannot read. -/
  unreadable : Bytes → Nat

/-- What ends a session. -/
inductive Fault where
  /-- The first character of an empty string. -/
  | front
  | removePrefix
  /-- An index into `core_debug_interfaces_` or `halt_reasons_`. -/
  | threadIndex (index : Int)
  /-- `value()` of an error. -/
  | value
  /-- `key_value[1]` -/
  | keyValue
  /-- An index into `buffer_`. -/
  | bufferIndex (index : Nat)
  /-- The character behind an escape at the end of a packet. -/
  | unescape
  deriving DecidableEq

/-- The size of `buffer_`. -/
def bufferSize : Nat := 16 * 1024

/-- `HaltReason` -/
def softwareBreakpoint : Nat := 0

def hardwareBreakpoint : Nat := 1

def userRequest : Nat := 2

def semihostHaltRequest : Nat := 3

def dataWatchPoint : Nat := 4

def actionPoint : Nat := 5

def programDone : Nat := 6

def simulatorError : Nat := 0x7ffffffe

def haltNone : Nat := 0x7fffffff

/-- The members of `GdbServer` that change. -/
structure Server where
  noAckMode : Bool := false
  noAckModeLatch : Bool := false
  errorMessageSupported : Bool := false
  threadSuffix : Bool := false
  good : Bool := true
  buffer : Nat → UInt8 := fun _ => 0
  threadSelect : UInt8 → Option Int := fun _ => none
  haltReasons : List Nat

/-- The server and the world, what the client will send, what was written to it, and the responses
    among that. -/
structure Session (ω : Type) where
  server : Server
  world : ω
  input : Bytes
  written : Bytes := []
  responses : List Bytes := []

/-- A part of the server. -/
abbrev Serve (ω : Type) := StateT (Session ω) (Except Fault)

variable {ω : Type}

/-- The constructor keeps the first core. -/
def Config.keepFirst (cfg : Config ω) : Config ω :=
  { cfg with cores := cfg.cores.take (cfg.cores.length - (cfg.cores.length - 1)) }

/-- The members that the constructor leaves for the cores it keeps. -/
def Config.server (cfg : Config ω) : Server := { haltReasons := cfg.cores.map fun _ => haltNone }

theorem keepFirst_cores {cfg : Config ω} (h : cfg.cores ≠ []) :
    ∃ core, cfg.keepFirst.cores = [core] := by
  obtain ⟨core, rest, hcores⟩ := List.exists_cons_of_ne_nil h
  refine ⟨core, ?_⟩
  show cfg.cores.take (cfg.cores.length - (cfg.cores.length - 1)) = _
  rw [hcores, List.length_cons, Nat.add_sub_cancel, Nat.add_sub_cancel_left]
  rfl

/-! ### Steps of the handlers -/

/-- `Terminate` -/
def terminate : Serve ω Unit :=
  modify fun s => { s with server := { s.server with good := false } }

/-- What `Respond` leaves.  Each frame but in no-ack mode is followed by a byte of the client. -/
def Session.afterResponse (s : Session ω) (response : Bytes) : Session ω :=
  let sent := Gdb.respond ⟨s.server.noAckMode, s.server.noAckModeLatch⟩ s.input response
  { s with
    server := { s.server with
      noAckMode := sent.mode.noAckMode
      good := s.server.good && !sent.terminated }
    input := if s.server.noAckMode then s.input else s.input.drop sent.frames.length
    written := s.written ++ sent.frames.flatten
    responses := s.responses ++ [response] }

/-- `Respond` -/
def respond (response : Bytes) : Serve ω Unit := modify fun s => s.afterResponse response

/-- `SendError` -/
def sendError (error : Bytes) : Serve ω Unit := respond (errorResponse error)

/-- An error where the client may not support messages. -/
def errorOrE01 (error : Bytes) : Serve ω Unit := do
  if (← get).server.errorMessageSupported then sendError error else respond (ascii "E01")

/-- A call of a core. -/
def call {α : Type} (f : CoreCall ω α) : Serve ω α :=
  modifyGet fun s => ((f s.world).1, { s with world := (f s.world).2 })

/-- An element of a list at an index of a thread. -/
def atThread {α : Type} (l : List α) (index : Int) : Serve ω α :=
  if 0 ≤ index then
    match l[index.toNat]? with
    | some a => pure a
    | none => throw (.threadIndex index)
  else throw (.threadIndex index)

/-- `halt_reasons_[index]` -/
def haltReasonAt (index : Int) : Serve ω Nat := do atThread (← get).server.haltReasons index

/-- `halt_reasons_[index] = reason` -/
def setHaltReason (index : Nat) (reason : Nat) : Serve ω Unit :=
  modify fun s =>
    { s with server := { s.server with haltReasons := s.server.haltReasons.set index reason } }

/-- The place of a text in another. -/
def findText (pattern text : Bytes) : Option Nat :=
  (List.range (text.length + 1)).find? fun i => pattern.isPrefixOf (text.drop i)

/-- `;thread:` -/
def threadKey : Bytes := ascii ";thread:"

/-- `(?:;?thread\:(\d+);?)` of the whole text: the digits. -/
def threadRe (text : Bytes) : Option Bytes :=
  let text := if text.head? = some 0x3b then text.tail else text
  if (ascii "thread:").isPrefixOf text then
    let rest := text.drop 7
    let digits := rest.takeWhile fun c => (decimalDigit c).isSome
    let behind := rest.dropWhile fun c => (decimalDigit c).isSome
    if digits ≠ [] ∧ (behind = [] ∨ behind = [0x3b]) then some digits else none
  else none

/-- `GetThreadId` -/
def getThreadId (server : Server) (commandType : UInt8) (command : Bytes) : Int :=
  if !server.threadSuffix ∨ command = [] then (server.threadSelect commandType).getD 1
  else
    match threadRe command with
    | some digits => (simpleAtoiInt digits).getD 1
    | none => 1

/-! ### Halting and running -/

/-- The text of `GetHaltReason` for a reason. -/
def haltText (reason : Nat) : Bytes :=
  if reason = softwareBreakpoint ∨ reason = hardwareBreakpoint ∨ reason = dataWatchPoint ∨
      reason = actionPoint then ascii "T02thread:1;"
  else if reason = simulatorError then ascii "T06thread:1;"
  else if reason = userRequest then ascii "T03thread:1;"
  else if reason = programDone ∨ reason = semihostHaltRequest then ascii "W00thread:1;"
  else ascii "T05thread:1;"

variable (cfg : Config ω)

/-- `core_debug_interfaces_[index]` -/
def coreAt (index : Int) : Serve ω (Core ω) := atThread cfg.cores index

/-- The text of a reason with the program counter. -/
def withPc (reason : Bytes) (pc : Nat) : Bytes :=
  haltResponse reason cfg.debugInfo.pcRegister cfg.debugInfo.pcWidth pc

/-- `GetHaltReason` -/
def getHaltReason (index : Int) : Serve ω Bytes := do
  let core ← coreAt cfg index
  match ← call (core.readRegister (ascii "pc")) with
  | .error _ => pure (ascii "E01")
  | .ok pc =>
    match ← call core.getLastHaltReason with
    | .error _ => pure (ascii "E01")
    | .ok reason => do
      setHaltReason 0 reason
      pure (withPc cfg (haltText reason) pc)

/-- `GdbHaltReason` -/
def gdbHaltReason : Serve ω Unit := do respond (← getHaltReason cfg 0)

/-- The end of `GdbContinue`: the core runs until it halts. -/
def runUntilHalt (core : Core ω) (index : Int) : Serve ω Unit := do
  match ← call core.run with
  | .error status => sendError status.message
  | .ok () =>
    match ← call core.wait with
    | .error status => sendError status.message
    | .ok () => respond (← getHaltReason cfg index)

/-- `GdbContinue`.  A core that is not halted is not run, and nothing is sent. -/
def gdbContinue (threadId : Int) (command : Bytes) : Serve ω Unit := do
  if (← haltReasonAt (threadId - 1)) = programDone then respond (ascii "W00")
  else
    let core ← coreAt cfg (threadId - 1)
    match ← call core.getRunStatus with
    | .error status => sendError status.message
    | .ok .halted =>
      if command = [] then runUntilHalt cfg core (threadId - 1)
      else
        match simpleHexAtoi64 command with
        | none => sendError (ascii "invalid address")
        | some address =>
          match ← call (core.writeRegister (ascii "pc") address) with
          | .error status => sendError status.message
          | .ok () => runUntilHalt cfg core (threadId - 1)
    | .ok _ => pure ()

/-- `ContinueThread` and `StepThread`, by what they call. -/
def advanceThread (advance : Core ω → ω → ω) (threadId : Int) : Serve ω Unit := do
  if (← haltReasonAt (threadId - 1)) = programDone then pure ()
  else
    let core ← coreAt cfg (threadId - 1)
    match ← call core.getRunStatus with
    | .ok .halted => call fun world => ((), advance core world)
    | _ => pure ()

/-- `ContinueThread` -/
def continueThread : Int → Serve ω Unit := advanceThread cfg fun core world => (core.run world).2

/-- `StepThread` -/
def stepThread : Int → Serve ω Unit := advanceThread cfg fun core world => (core.step 1 world).2

/-- The threads, from 1. -/
def threadIds : List Int := (List.range cfg.cores.length).map fun i => (i : Int) + 1

/-- The action of a part of `vCont` on a thread. -/
def applyAction (action : Bytes) (threadId : Int) : Serve ω Unit :=
  if action = ascii "c" then continueThread cfg threadId
  else if action = ascii "s" then stepThread cfg threadId
  else pure ()

/-- The text behind the first colon, or all of it. -/
def threadText (part : Bytes) : Bytes :=
  match findText [0x3a] part with
  | some i => part.drop (i + 1)
  | none => part

/-- The loop over the parts of `vCont`; `false` where it returns with an error.  A negative number
    is converted to `size_t` where it is compared. -/
def vContActions : List Bytes → Serve ω Bool
  | [] => pure true
  | part :: rest => do
    let action := part.take 1
    if threadText part = ascii "-1" then
      (threadIds cfg).forM fun threadId => applyAction cfg action threadId
      vContActions rest
    else
      match simpleHexAtoiInt (threadText part) with
      | none => do
        sendError (ascii "invalid thread id")
        pure false
      | some threadId =>
        if threadId < 0 ∨ threadId > cfg.cores.length then do
          sendError (ascii "invalid thread id")
          pure false
        else do
          applyAction cfg action threadId
          vContActions rest

/-- The wait for a thread that is not done. -/
def waitThread (threadId : Int) : Serve ω Unit := do
  if (← haltReasonAt (threadId - 1)) = programDone then pure ()
  else
    let core ← coreAt cfg (threadId - 1)
    let _ ← call core.wait
    match ← call core.getLastHaltReason with
    | .error _ => pure ()
    | .ok reason => setHaltReason (threadId - 1).toNat reason

/-- The response of `vCont`, by the reason and the kind of access that triggered a watchpoint. -/
def vContText (reason : Nat) (accessType : AccessType) (pc : Nat) : Bytes :=
  if reason = softwareBreakpoint then withPc cfg (ascii "T05thread:1;swbreak:;") pc
  else if reason = hardwareBreakpoint then ascii "T05thread:1;hwbreak:;"
  else if reason = dataWatchPoint then
    match accessType with
    | .load => withPc cfg (ascii "T05thread:1;rwatch:;") pc
    | .store => withPc cfg (ascii "T05thread:1;watch:;") pc
    | .loadStore => withPc cfg (ascii "T05thread:1;awatch:;") pc
    | .none => withPc cfg (ascii "T05thread:1;") pc
  else if reason = actionPoint ∨ reason = simulatorError then withPc cfg (ascii "T06thread:1;") pc
  else if reason = userRequest then withPc cfg (ascii "T03thread:1;") pc
  else if reason = programDone ∨ reason = semihostHaltRequest then ascii "W00"
  else withPc cfg (ascii "T05thread:1;") pc

/-- The end of `GdbVContinue`: the threads halt, and the reason of the first one is sent. -/
def vContReport : Serve ω Unit := do
  (threadIds cfg).forM fun threadId => waitThread cfg threadId
  let reasons ← (threadIds cfg).mapM fun threadId => haltReasonAt (threadId - 1)
  if reasons.all (fun reason => reason = programDone ∨ reason = semihostHaltRequest) then
    respond (ascii "W00")
  else
    let core ← coreAt cfg 0
    match ← call core.getLastHaltReason with
    | .error _ => respond (ascii "T05thread:1;")
    | .ok reason =>
      setHaltReason 0 reason
      match ← call (core.readRegister (ascii "pc")) with
      | .error _ => respond (ascii "E01")
      | .ok pc =>
        if reason = dataWatchPoint then
          let (_, accessType) ← call (core.getWatchpointInfo pc .none)
          respond (vContText cfg reason accessType pc)
        else respond (vContText cfg reason .none pc)

/-- `GdbVContinue` -/
def gdbVContinue (command : Bytes) : Serve ω Unit := do
  if command = ascii "?" then respond (ascii "vCont;c;s;")
  else
    match command with
    | [] => throw .front
    | c :: rest =>
      if c ≠ 0x3b then sendError (ascii "invalid vCont command")
      else if ← vContActions cfg (rest.splitOn 0x3b) then vContReport cfg
      else pure ()

end MpactSim.Gdb.GdbServer
