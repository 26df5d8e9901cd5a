import MpactSim.Gdb.Server

namespace MpactSim.Gdb.GdbServer

open Lib

/-!
# The commands of the GDB server

`ParseGdbCommand` takes the payload of a packet apart and calls the handler of the command.

* `gdbReadMemory`, `gdbWriteMemory`, … — the commands for memory and registers;
* `gdbQuery`, `gdbSet`                 — the questions and the settings;
* `parseGdbCommand`                    — the commands, by their first letter;
* `acceptPacket`                       — a packet, whose payload is such a command.
-/

variable {ω : Type} (cfg : Config ω)

/-! ### Threads -/

/-- `GdbDetach` -/
def gdbDetach : Serve ω Unit := do
  respond (ascii "OK")
  terminate

/-- `thread_select_[op] = thread_id` -/
def selectThread (op : UInt8) (threadId : Int) : Serve ω Unit :=
  modify fun s => { s with server := { s.server with
    threadSelect := fun o => if o = op then some threadId else s.server.threadSelect o } }

/-- The thread that the text of `GdbSelectThread` names. -/
def selectedThread (text : Bytes) : Option Int :=
  if text = ascii "-1" then some 1
  else (simpleHexAtoiInt text).map fun threadId => if threadId = 0 then 1 else threadId

/-- `GdbSelectThread` -/
def gdbSelectThread : Bytes → Serve ω Unit
  | [] => throw .front
  | op :: text =>
    match selectedThread text with
    | none => sendError (ascii "invalid thread id")
    | some threadId => do
      selectThread op threadId
      respond (ascii "OK")

/-- `GdbStep` -/
def gdbStep (threadId : Int) : Serve ω Unit := do
  let core ← coreAt cfg (threadId - 1)
  match ← call (core.step 1) with
  | .error status => sendError status.message
  | .ok _ => respond (ascii "T05")

/-! ### Memory -/

/-- Bytes that are stored at the start of `buffer_`. -/
def storeBuffer (bytes : Bytes) : Serve ω Unit :=
  modify fun s => { s with server := { s.server with
    buffer := fun i => (bytes[i]?).getD (s.server.buffer i) } }

/-- `GdbReadMemory` -/
def gdbReadMemory (addressStr lengthStr : Bytes) : Serve ω Unit :=
  match simpleHexAtoi64 addressStr, simpleHexAtoi64 lengthStr with
  | some address, some length =>
    if length > bufferSize then errorOrE01 (ascii "length exceeds buffer size of 4096")
    else do
      let core ← coreAt cfg 0
      let (result, bytes) ← call (core.readMemory address length)
      storeBuffer (bytes.take length)
      match result with
      | .error status => errorOrE01 status.message
      | .ok count =>
        if count > bufferSize then throw (.bufferIndex bufferSize)
        else respond (hexEncodeString ((List.range count).map (← get).server.buffer))
  | _, _ => errorOrE01 (ascii "invalid memory read format")

/-- The byte that two digits are read as. -/
def hexByte (text : Bytes) : UInt8 := .ofNat ((simpleHexAtoi32 text).getD (cfg.unreadable text))

/-- The loop of `GdbWriteMemory` over the pairs of digits. -/
def decodePairs : Nat → Bytes → Bytes
  | length + 1, hi :: lo :: data => hexByte cfg [hi, lo] :: decodePairs length data
  | _, _ => []

/-- `GdbWriteMemory` -/
def gdbWriteMemory (addressStr lengthStr data : Bytes) : Serve ω Unit :=
  match simpleHexAtoi64 addressStr, simpleHexAtoi64 lengthStr with
  | some address, some length =>
    if length > bufferSize then errorOrE01 (ascii "length exceeds buffer size of 4096")
    else do
      let bytes := decodePairs cfg length data
      storeBuffer bytes
      if bytes.length ≠ length then errorOrE01 (ascii "length does not match data size")
      else
        let core ← coreAt cfg 0
        match ← call (core.writeMemory address bytes) with
        | .error status => errorOrE01 status.message
        | .ok count =>
          if count ≠ length then
            errorOrE01 (ascii "length does not match number of bytes written")
          else respond (ascii "OK")
  | _, _ => errorOrE01 (ascii "invalid memory read format")

/-! ### Registers -/

/-- The numbers of the general registers, as keys of the map. -/
def gprNumbers : List Nat :=
  (List.range (cfg.debugInfo.lastGpr + 1 - cfg.debugInfo.firstGpr).toNat).map fun i =>
    ((cfg.debugInfo.firstGpr + i) % 2 ^ 64).toNat

/-- The loop of `GdbReadGprRegisters`; there is no text where it returns with an error. -/
def readGprs (threadId : Int) : List Nat → Bytes → Serve ω (Option Bytes)
  | [], response => pure (some response)
  | number :: rest, response =>
    match cfg.debugInfo.debugRegisterMap number with
    | none => readGprs threadId rest response
    | some name => do
      let core ← coreAt cfg (threadId - 1)
      match ← call (core.getRegisterDataBuffer name) with
      | .error status => do
        sendError status.message
        pure none
      | .ok buffer =>
        readGprs threadId rest
          (response ++ hexEncodeString (core.bufferBytes buffer (← get).world))

/-- `GdbReadGprRegisters` -/
def gdbReadGprRegisters (threadId : Int) : Serve ω Unit := do
  match ← readGprs cfg threadId (gprNumbers cfg) [] with
  | some response => respond response
  | none => pure ()

/-- The loop over the bytes of a buffer, from an index on: whether all were written, and the digits
    that are left. -/
def storeDigits (core : Core ω) (buffer : Nat) : Nat → Nat → Bytes → Serve ω (Bool × Bytes)
  | 0, _, data => pure (true, data)
  | _ + 1, _, [] => pure (false, [])
  | _ + 1, _, [_] => throw .removePrefix
  | left + 1, index, hi :: lo :: data => do
    call fun world => ((), core.setBufferByte buffer index (hexByte cfg [hi, lo]) world)
    storeDigits core buffer left (index + 1) data

/-- The loop of `GdbWriteGprRegisters`; `false` where it returns with an error. -/
def writeGprs (threadId : Int) : List Nat → Bytes → Serve ω Bool
  | [], _ => pure true
  | number :: rest, data =>
    match cfg.debugInfo.debugRegisterMap number with
    | none => do
      sendError (ascii "Internal error - failed to find register")
      pure false
    | some name => do
      let core ← coreAt cfg (threadId - 1)
      match ← call (core.getRegisterDataBuffer name) with
      | .error _ => throw .value
      | .ok buffer =>
        match ← storeDigits cfg core buffer (core.bufferBytes buffer (← get).world).length 0 data with
        | (true, data) => writeGprs threadId rest data
        | (false, _) => do
          sendError (ascii "Invalid data format")
          pure false

/-- `GdbWriteGprRegisters` -/
def gdbWriteGprRegisters (threadId : Int) (data : Bytes) : Serve ω Unit := do
  if ← writeGprs cfg threadId (gprNumbers cfg) data then respond (ascii "OK")
  else pure ()

/-- `absl::StrCat` of a number. -/
def decimal (n : Nat) : Bytes := ascii (toString n)

/-- The register that a number names; an error is sent where there is none. -/
def registerName (numberStr : Bytes) : Serve ω (Option (Nat × Bytes)) :=
  match simpleHexAtoi64 numberStr with
  | none => do
    sendError (ascii "invalid register number: " ++ numberStr)
    pure none
  | some number =>
    match cfg.debugInfo.debugRegisterMap number with
    | none => do
      sendError (ascii "Register not found: " ++ decimal number)
      pure none
    | some name => pure (some (number, name))

/-- The size of a register in bytes, 0 where it is not known.  The keys of the map are `int`. -/
def registerSize (number : Nat) : Nat :=
  ((cfg.regBitsizeMap ((number : Int).bmod (2 ^ 32))).getD 0) / 8

/-- `GdbReadRegister` -/
def gdbReadRegister (threadId : Int) (numberStr : Bytes) : Serve ω Unit := do
  match ← registerName cfg numberStr with
  | none => pure ()
  | some (number, name) =>
    let core ← coreAt cfg (threadId - 1)
    if registerSize cfg number ≠ 0 ∧ registerSize cfg number ≤ 8 then
      match ← call (core.readRegister name) with
      | .error status => sendError status.message
      | .ok value => respond (hexEncodeNumber (8 * registerSize cfg number) value)
    else
      match ← call (core.getRegisterDataBuffer name) with
      | .error status => sendError status.message
      | .ok buffer =>
        let bytes := core.bufferBytes buffer (← get).world
        respond (hexEncodeString
          (bytes ++ List.replicate (registerSize cfg number - bytes.length) 0))

/-- `GdbWriteRegister` -/
def gdbWriteRegister (threadId : Int) (numberStr valueStr : Bytes) : Serve ω Unit := do
  match ← registerName cfg numberStr with
  | none => pure ()
  | some (_, name) =>
    let core ← coreAt cfg (threadId - 1)
    match ← call (core.getRegisterDataBuffer name) with
    | .error status => sendError status.message
    | .ok buffer =>
      let _ ← storeDigits cfg core buffer (core.bufferBytes buffer (← get).world).length 0 valueStr
      respond (ascii "OK")

/-! ### Breakpoints -/

/-- `Z0,([0-9a-fA-F]+),(.+)` of the whole text, with `Z0` or `z0`: the address. -/
def breakpointRe (letter : Bytes) (text : Bytes) : Option Bytes :=
  if letter.isPrefixOf text then
    let rest := text.drop letter.length
    let digits := rest.takeWhile fun c => (hexDigit c).isSome
    match rest.dropWhile fun c => (hexDigit c).isSome with
    | comma :: kind =>
      if digits ≠ [] ∧ comma = 0x2c ∧ kind ≠ [] ∧ cfg.anyText kind then some digits else none
    | [] => none
  else none

/-- `GdbAddBreakpoint` and `GdbRemoveBreakpoint` of a software breakpoint, by what they call. -/
def changeBreakpoint (change : Core ω → Nat → CoreCall ω (Except Status Unit)) (addressStr : Bytes) :
    Serve ω Unit :=
  match simpleHexAtoi64 addressStr with
  | none => sendError (ascii "invalid breakpoint address")
  | some address => do
    let core ← coreAt cfg 0
    match ← call (change core address) with
    | .ok () => respond (ascii "OK")
    | .error status =>
      if status.isUnimplemented then respond [] else sendError status.message

/-- `GdbAddBreakpoint` -/
def gdbAddBreakpoint : Bytes → Serve ω Unit := changeBreakpoint cfg Core.setSwBreakpoint

/-- `GdbRemoveBreakpoint` -/
def gdbRemoveBreakpoint : Bytes → Serve ω Unit := changeBreakpoint cfg Core.clearSwBreakpoint

/-! ### Questions and settings -/

/-- `GdbSupported` -/
def gdbSupported : Bytes → Serve ω Unit
  | [] => throw .front
  | c :: features => do
    if c = 0x3a ∧ ascii "error-message+" ∈ features.splitOn 0x3b then
      modify fun s => { s with server := { s.server with errorMessageSupported := true } }
    respond (ascii ("PacketSize=2000;multi-wp-addr-;multiprocess-;hwbreak-;qRelocInsn-" ++
      ";fork-events-;exec-events-;vContSupported+;QThreadEvents-;QThreadOptions-;no-resumed-" ++
      ";memory-tagging-;vfork-events-;QStartNoAckMode+;swbreak+;watch+;qXfer:features:read+"))

/-- `Xfer\:features\:read\:target\.xml\:([0-9a-fA-F]+),([0-9a-fA-F]+)` of the whole text. -/
def xferReadTargetRe (text : Bytes) : Option (Bytes × Bytes) :=
  let key := ascii "Xfer:features:read:target.xml:"
  if key.isPrefixOf text then
    let rest := text.drop key.length
    let offset := rest.takeWhile fun c => (hexDigit c).isSome
    match rest.dropWhile fun c => (hexDigit c).isSome with
    | comma :: length =>
      if offset ≠ [] ∧ comma = 0x2c ∧ length ≠ [] ∧ length.all fun c => (hexDigit c).isSome then
        some (offset, length)
      else none
    | [] => none
  else none

/-- `GdbQuery`.  The letter of each case of the switch is the first one of its text. -/
def gdbQuery : Bytes → Serve ω Unit
  | [] => throw .front
  | command@(_ :: _) =>
    if (ascii "Attached").isPrefixOf command then respond (ascii "0")
    else if command = ascii "C" then respond (ascii "QC1")
    else if (ascii "ExecAndArgs").isPrefixOf command then do
      let core ← coreAt cfg 0
      respond (← call core.getExecutableFileName)
    else if (ascii "fThreadInfo").isPrefixOf command then respond (gdbThreadInfo cfg.cores.length)
    else if (ascii "GDBServerVersion").isPrefixOf command then
      respond (ascii "name:mpact-sim-gdbserver;version:1.0")
    else if (ascii "HostInfo").isPrefixOf command then
      match gdbHostInfo cfg.debugInfo.lldbHostInfo with
      | none => throw .keyValue
      | some response => respond response
    else if (ascii "sThreadInfo").isPrefixOf command then respond (ascii "l")
    else if (ascii "Supported").isPrefixOf command then gdbSupported (command.drop 9)
    else
      match xferReadTargetRe command with
      | some (offsetStr, lengthStr) =>
        respond (gdbXferReadTarget cfg.debugInfo.gdbTargetXml (simpleHexAtoi64 offsetStr)
          (simpleHexAtoi64 lengthStr))
      | none => respond []

/-- `GdbSet` -/
def gdbSet (command : Bytes) : Serve ω Unit := do
  if command = ascii "StartNoAckMode" then
    modify fun s => { s with server := { s.server with noAckModeLatch := true } }
    respond (ascii "OK")
  else if command = ascii "ThreadSuffixSupported" then
    modify fun s => { s with server := { s.server with threadSuffix := true } }
    respond (ascii "OK")
  else if command = ascii "EnableErrorStrings" ∨ command = ascii "ListThreadsInStopReply" then
    respond (ascii "OK")
  else respond []

/-! ### Commands -/

/-- The cases of the switch of `ParseGdbCommand`. -/
inductive CommandKind where
  | haltReason
  | cont
  | detach
  | readGprRegisters
  | writeGprRegisters
  | selectThread
  | kill
  | readMemory
  | writeMemory
  | readRegister
  | writeRegister
  | query
  | set
  | step
  | verbose
  | breakpoint
  | other
  deriving DecidableEq

/-- The letters of the cases. -/
def commandKinds : List (Char × CommandKind) :=
  [('?', .haltReason), ('c', .cont), ('D', .detach), ('g', .readGprRegisters),
    ('G', .writeGprRegisters), ('H', .selectThread), ('k', .kill), ('m', .readMemory),
    ('M', .writeMemory), ('p', .readRegister), ('P', .writeRegister), ('q', .query), ('Q', .set),
    ('s', .step), ('v', .verbose), ('z', .breakpoint), ('Z', .breakpoint)]

/-- The case of a first letter. -/
def commandKind (c : UInt8) : CommandKind :=
  ((commandKinds.find? fun kind => kind.1.toNat = c.toNat).map Prod.snd).getD .other

/-- The part of a command before `;thread:`, and the rest. -/
def splitThread (command : Bytes) : Bytes × Bytes :=
  match findText threadKey command with
  | none => (command, [])
  | some pos => (command.take pos, command.drop pos)

/-- The thread of a command, by the letter that `H` selects it with. -/
def threadOf (letter : Char) (text : Bytes) : Serve ω Int := do
  pure (getThreadId (← get).server (.ofNat letter.toNat) text)

/-- A command that starts with the letter of a kind, with what follows it. -/
def dispatch (kind : CommandKind) (command : Bytes) : Serve ω Unit :=
  match kind with
  | .other => respond []
  | .haltReason => gdbHaltReason cfg
  | .cont => do
    gdbContinue cfg (← threadOf 'c' (splitThread command).2) (splitThread command).1
  | .detach => gdbDetach
  | .readGprRegisters => do gdbReadGprRegisters cfg (← threadOf 'g' command)
  | .writeGprRegisters => do
    gdbWriteGprRegisters cfg (← threadOf 'g' (splitThread command).2) (splitThread command).1
  | .selectThread => gdbSelectThread command
  | .kill => terminate
  | .readMemory =>
    match findText [0x2c] command with
    | none => errorOrE01 (ascii "invalid memory read format")
    | some pos => gdbReadMemory cfg (command.take pos) (command.drop (pos + 1))
  | .writeMemory =>
    match findText [0x2c] command, findText [0x3a] command with
    | none, _ => errorOrE01 (ascii "invalid memory write format")
    | some _, none => sendError (ascii "invalid memory write format")
    | some comma, some colon =>
      -- A colon before the comma makes the length of the substring wrap.
      gdbWriteMemory cfg (command.take comma)
        (if comma < colon then (command.drop (comma + 1)).take (colon - comma - 1)
          else command.drop (comma + 1))
        (command.drop (colon + 1))
  | .readRegister => do
    gdbReadRegister cfg (← threadOf 'g' (splitThread command).2) (splitThread command).1
  | .writeRegister => do
    match findText [0x3d] (splitThread command).1 with
    | none => sendError (ascii "invalid register write format")
    | some pos =>
      gdbWriteRegister cfg (← threadOf 'g' (splitThread command).2)
        ((splitThread command).1.take pos) ((splitThread command).1.drop (pos + 1))
  | .query => gdbQuery cfg command
  | .set => gdbSet command
  | .step => do gdbStep cfg (← threadOf 'c' command)
  | .verbose =>
    -- `command` is what follows the letter `v`.
    if (ascii "Cont").isPrefixOf command then gdbVContinue cfg (command.drop 4)
    else if command = ascii "MustReplyEmpty" then respond []
    else sendError (ascii "invalid verbose command")
  | .breakpoint => respond []

/-- `ParseGdbCommand` -/
def parseGdbCommand : Bytes → Serve ω Unit
  | [] => throw .front
  | command@(c :: rest) =>
    if commandKind c = .breakpoint then
      match breakpointRe cfg (ascii "Z0,") command, breakpointRe cfg (ascii "z0,") command with
      | some address, _ => gdbAddBreakpoint cfg address
      | none, some address => gdbRemoveBreakpoint cfg address
      | none, none => respond []
    else dispatch cfg (commandKind c) rest

/-- What `AcceptGdbCommand` does, one thing after the other. -/
def handleEvent : Event → Serve ω Unit
  | .put c => modify fun s => { s with written := s.written ++ [c] }
  | .sendError error => sendError (ascii error)
  | .parseGdbCommand command => parseGdbCommand cfg command

/-- A command, which may end the session. -/
def serveCommand (s : Session ω) (command : Bytes) : Except Fault (Session ω) :=
  ((parseGdbCommand cfg command).run s).map Prod.snd

/-- `AcceptGdbCommand` -/
def acceptPacket (packet : Bytes) : Serve ω Unit := do
  match acceptGdbCommand cfg.text (← get).server.noAckMode packet with
  | none => throw .unescape
  | some events => events.forM (handleEvent cfg)

/-- A packet, which may end the session. -/
def servePacket (s : Session ω) (packet : Bytes) : Except Fault (Session ω) :=
  ((acceptPacket cfg packet).run s).map Prod.snd

/-! ### A core -/

/-- A core that is halted and has one register, `pc`, which stays 0. -/
def quietCore : Core Unit where
  getRunStatus world := (.ok .halted, world)
  getLastHaltReason world := (.ok haltNone, world)
  run world := (.ok (), world)
  wait world := (.ok (), world)
  step _ world := (.ok 1, world)
  readRegister _ world := (.ok 0, world)
  writeRegister _ _ world := (.ok (), world)
  getRegisterDataBuffer _ world := (.ok 0, world)
  bufferBytes _ _ := [0]
  setBufferByte _ _ _ world := world
  readMemory _ _ world := ((.ok 0, []), world)
  writeMemory _ data world := (.ok data.length, world)
  setSwBreakpoint _ world := (.ok (), world)
  clearSwBreakpoint _ world := (.ok (), world)
  getWatchpointInfo address accessType world := ((address, accessType), world)
  getExecutableFileName world := ([], world)

/-- Register 0 is `pc`. -/
def quietConfig : Config Unit where
  cores := [quietCore]
  debugInfo :=
    { debugRegisterMap := fun number => if number = 0 then some (ascii "pc") else none
      firstGpr := 0
      lastGpr := 0
      lastGpr_lt := by decide
      pcRegister := 0
      pcWidth := 8
      gdbTargetXml := []
      lldbHostInfo := [] }
  regBitsizeMap := fun _ => none
  text := fun _ => true
  anyText := fun _ => true
  unreadable := fun _ => 0

/-- The session before the first command. -/
def quietSession : Session Unit where
  server := quietConfig.keepFirst.server
  world := ()
  input := []

end MpactSim.Gdb.GdbServer
