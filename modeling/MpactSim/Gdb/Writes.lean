import MpactSim.Gdb.Replies
import MpactSim.Lib.Assign

namespace MpactSim.Gdb.GdbServer

open Lib

/-!
# The writes of the GDB server

`M`, `G` and `P` should write all the bytes that their text denotes, or none.

* `Contract`         — what a core does with memory and with the buffers of registers;
* `AllOrNothing`     — `OK` and the bytes are there, or an error and nothing has changed;
* `MayWrite`         — what the text has to be for that, and what the core has to do;
* `allOrNothing_iff` — these are the same, for every such command in every session.

`G` and `P` write as they go, and none of the three looks at what it is told of a pair that is not
one of digits.
-/

variable {ω : Type} {cfg : Config ω} {core : Core ω} {memory : ω → Nat → UInt8} {s : Session ω}

/-! ### The core -/

/-- What is relied on of a core: a look-up changes nothing, a byte of a buffer is written and nothing
    else, and a write that returns its length has stored its bytes. -/
structure Contract (core : Core ω) (memory : ω → Nat → UInt8) : Prop where
  lookup : ∀ name world, (core.getRegisterDataBuffer name world).2 = world
  bufferBytes_set : ∀ buffer index byte world other,
    core.bufferBytes other (core.setBufferByte buffer index byte world) =
      if other = buffer then (core.bufferBytes buffer world).set index byte
      else core.bufferBytes other world
  lookup_set : ∀ name buffer index byte world,
    (core.getRegisterDataBuffer name (core.setBufferByte buffer index byte world)).1 =
      (core.getRegisterDataBuffer name world).1
  memory_set : ∀ buffer index byte world,
    memory (core.setBufferByte buffer index byte world) = memory world
  writeMemory : ∀ address bytes world world', bytes.length ≤ bufferSize →
    core.writeMemory address bytes world = (.ok bytes.length, world') →
      ∀ i (h : i < bytes.length), memory world' ((address + i) % 2 ^ 64) = bytes[i]

/-- No byte of memory or of a register has changed. -/
def Unchanged (core : Core ω) (memory : ω → Nat → UInt8) (world world' : ω) : Prop :=
  memory world' = memory world ∧ ∀ buffer, core.bufferBytes buffer world' = core.bufferBytes buffer world

/-! ### The specification -/

/-- The bytes that a text of pairs of hexadecimal digits denotes. -/
def hexBytes : Bytes → Option Bytes
  | [] => some []
  | [_] => none
  | hi :: lo :: text => do
    let h ← hexDigit hi
    let l ← hexDigit lo
    (hexBytes text).map (.ofNat (16 * h + l) :: ·)

/-- The arguments of `M`, where there are a comma and a colon: the texts of the address and of the
    length, and the data. -/
def memoryArguments (text : Bytes) : Option (Bytes × Bytes × Bytes) :=
  match findText [0x2c] text, findText [0x3a] text with
  | some comma, some colon =>
    some (text.take comma,
      if comma < colon then (text.drop (comma + 1)).take (colon - comma - 1)
      else text.drop (comma + 1),
      text.drop (colon + 1))
  | _, _ => none

/-- The arguments of `P`, where there is an equals sign: the text of the number, and the data. -/
def registerArguments (text : Bytes) : Option (Bytes × Bytes) :=
  (findText [0x3d] (splitThread text).1).map fun pos =>
    ((splitThread text).1.take pos, (splitThread text).1.drop (pos + 1))

/-- How the buffers of registers end. -/
inductive GprEnd where
  | done
  /-- A number that is not of a register. -/
  | unknown
  /-- A register without a buffer. -/
  | refused
  deriving DecidableEq

/-- The buffers of registers, up to a number without one. -/
def gprBuffers (cfg : Config ω) (core : Core ω) (world : ω) : List Nat → List Nat × GprEnd
  | [] => ([], .done)
  | number :: rest =>
    match cfg.debugInfo.debugRegisterMap number with
    | none => ([], .unknown)
    | some name =>
      match (core.getRegisterDataBuffer name world).1 with
      | .error _ => ([], .refused)
      | .ok buffer =>
        (buffer :: (gprBuffers cfg core world rest).1, (gprBuffers cfg core world rest).2)

/-- The bytes that the text of a command denotes are where they belong. -/
def Written (cfg : Config ω) (core : Core ω) (memory : ω → Nat → UInt8) (world : ω)
    (command : Bytes) (world' : ω) : Prop :=
  match command with
  | [] => False
  | c :: rest =>
    match commandKind c with
    | .writeMemory => ∃ addressStr lengthStr data address bytes,
        memoryArguments rest = some (addressStr, lengthStr, data) ∧
        simpleHexAtoi64 addressStr = some address ∧
        simpleHexAtoi64 lengthStr = some bytes.length ∧ hexBytes data = some bytes ∧
        ∀ i (h : i < bytes.length), memory world' ((address + i) % 2 ^ 64) = bytes[i]
    | .writeGprRegisters => (gprBuffers cfg core world (gprNumbers cfg)).2 = .done ∧
        hexBytes (splitThread rest).1 = some
          ((gprBuffers cfg core world (gprNumbers cfg)).1.flatMap fun buffer =>
            core.bufferBytes buffer world')
    | .writeRegister => ∃ numberStr data name buffer,
        registerArguments rest = some (numberStr, data) ∧ registerOf cfg numberStr = some name ∧
        (core.getRegisterDataBuffer name world).1 = .ok buffer ∧
        hexBytes data = some (core.bufferBytes buffer world')
    | _ => False

/-- The response is an error. -/
def IsError (response : Bytes) : Prop := response.head? = some 0x45

/-- There is one response more: `OK` where the bytes are written, an error where none has changed. -/
def Settled (core : Core ω) (memory : ω → Nat → UInt8) (s : Session ω) (written : ω → Prop)
    (s' : Session ω) : Prop :=
  ∃ response, s'.responses = s.responses ++ [response] ∧
    (response = ascii "OK" ∧ written s'.world ∨
      IsError response ∧ Unchanged core memory s.world s'.world)

/-- The command writes all or nothing, without a fault. -/
def AllOrNothing (cfg : Config ω) (core : Core ω) (memory : ω → Nat → UInt8) (s : Session ω)
    (command : Bytes) : Prop :=
  Ends (parseGdbCommand cfg command)
    (fun _ => Settled core memory s (Written cfg core memory s.world command)) (fun _ => False) s

/-- The bytes of buffers, by the buffer and the index. -/
def cells (core : Core ω) (world : ω) (buffers : List Nat) : List (Nat × Nat) :=
  buffers.flatMap fun buffer =>
    (List.range (core.bufferBytes buffer world).length).map fun index => (buffer, index)

/-- The byte of a buffer. -/
def bytesAt (core : Core ω) (world : ω) (cell : Nat × Nat) : Option UInt8 :=
  (core.bufferBytes cell.1 world)[cell.2]?

/-- The bytes that the pairs of a text are read as. -/
def pairBytes (cfg : Config ω) : List UInt8 → Bytes
  | hi :: lo :: text => hexByte cfg [hi, lo] :: pairBytes cfg text
  | _ => []

/-- The bytes that the text of `G` is read as, with the cells of the registers in their order. -/
def gprAssignments (cfg : Config ω) (core : Core ω) (world : ω) (text : Bytes) :
    List ((Nat × Nat) × Option UInt8) :=
  (cells core world (gprBuffers cfg core world (gprNumbers cfg)).1).zip
    ((pairBytes cfg text).map some)

/-- What the text of `G` has to be.  Where it ends before the registers, or a register is not known,
    the bytes have to be those that are there; otherwise they have to agree on a register that there
    is twice. -/
def GprsMayBeWritten (cfg : Config ω) (core : Core ω) (world : ω) (text : Bytes) : Prop :=
  let size := (cells core world (gprBuffers cfg core world (gprNumbers cfg)).1).length
  let assignments := gprAssignments cfg core world text
  if text.length < 2 * size then
    text.length % 2 = 0 ∧ assign (bytesAt core world) assignments = bytesAt core world
  else
    match (gprBuffers cfg core world (gprNumbers cfg)).2 with
    | .done => text.length = 2 * size ∧ (hexBytes text).isSome ∧ Consistent assignments
    | .unknown => assign (bytesAt core world) assignments = bytesAt core world
    | .refused => False

/-- What a command has to be, and what the core has to do, to write all or nothing. -/
def MayWrite (cfg : Config ω) (core : Core ω) (memory : ω → Nat → UInt8) (s : Session ω)
    (command : Bytes) : Prop :=
  let threadIsFirst := ∀ letter text, threadArgument command = some (letter, text) →
    getThreadId s.server (.ofNat letter.toNat) text = 1
  match command with
  | [] => False
  | c :: rest =>
    match commandKind c with
    | .writeMemory => ∀ addressStr lengthStr data address length,
        memoryArguments rest = some (addressStr, lengthStr, data) →
          simpleHexAtoi64 addressStr = some address → simpleHexAtoi64 lengthStr = some length →
            length ≤ bufferSize → 2 * length ≤ data.length →
              match core.writeMemory address ((pairBytes cfg data).take length) s.world with
              | (.ok count, world') =>
                if count = length then data.length = 2 * length ∧ (hexBytes data).isSome
                else Unchanged core memory s.world world'
              | (.error _, world') => Unchanged core memory s.world world'
    | .writeGprRegisters =>
        (threadIsFirst ∨ ∀ number ∈ (gprNumbers cfg).head?,
          cfg.debugInfo.debugRegisterMap number = none) ∧
        GprsMayBeWritten cfg core s.world (splitThread rest).1
    | .writeRegister => ∀ numberStr data name,
        registerArguments rest = some (numberStr, data) → registerOf cfg numberStr = some name →
          threadIsFirst ∧ ∀ buffer, (core.getRegisterDataBuffer name s.world).1 = .ok buffer →
            data.length = 2 * (core.bufferBytes buffer s.world).length ∧ (hexBytes data).isSome
    | _ => False

/-! ### Pairs of digits -/

@[simp]
theorem length_pairBytes (text : Bytes) : (pairBytes cfg text).length = text.length / 2 := by
  induction text using pairBytes.induct with
  | case1 hi lo text ih =>
    rw [pairBytes, List.length_cons, ih, List.length_cons, List.length_cons]
    omega
  | case2 text hshort =>
    rcases text with _ | ⟨hi, _ | ⟨lo, text⟩⟩
    · rfl
    · simp [pairBytes]
    · exact (hshort hi lo text rfl).elim

theorem decodePairs_eq_take (length : Nat) (text : Bytes) :
    decodePairs cfg length text = (pairBytes cfg text).take length := by
  induction length, text using decodePairs.induct with
  | case1 length hi lo text ih => rw [decodePairs, pairBytes, List.take_succ_cons, ih]
  | case2 length text hshort =>
    rcases length with _ | length
    · rw [List.take_zero, decodePairs]
      exact hshort
    · rcases text with _ | ⟨hi, _ | ⟨lo, text⟩⟩
      · rfl
      · rfl
      · exact (hshort length hi lo text rfl rfl).elim

variable (cfg) in
theorem pairBytes_drop (n : Nat) (text : Bytes) :
    pairBytes cfg (text.drop (2 * n)) = (pairBytes cfg text).drop n := by
  induction n generalizing text with
  | zero => rfl
  | succ n ih =>
    match text with
    | [] => rfl
    | [_] => rfl
    | hi :: lo :: text =>
      show pairBytes cfg (text.drop (2 * n)) = _
      rw [ih, pairBytes, List.drop_succ_cons]

theorem hexDigit_lt {c : UInt8} {d : Nat} (h : hexDigit c = some d) : d < 16 := by
  have hall : ∀ n < 256, (hexDigit (.ofNat n)).all (· < 16) := by decide +kernel
  have hc := hall c.toNat c.toNat_lt
  rw [UInt8.ofNat_toNat, h] at hc
  exact of_decide_eq_true hc

theorem hexByte_pair {hi lo : UInt8} {h l : Nat} (hhi : hexDigit hi = some h)
    (hlo : hexDigit lo = some l) : hexByte cfg [hi, lo] = .ofNat (16 * h + l) := by
  have hdigits : ∀ c ∈ [hi, lo], (hexDigit c).isSome := by
    intro c hc
    rcases List.mem_pair.mp hc with rfl | rfl
    · rw [hhi]; rfl
    · rw [hlo]; rfl
  have hle : 16 * h + l ≤ 2 ^ 32 - 1 := by
    have hh := hexDigit_lt hhi
    have hl := hexDigit_lt hlo
    omega
  have hvalue : simpleHexAtoi [hi, lo] = some (16 * h + l) := by
    rw [simpleHexAtoi_pair, hhi, hlo]
    rfl
  rw [hexByte, simpleHexAtoi32, simpleHexAtoiTo_eq hdigits (List.cons_ne_nil _ _), hvalue,
    Option.filter_some, if_pos (decide_eq_true hle)]
  rfl

variable (cfg) in
theorem pairBytes_of_hexBytes {text bytes : Bytes} (h : hexBytes text = some bytes) :
    pairBytes cfg text = bytes ∧ text.length = 2 * bytes.length := by
  induction text using hexBytes.induct generalizing bytes with
  | case1 =>
    cases h
    exact ⟨rfl, rfl⟩
  | case2 c => cases h
  | case3 hi lo text ih =>
    rw [hexBytes] at h
    obtain ⟨a, hhi, h⟩ := Option.bind_eq_some_iff.mp h
    obtain ⟨b, hlo, h⟩ := Option.bind_eq_some_iff.mp h
    obtain ⟨rest, hrest, rfl⟩ := Option.map_eq_some_iff.mp h
    obtain ⟨hpairs, hlength⟩ := ih hrest
    refine ⟨?_, ?_⟩
    · rw [pairBytes, hexByte_pair hhi hlo, hpairs]
    · rw [List.length_cons, List.length_cons, List.length_cons, hlength]
      omega

/-! ### The buffers of the registers -/

section Contract

variable (hlaw : Contract core memory)
include hlaw

variable {buffer : Nat} {world world' : ω} {written : ω → Prop} {s' : Session ω} {E : Fault → Prop}
  {data : Bytes} {threadId : Int}

theorem bytesAt_set {index : Nat} {byte : UInt8}
    (hindex : index < (core.bufferBytes buffer world).length) :
    bytesAt core (core.setBufferByte buffer index byte world) =
      Function.update (bytesAt core world) (buffer, index) (some byte) := by
  funext ⟨other, i⟩
  rw [bytesAt, hlaw.bufferBytes_set]
  by_cases hother : other = buffer
  · subst hother
    rw [if_pos rfl, List.getElem?_set]
    by_cases hi : index = i
    · subst hi
      rw [if_pos rfl, if_pos hindex, Function.update_self]
    · rw [if_neg hi, Function.update_of_ne fun heq => hi (Prod.mk.inj heq).2.symm]
      rfl
  · rw [if_neg hother, Function.update_of_ne fun heq => hother (Prod.mk.inj heq).1]
    rfl

theorem length_bufferBytes_set (buffer index : Nat) (byte : UInt8) (world : ω) (other : Nat) :
    (core.bufferBytes other (core.setBufferByte buffer index byte world)).length =
      (core.bufferBytes other world).length := by
  rw [hlaw.bufferBytes_set]
  split
  · next heq => rw [List.length_set, heq]
  · rfl

/-- What a store of bytes leaves: the memory, the look-ups and the lengths. -/
structure SameBuffers (core : Core ω) (memory : ω → Nat → UInt8) (world world' : ω) : Prop where
  memory : memory world' = memory world
  lookup : ∀ name, (core.getRegisterDataBuffer name world').1 = (core.getRegisterDataBuffer name world).1
  length : ∀ buffer,
    (core.bufferBytes buffer world').length = (core.bufferBytes buffer world).length

theorem sameBuffers_storedWorld (buffer index : Nat) (bytes : Bytes) (world : ω) :
    SameBuffers core memory world (storedWorld core buffer index bytes world) := by
  induction bytes generalizing index world with
  | nil => exact ⟨rfl, fun _ => rfl, fun _ => rfl⟩
  | cons byte bytes ih =>
    obtain ⟨hmemory, hlookup, hlength⟩ := ih (index + 1) (core.setBufferByte buffer index byte world)
    refine ⟨hmemory.trans (hlaw.memory_set ..), fun name => ?_, fun other => ?_⟩
    · exact (hlookup name).trans (hlaw.lookup_set ..)
    · exact (hlength other).trans (length_bufferBytes_set hlaw ..)

theorem bytesAt_storedWorld {index n : Nat} {bytes : Bytes}
    (hfits : index + bytes.length ≤ (core.bufferBytes buffer world).length) (hn : bytes.length ≤ n) :
    bytesAt core (storedWorld core buffer index bytes world) =
      assign (bytesAt core world)
        (((List.range' index n).map fun i => (buffer, i)).zip (bytes.map some)) := by
  induction bytes generalizing index n world with
  | nil => rw [List.map_nil, List.zip_nil_right]; rfl
  | cons byte bytes ih =>
    rw [List.length_cons] at hfits hn
    obtain ⟨n, rfl⟩ : ∃ m, n = m + 1 := ⟨n - 1, by omega⟩
    rw [storedWorld, ih (by rw [length_bufferBytes_set hlaw]; omega) (Nat.le_of_succ_le_succ hn),
      bytesAt_set hlaw (by omega)]
    rfl

/-- The world after bytes are stored in buffers, one buffer after the other. -/
def storedBuffers (core : Core ω) : List Nat → Bytes → ω → ω
  | [], _, world => world
  | buffer :: rest, bytes, world =>
    storedBuffers core rest (bytes.drop (core.bufferBytes buffer world).length)
      (storedWorld core buffer 0 (bytes.take (core.bufferBytes buffer world).length) world)

omit hlaw in
theorem SameBuffers.trans {world'' : ω} (h : SameBuffers core memory world world')
    (h' : SameBuffers core memory world' world'') : SameBuffers core memory world world'' :=
  ⟨h'.memory.trans h.memory, fun name => (h'.lookup name).trans (h.lookup name),
    fun buffer => (h'.length buffer).trans (h.length buffer)⟩

omit hlaw in
theorem SameBuffers.cells_eq (h : SameBuffers core memory world world') (buffers : List Nat) :
    cells core world' buffers = cells core world buffers := by
  unfold cells
  congr 1
  funext buffer
  rw [h.length]

omit hlaw in
theorem SameBuffers.gprBuffers_eq (h : SameBuffers core memory world world') (numbers : List Nat) :
    gprBuffers cfg core world' numbers = gprBuffers cfg core world numbers := by
  induction numbers with
  | nil => rfl
  | cons number rest ih =>
    rw [gprBuffers, gprBuffers, ih]
    split
    · rfl
    · rw [h.lookup]

theorem sameBuffers_storedBuffers (buffers : List Nat) (bytes : Bytes) (world : ω) :
    SameBuffers core memory world (storedBuffers core buffers bytes world) := by
  induction buffers generalizing bytes world with
  | nil => exact ⟨rfl, fun _ => rfl, fun _ => rfl⟩
  | cons buffer rest ih => exact (sameBuffers_storedWorld hlaw ..).trans (ih _ _)

omit hlaw in
theorem cells_cons (world : ω) (buffer : Nat) (rest : List Nat) :
    cells core world (buffer :: rest) =
      ((List.range (core.bufferBytes buffer world).length).map fun i => (buffer, i)) ++
        cells core world rest := List.flatMap_cons

omit hlaw in
theorem zip_append_left {κ β : Type} (l l' : List κ) (m : List β) :
    (l ++ l').zip m = l.zip (m.take l.length) ++ l'.zip (m.drop l.length) := by
  induction l generalizing m with
  | nil => rfl
  | cons a l ih =>
    cases m with
    | nil => simp
    | cons b m => exact congrArg (List.cons (a, b)) (ih m)

theorem bytesAt_storedBuffers (buffers : List Nat) (bytes : Bytes) (world : ω) :
    bytesAt core (storedBuffers core buffers bytes world) =
      assign (bytesAt core world) ((cells core world buffers).zip (bytes.map some)) := by
  induction buffers generalizing bytes world with
  | nil => rfl
  | cons buffer rest ih =>
    have hsame := sameBuffers_storedWorld hlaw buffer 0
      (bytes.take (core.bufferBytes buffer world).length) world
    have hfits : 0 + (bytes.take (core.bufferBytes buffer world).length).length ≤
        (core.bufferBytes buffer world).length := by
      rw [Nat.zero_add]
      exact List.length_take_le _ _
    rw [storedBuffers, ih, hsame.cells_eq, bytesAt_storedWorld hlaw hfits (List.length_take_le _ _),
      ← assign_append, cells_cons, List.range_eq_range', zip_append_left, List.length_map,
      List.length_range', List.map_take, List.map_drop]

omit hlaw in
@[simp]
theorem storedBuffers_nil (buffers : List Nat) (world : ω) :
    storedBuffers core buffers [] world = world := by
  induction buffers generalizing world with
  | nil => rfl
  | cons buffer rest ih =>
    rw [storedBuffers, List.drop_nil, List.take_nil, ih]
    rfl

/-! ### The handlers -/

/-- The loop of `G`: the bytes of the text are stored in the buffers that there are, until one of them
    ends. -/
theorem ends_writeGprs (hcore : cfg.cores = [core]) (numbers : List Nat) (text : Bytes)
    (s : Session ω) {Q : Bool → Session ω → Prop} :
    Ends (writeGprs cfg 1 numbers text) Q (fun _ => False) s ↔
      let buffers := (gprBuffers cfg core s.world numbers).1
      let size := (cells core s.world buffers).length
      let s' := { s with world := storedBuffers core buffers (pairBytes cfg text) s.world }
      if text.length < 2 * size then
        text.length % 2 = 0 ∧
          Q false (s'.afterResponse (errorResponse (ascii "Invalid data format")))
      else
        match (gprBuffers cfg core s.world numbers).2 with
        | .done => Q true s'
        | .unknown => Q false
            (s'.afterResponse (errorResponse (ascii "Internal error - failed to find register")))
        | .refused => False := by
  induction numbers generalizing text s with
  | nil => exact Iff.rfl
  | cons number rest ih =>
    unfold writeGprs
    cases hname : cfg.debugInfo.debugRegisterMap number with
    | none =>
      rw [gprBuffers, hname]
      exact Iff.rfl
    | some name =>
      show Ends (coreAt cfg (1 - 1) >>= _) _ _ s ↔ _
      rw [ends_bind, ends_coreAt hcore, and_iff_right rfl, ends_bind, ends_call, hlaw.lookup]
      cases hbuffer : (core.getRegisterDataBuffer name s.world).1 with
      | error status =>
        have hbuffers : gprBuffers cfg core s.world (number :: rest) = ([], .refused) := by
          simp only [gprBuffers, hname, hbuffer]
        rw [hbuffers]
        exact Iff.rfl
      | ok buffer =>
        have hbuffers : gprBuffers cfg core s.world (number :: rest) =
            (buffer :: (gprBuffers cfg core s.world rest).1, (gprBuffers cfg core s.world rest).2) := by
          simp only [gprBuffers, hname, hbuffer]
        rw [hbuffers]
        show Ends (get >>= _) _ _ s ↔ _
        rw [ends_bind, ends_get, ends_bind, ends_storeDigits, decodePairs_eq_take]
        dsimp only
        have hsame := sameBuffers_storedWorld hlaw buffer 0
          ((pairBytes cfg text).take (core.bufferBytes buffer s.world).length) s.world
        have hpairs := pairBytes_drop cfg (core.bufferBytes buffer s.world).length text
        have hlength : (pairBytes cfg text).length = text.length / 2 := length_pairBytes text
        rw [cells_cons, storedBuffers, List.length_append, List.length_map, List.length_range]
        generalize (core.bufferBytes buffer s.world).length = n at *
        by_cases hshort : text.length < 2 * n
        · rw [decide_eq_false (not_le.mpr hshort), if_pos (by omega),
            List.drop_eq_nil_of_le (show (pairBytes cfg text).length ≤ n by omega), storedBuffers_nil]
          exact and_congr_left' (imp_iff_right hshort)
        · rw [decide_eq_true (not_lt.mp hshort)]
          refine (and_iff_right fun hlt => absurd hlt hshort).trans ?_
          refine (ih _ { s with world := storedWorld .. }).trans ?_
          dsimp only
          rw [hsame.gprBuffers_eq, hsame.cells_eq, hpairs, List.length_drop]
          have hlt : ∀ m, text.length - 2 * n < 2 * m ↔ text.length < 2 * (n + m) := by
            intro m
            omega
          have heven : (text.length - 2 * n) % 2 = text.length % 2 := by omega
          simp only [hlt, heven]

/-! ### The response -/

omit hlaw in
theorem Unchanged.refl (world : ω) : Unchanged core memory world world := ⟨rfl, fun _ => rfl⟩

omit hlaw in
theorem SameBuffers.unchanged_iff (h : SameBuffers core memory world world') :
    Unchanged core memory world world' ↔ bytesAt core world' = bytesAt core world := by
  constructor
  · intro hsame
    funext cell
    rw [bytesAt, hsame.2]
    rfl
  · intro hsame
    refine ⟨h.memory, fun buffer => List.ext_getElem? fun i => ?_⟩
    exact congrFun hsame (buffer, i)

omit hlaw in
theorem settled_error {response : Bytes} (hsent : s'.responses = s.responses)
    (herror : IsError response) :
    Settled core memory s written (s'.afterResponse response) ↔
      Unchanged core memory s.world s'.world := by
  constructor
  · rintro ⟨response', hresponse, ⟨rfl, -⟩ | ⟨-, hsame⟩⟩
    · -- `OK` is not an error.
      have hboth : s.responses ++ [response] = s.responses ++ [ascii "OK"] := by
        rw [← hresponse, ← hsent]
        rfl
      rw [List.singleton_inj.mp (List.append_cancel_left hboth)] at herror
      exact absurd herror (by unfold IsError; decide +kernel)
    · exact hsame
  · intro hsame
    refine ⟨response, ?_, .inr ⟨herror, hsame⟩⟩
    rw [← hsent]
    rfl

omit hlaw in
theorem settled_ok (hsent : s'.responses = s.responses) :
    Settled core memory s written (s'.afterResponse (ascii "OK")) ↔ written s'.world := by
  constructor
  · rintro ⟨response, hresponse, ⟨-, hwritten⟩ | ⟨herror, -⟩⟩
    · exact hwritten
    · have hboth : s.responses ++ [ascii "OK"] = s.responses ++ [response] := by
        rw [← hresponse, ← hsent]
        rfl
      rw [← List.singleton_inj.mp (List.append_cancel_left hboth)] at herror
      exact absurd herror (by unfold IsError; decide +kernel)
  · intro hwritten
    refine ⟨ascii "OK", ?_, .inl ⟨rfl, hwritten⟩⟩
    rw [← hsent]
    rfl

omit hlaw in
theorem ends_respond_settled (hsent : s'.responses = s.responses) :
    Ends (respond (ascii "OK")) (fun _ => Settled core memory s written) E s' ↔ written s'.world :=
  settled_ok hsent

omit hlaw in
theorem isError_errorResponse (error : Bytes) : IsError (errorResponse error) := by
  have hhead : (ascii "E.").head? = some 0x45 := by decide +kernel
  rw [IsError, errorResponse, List.head?_append, hhead]
  rfl

omit hlaw in
theorem ends_sendError_settled (error : Bytes) (hsent : s'.responses = s.responses) :
    Ends (sendError error) (fun _ => Settled core memory s written) E s' ↔
      Unchanged core memory s.world s'.world := settled_error hsent (isError_errorResponse error)

omit hlaw in
theorem ends_errorOrE01_settled (error : Bytes) (hsent : s'.responses = s.responses) :
    Ends (errorOrE01 error) (fun _ => Settled core memory s written) E s' ↔
      Unchanged core memory s.world s'.world := by
  unfold errorOrE01
  rw [ends_bind, ends_get]
  split
  · exact ends_sendError_settled error hsent
  · exact settled_error hsent (by unfold IsError; decide +kernel)

omit hlaw in
/-- `M` calls the core if its arguments can be read and there are pairs enough. -/
theorem ends_gdbWriteMemory (hcore : cfg.cores = [core]) (addressStr lengthStr data : Bytes)
    (s : Session ω) :
    Ends (gdbWriteMemory cfg addressStr lengthStr data) (fun _ => Settled core memory s written)
        (fun _ => False) s ↔
      ∀ address length, simpleHexAtoi64 addressStr = some address →
        simpleHexAtoi64 lengthStr = some length → length ≤ bufferSize → 2 * length ≤ data.length →
          match core.writeMemory address ((pairBytes cfg data).take length) s.world with
          | (.ok count, world') =>
            if count = length then written world' else Unchanged core memory s.world world'
          | (.error _, world') => Unchanged core memory s.world world' := by
  have hpairs : (pairBytes cfg data).length = data.length / 2 := length_pairBytes data
  unfold gdbWriteMemory
  split
  · next address length haddress hlength =>
    rw [forall_some_iff haddress hlength]
    split
    · next hlong =>
      refine iff_of_true ?_ fun hle => absurd hlong (not_lt.mpr hle)
      exact (ends_errorOrE01_settled _ rfl).mpr (.refl _)
    · next hle =>
      rw [imp_iff_right (not_lt.mp hle)]
      dsimp only
      rw [ends_bind, storeBuffer, ends_modify, decodePairs_eq_take, List.length_take, hpairs]
      split
      · next hshort =>
        refine iff_of_true ?_ fun h => absurd (min_eq_left (by omega)) hshort
        exact (ends_errorOrE01_settled _ rfl).mpr (.refl _)
      · next henough =>
        rw [imp_iff_right (by omega), ends_bind, ← sub_self (1 : Int), ends_coreAt hcore,
          and_iff_right rfl, ends_bind, ends_call]
        dsimp only
        rcases core.writeMemory address ((pairBytes cfg data).take length) s.world with
          ⟨status | count, world'⟩
        · exact ends_errorOrE01_settled _ rfl
        · dsimp only
          by_cases hcount : count = length
          · rw [if_neg (not_not.mpr hcount), if_pos hcount]
            exact settled_ok rfl
          · rw [if_pos hcount, if_neg hcount]
            exact ends_errorOrE01_settled _ rfl
  · next hnone =>
    refine iff_of_true ?_ fun address length ha hl => absurd hl (hnone address length ha)
    exact (ends_errorOrE01_settled _ rfl).mpr (.refl _)

omit hlaw in
variable (core) in
theorem cells_map (world : ω) (buffers : List Nat) :
    (cells core world buffers).map (bytesAt core world) =
      (buffers.flatMap fun buffer => core.bufferBytes buffer world).map some := by
  rw [cells, List.map_flatMap, List.map_flatMap]
  congr 1
  funext buffer
  refine List.ext_getElem ?_ fun i _ hi => ?_
  · rw [List.length_map, List.length_map, List.length_range, List.length_map]
  · rw [List.length_map] at hi
    rw [List.getElem_map, List.getElem_map, List.getElem_map, List.getElem_range, bytesAt]
    exact List.getElem?_eq_getElem hi

variable (cfg) in
/-- The buffers hold the bytes of a text that was stored in them if it has their length and its bytes
    agree. -/
theorem hexBytes_storedBuffers_iff (buffers : List Nat) (text : Bytes) (world : ω) :
    hexBytes text = some (buffers.flatMap fun buffer =>
        core.bufferBytes buffer (storedBuffers core buffers (pairBytes cfg text) world)) ↔
      text.length = 2 * (cells core world buffers).length ∧ (hexBytes text).isSome ∧
        Consistent ((cells core world buffers).zip ((pairBytes cfg text).map some)) := by
  have hsame := sameBuffers_storedBuffers hlaw buffers (pairBytes cfg text) world
  have hassign := bytesAt_storedBuffers hlaw buffers (pairBytes cfg text) world
  have hcells := cells_map core (storedBuffers core buffers (pairBytes cfg text) world) buffers
  rw [hsame.cells_eq] at hcells
  rw [← forall_assign_iff (f := bytesAt core world), ← hassign]
  generalize storedBuffers core buffers (pairBytes cfg text) world = world' at *
  constructor
  · intro h
    obtain ⟨hpairs, hlength⟩ := pairBytes_of_hexBytes cfg h
    refine ⟨?_, by rw [h]; rfl, ?_⟩
    · rw [hlength, ← List.length_map (f := some), ← hcells, List.length_map]
    · rw [hpairs, ← hcells, ← List.map_prod_left_eq_zip]
      rintro p hp
      obtain ⟨cell, -, rfl⟩ := List.mem_map.mp hp
      rfl
  · rintro ⟨hlength, hsome, hall⟩
    obtain ⟨bytes, hbytes⟩ := Option.isSome_iff_exists.mp hsome
    obtain ⟨hpairs, hcount⟩ := pairBytes_of_hexBytes cfg hbytes
    rw [hpairs] at hall
    have hsize : (cells core world buffers).length = (bytes.map some).length := by
      rw [List.length_map]
      omega
    rw [hbytes, Option.some_inj]
    apply List.map_injective_iff.mpr (Option.some_injective UInt8)
    rw [← hcells]
    calc bytes.map some
        = ((cells core world buffers).zip (bytes.map some)).map Prod.snd :=
          (List.map_snd_zip hsize.ge).symm
      _ = ((cells core world buffers).zip (bytes.map some)).map (bytesAt core world' ∘ Prod.fst) :=
          List.map_congr_left fun p hp => (hall p hp).symm
      _ = (cells core world buffers).map (bytesAt core world') := by
          rw [← List.map_map, List.map_fst_zip hsize.le]

variable (cfg) in
theorem hexBytes_storedWorld_iff :
    hexBytes data = some (core.bufferBytes buffer (storedWorld core buffer 0
        ((pairBytes cfg data).take (core.bufferBytes buffer world).length) world)) ↔
      data.length = 2 * (core.bufferBytes buffer world).length ∧ (hexBytes data).isSome := by
  have hiff := hexBytes_storedBuffers_iff cfg hlaw [buffer] data world
  have hsize : (cells core world [buffer]).length = (core.bufferBytes buffer world).length := by
    rw [cells_cons, List.length_append, List.length_map, List.length_range]
    rfl
  have hconsistent : Consistent ((cells core world [buffer]).zip ((pairBytes cfg data).map some)) := by
    apply consistent_zip
    rw [cells_cons, cells, List.flatMap_nil, List.append_nil]
    exact List.nodup_range.map fun i j heq => (Prod.mk.inj heq).2
  rw [List.flatMap_cons, List.flatMap_nil, List.append_nil, hsize, and_iff_left hconsistent] at hiff
  exact hiff

theorem ends_gdbWriteRegister (hcore : cfg.cores = [core]) (numberStr data : Bytes) (s : Session ω) :
    Ends (gdbWriteRegister cfg threadId numberStr data) (fun _ => Settled core memory s written)
        (fun _ => False) s ↔
      ∀ name, registerOf cfg numberStr = some name → threadId = 1 ∧
        ∀ buffer, (core.getRegisterDataBuffer name s.world).1 = .ok buffer →
          (data.length < 2 * (core.bufferBytes buffer s.world).length → data.length % 2 = 0) ∧
            written (storedWorld core buffer 0
              ((pairBytes cfg data).take (core.bufferBytes buffer s.world).length) s.world) := by
  refine (ends_registerName rfl fun error =>
    (ends_sendError_settled error rfl).mpr (.refl _)).trans ?_
  have hone : ∀ name, Ends (do
      let core ← coreAt cfg (threadId - 1)
      match ← call (core.getRegisterDataBuffer name) with
      | .error status => sendError status.message
      | .ok buffer =>
        let _ ← storeDigits cfg core buffer (core.bufferBytes buffer (← get).world).length 0 data
        respond (ascii "OK")) (fun _ => Settled core memory s written) (fun _ => False) s ↔
      threadId = 1 ∧ ∀ buffer, (core.getRegisterDataBuffer name s.world).1 = .ok buffer →
          (data.length < 2 * (core.bufferBytes buffer s.world).length → data.length % 2 = 0) ∧
            written (storedWorld core buffer 0
              ((pairBytes cfg data).take (core.bufferBytes buffer s.world).length) s.world) := by
    intro name
    rw [ends_bind, ends_coreAt hcore]
    apply and_congr_right
    rintro rfl
    rw [ends_bind, ends_call, hlaw.lookup]
    cases hbuffer : (core.getRegisterDataBuffer name s.world).1 with
    | error status => exact iff_of_true ((ends_sendError_settled _ rfl).mpr (.refl _)) nofun
    | ok buffer =>
      show Ends (get >>= _) _ _ _ ↔ _
      rw [ends_bind, ends_get, ends_bind, ends_storeDigits, decodePairs_eq_take,
        ends_respond_settled (by rfl)]
      constructor
      · rintro h _ ⟨⟩
        exact h
      · exact fun h => h buffer rfl
  constructor
  · intro h name hregister
    obtain ⟨number, hnumber, hname⟩ := registerOf_eq_some.mp hregister
    exact (hone name).mp (h number name hnumber hname)
  · intro h number name hnumber hname
    exact (hone name).mpr (h name (registerOf_eq_some.mpr ⟨number, hnumber, hname⟩))

omit hlaw in
theorem gdbWriteGprRegisters_eq (text : Bytes)
    (h : ∀ number ∈ (gprNumbers cfg).head?, cfg.debugInfo.debugRegisterMap number = none) :
    gdbWriteGprRegisters cfg threadId text = gdbWriteGprRegisters cfg 1 text := by
  unfold gdbWriteGprRegisters
  cases hnumbers : gprNumbers cfg with
  | nil => rfl
  | cons number rest =>
    have hnone := h number (by rw [hnumbers]; rfl)
    rw [writeGprs, writeGprs, hnone]

theorem ends_gdbWriteGprRegisters (hcore : cfg.cores = [core]) (text : Bytes) (s : Session ω) :
    Ends (gdbWriteGprRegisters cfg threadId text)
        (fun _ => Settled core memory s fun world' =>
          (gprBuffers cfg core s.world (gprNumbers cfg)).2 = .done ∧
            hexBytes text = some ((gprBuffers cfg core s.world (gprNumbers cfg)).1.flatMap fun buffer =>
              core.bufferBytes buffer world'))
        (fun _ => False) s ↔
      (threadId = 1 ∨ ∀ number ∈ (gprNumbers cfg).head?,
        cfg.debugInfo.debugRegisterMap number = none) ∧ GprsMayBeWritten cfg core s.world text := by
  by_cases hthread : threadId = 1 ∨ ∀ number ∈ (gprNumbers cfg).head?,
      cfg.debugInfo.debugRegisterMap number = none
  · rw [and_iff_right hthread]
    have heq : gdbWriteGprRegisters cfg threadId text = gdbWriteGprRegisters cfg 1 text := by
      rcases hthread with rfl | hnone
      · rfl
      · exact gdbWriteGprRegisters_eq text hnone
    rw [heq, gdbWriteGprRegisters, ends_bind, ends_writeGprs hlaw hcore]
    unfold GprsMayBeWritten gprAssignments
    dsimp only
    have hsame := sameBuffers_storedBuffers hlaw (gprBuffers cfg core s.world (gprNumbers cfg)).1
      (pairBytes cfg text) s.world
    -- An error leaves everything if the bytes that are stored are those that are there.
    have herror : ∀ {written : ω → Prop} (error : Bytes),
        Ends (if false then respond (ascii "OK") else pure ())
            (fun _ => Settled core memory s written) (fun _ => False)
            (Session.afterResponse
              { s with
                world := storedBuffers core (gprBuffers cfg core s.world (gprNumbers cfg)).1
                  (pairBytes cfg text) s.world } (errorResponse error)) ↔
          assign (bytesAt core s.world)
            ((cells core s.world (gprBuffers cfg core s.world (gprNumbers cfg)).1).zip
              ((pairBytes cfg text).map some)) = bytesAt core s.world := by
      intro written error
      show Settled core memory s written _ ↔ _
      rw [settled_error (by rfl) (isError_errorResponse error), hsame.unchanged_iff,
        bytesAt_storedBuffers hlaw]
    split
    · exact and_congr_right fun _ => herror _
    · cases hend : (gprBuffers cfg core s.world (gprNumbers cfg)).2 with
      | done =>
        refine (ends_respond_settled (by rfl)).trans ?_
        rw [and_iff_right rfl]
        exact hexBytes_storedBuffers_iff cfg hlaw _ _ _
      | unknown => exact herror _
      | refused => exact Iff.rfl
  · refine iff_of_false (fun h => ?_) fun h => hthread h.1
    rw [not_or] at hthread
    unfold gdbWriteGprRegisters at h
    cases hnumbers : gprNumbers cfg with
    | nil =>
      rw [hnumbers] at hthread
      exact hthread.2 nofun
    | cons number rest =>
      rw [hnumbers, ends_bind, writeGprs] at h
      cases hname : cfg.debugInfo.debugRegisterMap number with
      | none =>
        refine hthread.2 ?_
        rw [hnumbers]
        rintro _ ⟨⟩
        exact hname
      | some name =>
        rw [hname] at h
        change Ends (coreAt cfg (threadId - 1) >>= _) _ _ s at h
        rw [ends_bind, ends_coreAt hcore] at h
        exact hthread.1 h.1

/-- The bytes of `M` are in memory if they are all that the text denotes. -/
theorem written_writeMemory_iff {c : UInt8} {rest addressStr lengthStr : Bytes}
    {address length : Nat} (hkind : commandKind c = .writeMemory)
    (harguments : memoryArguments rest = some (addressStr, lengthStr, data))
    (haddress : simpleHexAtoi64 addressStr = some address)
    (hlength : simpleHexAtoi64 lengthStr = some length) (hle : length ≤ bufferSize)
    (hpairs : 2 * length ≤ data.length)
    (hwrite : core.writeMemory address ((pairBytes cfg data).take length) world =
      (.ok length, world')) :
    Written cfg core memory world (c :: rest) world' ↔
      data.length = 2 * length ∧ (hexBytes data).isSome := by
  unfold Written
  dsimp only
  rw [hkind]
  dsimp only
  constructor
  · rintro ⟨_, _, _, _, bytes, harguments', -, hlength', hbytes, -⟩
    obtain ⟨rfl, rfl, rfl⟩ : addressStr = _ ∧ lengthStr = _ ∧ data = _ := by
      have heq := Option.some.inj (harguments.symm.trans harguments')
      exact ⟨(Prod.mk.inj heq).1, (Prod.mk.inj (Prod.mk.inj heq).2).1,
        (Prod.mk.inj (Prod.mk.inj heq).2).2⟩
    obtain rfl := Option.some.inj (hlength.symm.trans hlength')
    refine ⟨(pairBytes_of_hexBytes cfg hbytes).2, ?_⟩
    rw [hbytes]
    rfl
  · rintro ⟨hcount, hsome⟩
    obtain ⟨bytes, hbytes⟩ := Option.isSome_iff_exists.mp hsome
    obtain ⟨hread, htwice⟩ := pairBytes_of_hexBytes cfg hbytes
    obtain rfl : length = bytes.length := by omega
    rw [hread, List.take_length] at hwrite
    exact ⟨addressStr, lengthStr, data, address, bytes, harguments, haddress, hlength, hbytes,
      hlaw.writeMemory address bytes world world' hle hwrite⟩

theorem written_writeRegister_iff {c : UInt8} {rest numberStr name : Bytes}
    (hkind : commandKind c = .writeRegister)
    (harguments : registerArguments rest = some (numberStr, data))
    (hname : registerOf cfg numberStr = some name)
    (hbuffer : (core.getRegisterDataBuffer name world).1 = .ok buffer) :
    Written cfg core memory world (c :: rest) (storedWorld core buffer 0
        ((pairBytes cfg data).take (core.bufferBytes buffer world).length) world) ↔
      data.length = 2 * (core.bufferBytes buffer world).length ∧ (hexBytes data).isSome := by
  rw [← hexBytes_storedWorld_iff cfg hlaw]
  unfold Written
  dsimp only
  rw [hkind]
  dsimp only
  constructor
  · rintro ⟨_, _, _, buffer', harguments', hname', hbuffer', hbytes⟩
    obtain ⟨rfl, rfl⟩ := Prod.mk.inj (Option.some.inj (harguments.symm.trans harguments'))
    obtain rfl := Option.some.inj (hname.symm.trans hname')
    obtain rfl : buffer = buffer' := Except.ok.inj (hbuffer.symm.trans hbuffer')
    exact hbytes
  · exact fun hbytes => ⟨numberStr, data, name, buffer, harguments, hname, hbuffer, hbytes⟩

end Contract

theorem written_writeGprRegisters {c : UInt8} {rest : Bytes} {world : ω}
    (hkind : commandKind c = .writeGprRegisters) :
    Written cfg core memory world (c :: rest) = fun world' =>
      (gprBuffers cfg core world (gprNumbers cfg)).2 = .done ∧
        hexBytes (splitThread rest).1 = some
          ((gprBuffers cfg core world (gprNumbers cfg)).1.flatMap fun buffer =>
            core.bufferBytes buffer world') := by
  unfold Written
  dsimp only
  rw [hkind]

theorem dispatch_writeMemory (rest : Bytes) :
    dispatch cfg .writeMemory rest =
      match memoryArguments rest with
      | some (addressStr, lengthStr, data) => gdbWriteMemory cfg addressStr lengthStr data
      | none =>
        if findText [0x2c] rest = none then errorOrE01 (ascii "invalid memory write format")
        else sendError (ascii "invalid memory write format") := by
  unfold dispatch memoryArguments
  dsimp only
  split
  · next hcomma => rw [hcomma]; rfl
  · next hcomma hcolon => rw [hcomma, hcolon]; rfl
  · next hcomma hcolon => rw [hcomma, hcolon]

theorem dispatch_writeRegister (rest : Bytes) :
    dispatch cfg .writeRegister rest =
      match registerArguments rest with
      | some (numberStr, data) => do
        gdbWriteRegister cfg (← threadOf 'g' (splitThread rest).2) numberStr data
      | none => sendError (ascii "invalid register write format") := by
  unfold dispatch registerArguments
  dsimp only
  split
  · next hpos => rw [hpos]; rfl
  · next hpos => rw [hpos]; rfl

/-- **Writes.** `M`, `G` and `P` write all that their text denotes or nothing, and end without a fault,
    if and only if they may write. -/
theorem allOrNothing_iff (hcore : cfg.keepFirst.cores = [core]) (hlaw : Contract core memory)
    (s : Session ω) {c : UInt8} (rest : Bytes)
    (hkind : commandKind c ∈ [.writeMemory, .writeGprRegisters, .writeRegister]) :
    AllOrNothing cfg.keepFirst core memory s (c :: rest) ↔
      MayWrite cfg.keepFirst core memory s (c :: rest) := by
  generalize cfg.keepFirst = cfg at *
  simp only [List.mem_cons, List.not_mem_nil, or_false] at hkind
  rcases hkind with hkind | hkind | hkind
  · unfold AllOrNothing parseGdbCommand MayWrite
    dsimp only
    rw [hkind, if_neg (by decide), dispatch_writeMemory]
    dsimp only
    cases harguments : memoryArguments rest with
    | none =>
      refine iff_of_true ?_ (by rintro _ _ _ _ _ ⟨⟩)
      dsimp only
      split
      · exact (ends_errorOrE01_settled _ rfl).mpr (.refl _)
      · exact (ends_sendError_settled _ rfl).mpr (.refl _)
    | some arguments =>
      obtain ⟨addressStr, lengthStr, data⟩ := arguments
      have hwrite : ∀ address length, simpleHexAtoi64 addressStr = some address →
          simpleHexAtoi64 lengthStr = some length → length ≤ bufferSize → 2 * length ≤ data.length →
            ((match core.writeMemory address ((pairBytes cfg data).take length) s.world with
              | (.ok count, world') =>
                if count = length then Written cfg core memory s.world (c :: rest) world'
                else Unchanged core memory s.world world'
              | (.error _, world') => Unchanged core memory s.world world') ↔
              match core.writeMemory address ((pairBytes cfg data).take length) s.world with
              | (.ok count, world') =>
                if count = length then data.length = 2 * length ∧ (hexBytes data).isSome
                else Unchanged core memory s.world world'
              | (.error _, world') => Unchanged core memory s.world world') := by
        intro address length haddress hlength hle hpairs
        rcases hresult : core.writeMemory address ((pairBytes cfg data).take length) s.world with
          ⟨status | count, world'⟩
        · exact Iff.rfl
        · dsimp only
          by_cases hcount : count = length
          · subst hcount
            rw [if_pos rfl, if_pos rfl]
            exact written_writeMemory_iff hlaw hkind harguments haddress hlength hle hpairs hresult
          · rw [if_neg hcount, if_neg hcount]
      refine (ends_gdbWriteMemory hcore _ _ _ s).trans ⟨?_, ?_⟩
      · rintro h _ _ _ address length ⟨⟩ haddress hlength hle hpairs
        exact (hwrite address length haddress hlength hle hpairs).mp
          (h address length haddress hlength hle hpairs)
      · intro h address length haddress hlength hle hpairs
        exact (hwrite address length haddress hlength hle hpairs).mpr
          (h _ _ _ address length rfl haddress hlength hle hpairs)
  · unfold AllOrNothing parseGdbCommand MayWrite
    dsimp only
    rw [hkind, if_neg (by decide)]
    dsimp only
    rw [forall_threadArgument_iff (by rw [threadArgument, hkind]), written_writeGprRegisters hkind]
    exact ends_gdbWriteGprRegisters hlaw hcore _ s
  · unfold AllOrNothing parseGdbCommand MayWrite
    dsimp only
    rw [hkind, if_neg (by decide), dispatch_writeRegister]
    dsimp only
    rw [forall_threadArgument_iff (by rw [threadArgument, hkind])]
    cases harguments : registerArguments rest with
    | none =>
      exact iff_of_true ((ends_sendError_settled _ rfl).mpr (.refl _)) (by rintro _ _ _ ⟨⟩)
    | some arguments =>
      obtain ⟨numberStr, data⟩ := arguments
      refine (ends_gdbWriteRegister hlaw hcore numberStr data s).trans ⟨?_, ?_⟩
      · rintro h _ _ name ⟨⟩ hname
        refine ⟨(h name hname).1, fun buffer hbuffer => ?_⟩
        have hwritten := ((h name hname).2 buffer hbuffer).2
        rwa [written_writeRegister_iff hlaw hkind harguments hname hbuffer] at hwritten
      · intro h name hname
        refine ⟨(h numberStr data name rfl hname).1, fun buffer hbuffer => ?_⟩
        have hfull := (h numberStr data name rfl hname).2 buffer hbuffer
        refine ⟨fun hshort => absurd hfull.1 hshort.ne, ?_⟩
        rwa [written_writeRegister_iff hlaw hkind harguments hname hbuffer]

/-! ### A core with memory and one register -/

/-- A core with memory and with one register, whose buffer is 0. -/
def ramCore : Core ((Nat → UInt8) × Bytes) where
  getRunStatus world := (.ok .halted, world)
  getLastHaltReason world := (.ok haltNone, world)
  run world := (.ok (), world)
  wait world := (.ok (), world)
  step _ world := (.ok 1, world)
  readRegister _ world := (.ok 0, world)
  writeRegister _ _ world := (.ok (), world)
  getRegisterDataBuffer _ world := (.ok 0, world)
  bufferBytes buffer world := if buffer = 0 then world.2 else []
  setBufferByte buffer index byte world :=
    if buffer = 0 then (world.1, world.2.set index byte) else world
  readMemory address length world :=
    ((.ok length, (List.range length).map fun i => world.1 ((address + i) % 2 ^ 64)), world)
  writeMemory address bytes world :=
    (.ok bytes.length,
      fun a => (bytes[(a + 2 ^ 64 - address % 2 ^ 64) % 2 ^ 64]?).getD (world.1 a), world.2)
  setSwBreakpoint _ world := (.ok (), world)
  clearSwBreakpoint _ world := (.ok (), world)
  getWatchpointInfo address accessType world := ((address, accessType), world)
  getExecutableFileName world := ([], world)

theorem contract_ramCore : Contract ramCore Prod.fst where
  lookup _ _ := rfl
  bufferBytes_set buffer index byte world other := by
    simp only [ramCore]
    by_cases hbuffer : buffer = 0
    · subst hbuffer
      by_cases hother : other = 0
      · simp [hother]
      · simp [hother]
    · by_cases hother : other = buffer
      · simp [hother, hbuffer]
      · simp [hother, hbuffer]
  lookup_set _ _ _ _ _ := rfl
  memory_set buffer index byte world := by
    simp only [ramCore]
    split
    · rfl
    · rfl
  writeMemory address bytes world world' hle hwrite i hi := by
    cases hwrite
    have hindex : ((address + i) % 2 ^ 64 + 2 ^ 64 - address % 2 ^ 64) % 2 ^ 64 = i := by
      unfold bufferSize at hle
      omega
    show (bytes[((address + i) % 2 ^ 64 + 2 ^ 64 - address % 2 ^ 64) % 2 ^ 64]?).getD _ = _
    rw [hindex, List.getElem?_eq_getElem hi]
    rfl

def ramConfig : Config ((Nat → UInt8) × Bytes) where
  cores := [ramCore]
  debugInfo := quietConfig.debugInfo
  regBitsizeMap := fun _ => none
  text := fun _ => true
  anyText := fun _ => true
  unreadable := fun _ => 0

/-- The register has two bytes. -/
def ramSession : Session ((Nat → UInt8) × Bytes) where
  server := ramConfig.keepFirst.server
  world := (fun _ => 0, [0, 0])
  input := []

/-- `G0a0b` -/
theorem allOrNothing_writeGprRegisters :
    AllOrNothing ramConfig.keepFirst ramCore Prod.fst ramSession
      (0x47 :: [0x30, 0x61, 0x30, 0x62]) := by
  refine (allOrNothing_iff rfl contract_ramCore ramSession _ (by decide +kernel)).mpr ⟨.inl ?_, ?_⟩
  · rw [forall_threadArgument_iff (show threadArgument _ = some ('g', []) by decide +kernel)]
    decide +kernel
  · unfold GprsMayBeWritten
    dsimp only
    have hdone : (gprBuffers ramConfig.keepFirst ramCore ramSession.world
        (gprNumbers ramConfig.keepFirst)).2 = .done := by decide +kernel
    rw [if_neg (by decide +kernel), hdone]
    refine ⟨?_, ?_, ?_⟩
    · decide +kernel
    · decide +kernel
    · unfold Consistent
      decide +kernel

/-- What a run of a command sends. -/
def responsesOf (result : Except Fault (Unit × Session ω)) : Option (List Bytes) :=
  result.toOption.map fun p => p.2.responses

/-- `M0,1:zz` is answered with `OK`, and `G0a` with an error after a byte is written. -/
theorem allOrNothing_fails :
    ¬AllOrNothing ramConfig.keepFirst ramCore Prod.fst ramSession (0x4d :: ascii "0,1:zz") ∧
      ¬AllOrNothing ramConfig.keepFirst ramCore Prod.fst ramSession (0x47 :: ascii "0a") := by
  refine ⟨fun h => ?_, fun h => ?_⟩
  · obtain ⟨_, s', hrun, response, hresponse, hsettled⟩ := ends_false_iff.mp h
    have hsent : responsesOf ((parseGdbCommand ramConfig.keepFirst (0x4d :: ascii "0,1:zz")).run
        ramSession) = some [ascii "OK"] := by decide +kernel
    rw [hrun] at hsent
    obtain rfl : response = ascii "OK" :=
      List.singleton_inj.mp (hresponse.symm.trans (Option.some.inj hsent))
    rcases hsettled with ⟨-, hwritten⟩ | ⟨herror, -⟩
    · unfold Written at hwritten
      dsimp only at hwritten
      rw [show commandKind 0x4d = .writeMemory by decide +kernel] at hwritten
      obtain ⟨_, _, data, _, bytes, harguments, -, -, hbytes, -⟩ := hwritten
      have hdata : memoryArguments (ascii "0,1:zz") = some (ascii "0", ascii "1", ascii "zz") := by
        decide +kernel
      obtain rfl : ascii "zz" = data :=
        (Prod.mk.inj (Prod.mk.inj (Option.some.inj (hdata.symm.trans harguments))).2).2
      have hnone : hexBytes (ascii "zz") = none := by decide +kernel
      rw [hnone] at hbytes
      cases hbytes
    · exact absurd herror (by unfold IsError; decide +kernel)
  · obtain ⟨_, s', hrun, response, hresponse, hsettled⟩ := ends_false_iff.mp h
    have hsent : responsesOf ((parseGdbCommand ramConfig.keepFirst (0x47 :: ascii "0a")).run
        ramSession) = some [ascii "E.Invalid data format"] := by decide +kernel
    have hregister : ((parseGdbCommand ramConfig.keepFirst (0x47 :: ascii "0a")).run
        ramSession).toOption.map (fun p => p.2.world.2) = some [0x0a, 0] := by decide +kernel
    rw [hrun] at hsent hregister
    obtain rfl : response = ascii "E.Invalid data format" :=
      List.singleton_inj.mp (hresponse.symm.trans (Option.some.inj hsent))
    rcases hsettled with ⟨hok, -⟩ | ⟨-, -, hsame⟩
    · exact absurd hok (by decide +kernel)
    · have hchanged : s'.world.2 = [0x0a, 0] := Option.some.inj hregister
      have hkept : s'.world.2 = [0, 0] := hsame 0
      rw [hchanged] at hkept
      exact absurd hkept (by decide)

end MpactSim.Gdb.GdbServer
