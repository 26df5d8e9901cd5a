import MpactSim.Gdb.Commands
import MpactSim.Lib.FlatArray

namespace MpactSim.Gdb.GdbServer

open Lib

/-!
# The packets that the GDB server receives

The loop of `Connect` stores the bytes of a packet in `buffer_`, which has a fixed size, and hands
them to `AcceptGdbCommand`.

* `receivePacket`    — the bytes of one packet are stored and viewed;
* `LoopHead`         — the sessions that the loop comes to, for a stream of the client;
* `bytesStored`      — how many bytes of a stream are stored for its first packet;
* `receiveSafe_iff`  — the loop stays in the buffer if and only if it has room for these, at each
  packet it comes to.

The loop never compares the index with the size.  A handler of a command uses the same buffer, and
takes bytes of the stream as acknowledgements.
-/

variable {ω : Type} (cfg : Config ω)

/-! ### The source -/

/-- The state of `is_`: what is left of the stream. -/
def setInput (input : Bytes) : Serve ω Unit := modify fun s => { s with input }

/-- `is_->get()`, which has no value at the end of the stream. -/
def getByte : Serve ω (Option UInt8) := do
  match (← get).input with
  | [] => pure none
  | c :: rest => do
    setInput rest
    pure (some c)

/-- `buffer_[index] = val` -/
def storeByte (index : Nat) (val : UInt8) : Serve ω Unit :=
  if index < bufferSize then
    modify fun s => { s with server := { s.server with
      buffer := writeAt s.server.buffer index [val] } }
  else throw (.bufferIndex index)

/-- The first bytes of `buffer_`. -/
def viewBuffer (length : Nat) : Serve ω Bytes := do
  if length ≤ bufferSize then pure (readAt (← get).server.buffer 0 length)
  else throw (.bufferIndex bufferSize)

/-- The loop up to `#`, from an index on; there is no index where the stream ends. -/
def receiveCommand (index : Nat) : Bytes → Serve ω (Option Nat)
  | [] => pure none
  | val :: rest => do
    setInput rest
    storeByte index val
    if val = hash then pure (some (index + 1)) else receiveCommand (index + 1) rest

/-- What the loop does with what it receives. -/
inductive Received where
  /-- `Connect` returns. -/
  | returns
  /-- The loop is left. -/
  | leaves
  /-- The loop goes on with the next packet. -/
  | goesOn
  | packet (packet : Bytes)
  deriving DecidableEq

/-- The two bytes behind `#`, stored from an index on.  At the end of the stream `get` returns -1,
    which is stored as 0xff. -/
def receiveChecksum (index : Nat) : Serve ω Received := do
  let hi ← getByte
  storeByte index (hi.getD 0xff)
  if hi = none then pure .leaves
  else do
    let lo ← getByte
    storeByte (index + 1) (lo.getD 0xff)
    if lo = none then pure .leaves
    else do
      let view ← viewBuffer (index + 2)
      if index + 2 < 3 ∨ view[index - 1]? ≠ some hash then pure .goesOn
      else pure (.packet view)

/-- The loop of `Connect` up to the call of `AcceptGdbCommand`. -/
def receivePacket : Serve ω Received := do
  match ← getByte with
  | none => do
    terminate
    pure .returns
  | some val =>
    if val ≠ dollar then do
      terminate
      pure .returns
    else do
      storeByte 0 val
      match ← receiveCommand 1 (← get).input with
      | none => do
        terminate
        pure .returns
      | some index => receiveChecksum index

/-- The body of the loop: whether it goes on. -/
def receiveStep : Serve ω Bool := do
  match ← receivePacket with
  | .returns => pure false
  | .leaves => pure false
  | .goesOn => pure true
  | .packet packet => do
    acceptPacket cfg packet
    pure true

/-- The sessions that the loop comes to: after the handshake, and after each packet if the
    connection is still good. -/
inductive LoopHead (start : Session ω) : Session ω → Prop
  | handshake {rest : Bytes} (h : start.input = plus :: rest) :
    LoopHead start { start with input := rest, server := { start.server with good := true } }
  | packet {s s' : Session ω} (hs : LoopHead start s)
    (hstep : (receiveStep cfg).run s = .ok (true, s')) (hgood : s'.server.good = true) :
    LoopHead start s'

/-! ### The specification -/

/-- A packet is received without a fault: every index that it is stored at, and the view of it, lie
    within the buffer. -/
def ReceiveSafe (s : Session ω) : Prop := ∃ r s', receivePacket.run s = .ok (r, s')

/-- How many bytes are stored for the first packet of a stream: up to `#`, and two more.  The first
    of these is stored before it is known that the stream has ended, and so is the second. -/
def bytesStored : Bytes → Nat
  | [] => 0
  | c :: rest =>
    if c ≠ dollar then 0
    else if hash ∉ rest then rest.length + 1
    else
      let command := rest.takeWhile (· ≠ hash)
      let behind := rest.drop (command.length + 1)
      command.length + if behind = [] then 3 else 4

/-! ### One packet -/

variable {cfg} {s : Session ω} {E : Fault → Prop}

/-- The session after bytes are taken from the stream and stored. -/
def Session.stored (s : Session ω) (index : Nat) (bytes input : Bytes) : Session ω :=
  { s with
    server := { s.server with buffer := writeAt s.server.buffer index bytes }
    input }

theorem ends_storeByte {index : Nat} {val : UInt8} {Q : Unit → Session ω → Prop} :
    Ends (storeByte index val) Q (fun _ => False) s ↔
      index < bufferSize ∧ Q () (s.stored index [val] s.input) := by
  unfold storeByte
  split
  · next hindex => exact (and_iff_right hindex).symm
  · next hindex => exact iff_of_false id fun h => hindex h.1

/-- The bytes of a stream up to `#`, or all of them. -/
def upToHash : Bytes → Bytes
  | [] => []
  | c :: rest => if c = hash then [c] else c :: upToHash rest

theorem upToHash_eq (input : Bytes) : upToHash input =
    if hash ∈ input then input.takeWhile (· ≠ hash) ++ [hash] else input := by
  induction input with
  | nil => rfl
  | cons c rest ih =>
    rw [upToHash, ih, List.takeWhile_cons]
    by_cases hc : c = hash
    · subst hc
      simp
    · have hmem : hash ∈ c :: rest ↔ hash ∈ rest := by
        rw [List.mem_cons, or_iff_right fun heq => hc heq.symm]
      simp only [hc, hmem, ne_eq, not_false_eq_true, decide_true, if_true, if_false]
      split
      · rfl
      · rfl

/-- The bytes up to `#` are stored one after the other. -/
theorem ends_receiveCommand {Q : Option Nat → Session ω → Prop} (input : Bytes) {index : Nat}
    (hindex : index ≤ bufferSize) (s : Session ω) (hs : s.input = input) :
    Ends (receiveCommand index input) Q (fun _ => False) s ↔
      index + (upToHash input).length ≤ bufferSize ∧
        Q (if hash ∈ input then some (index + (upToHash input).length) else none)
          (s.stored index (upToHash input) (input.drop (upToHash input).length)) := by
  induction input generalizing index s with
  | nil =>
    have hsame : s.stored index [] [] = s := by
      rw [Session.stored, writeAt_nil, ← hs]
    show Q none s ↔ index + 0 ≤ bufferSize ∧ Q none (s.stored index [] [])
    rw [hsame, Nat.add_zero, and_iff_right hindex]
  | cons c rest ih =>
    rw [receiveCommand, ends_bind, setInput, ends_modify, ends_bind, ends_storeByte]
    by_cases hc : c = hash
    · rw [if_pos hc, upToHash, if_pos hc, hc, if_pos List.mem_cons_self]
      exact Iff.rfl
    · have hmem : hash ∈ c :: rest ↔ hash ∈ rest := by
        rw [List.mem_cons, or_iff_right fun heq => hc heq.symm]
      have hcons : upToHash (c :: rest) = c :: upToHash rest := by rw [upToHash, if_neg hc]
      rw [if_neg hc, hcons, List.length_cons, ← Nat.add_assoc, Nat.add_right_comm,
        List.drop_succ_cons]
      simp only [hmem]
      by_cases hlt : index < bufferSize
      · rw [and_iff_right hlt, ih hlt _ rfl]
        have hboth : ∀ input', ((({ s with input := rest } : Session ω).stored index [c] rest).stored
            (index + 1) (upToHash rest) input') = s.stored index (c :: upToHash rest) input' := by
          intro input'
          have happend := writeAt_append s.server.buffer index [c] (upToHash rest)
          rw [List.length_singleton] at happend
          rw [Session.stored, Session.stored, Session.stored, happend]
          rfl
        rw [hboth]
      · exact iff_of_false (fun h => hlt h.1) fun h => hlt (by omega)

theorem ends_getByte {Q : Option UInt8 → Session ω → Prop} :
    Ends getByte Q E s ↔ Q s.input.head? { s with input := s.input.tail } := by
  unfold getByte
  rw [ends_bind, ends_get]
  cases hinput : s.input with
  | nil =>
    have hsame : { s with input := [].tail } = s := by
      rw [List.tail_nil, ← hinput]
    rw [hsame]
    exact Iff.rfl
  | cons c rest => exact Iff.rfl

theorem readAt_stored (bytes input : Bytes) :
    readAt (s.stored 0 bytes input).server.buffer 0 bytes.length = bytes :=
  readAt_writeAt s.server.buffer 0 bytes

theorem stored_stored (bytes bytes' input input' : Bytes) {index : Nat} (h : bytes.length = index) :
    (s.stored 0 bytes input).stored index bytes' input' = s.stored 0 (bytes ++ bytes') input' := by
  have happend := writeAt_append s.server.buffer 0 bytes bytes'
  rw [Nat.zero_add, h] at happend
  rw [Session.stored, Session.stored, Session.stored, happend]

/-- What the loop makes of the bytes up to `#` and of those behind it. -/
def receivedBehind (command behind : Bytes) : Received :=
  match behind with
  | hi :: lo :: _ => .packet (command ++ [hi, lo])
  | _ => .leaves

/-- The checksum is received if there is room for it, or for the one byte that is stored for the end
    of the stream. -/
theorem ends_receiveChecksum {P : Received → Prop} {command behind : Bytes} {index : Nat}
    (hlength : command.length = index) (hhash : command[index - 1]? = some hash) (hthree : 1 ≤ index) :
    Ends (receiveChecksum index) (fun r _ => P r) (fun _ => False) (s.stored 0 command behind) ↔
      index + (if behind = [] then 1 else 2) ≤ bufferSize ∧ P (receivedBehind command behind) := by
  unfold receiveChecksum
  rw [ends_bind, ends_getByte, ends_bind, ends_storeByte]
  match behind with
  | [] => exact Iff.rfl
  | [hi] =>
    show _ ∧ Ends (getByte >>= _) _ _ _ ↔ _
    rw [ends_bind, ends_getByte, ends_bind, ends_storeByte]
    show index < bufferSize ∧ index + 1 < bufferSize ∧ P .leaves ↔ index + 2 ≤ bufferSize ∧ P .leaves
    rw [← and_assoc]
    exact and_congr_left fun _ => by omega
  | hi :: lo :: rest =>
    show _ ∧ Ends (getByte >>= _) _ _ _ ↔ _
    rw [ends_bind, ends_getByte, ends_bind, ends_storeByte]
    show index < bufferSize ∧ index + 1 < bufferSize ∧ Ends (viewBuffer (index + 2) >>= _) _ _
      (((s.stored 0 command (lo :: rest)).stored index [hi] rest).stored (index + 1) [lo] rest) ↔ _
    rw [stored_stored _ _ _ _ hlength, stored_stored _ _ _ _ (by
      rw [List.length_append, List.length_singleton, hlength]), ends_bind]
    have hview : (command ++ [hi] ++ [lo]).length = index + 2 := by
      rw [List.length_append, List.length_append, hlength]
      rfl
    have hread : readAt (s.stored 0 (command ++ [hi] ++ [lo]) rest).server.buffer 0 (index + 2) =
        command ++ [hi] ++ [lo] := by
      rw [← hview]
      exact readAt_stored _ _
    have hat : (command ++ [hi] ++ [lo])[index - 1]? = some hash := by
      rw [List.append_assoc, List.getElem?_append_left (by omega), hhash]
    unfold viewBuffer
    by_cases hroom : index + 2 ≤ bufferSize
    · rw [if_pos hroom, ends_bind, ends_get, ends_pure, hread, if_neg (by
        rintro (h | h)
        · omega
        · exact h hat), ends_pure, List.append_assoc]
      exact ⟨fun h => ⟨hroom, h.2.2⟩, fun h => ⟨by omega, by omega, h.2⟩⟩
    · exact iff_of_false (fun h => hroom (by omega)) fun h => hroom h.1

/-- What the loop receives, where the buffer has room for it. -/
def received (input : Bytes) : Received :=
  match input with
  | [] => .returns
  | c :: rest =>
    if c ≠ dollar ∨ hash ∉ rest then .returns
    else receivedBehind (dollar :: upToHash rest) (rest.drop (upToHash rest).length)

/-- **One packet.** It is received if the buffer has room for the bytes that are stored. -/
theorem ends_receivePacket {P : Received → Prop} :
    Ends receivePacket (fun r _ => P r) (fun _ => False) s ↔
      bytesStored s.input ≤ bufferSize ∧ P (received s.input) := by
  have hroom : 1 < bufferSize := by decide
  unfold receivePacket
  rw [ends_bind, ends_getByte]
  cases hinput : s.input with
  | nil => exact (and_iff_right (Nat.zero_le _)).symm
  | cons c rest =>
    rw [List.head?_cons, List.tail_cons]
    unfold bytesStored received
    dsimp only
    by_cases hc : c = dollar
    · subst hc
      rw [if_neg (not_not.mpr rfl), if_neg (not_not.mpr rfl), ends_bind, ends_storeByte,
        and_iff_right (by omega), ends_bind, ends_get, ends_bind]
      show Ends (receiveCommand 1 rest) _ _ _ ↔ _
      rw [ends_receiveCommand rest hroom.le _ rfl,
        stored_stored _ _ _ _ (show [dollar].length = 1 from rfl)]
      by_cases hmem : hash ∈ rest
      · have hup : upToHash rest = rest.takeWhile (· ≠ hash) ++ [hash] := by
          rw [upToHash_eq, if_pos hmem]
        have hlength : (upToHash rest).length = (rest.takeWhile (· ≠ hash)).length + 1 := by
          rw [hup, List.length_append, List.length_singleton]
        have hnot : ¬(dollar ≠ dollar ∨ hash ∉ rest) := by
          rintro (h | h)
          · exact h rfl
          · exact h hmem
        have hlast : (dollar :: upToHash rest)[1 + (upToHash rest).length - 1]? = some hash := by
          rw [Nat.add_sub_cancel_left, hlength, List.getElem?_cons_succ, hup,
            List.getElem?_concat_length]
        rw [if_pos hmem, if_neg (not_not.mpr hmem), if_neg hnot, ← hlength]
        refine (and_congr_right fun _ => ends_receiveChecksum (by
          rw [List.length_cons, Nat.add_comm]) hlast (Nat.le_add_right 1 _)).trans ?_
        show 1 + _ ≤ bufferSize ∧ 1 + _ + _ ≤ bufferSize ∧ P (receivedBehind _ _) ↔ _
        rw [← and_assoc, and_congr_left_iff]
        intro _
        split
        · omega
        · omega
      · rw [if_neg hmem, if_pos hmem, if_pos (.inr hmem), upToHash_eq, if_neg hmem, Nat.add_comm]
        exact Iff.rfl
    · rw [if_pos hc, if_pos hc, if_pos (.inl hc)]
      exact (and_iff_right (Nat.zero_le _)).symm

/-! ### A connection -/

theorem receiveSafe_iff_bytesStored : ReceiveSafe s ↔ bytesStored s.input ≤ bufferSize := by
  have hends := ends_receivePacket (s := s) (P := fun _ => True)
  rw [ends_false_iff, and_iff_left trivial] at hends
  rw [← hends]
  exact ⟨fun ⟨r, s', h⟩ => ⟨r, s', h, trivial⟩, fun ⟨r, s', h, _⟩ => ⟨r, s', h⟩⟩

/-- **Receiving.** For a stream of the client, the loop stays in the buffer if and only if it has room
    for each packet that the loop comes to. -/
theorem receiveSafe_iff (start : Session ω) :
    (∀ s, LoopHead cfg start s → ReceiveSafe s) ↔
      ∀ s, LoopHead cfg start s → bytesStored s.input ≤ bufferSize :=
  forall₂_congr fun _ _ => receiveSafe_iff_bytesStored

theorem not_receiveSafe_of_notMem {start : Session ω} {rest : Bytes}
    (h : start.input = plus :: dollar :: rest) (hmem : hash ∉ rest)
    (hlength : bufferSize ≤ rest.length) : ¬∀ s, LoopHead cfg start s → ReceiveSafe s := by
  intro hsafe
  have hle := receiveSafe_iff_bytesStored.mp (hsafe _ (.handshake h))
  unfold bytesStored at hle
  dsimp only at hle
  rw [if_neg (not_not.mpr rfl), if_pos hmem] at hle
  omega

/-- As many bytes without `#` as the buffer has, behind the dollar sign. -/
theorem receiveSafe_fails : ¬∀ s, LoopHead quietConfig.keepFirst
    { quietSession with input := plus :: dollar :: List.replicate bufferSize 0x61 } s →
      ReceiveSafe s := by
  refine not_receiveSafe_of_notMem rfl (fun hmem => ?_) List.length_replicate.ge
  exact absurd (List.eq_of_mem_replicate hmem) (by decide)

end MpactSim.Gdb.GdbServer
