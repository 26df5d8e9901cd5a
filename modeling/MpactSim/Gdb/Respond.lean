import MpactSim.Gdb.Framing

namespace MpactSim.Gdb

/-!
# GDB remote protocol: sending a response

`Respond` writes a response between `$` and `#`, followed by a checksum, as it is.

* `readPacket` is the client's side, as the protocol defines it: the data ends at the first
  `#`, `}` escapes the byte behind it and `*` repeats the byte before it;
* `Reply` lists the responses of the server with what they are made from.

The main result, `respond_decodes_iff`, says for which of them the client reads back what
was to be sent.
-/

/-- `'*'`, which repeats the byte before it. -/
def star : UInt8 := 0x2a

/-- Bytes that a sender of responses has to escape. -/
def isResponseSpecial (c : UInt8) : Bool := isSpecial c || c = star

/-- Data without a byte to escape. -/
def Plain (data : Bytes) : Prop := ∀ c ∈ data, isResponseSpecial c = false

instance (data : Bytes) : Decidable (Plain data) :=
  inferInstanceAs (Decidable (∀ c ∈ data, isResponseSpecial c = false))

/-! ### The source -/

/-- The text that `Respond` writes for a response. -/
def responseFrame (response : Bytes) : Bytes :=
  let sum := (checksum response).toNat
  dollar :: response ++ [hash, hexChar (sum / 16), hexChar (sum % 16)]

/-- `no_ack_mode_` and the value it takes after the next response. -/
structure AckMode where
  noAckMode : Bool
  noAckModeLatch : Bool
  deriving DecidableEq, Repr

/-- What `Respond` does: the frames it writes, whether it gives up on the client, and the
    mode it leaves. -/
structure Sent where
  frames : List Bytes
  terminated : Bool
  mode : AckMode
  deriving DecidableEq, Repr

/-- The loop of `Respond` with `n` attempts left.  A frame that is not acknowledged is
    written again; at the end of the client's bytes `0xff` is read. -/
def attempts (noAckMode : Bool) (frame : Bytes) : Nat → UInt8 → Bytes → List Bytes × UInt8
  | 0, ack, _ => ([], ack)
  | n + 1, ack, acks =>
    if noAckMode then ([frame], ack)
    else if acks.headD 0xff = 0x2b then ([frame], acks.headD 0xff)
    else
      let (frames, last) := attempts noAckMode frame n (acks.headD 0xff) acks.tail
      (frame :: frames, last)

/-- `Respond`, with the bytes that the client sends. -/
def respond (mode : AckMode) (acks response : Bytes) : Sent :=
  let (frames, ack) := attempts mode.noAckMode (responseFrame response) 5 0 acks
  { frames := frames
    terminated := !mode.noAckMode && ack ≠ 0x2b
    mode := { mode with noAckMode := mode.noAckModeLatch } }

/-- The bytes of an ASCII text. -/
def ascii (text : String) : Bytes := text.toUTF8.data.toList

/-- `SendError`, the response it sends. -/
def errorResponse (error : Bytes) : Bytes := ascii "E." ++ error

/-- `HexEncodeString` -/
def hexEncodeString (data : Bytes) : Bytes :=
  data.flatMap fun c => [hexChar (c.toNat / 16), hexChar (c.toNat % 16)]

/-- `HexEncodeNumberInTargetEndianness` -/
def hexEncodeNumber (bitWidth number : Nat) : Bytes :=
  hexEncodeString ((List.range ((bitWidth + 7) / 8)).map fun i => .ofNat (number / 256 ^ i))

/-- `absl::Hex` -/
def absHex (n : Nat) : Bytes :=
  if n = 0 then [hexChar 0] else (Nat.digits 16 n).reverse.map hexChar

/-- The keys of the host information whose values `GdbHostInfo` encodes. -/
def encodedKeys : List Bytes :=
  [ascii "triple", ascii "distribution_id", ascii "os_build", ascii "hostname", ascii "os_kernel"]

/-- The keys and values of the host information; a part without a value is read out of
    bounds. -/
def hostPairs (hostInfo : Bytes) : Option (List (Bytes × Bytes)) :=
  ((hostInfo.splitOn 0x3b).filter (· ≠ [])).mapM fun part =>
    match part.splitOn 0x3a with
    | key :: value :: _ => some (key, value)
    | _ => none

/-- A part of the response to `qHostInfo`. -/
def hostField (field : Bytes × Bytes) : Bytes :=
  field.1 ++ ascii ":" ++
    (if field.1 ∈ encodedKeys then hexEncodeString field.2 else field.2) ++ ascii ";"

/-- `GdbHostInfo` -/
def gdbHostInfo (hostInfo : Bytes) : Option Bytes :=
  (hostPairs hostInfo).map fun pairs => pairs.flatMap hostField

/-- `GdbXferReadTarget`.  The sum of offset and length wraps. -/
def gdbXferReadTarget (xml : Bytes) (offset length : Option Nat) : Bytes :=
  match offset, length with
  | none, _ => errorResponse (ascii "invalid offset")
  | some _, none => errorResponse (ascii "invalid length")
  | some offset, some length =>
    if xml.length ≤ offset then ascii "l"
    else if xml.length < (offset + length) % 2 ^ 64 then
      ascii "l" ++ (xml.drop offset).take (xml.length - offset)
    else ascii "m" ++ (xml.drop offset).take length

/-- `GdbThreadInfo` -/
def gdbThreadInfo (cores : Nat) : Bytes :=
  ascii "m1" ++ (List.range' 2 (cores - 1)).flatMap fun i => ascii "," ++ absHex i

/-- A halt reason with the program counter behind it. -/
def haltResponse (reason : Bytes) (pcRegister pcWidth pc : Nat) : Bytes :=
  reason ++ absHex pcRegister ++ ascii ":" ++ hexEncodeNumber pcWidth pc ++ ascii ";"

/-- The responses that are made from nothing. -/
def fixedResponses : List String :=
  ["", "OK", "E01", "T03", "T05", "W00", "0", "l", "QC1", "vCont;c;s;", "T05thread:1;",
    "T05thread:1;hwbreak:;", "name:mpact-sim-gdbserver;version:1.0",
    "PacketSize=2000;multi-wp-addr-;multiprocess-;hwbreak-;qRelocInsn-;fork-events-;exec-events-" ++
      ";vContSupported+;QThreadEvents-;QThreadOptions-;no-resumed-" ++
      ";memory-tagging-;vfork-events-;QStartNoAckMode+;swbreak+;watch+;qXfer:features:read+"]

/-- The halt reasons that the program counter follows. -/
def haltReasons : List String :=
  ["T02thread:1;", "T03thread:1;", "T05thread:1;", "T06thread:1;", "W00thread:1;",
    "T05thread:1;swbreak:;", "T05thread:1;rwatch:;", "T05thread:1;watch:;", "T05thread:1;awatch:;"]

/-- A response of the server, with what it is made from. -/
inductive Reply where
  | fixed (text : String) (isFixed : text ∈ fixedResponses)
  | halt (reason : String) (isReason : reason ∈ haltReasons) (pcRegister pcWidth pc : Nat)
  | threadInfo (cores : Nat)
  /-- The bytes of registers or memory. -/
  | data (bytes : Bytes)
  | execAndArgs (fileName : Bytes)
  | hostInfo (info : Bytes)
  | xferReadTarget (xml : Bytes) (offset length : Option Nat)
  | error (message : Bytes)

/-- The response; there is none if making it reads out of bounds. -/
def Reply.response : Reply → Option Bytes
  | .fixed text _ => some (ascii text)
  | .halt reason _ pcRegister pcWidth pc => some (haltResponse (ascii reason) pcRegister pcWidth pc)
  | .threadInfo cores => some (gdbThreadInfo cores)
  | .data bytes => some (hexEncodeString bytes)
  | .execAndArgs fileName => some fileName
  | .hostInfo info => gdbHostInfo info
  | .xferReadTarget xml offset length => some (gdbXferReadTarget xml offset length)
  | .error message => some (errorResponse message)

/-! ### The protocol -/

/-- The data that a body stands for, after `last`: `}` escapes the byte behind it, and `*`
    stands for further copies of the byte before it, as many as the byte behind it says. -/
def decodeData : Option UInt8 → Bytes → Option Bytes
  | _, [] => some []
  | _, [c] => if c = escapeByte ∨ c = star then none else some [c]
  | last, c :: d :: rest =>
    if c = escapeByte then
      (decodeData (some (d ^^^ 0x20)) rest).map ((d ^^^ 0x20) :: ·)
    else if c = star then
      match last with
      | none => none
      | some x =>
        if 0x20 ≤ d ∧ d ≤ 0x7e then
          (decodeData (some x) rest).map (List.replicate (d.toNat - 29) x ++ ·)
        else none
    else (decodeData (some c) (d :: rest)).map (c :: ·)

/-- The data of the first packet of a stream, and what follows the packet. -/
def readPacket : Bytes → Option (Bytes × Bytes)
  | [] => none
  | c :: rest =>
    let body := rest.takeWhile (· ≠ hash)
    match rest.dropWhile (· ≠ hash) with
    | _ :: hi :: lo :: behind =>
      if c = dollar ∧ dollar ∉ body ∧ simpleHexAtoi [hi, lo] = some (checksum body).toNat then
        (decodeData none body).map fun data => (data, behind)
      else none
    | _ => none

/-- The client reads back a response from what was written. -/
def Decodes (sent response : Bytes) : Prop := readPacket sent = some (response, [])

/-- When the parts of a reply that are sent as they are have no byte to escape. -/
def Reply.Encodable : Reply → Prop
  | .fixed .. | .halt .. | .threadInfo _ | .data _ => True
  | .execAndArgs fileName => Plain fileName
  | .hostInfo info => ∀ pairs, hostPairs info = some pairs → ∀ field ∈ pairs,
      Plain field.1 ∧ (field.1 ∈ encodedKeys ∨ Plain field.2)
  | .xferReadTarget xml offset length => ∀ o l, offset = some o → length = some l →
      Plain ((xml.drop o).take l)
  | .error message => Plain message

/-! ### Bytes to escape -/

variable {c : UInt8} {data : Bytes} {last : Option UInt8}

theorem isResponseSpecial_eq_false_iff :
    isResponseSpecial c = false ↔ c ≠ hash ∧ c ≠ dollar ∧ c ≠ escapeByte ∧ c ≠ star := by
  simp [isResponseSpecial, isSpecial, and_assoc]

theorem plain_cons :
    Plain (c :: data) ↔ isResponseSpecial c = false ∧ Plain data := List.forall_mem_cons

theorem plain_append {data' : Bytes} : Plain (data ++ data') ↔ Plain data ∧ Plain data' :=
  List.forall_mem_append

theorem plain_flatMap {α : Type} {l : List α} {f : α → Bytes} :
    Plain (l.flatMap f) ↔ ∀ a ∈ l, Plain (f a) := by
  unfold Plain
  constructor
  · intro h a ha c hc
    exact h c (List.mem_flatMap.mpr ⟨a, ha, hc⟩)
  · intro h c hc
    obtain ⟨a, ha, hc⟩ := List.mem_flatMap.mp hc
    exact h a ha c hc

/-! ### Decoding data -/

theorem decodeData_cons (hesc : c ≠ escapeByte) (hstar : c ≠ star) (last : Option UInt8)
    (rest : Bytes) : decodeData last (c :: rest) = (decodeData (some c) rest).map (c :: ·) := by
  cases rest with
  | nil => simp [decodeData, hesc, hstar]
  | cons d rest =>
    rw [decodeData.eq_def]
    show (if c = escapeByte then _ else if c = star then _ else _) = _
    rw [if_neg hesc, if_neg hstar]

theorem decodeData_escape (last : Option UInt8) (d : UInt8) (rest : Bytes) :
    decodeData last (escapeByte :: d :: rest) =
      (decodeData (some (d ^^^ 0x20)) rest).map ((d ^^^ 0x20) :: ·) := by
  rw [decodeData.eq_def]
  exact if_pos rfl

theorem decodeData_star {d : UInt8} {rest : Bytes}
    (h : decodeData last (star :: d :: rest) = some data) :
    ∃ x k out, last = some x ∧ 0 < k ∧ decodeData (some x) rest = some out ∧
      data = List.replicate k x ++ out := by
  have hesc : star ≠ escapeByte := by decide
  rw [decodeData.eq_def] at h
  dsimp only at h
  rw [if_neg hesc, if_pos rfl] at h
  cases last with
  | none => cases h
  | some x =>
    dsimp only at h
    split at h
    · next hcount =>
      obtain ⟨out, hout, rfl⟩ := Option.map_eq_some_iff.mp h
      have hge : 0x20 ≤ d.toNat := UInt8.le_iff_toNat_le.mp hcount.1
      exact ⟨x, d.toNat - 29, out, rfl, by omega, hout, rfl⟩
    · cases h

theorem decodeData_singleton (h : decodeData last [c] = some data) : c ≠ escapeByte ∧ c ≠ star := by
  rw [decodeData.eq_def] at h
  dsimp only at h
  split at h
  · cases h
  · next hc => exact not_or.mp hc

theorem append_eq_replicate_append {k : Nat} {x : UInt8} {p t out : Bytes}
    (h : p ++ c :: t = List.replicate k x ++ out) :
    (∀ b ∈ c :: p, b = x) ∨ ∃ p', p = List.replicate k x ++ p' ∧ p' ++ c :: t = out := by
  rcases List.append_eq_append_iff.mp h with ⟨mid, hrun, hmid⟩ | ⟨p', hp, hout⟩
  · cases mid with
    | nil => exact .inr ⟨[], by simpa using hrun.symm, by simpa using hmid⟩
    | cons b mid =>
      obtain ⟨rfl, -⟩ := List.cons.inj hmid
      refine .inl fun b hb => ?_
      have hmem : b ∈ List.replicate k x := by
        rw [hrun]
        rcases List.mem_cons.mp hb with rfl | hb
        · exact List.mem_append_right _ List.mem_cons_self
        · exact List.mem_append_left _ hb
      exact List.eq_of_mem_replicate hmem
  · exact .inr ⟨p', hp, hout.symm⟩

/-- **Decoding falls behind for good.** What is decoded is never some of the bytes before
    the input followed by the input: a byte of the input would have to stand for one that
    comes before it, and a run that catches up would consist of `*` only. -/
theorem decodeData_ne_append {x : UInt8} {p t : Bytes} (hp : p ≠ [])
    (hstar : x ≠ star ∨ ∃ c ∈ p, c ≠ star) : decodeData (some x) t ≠ some (p ++ t) := by
  induction hn : t.length using Nat.strong_induction_on generalizing x p t with
  | _ n ih =>
    intro h
    subst hn
    cases t with
    | nil =>
      rw [List.append_nil] at h
      exact hp (Option.some.inj h).symm
    | cons c rest =>
      by_cases hplain : c ≠ escapeByte ∧ c ≠ star
      · -- The byte stands for the first one that is behind, and joins those.
        rw [decodeData_cons hplain.1 hplain.2] at h
        obtain ⟨out, hout, heq⟩ := Option.map_eq_some_iff.mp h
        obtain ⟨b, p', rfl⟩ := List.exists_cons_of_ne_nil hp
        obtain ⟨rfl, rfl⟩ := List.cons.inj heq
        refine ih rest.length (by simp) (p := p' ++ [c]) (by simp) (.inl hplain.2) rfl ?_
        rw [List.append_assoc, List.singleton_append]
        exact hout
      cases rest with
      | nil => exact hplain (decodeData_singleton h)
      | cons d rest =>
        have hlt : rest.length < (c :: d :: rest).length := by
          rw [List.length_cons, List.length_cons]
          omega
        by_cases hesc : c = escapeByte
        · -- The escaped byte is the first one that is behind, and two join those.
          subst hesc
          rw [decodeData_escape] at h
          obtain ⟨out, hout, heq⟩ := Option.map_eq_some_iff.mp h
          obtain ⟨b, p', rfl⟩ := List.exists_cons_of_ne_nil hp
          obtain ⟨rfl, rfl⟩ := List.cons.inj heq
          refine ih rest.length hlt (x := d ^^^ 0x20) (p := p' ++ [escapeByte, d]) (by simp)
            (.inr ⟨escapeByte, by simp, by decide⟩) rfl ?_
          rw [List.append_assoc]
          exact hout
        · obtain rfl : c = star := by
            by_contra hne
            exact hplain ⟨hesc, hne⟩
          obtain ⟨x', k, out, hx, hk, hout, heq⟩ := decodeData_star h
          obtain rfl := Option.some.inj hx
          rcases append_eq_replicate_append heq with hall | ⟨p', rfl, hrest⟩
          · -- The run reaches the `*` itself, so it repeats `*`.
            have hx : star = x := hall star List.mem_cons_self
            rcases hstar with hne | ⟨c, hc, hne⟩
            · exact hne hx.symm
            · exact hne ((hall c (List.mem_cons_of_mem _ hc)).trans hx.symm)
          · -- The run is the start of what is behind.
            refine ih rest.length hlt (x := x) (p := p' ++ [star, d]) (by simp) ?_ rfl ?_
            · rcases hstar with hne | ⟨c, hc, hne⟩
              · exact .inl hne
              · rcases List.mem_append.mp hc with hc | hc
                · rw [List.eq_of_mem_replicate hc] at hne
                  exact .inl hne
                · exact .inr ⟨c, List.mem_append_left _ hc, hne⟩
            · rw [List.append_assoc, hout, ← hrest]
              rfl

/-- **When data decodes to itself.** -/
theorem decodeData_eq_self_iff (hlast : ∀ x, last = some x → x ≠ star) (data : Bytes) :
    decodeData last data = some data ↔ ∀ c ∈ data, c ≠ escapeByte ∧ c ≠ star := by
  induction data generalizing last with
  | nil => simp [decodeData]
  | cons c rest ih =>
    rw [List.forall_mem_cons]
    by_cases hplain : c ≠ escapeByte ∧ c ≠ star
    · have hlast' : ∀ x, some c = some x → x ≠ star := by
        rintro x ⟨rfl⟩
        exact hplain.2
      rw [decodeData_cons hplain.1 hplain.2, and_iff_right hplain, ← ih hlast',
        Option.map_eq_some_iff]
      constructor
      · rintro ⟨out, hout, heq⟩
        rw [hout, (List.cons.inj heq).2]
      · intro h
        exact ⟨rest, h, rfl⟩
    · refine iff_of_false ?_ fun h => hplain h.1
      intro h
      cases rest with
      | nil => exact hplain (decodeData_singleton h)
      | cons d rest =>
        by_cases hesc : c = escapeByte
        · -- An escape byte would have to stand for itself, and the byte behind it is late.
          subst hesc
          rw [decodeData_escape] at h
          obtain ⟨out, hout, heq⟩ := Option.map_eq_some_iff.mp h
          obtain ⟨hd, rfl⟩ := List.cons.inj heq
          rw [hd] at hout
          exact decodeData_ne_append (List.cons_ne_nil d []) (.inl (by decide)) hout
        · obtain rfl : c = star := by
            by_contra hne
            exact hplain ⟨hesc, hne⟩
          obtain ⟨x, k, out, rfl, hk, -, heq⟩ := decodeData_star h
          obtain ⟨k, rfl⟩ : ∃ j, k = j + 1 := ⟨k - 1, by omega⟩
          rw [List.replicate_succ, List.cons_append] at heq
          exact hlast x rfl (List.cons.inj heq).1.symm

/-! ### Reading packets -/

theorem simpleHexAtoi_checksum (data : Bytes) :
    simpleHexAtoi [hexChar ((checksum data).toNat / 16), hexChar ((checksum data).toNat % 16)] =
      some (checksum data).toNat := by
  have hlt := (checksum data).toNat_lt
  rw [simpleHexAtoi_pair, hexDigit_hexChar _ (by omega), hexDigit_hexChar _ (by omega)]
  show some (16 * ((checksum data).toNat / 16) + (checksum data).toNat % 16) = _
  rw [Nat.div_add_mod]

theorem readPacket_responseFrame {body : Bytes} (hhash : hash ∉ body) (hdollar : dollar ∉ body) :
    readPacket (responseFrame body) = (decodeData none body).map fun data => (data, []) := by
  have hne : ∀ b ∈ body, decide (b ≠ hash) = true := by
    intro b hb
    exact decide_eq_true fun heq => hhash (heq ▸ hb)
  unfold readPacket responseFrame
  simp only [List.cons_append, List.takeWhile_append_of_pos hne, List.dropWhile_append_of_pos hne]
  simp [hdollar, simpleHexAtoi_checksum]

/-- **When a frame decodes.** The client reads back what was put between `$` and the
    checksum exactly if there is no byte to escape in it. -/
theorem decodes_responseFrame_iff (response : Bytes) :
    Decodes (responseFrame response) response ↔ Plain response := by
  have hnone : ∀ x, none = some x → x ≠ star := by
    intro x hx
    cases hx
  constructor
  · intro h
    have hread := h
    unfold Decodes readPacket responseFrame at hread
    simp only [List.cons_append] at hread
    split at hread
    · next sep hi lo behind hdrop =>
      split at hread
      · next hcond =>
        -- Nothing is left behind the packet, so its body is the whole response.
        obtain ⟨data, hdata, hpair⟩ := Option.map_eq_some_iff.mp hread
        obtain ⟨rfl, rfl⟩ := Prod.mk.inj hpair
        set rest := data ++ [hash, hexChar ((checksum data).toNat / 16),
          hexChar ((checksum data).toNat % 16)] with hrest
        have hsplit := List.takeWhile_append_dropWhile (p := fun b => decide (b ≠ hash)) (l := rest)
        rw [hdrop, hrest] at hsplit
        have hbody : rest.takeWhile (fun b => decide (b ≠ hash)) = data :=
          List.append_inj_left' hsplit rfl
        rw [hbody] at hcond hdata
        have hhash : hash ∉ data := by
          intro hmem
          rw [← hbody] at hmem
          have := List.mem_takeWhile_imp hmem
          simp at this
        intro c hc
        obtain ⟨hesc, hstar⟩ := (decodeData_eq_self_iff hnone data).mp hdata c hc
        exact isResponseSpecial_eq_false_iff.mpr
          ⟨fun heq => hhash (heq ▸ hc), fun heq => hcond.2.1 (heq ▸ hc), hesc, hstar⟩
      · cases hread
    · cases hread
  · intro h
    have hhash : hash ∉ response := fun hmem => (isResponseSpecial_eq_false_iff.mp (h _ hmem)).1 rfl
    have hdollar : dollar ∉ response :=
      fun hmem => (isResponseSpecial_eq_false_iff.mp (h _ hmem)).2.1 rfl
    have hself := (decodeData_eq_self_iff hnone response).mpr fun c hc =>
      (isResponseSpecial_eq_false_iff.mp (h c hc)).2.2
    unfold Decodes
    rw [readPacket_responseFrame hhash hdollar, hself]
    rfl

/-! ### What the server sends -/

theorem plain_hexChar : ∀ n < 16, isResponseSpecial (hexChar n) = false := by decide

theorem plain_hexEncodeString (data : Bytes) : Plain (hexEncodeString data) := by
  refine plain_flatMap.mpr fun c _ => ?_
  have hlt := c.toNat_lt
  refine plain_cons.mpr ⟨plain_hexChar _ (by omega), ?_⟩
  refine plain_cons.mpr ⟨plain_hexChar _ (by omega), ?_⟩
  exact List.forall_mem_nil _

theorem plain_absHex (n : Nat) : Plain (absHex n) := by
  unfold absHex
  split
  · exact plain_cons.mpr ⟨plain_hexChar 0 (by omega), List.forall_mem_nil _⟩
  · intro c hc
    obtain ⟨d, hd, rfl⟩ := List.mem_map.mp hc
    exact plain_hexChar d (Nat.digits_lt_base (by omega) (List.mem_reverse.mp hd))

theorem ascii_append (a b : String) : ascii (a ++ b) = ascii a ++ ascii b := by
  simp [ascii]

theorem plain_ofList {l : List Char}
    (h : (l.flatMap String.utf8EncodeChar).all (! isResponseSpecial ·) = true) :
    Plain (ascii (String.ofList l)) := by
  have hbytes : ascii (String.ofList l) = l.flatMap String.utf8EncodeChar := by
    simp [ascii, List.utf8Encode]
  rw [hbytes]
  intro b hb
  simpa using List.all_eq_true.mp h b hb

theorem plain_fixedResponses : ∀ text ∈ fixedResponses, Plain (ascii text) := by
  simp only [fixedResponses, List.forall_mem_cons, ascii_append, plain_append, -String.reduceAppend]
  and_intros <;> first | exact plain_ofList rfl | exact nofun

theorem plain_haltReasons : ∀ reason ∈ haltReasons, Plain (ascii reason) := by
  simp only [haltReasons, List.forall_mem_cons]
  and_intros <;> first | exact plain_ofList rfl | exact nofun

theorem plain_hostField (field : Bytes × Bytes) :
    Plain (hostField field) ↔ Plain field.1 ∧ (field.1 ∈ encodedKeys ∨ Plain field.2) := by
  have hcolon : Plain (ascii ":") := plain_ofList rfl
  have hsemicolon : Plain (ascii ";") := plain_ofList rfl
  unfold hostField
  rw [plain_append, plain_append, plain_append, and_iff_left hsemicolon, and_iff_left hcolon]
  split
  · next hkey => simp [hkey, plain_hexEncodeString]
  · next hkey => simp [hkey]

/-- The response to a read of the target description is the part that was asked for behind
    a letter. -/
theorem gdbXferReadTarget_eq (xml : Bytes) (o l : Nat) :
    ∃ letter, Plain letter ∧
      gdbXferReadTarget xml (some o) (some l) = letter ++ (xml.drop o).take l := by
  unfold gdbXferReadTarget
  dsimp only
  split
  · next hpast =>
    refine ⟨ascii "l", plain_ofList rfl, ?_⟩
    rw [List.drop_eq_nil_of_le hpast, List.take_nil, List.append_nil]
  · split
    · next hpast hlong =>
      -- Both lengths reach the end of the description.
      have hwrap := Nat.mod_le (o + l) (2 ^ 64)
      refine ⟨ascii "l", plain_ofList rfl, ?_⟩
      rw [List.take_of_length_le (by rw [List.length_drop]),
        List.take_of_length_le (by rw [List.length_drop]; omega)]
    · exact ⟨ascii "m", plain_ofList rfl, rfl⟩

/-- **What has bytes to escape.** A response is plain exactly if the parts of it are that
    are sent as they are. -/
theorem plain_response_iff {reply : Reply} {response : Bytes} (h : reply.response = some response) :
    Plain response ↔ reply.Encodable := by
  cases reply with
  | fixed text hfixed =>
    obtain rfl := Option.some.inj h
    exact iff_of_true (plain_fixedResponses text hfixed) trivial
  | halt reason hreason pcRegister pcWidth pc =>
    obtain rfl := Option.some.inj h
    refine iff_of_true ?_ trivial
    unfold haltResponse
    simp only [plain_append]
    exact ⟨⟨⟨⟨plain_haltReasons reason hreason, plain_absHex _⟩, plain_ofList rfl⟩,
      plain_hexEncodeString _⟩, plain_ofList rfl⟩
  | threadInfo cores =>
    obtain rfl := Option.some.inj h
    refine iff_of_true (plain_append.mpr ⟨plain_ofList rfl, plain_flatMap.mpr fun i _ => ?_⟩) trivial
    exact plain_append.mpr ⟨plain_ofList rfl, plain_absHex i⟩
  | data bytes =>
    obtain rfl := Option.some.inj h
    exact iff_of_true (plain_hexEncodeString bytes) trivial
  | execAndArgs fileName =>
    obtain rfl := Option.some.inj h
    exact Iff.rfl
  | hostInfo info =>
    obtain ⟨pairs, hpairs, rfl⟩ := Option.map_eq_some_iff.mp h
    rw [plain_flatMap]
    constructor
    · intro hplain pairs' hpairs' field hfield
      obtain rfl := Option.some.inj (hpairs.symm.trans hpairs')
      exact (plain_hostField field).mp (hplain field hfield)
    · intro hencodable field hfield
      exact (plain_hostField field).mpr (hencodable pairs hpairs field hfield)
  | xferReadTarget xml offset length =>
    obtain rfl := Option.some.inj h
    have hoffset : Plain (errorResponse (ascii "invalid offset")) :=
      plain_append.mpr ⟨plain_ofList rfl, plain_ofList rfl⟩
    have hlength : Plain (errorResponse (ascii "invalid length")) :=
      plain_append.mpr ⟨plain_ofList rfl, plain_ofList rfl⟩
    cases offset with
    | none => exact iff_of_true hoffset (by rintro o l ⟨⟩)
    | some o =>
      cases length with
      | none => exact iff_of_true hlength (by rintro o l - ⟨⟩)
      | some l =>
        obtain ⟨letter, hletter, heq⟩ := gdbXferReadTarget_eq xml o l
        rw [heq, plain_append, and_iff_right hletter]
        constructor
        · rintro hplain o l ⟨⟩ ⟨⟩
          exact hplain
        · intro hencodable
          exact hencodable o l rfl rfl
  | error message =>
    obtain rfl := Option.some.inj h
    have hprefix : Plain (ascii "E.") := plain_ofList rfl
    exact plain_append.trans (and_iff_right hprefix)

theorem eq_of_mem_attempts {noAckMode : Bool} {frame f : Bytes} {n : Nat} {ack : UInt8}
    {acks : Bytes} (hf : f ∈ (attempts noAckMode frame n ack acks).1) : f = frame := by
  induction n generalizing ack acks with
  | zero => cases hf
  | succ n ih =>
    unfold attempts at hf
    split at hf
    · exact List.mem_singleton.mp hf
    · split at hf
      · exact List.mem_singleton.mp hf
      · rcases List.mem_cons.mp hf with rfl | hf
        · rfl
        · exact ih hf

theorem mem_attempts (noAckMode : Bool) (frame : Bytes) (n : Nat) (ack : UInt8) (acks : Bytes) :
    frame ∈ (attempts noAckMode frame (n + 1) ack acks).1 := by
  unfold attempts
  split
  · exact List.mem_singleton_self _
  · split
    · exact List.mem_singleton_self _
    · exact List.mem_cons_self

theorem mem_frames_iff {mode : AckMode} {acks response f : Bytes} :
    f ∈ (respond mode acks response).frames ↔ f = responseFrame response := by
  show f ∈ (attempts mode.noAckMode (responseFrame response) 5 0 acks).1 ↔ _
  constructor
  · exact eq_of_mem_attempts
  · rintro rfl
    exact mem_attempts _ _ 4 _ _

/-- **When responses decode.** Whatever the client acknowledges, it reads back a response of
    the server from what is written exactly if the parts of the response that are sent as
    they are have none of the bytes `#`, `$`, `}` and `*`. -/
theorem respond_decodes_iff {reply : Reply} {response : Bytes}
    (h : reply.response = some response) (mode : AckMode) (acks : Bytes) :
    (∀ sent ∈ (respond mode acks response).frames, Decodes sent response) ↔ reply.Encodable := by
  rw [← plain_response_iff h, ← decodes_responseFrame_iff]
  constructor
  · intro hall
    exact hall _ (mem_frames_iff.mpr rfl)
  · intro hdecodes sent hsent
    obtain rfl := mem_frames_iff.mp hsent
    exact hdecodes

/-- Host information whose triple has a byte that would have to be escaped. -/
theorem respond_decodes_hostInfo :
    (∀ sent ∈ (respond ⟨false, false⟩ [0x2d, 0x2b] (ascii "triple:6123;x:y;")).frames,
      Decodes sent (ascii "triple:6123;x:y;")) ↔
      (Reply.hostInfo (ascii "triple:a#;x:y")).Encodable :=
  respond_decodes_iff (by decide +kernel) _ _

/-- `"x}y"` -/
def braceName : Bytes := [0x78, escapeByte, 0x79]

/-- The executable file name `"x}y"` is read back as `"xY"`. -/
theorem respond_fileName_wrong :
    (Reply.execAndArgs braceName).response = some braceName ∧
      (∀ sent ∈ (respond ⟨true, true⟩ [] braceName).frames,
        readPacket sent = some (ascii "xY", [])) ∧
      ¬ ∀ sent ∈ (respond ⟨true, true⟩ [] braceName).frames, Decodes sent braceName := by
  refine ⟨by decide +kernel, by decide +kernel, ?_⟩
  unfold Decodes
  decide +kernel

end MpactSim.Gdb
