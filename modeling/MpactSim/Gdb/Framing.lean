import Mathlib.Data.List.TakeWhile
import Mathlib.Tactic

namespace MpactSim.Gdb

/-!
# GDB remote protocol: accepting a command

`AcceptGdbCommand` takes a packet `$<command>#<checksum>` apart, compares the checksum
and hands the unescaped command to the command parser.

* `fullMatch` is the regular expression `\$([^#]*)#([0-9a-fA-F]{2})`.  RE2 reads its
  input as UTF-8, so which bodies `[^#]*` can match is a parameter, `text`.
* `unescapeCommand` has no value where the source reads past the end of the command.
* `frame` is the sender's side, as the protocol defines it.

The main result, `acceptGdbCommand_correct_iff`, says for which payloads and packets
this does what the protocol asks for.
-/

/-- Bytes of a packet. -/
abbrev Bytes := List UInt8

instance : LawfulBEq Bytes := List.instLawfulBEq

/-- `'$'` -/
def dollar : UInt8 := 0x24

/-- `'#'` -/
def hash : UInt8 := 0x23

/-- `'}'`, the escape byte. -/
def escapeByte : UInt8 := 0x7d

/-! ### The source -/

/-- The value of a hexadecimal digit of either case. -/
def hexDigit (c : UInt8) : Option Nat :=
  if 0x30 ≤ c ∧ c ≤ 0x39 then some (c.toNat - 0x30)
  else if 0x61 ≤ c ∧ c ≤ 0x66 then some (c.toNat - 0x61 + 10)
  else if 0x41 ≤ c ∧ c ≤ 0x46 then some (c.toNat - 0x41 + 10)
  else none

/-- `RE2::FullMatch` of a packet against the command expression: the two captures. -/
def fullMatch (text : Bytes → Bool) : Bytes → Option (Bytes × Bytes)
  | [] => none
  | c :: rest =>
    let body := rest.takeWhile (· ≠ hash)
    match rest.dropWhile (· ≠ hash) with
    | [sep, hi, lo] =>
      if c = dollar ∧ sep = hash ∧ text body ∧ (hexDigit hi).isSome ∧ (hexDigit lo).isSome then
        some (body, [hi, lo])
      else none
    | _ => none

/-- `absl::SimpleHexAtoi`. -/
def simpleHexAtoi (digits : Bytes) : Option Nat :=
  digits.foldlM (fun n c => (hexDigit c).map (16 * n + ·)) 0

/-- The sum of the bytes of a command in a `uint8_t`. -/
def checksum (command : Bytes) : UInt8 := command.foldl (· + ·) 0

/-- `UnescapeCommand`.  After an escape byte the next byte is read without a check, and
    the byte it stands for is pushed inside the `if` and once more after it. -/
def unescapeCommand : Bytes → Option Bytes
  | [] => some []
  | [c] => if c = escapeByte then none else some [c]
  | c :: d :: rest =>
    if c = escapeByte then
      (unescapeCommand rest).map fun out => (d ^^^ 0x20) :: (d ^^^ 0x20) :: out
    else (unescapeCommand (d :: rest)).map (c :: ·)

/-- What the server does with a packet: single bytes written to the client, an error
    packet, and the call of `ParseGdbCommand`. -/
inductive Event where
  | put (c : UInt8)
  | sendError (error : String)
  | parseGdbCommand (command : Bytes)
  deriving DecidableEq, Repr

/-- Ask for the packet again, or send an error when acknowledgements are off. -/
def reject (noAckMode : Bool) (error : String) : List Event :=
  if noAckMode then [.sendError error] else [.put 0x2d]

/-- `AcceptGdbCommand`; `none` when a byte past the end of the command is read. -/
def acceptGdbCommand (text : Bytes → Bool) (noAckMode : Bool) (command : Bytes) :
    Option (List Event) :=
  match fullMatch text command with
  | none => some (reject noAckMode "invalid syntax")
  | some (commandStr, checksumStr) =>
    match simpleHexAtoi checksumStr with
    | none => some (reject noAckMode "invalid checksum")
    | some origChecksum =>
      if (checksum commandStr).toNat ≠ origChecksum then
        some (reject noAckMode "invalid checksum")
      else
        let ack := if noAckMode then [] else [.put 0x2b]
        (unescapeCommand commandStr).map fun clean => ack ++ [.parseGdbCommand clean]

/-- The commands that were handed to the command parser. -/
def dispatched (events : List Event) : List Bytes :=
  events.filterMap fun
    | .parseGdbCommand command => some command
    | _ => none

/-! ### The protocol -/

/-- Bytes that a sender has to escape. -/
def isSpecial (c : UInt8) : Bool := c = hash ∨ c = dollar ∨ c = escapeByte

/-- The sender's escaping. -/
def escape (payload : Bytes) : Bytes :=
  payload.flatMap fun c => if isSpecial c then [escapeByte, c ^^^ 0x20] else [c]

/-- A lower-case hexadecimal digit. -/
def hexChar (n : Nat) : UInt8 := if n < 10 then .ofNat (0x30 + n) else .ofNat (0x61 + n - 10)

/-- The packet of a payload. -/
def frame (payload : Bytes) : Bytes :=
  let body := escape payload
  let sum := (checksum body).toNat
  dollar :: body ++ [hash, hexChar (sum / 16), hexChar (sum % 16)]

/-- The packet has the form `$<body>#<two digits>`, with a body that is text. -/
def HasSyntax (text : Bytes → Bool) (packet body : Bytes) (hi lo : UInt8) : Prop :=
  packet = dollar :: body ++ [hash, hi, lo] ∧ hash ∉ body ∧ text body = true ∧
    (hexDigit hi).isSome ∧ (hexDigit lo).isSome

/-- The two digits denote the sum of the body. -/
def HasChecksum (body : Bytes) (hi lo : UInt8) : Prop :=
  ∃ h l, hexDigit hi = some h ∧ hexDigit lo = some l ∧ (checksum body).toNat = 16 * h + l

/-- The packet is well formed with the given body. -/
def WellFormed (text : Bytes → Bool) (packet body : Bytes) : Prop :=
  ∃ hi lo, HasSyntax text packet body hi lo ∧ HasChecksum body hi lo

/-- The length of the run of escape bytes at the end of a body. -/
def trailingEscapes (body : Bytes) : Nat := (body.reverse.takeWhile (· = escapeByte)).length

/-! ### Inversion of the syntax check -/

variable {text : Bytes → Bool} {noAckMode : Bool}

variable {packet body : Bytes}

/-- The expression matches exactly the packets of the right form. -/
theorem fullMatch_eq_some {digits : Bytes} :
    fullMatch text packet = some (body, digits) ↔
      ∃ hi lo, digits = [hi, lo] ∧ HasSyntax text packet body hi lo := by
  constructor
  · intro h
    cases packet with
    | nil => cases h
    | cons c rest =>
      simp only [fullMatch] at h
      split at h
      · next sep hi lo hdrop =>
        split at h
        · next hcond =>
          obtain ⟨rfl, rfl, htext, hhi, hlo⟩ := hcond
          simp only [Option.some.injEq, Prod.mk.injEq] at h
          obtain ⟨rfl, rfl⟩ := h
          refine ⟨hi, lo, rfl, ?_, ?_, htext, hhi, hlo⟩
          · have hsplit := List.takeWhile_append_dropWhile (p := fun b => decide (b ≠ hash)) (l := rest)
            rw [hdrop] at hsplit
            rw [List.cons_append, hsplit]
          · intro hmem
            have := List.mem_takeWhile_imp hmem
            simp at this
        · cases h
      · cases h
  · rintro ⟨hi, lo, rfl, rfl, hmem, htext, hhi, hlo⟩
    have hne : ∀ b ∈ body, decide (b ≠ hash) = true := by
      intro b hb
      have : b ≠ hash := fun heq => hmem (heq ▸ hb)
      simpa using this
    have htake : (body ++ [hash, hi, lo]).takeWhile (fun b => decide (b ≠ hash)) = body := by
      rw [List.takeWhile_append_of_pos hne]
      simp
    have hdrop : (body ++ [hash, hi, lo]).dropWhile (fun b => decide (b ≠ hash)) = [hash, hi, lo] := by
      rw [List.dropWhile_append_of_pos hne]
      simp
    simp only [fullMatch, List.cons_append, htake, hdrop, htext, hhi, hlo, and_self, if_true]

theorem simpleHexAtoi_pair (hi lo : UInt8) :
    simpleHexAtoi [hi, lo] = (hexDigit hi).bind fun h => (hexDigit lo).map (16 * h + ·) := by
  simp only [simpleHexAtoi, List.foldlM_cons, List.foldlM_nil]
  cases hexDigit hi with
  | none => rfl
  | some h => cases hexDigit lo <;> simp

/-! ### What the server does with a packet -/

theorem acceptGdbCommand_of_wellFormed (noAckMode : Bool) (h : WellFormed text packet body) :
    acceptGdbCommand text noAckMode packet = (unescapeCommand body).map fun clean =>
      (if noAckMode then [] else [.put 0x2b]) ++ [.parseGdbCommand clean] := by
  obtain ⟨hi, lo, hsyntax, x, y, hhi, hlo, hsum⟩ := h
  have hmatch : fullMatch text packet = some (body, [hi, lo]) :=
    fullMatch_eq_some.mpr ⟨hi, lo, rfl, hsyntax⟩
  simp only [acceptGdbCommand, hmatch, simpleHexAtoi_pair, hhi, hlo, Option.bind_some,
    Option.map_some, hsum, ne_eq, not_true_eq_false, if_false]

theorem acceptGdbCommand_of_not_wellFormed (noAckMode : Bool)
    (h : ∀ body, ¬ WellFormed text packet body) :
    ∃ error, acceptGdbCommand text noAckMode packet = some (reject noAckMode error) := by
  unfold acceptGdbCommand
  cases hmatch : fullMatch text packet with
  | none => exact ⟨_, rfl⟩
  | some captures =>
    obtain ⟨body, digits⟩ := captures
    obtain ⟨hi, lo, rfl, hsyntax⟩ := fullMatch_eq_some.mp hmatch
    obtain ⟨x, hx⟩ := Option.isSome_iff_exists.mp hsyntax.2.2.2.1
    obtain ⟨y, hy⟩ := Option.isSome_iff_exists.mp hsyntax.2.2.2.2
    have hsum : (checksum body).toNat ≠ 16 * x + y := by
      intro hsum
      exact h body ⟨hi, lo, hsyntax, x, y, hx, hy, hsum⟩
    simp only [simpleHexAtoi_pair, hx, hy, Option.bind_some, Option.map_some, if_pos hsum]
    exact ⟨_, rfl⟩

@[simp]
theorem dispatched_reject (error : String) : dispatched (reject noAckMode error) = [] := by
  cases noAckMode <;> rfl

@[simp]
theorem dispatched_accept (clean : Bytes) :
    dispatched ((if noAckMode then [] else [.put 0x2b]) ++ [.parseGdbCommand clean]) = [clean] := by
  cases noAckMode <;> rfl

/-! ### The stray read -/

theorem trailingEscapes_cons (c : UInt8) (body : Bytes) :
    trailingEscapes (c :: body)
      = if trailingEscapes body = body.length then
          body.length + (if c = escapeByte then 1 else 0)
        else trailingEscapes body := by
  unfold trailingEscapes
  rw [List.reverse_cons, List.takeWhile_append, List.length_reverse]
  split
  · rw [List.length_append, List.length_reverse]
    by_cases hc : c = escapeByte
    · simp [hc]
    · simp [hc]
  · rfl

theorem trailingEscapes_le (body : Bytes) : trailingEscapes body ≤ body.length := by
  have h := (List.takeWhile_prefix (p := fun c => decide (c = escapeByte)) (l := body.reverse)).length_le
  rwa [List.length_reverse] at h

theorem odd_trailingEscapes_pair (d : UInt8) (rest : Bytes) :
    Odd (trailingEscapes (escapeByte :: d :: rest)) ↔ Odd (trailingEscapes rest) := by
  have hle := trailingEscapes_le rest
  rw [trailingEscapes_cons escapeByte, trailingEscapes_cons d, List.length_cons, if_pos rfl,
    Nat.odd_iff, Nat.odd_iff]
  split_ifs <;> omega

theorem unescapeCommand_eq_none : unescapeCommand body = none ↔ Odd (trailingEscapes body) := by
  induction body using unescapeCommand.induct with
  | case1 => simp [unescapeCommand, trailingEscapes]
  | case2 => simp [unescapeCommand, trailingEscapes]
  | case3 c hc => simp [unescapeCommand, trailingEscapes, hc]
  | case4 d rest ih =>
    rw [odd_trailingEscapes_pair, ← ih, unescapeCommand, if_pos rfl, Option.map_eq_none_iff]
  | case5 c d rest hc ih =>
    have hkeep : trailingEscapes (c :: d :: rest) = trailingEscapes (d :: rest) := by
      rw [trailingEscapes_cons, if_neg hc]
      split
      · next h => rw [h, Nat.add_zero]
      · rfl
    rw [hkeep, ← ih, unescapeCommand, if_neg hc, Option.map_eq_none_iff]

/-! ### Escaping and unescaping -/

theorem unescapeCommand_cons {c : UInt8} (hc : c ≠ escapeByte) (body : Bytes) :
    unescapeCommand (c :: body) = (unescapeCommand body).map (c :: ·) := by
  cases body with
  | nil => simp [unescapeCommand, hc]
  | cons d rest => rw [unescapeCommand, if_neg hc]

/-- **What unescaping gives back.** Every byte the sender escaped comes out twice. -/
theorem unescapeCommand_escape (payload : Bytes) :
    unescapeCommand (escape payload)
      = some (payload.flatMap fun c => if isSpecial c then [c, c] else [c]) := by
  induction payload with
  | nil => rfl
  | cons c rest ih =>
    unfold escape at ih ⊢
    rw [List.flatMap_cons, List.flatMap_cons]
    by_cases hc : isSpecial c
    · rw [if_pos hc, if_pos hc]
      have hback : (c ^^^ 0x20) ^^^ 0x20 = c := by
        rw [UInt8.xor_assoc, UInt8.xor_self, UInt8.xor_zero]
      simp only [List.cons_append, List.nil_append, unescapeCommand, if_true, ih, Option.map_some,
        hback]
    · have hne : c ≠ escapeByte := by
        intro heq
        exact hc (by simp [isSpecial, heq])
      rw [if_neg hc, if_neg hc, List.singleton_append, List.singleton_append,
        unescapeCommand_cons hne, ih, Option.map_some]

theorem double_eq_self_iff (payload : Bytes) :
    (payload.flatMap fun c => if isSpecial c then [c, c] else [c]) = payload ↔
      ∀ c ∈ payload, isSpecial c = false := by
  constructor
  · intro h
    -- Compare the lengths: each special byte adds one.
    have hlen : ∀ l : Bytes, (l.flatMap fun c => if isSpecial c then [c, c] else [c]).length
        = l.length + l.countP isSpecial := by
      intro l
      induction l with
      | nil => rfl
      | cons c rest ih =>
        rw [List.flatMap_cons, List.length_append, ih, List.countP_cons, List.length_cons]
        by_cases hc : isSpecial c
        · simp [hc]
          omega
        · simp [hc]
          omega
    have hcount : payload.countP isSpecial = 0 := by
      have := hlen payload
      rw [h] at this
      omega
    intro c hc
    simpa using List.countP_eq_zero.mp hcount c hc
  · intro h
    induction payload with
    | nil => rfl
    | cons c rest ih =>
      rw [List.flatMap_cons, ih (fun d hd => h d (List.mem_cons_of_mem c hd)),
        h c List.mem_cons_self]
      rfl

theorem escape_eq_self {payload : Bytes} (h : ∀ c ∈ payload, isSpecial c = false) :
    escape payload = payload := by
  induction payload with
  | nil => rfl
  | cons c rest ih =>
    have htail := ih (fun d hd => h d (List.mem_cons_of_mem c hd))
    unfold escape at htail ⊢
    rw [List.flatMap_cons, htail, h c List.mem_cons_self]
    rfl

/-! ### Packets of payloads -/

theorem hash_notMem_escape (payload : Bytes) : hash ∉ escape payload := by
  intro hmem
  obtain ⟨c, -, hc⟩ := List.mem_flatMap.mp hmem
  by_cases hs : isSpecial c
  · rw [if_pos hs] at hc
    simp only [isSpecial, Bool.decide_or, Bool.or_eq_true, decide_eq_true_eq] at hs
    rcases hs with rfl | rfl | rfl <;> revert hc <;> decide
  · rw [if_neg hs, List.mem_singleton] at hc
    exact hs (by simp [isSpecial, hc])

theorem hexDigit_hexChar : ∀ n < 16, hexDigit (hexChar n) = some n := by decide

/-- The only body a payload's packet can have is its escaped form, and it is well formed
    exactly if that is text. -/
theorem wellFormed_frame_iff {payload : Bytes} :
    WellFormed text (frame payload) body ↔ body = escape payload ∧ text (escape payload) = true := by
  have hlt := (checksum (escape payload)).toNat_lt
  have hhi := hexDigit_hexChar ((checksum (escape payload)).toNat / 16) (by omega)
  have hlo := hexDigit_hexChar ((checksum (escape payload)).toNat % 16) (by omega)
  constructor
  · rintro ⟨hi, lo, ⟨hpacket, -, htext, -, -⟩, -⟩
    have htail := (List.cons.inj hpacket).2
    have hbody : escape payload = body := List.append_inj_left' htail rfl
    exact ⟨hbody.symm, hbody ▸ htext⟩
  · rintro ⟨rfl, htext⟩
    refine ⟨_, _, ⟨rfl, hash_notMem_escape payload, htext, ?_, ?_⟩, _, _, hhi, hlo, by omega⟩
    · rw [hhi]
      rfl
    · rw [hlo]
      rfl

/-! ### The result -/

/-- The packet is accepted and exactly one command, `command`, is dispatched. -/
def DispatchesExactly (text : Bytes → Bool) (noAckMode : Bool) (packet command : Bytes) : Prop :=
  ∃ events, acceptGdbCommand text noAckMode packet = some events ∧ dispatched events = [command]

/-- A packet that is not well formed is not dispatched, and no byte outside the packet
    is read. -/
def IsSafe (text : Bytes → Bool) (noAckMode : Bool) (packet : Bytes) : Prop :=
  ∃ events, acceptGdbCommand text noAckMode packet = some events ∧
    ((∀ body, ¬ WellFormed text packet body) → dispatched events = [])

/-- **When commands are decoded.** A payload arrives exactly if it is text and has no
    byte to escape; a packet is handled without a stray read exactly if it is not well
    formed or its body ends in an even run of escape bytes. -/
theorem acceptGdbCommand_correct_iff (text : Bytes → Bool) (noAckMode : Bool) :
    (∀ payload, DispatchesExactly text noAckMode (frame payload) payload ↔
      text payload = true ∧ ∀ c ∈ payload, isSpecial c = false) ∧
    (∀ packet, IsSafe text noAckMode packet ↔
      ∀ body, WellFormed text packet body → Even (trailingEscapes body)) := by
  refine ⟨fun payload => ?_, fun packet => ?_⟩
  · by_cases htext : text (escape payload) = true
    · have haccept := acceptGdbCommand_of_wellFormed noAckMode
        (wellFormed_frame_iff.mpr ⟨rfl, htext⟩)
      rw [unescapeCommand_escape, Option.map_some] at haccept
      constructor
      · rintro ⟨events, hevents, hdisp⟩
        obtain rfl := Option.some.inj (haccept.symm.trans hevents)
        rw [dispatched_accept, List.cons.injEq, double_eq_self_iff] at hdisp
        refine ⟨?_, hdisp.1⟩
        rwa [escape_eq_self hdisp.1] at htext
      · rintro ⟨-, hplain⟩
        refine ⟨_, haccept, ?_⟩
        rw [dispatched_accept, (double_eq_self_iff payload).mpr hplain]
    · constructor
      · rintro ⟨events, hevents, hdisp⟩
        obtain ⟨error, herror⟩ := acceptGdbCommand_of_not_wellFormed noAckMode
          (fun body (h : WellFormed text (frame payload) body) =>
            htext (wellFormed_frame_iff.mp h).2)
        obtain rfl := Option.some.inj (herror.symm.trans hevents)
        rw [dispatched_reject] at hdisp
        cases hdisp
      · rintro ⟨hp, hplain⟩
        rw [escape_eq_self hplain] at htext
        exact absurd hp htext
  · by_cases hwf : ∃ body, WellFormed text packet body
    · obtain ⟨body, hbody⟩ := hwf
      have haccept := acceptGdbCommand_of_wellFormed noAckMode hbody
      constructor
      · rintro ⟨events, hevents, -⟩ body' hbody'
        have haccept' := acceptGdbCommand_of_wellFormed noAckMode hbody'
        rw [← Nat.not_odd_iff_even, ← unescapeCommand_eq_none]
        intro hnone
        rw [hnone] at haccept'
        cases haccept'.symm.trans hevents
      · intro heven
        have hsome : unescapeCommand body ≠ none := by
          rw [Ne, unescapeCommand_eq_none, Nat.not_odd_iff_even]
          exact heven body hbody
        obtain ⟨clean, hclean⟩ := Option.ne_none_iff_exists'.mp hsome
        rw [hclean, Option.map_some] at haccept
        exact ⟨_, haccept, fun hnot => absurd hbody (hnot body)⟩
    · have hnot : ∀ body, ¬ WellFormed text packet body := not_exists.mp hwf
      obtain ⟨error, herror⟩ := acceptGdbCommand_of_not_wellFormed noAckMode hnot
      constructor
      · intro _ body hbody
        exact absurd hbody (hnot body)
      · intro _
        exact ⟨_, herror, fun _ => dispatched_reject error⟩

/-- ASCII bytes, which are text in every encoding RE2 knows. -/
def isAscii (bytes : Bytes) : Bool := bytes.all (· < 0x80)

/-- The payload `"}"` arrives doubled, and the packet `"$}#7d"` makes the server read
    past its end. -/
theorem acceptGdbCommand_escape_wrong :
    acceptGdbCommand isAscii false (frame [0x7d]) = some [.put 0x2b, .parseGdbCommand [0x7d, 0x7d]] ∧
      ¬ DispatchesExactly isAscii false (frame [0x7d]) [0x7d] ∧
      acceptGdbCommand isAscii false [0x24, 0x7d, 0x23, 0x37, 0x64] = none := by
  refine ⟨by decide, ?_, by decide⟩
  rintro ⟨events, hevents, hdisp⟩
  have haccept : acceptGdbCommand isAscii false (frame [0x7d])
      = some [.put 0x2b, .parseGdbCommand [0x7d, 0x7d]] := by decide
  obtain rfl := Option.some.inj (haccept.symm.trans hevents)
  exact absurd hdisp (by decide)

end MpactSim.Gdb
