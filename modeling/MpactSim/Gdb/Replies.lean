import MpactSim.Gdb.Threads

namespace MpactSim.Gdb.GdbServer

open Lib

/-!
# The responses of the GDB server

Each command but `k` should be answered with one response.

* `RepliesOnce`      — a packet ends without a fault and with the response it should have;
* `MayReply`         — what a command has to be for that, and what the core has to do;
* `repliesOnce_iff`  — these are the same, for every packet with a command in every session.

A handler that returns sends one response, but for `c` to a core that is running.  What is left are
the faults.
-/

variable {ω α : Type} {cfg : Config ω} {core : Core ω} {s : Session ω}

/-- The responses that a command should have. -/
def expectedResponses : Bytes → Nat
  | [] => 1
  | c :: _ => if commandKind c = .kill then 0 else 1

/-- A part of the server ends with `n` responses more, and without a fault. -/
def SendsExactly (n : Nat) (x : Serve ω Unit) (s : Session ω) : Prop :=
  Ends x (fun _ s' => s'.responses.length = s.responses.length + n) (fun _ => False) s

/-- The packet with the command is answered as it should be. -/
def RepliesOnce (cfg : Config ω) (s : Session ω) (packet command : Bytes) : Prop :=
  SendsExactly (expectedResponses command) (acceptPacket cfg packet) s

/-- A part of the server ends without a fault. -/
def Completes (x : Serve ω α) (s : Session ω) : Prop :=
  Ends x (fun _ _ => True) (fun _ => False) s

/-! ### The specification -/

/-- The world after bytes are stored in a buffer, from an index on. -/
def storedWorld (core : Core ω) (buffer : Nat) : Nat → Bytes → ω → ω
  | _, [], world => world
  | index, byte :: bytes, world =>
    storedWorld core buffer (index + 1) bytes (core.setBufferByte buffer index byte world)

/-- The loop of `G` completes: a number is not that of a register, or each register has a buffer and
    the digits fill it, or end at a byte of it. -/
def GprsFilled (cfg : Config ω) (core : Core ω) : List Nat → Bytes → ω → Prop
  | [], _, _ => True
  | number :: rest, data, world =>
    ∀ name, cfg.debugInfo.debugRegisterMap number = some name →
      match core.getRegisterDataBuffer name world with
      | (.error _, _) => False
      | (.ok buffer, world) =>
        let size := (core.bufferBytes buffer world).length
        if data.length < 2 * size then data.length % 2 = 0
        else
          GprsFilled cfg core rest (data.drop (2 * size))
            (storedWorld core buffer 0 (decodePairs cfg size data) world)

/-- The part of `vCont` is for all threads, or for 0 or 1; after any other an error is sent. -/
def accepted (part : Bytes) : Bool :=
  threadText part = ascii "-1" ∨
    simpleHexAtoiInt (threadText part) = some 0 ∨ simpleHexAtoiInt (threadText part) = some 1

/-- The text after `vCont` completes. -/
def VContCompletes (command : Bytes) : Prop :=
  command ≠ [] ∧ (command.head? = some 0x3b →
    ∀ part ∈ (command.tail.splitOn 0x3b).takeWhile accepted, PartNamesThread part)

/-- The register that a number names. -/
def registerOf (cfg : Config ω) (numberStr : Bytes) : Option Bytes :=
  (simpleHexAtoi64 numberStr).bind cfg.debugInfo.debugRegisterMap

/-- What a command has to be, and what the core has to do, for a response to be sent. -/
def MayReply (cfg : Config ω) (core : Core ω) (s : Session ω) (command : Bytes) : Prop :=
  let threadIsFirst := ∀ letter text, threadArgument command = some (letter, text) →
    getThreadId s.server (.ofNat letter.toNat) text = 1
  match command with
  | [] => False
  | c :: rest =>
    match commandKind c with
    | .cont => threadIsFirst ∧ (s.server.haltReasons.head? = some programDone ∨
        ∀ status, (core.getRunStatus s.world).1 = .ok status → status = .halted)
    | .step => threadIsFirst
    | .readGprRegisters => threadIsFirst ∨
        ∀ number ∈ gprNumbers cfg, cfg.debugInfo.debugRegisterMap number = none
    | .writeGprRegisters =>
        (threadIsFirst ∨ ∀ number ∈ (gprNumbers cfg).head?,
          cfg.debugInfo.debugRegisterMap number = none) ∧
        GprsFilled cfg core (gprNumbers cfg) (splitThread rest).1 s.world
    | .readRegister => threadIsFirst ∨ registerOf cfg (splitThread rest).1 = none
    | .writeRegister => ∀ pos, findText [0x3d] (splitThread rest).1 = some pos →
        ∀ name, registerOf cfg ((splitThread rest).1.take pos) = some name →
          threadIsFirst ∧ ∀ buffer, (core.getRegisterDataBuffer name s.world).1 = .ok buffer →
            let digits := ((splitThread rest).1.drop (pos + 1)).length
            digits % 2 = 0 ∨ 2 * (core.bufferBytes buffer
              (core.getRegisterDataBuffer name s.world).2).length ≤ digits
    | .readMemory => ∀ pos, findText [0x2c] rest = some pos →
        ∀ address length, simpleHexAtoi64 (rest.take pos) = some address →
          simpleHexAtoi64 (rest.drop (pos + 1)) = some length → length ≤ bufferSize →
            ∀ count, (core.readMemory address length s.world).1.1 = .ok count → count ≤ bufferSize
    | .selectThread => rest ≠ []
    | .query => rest ≠ [] ∧ rest ≠ ascii "Supported" ∧
        ((ascii "HostInfo").isPrefixOf rest → (gdbHostInfo cfg.debugInfo.lldbHostInfo).isSome)
    | .verbose => (ascii "Cont").isPrefixOf rest → VContCompletes (rest.drop 4)
    | _ => True

/-! ### Faults -/

theorem sendsExactly_one_iff {x : Serve ω Unit} (hs : s.server.haltReasons.length = 1)
    (hx : Answers (fun _ => True) x) : SendsExactly 1 x s ↔ Completes x s := by
  constructor
  · exact fun h => h.mono (fun _ _ _ => trivial) fun _ he => he
  · intro h
    refine (h.and (hx s hs)).mono ?_ fun _ he => he.1
    rintro _ s' ⟨-, -, k, rfl, hlength⟩
    exact hlength

theorem Answers.sendsExactly {x : Serve ω Unit} (hs : s.server.haltReasons.length = 1)
    (hx : Answers (fun _ => False) x) : SendsExactly 1 x s := by
  refine (hx s hs).mono ?_ fun _ he => he
  rintro _ s' ⟨-, k, rfl, hlength⟩
  exact hlength

variable {x : Serve ω α} {β : Type}

theorem Does.completes {N : α → Nat → Prop} (hs : s.server.haltReasons.length = 1)
    (hx : Does (fun _ => False) x N) : Completes x s :=
  (hx s hs).mono (fun _ _ _ => trivial) fun _ he => he

theorem forall_some_iff {o : Option α} {o' : Option β} {a : α} {b : β} {P : α → β → Prop}
    (ha : o = some a) (hb : o' = some b) : (∀ a b, o = some a → o' = some b → P a b) ↔ P a b := by
  refine ⟨fun h => h a b ha hb, fun h a' b' ha' hb' => ?_⟩
  obtain rfl := Option.some.inj (ha.symm.trans ha')
  obtain rfl := Option.some.inj (hb.symm.trans hb')
  exact h

theorem ends_call {f : CoreCall ω α} {Q : α → Session ω → Prop} {E : Fault → Prop} :
    Ends (call f) Q E s ↔ Q (f s.world).1 { s with world := (f s.world).2 } := Iff.rfl

theorem ends_coreAt {threadId : Int} {Q : Core ω → Session ω → Prop} (hcore : cfg.cores = [core]) :
    Ends (coreAt cfg (threadId - 1)) Q (fun _ => False) s ↔ threadId = 1 ∧ Q core s := by
  unfold coreAt atThread
  rw [hcore]
  by_cases hid : threadId = 1
  · subst hid
    exact (and_iff_right rfl).symm
  · refine iff_of_false ?_ fun h => hid h.1
    split
    · next hnonneg =>
      obtain ⟨n, hn⟩ : ∃ n, (threadId - 1).toNat = n + 1 := ⟨(threadId - 1).toNat - 1, by omega⟩
      rw [hn]
      exact id
    · exact id

theorem ends_haltReasonAt {threadId : Int} {Q : Nat → Session ω → Prop} {reason : Nat}
    (hs : s.server.haltReasons = [reason]) :
    Ends (haltReasonAt (threadId - 1)) Q (fun _ => False) s ↔ threadId = 1 ∧ Q reason s := by
  unfold haltReasonAt atThread
  rw [ends_bind, ends_get, hs]
  by_cases hid : threadId = 1
  · subst hid
    exact (and_iff_right rfl).symm
  · refine iff_of_false ?_ fun h => hid h.1
    split
    · next hnonneg =>
      obtain ⟨n, hn⟩ : ∃ n, (threadId - 1).toNat = n + 1 := ⟨(threadId - 1).toNat - 1, by omega⟩
      rw [hn]
      exact id
    · exact id

theorem completes_bind_of_silent {f : α → Serve ω β} {P : Prop}
    (hs : s.server.haltReasons.length = 1) (hx : Silent (fun _ => False) x)
    (hf : ∀ a (s' : Session ω), s'.server.haltReasons.length = 1 → (Completes (f a) s' ↔ P)) :
    Completes (x >>= f) s ↔ P := by
  have hends := hx s hs
  rw [ends_false_iff] at hends
  obtain ⟨a, s', hrun, hsame, -⟩ := hends
  rw [Completes, ends_bind, ends_of_run_eq_ok hrun]
  exact hf a s' (hsame.2.trans hs)

theorem completes_bind_iff {f : α → Serve ω β} {N : α → Nat → Prop}
    (hs : s.server.haltReasons.length = 1) (hx : Does (fun _ => True) x N)
    (hf : ∀ a (s' : Session ω), s'.server.haltReasons.length = 1 → Completes (f a) s') :
    Completes (x >>= f) s ↔ Completes x s := by
  unfold Completes
  rw [ends_bind]
  constructor
  · exact fun h => h.mono (fun _ _ _ => trivial) fun _ he => he
  · intro h
    refine (h.and (hx s hs)).mono ?_ fun _ he => he.1
    rintro a s' ⟨-, hsame, -⟩
    exact hf a s' (hsame.2.trans hs)

/-! ### One handler after the other -/

section OneCore

variable (hcore : cfg.cores = [core]) (hs : s.server.haltReasons.length = 1)
include hcore hs

variable {threadId : Int} {command numberStr text : Bytes}

theorem completes_gdbStep_iff : Completes (gdbStep cfg threadId) s ↔ threadId = 1 := by
  unfold Completes gdbStep
  rw [ends_bind, ends_coreAt hcore, and_iff_left_iff_imp]
  rintro -
  refine Does.completes hs (N := fun _ k => k = 1) ((silent_call _).bind fun result => ?_)
  split
  · exact answers_sendError _
  · exact answers_respond _

theorem sendsExactly_gdbContinue_iff :
    SendsExactly 1 (gdbContinue cfg threadId command) s ↔
      threadId = 1 ∧ (s.server.haltReasons.head? = some programDone ∨
        ∀ status, (core.getRunStatus s.world).1 = .ok status → status = .halted) := by
  obtain ⟨reason, hreason⟩ := List.length_eq_one_iff.mp hs
  unfold SendsExactly gdbContinue
  rw [ends_bind, ends_haltReasonAt hreason, hreason, List.head?_cons, Option.some_inj]
  apply and_congr_right
  rintro rfl
  by_cases hdone : reason = programDone
  · rw [if_pos hdone]
    exact iff_of_true ((answers_respond _).sendsExactly hs) (.inl hdone)
  · rw [if_neg hdone, or_iff_right hdone, ends_bind, ends_coreAt hcore, and_iff_right rfl,
      ends_bind, ends_call]
    -- The state after the call has the responses of the one before it.
    have hsent : ∀ {x : Serve ω Unit}, Answers (fun _ => False) x → ∀ world,
        Ends x (fun _ s' => s'.responses.length = s.responses.length + 1) (fun _ => False)
          { s with world } :=
      fun hx world => Answers.sendsExactly (s := { s with world }) hs hx
    rcases hstatus : (core.getRunStatus s.world).1 with status | status
    · exact iff_of_true (hsent (answers_sendError _) _) nofun
    · cases status with
      | halted =>
        refine iff_of_true (hsent ?_ _) fun status hok => (Except.ok.inj hok).symm
        dsimp only
        split
        · exact answers_runUntilHalt hcore core (.inl rfl)
        · split
          · exact answers_sendError _
          · refine (silent_call _).bind fun result => ?_
            split
            · exact answers_sendError _
            · exact answers_runUntilHalt hcore core (.inl rfl)
      | running => exact iff_of_false (Nat.succ_ne_self _).symm fun hall => nomatch hall _ rfl
      | singleStep => exact iff_of_false (Nat.succ_ne_self _).symm fun hall => nomatch hall _ rfl
      | none => exact iff_of_false (Nat.succ_ne_self _).symm fun hall => nomatch hall _ rfl

theorem completes_gdbReadMemory_iff {addressStr lengthStr : Bytes} :
    Completes (gdbReadMemory cfg addressStr lengthStr) s ↔
      ∀ address length, simpleHexAtoi64 addressStr = some address →
        simpleHexAtoi64 lengthStr = some length → length ≤ bufferSize →
          ∀ count, (core.readMemory address length s.world).1.1 = .ok count →
            count ≤ bufferSize := by
  unfold gdbReadMemory
  split
  · next address length haddress hlength =>
    rw [forall_some_iff haddress hlength]
    split
    · next hlong =>
      exact iff_of_true ((answers_errorOrE01 _).completes hs) fun hle => absurd hlong (not_lt.mpr hle)
    · next hshort =>
      rw [Completes, ends_bind, ← sub_self (1 : Int), ends_coreAt hcore, and_iff_right rfl, ends_bind,
        ends_call, ends_bind]
      rcases hresult : (core.readMemory address length s.world).1.1 with status | count
      · refine iff_of_true ?_ fun _ => nofun
        rw [storeBuffer, ends_modify]
        exact (answers_errorOrE01 _).completes hs
      · rw [storeBuffer, ends_modify]
        show Completes (if count > bufferSize then _ else _) _ ↔ _
        split
        · next hlong =>
          exact iff_of_false id fun h => absurd hlong (not_lt.mpr (h (not_lt.mp hshort) count rfl))
        · next hle =>
          refine iff_of_true ?_ fun _ count' hcount => ?_
          · exact Does.completes hs (silent_get.bind fun _ => answers_respond _)
          · cases hcount
            exact not_lt.mp hle
  · next hnone =>
    refine iff_of_true ((answers_errorOrE01 _).completes hs) fun address length ha hl => ?_
    exact absurd hl (hnone address length ha)

theorem completes_readGprs_iff (numbers : List Nat) (response : Bytes) :
    Completes (readGprs cfg threadId numbers response) s ↔
      threadId = 1 ∨ ∀ number ∈ numbers, cfg.debugInfo.debugRegisterMap number = none := by
  by_cases hid : threadId = 1
  · exact iff_of_true ((does_readGprs hcore (.inl hid) _ _).completes hs) (.inl hid)
  · rw [or_iff_right hid]
    induction numbers generalizing response with
    | nil => exact iff_of_true trivial fun _ hmem => absurd hmem List.not_mem_nil
    | cons number rest ih =>
      unfold readGprs
      rw [List.forall_mem_cons]
      cases hname : cfg.debugInfo.debugRegisterMap number with
      | none => exact (ih response).trans (and_iff_right rfl).symm
      | some name =>
        refine iff_of_false (fun h => hid ?_) fun h => Option.some_ne_none name h.1
        rw [Completes, ends_bind, ends_coreAt hcore] at h
        exact h.1

theorem completes_gdbReadGprRegisters_iff :
    Completes (gdbReadGprRegisters cfg threadId) s ↔
      threadId = 1 ∨ ∀ number ∈ gprNumbers cfg, cfg.debugInfo.debugRegisterMap number = none := by
  rw [← completes_readGprs_iff hcore hs (gprNumbers cfg) []]
  refine completes_bind_iff hs (does_readGprs hcore (.inr fun _ => trivial) _ _) fun result s' hs' => ?_
  cases result with
  | none => exact (silent_pure ()).completes hs'
  | some response => exact (answers_respond _).completes hs'

omit hcore hs in
theorem ends_storeDigits (core : Core ω) (buffer left index : Nat) (data : Bytes)
    {Q : Bool × Bytes → Session ω → Prop} (s : Session ω) :
    Ends (storeDigits cfg core buffer left index data) Q (fun _ => False) s ↔
      (data.length < 2 * left → data.length % 2 = 0) ∧
        Q (decide (2 * left ≤ data.length), data.drop (2 * left))
          { s with world := storedWorld core buffer index (decodePairs cfg left data) s.world } := by
  induction left, index, data using storeDigits.induct generalizing s with
  | case1 index data => simp [storeDigits, decodePairs, storedWorld]
  | case2 left index => simp [storeDigits, decodePairs, storedWorld]
  | case3 left index c =>
    refine iff_of_false id fun h => ?_
    have hodd := h.1 (by simp only [List.length_singleton]; omega)
    simp at hodd
  | case4 left index hi lo data ih =>
    rw [storeDigits, ends_bind, ends_call, ih]
    simp only [decodePairs, storedWorld, List.length_cons]
    have hdrop : (hi :: lo :: data).drop (2 * (left + 1)) = data.drop (2 * left) := by
      rw [Nat.mul_succ]
      rfl
    have hle : decide (2 * (left + 1) ≤ data.length + 1 + 1) = decide (2 * left ≤ data.length) :=
      decide_eq_decide.mpr (by omega)
    have heven : (data.length + 1 + 1 < 2 * (left + 1) → (data.length + 1 + 1) % 2 = 0) ↔
        (data.length < 2 * left → data.length % 2 = 0) := by
      constructor
      · intro h hlt
        have heven := h (by omega)
        omega
      · intro h hlt
        have heven := h (by omega)
        omega
    rw [hdrop, hle, heven]

omit hs in
/-- The loop of `G` completes for a thread that there is, or where the first number is not that of a
    register, if the digits fill the registers. -/
theorem completes_writeGprs_iff (numbers : List Nat) (data : Bytes) (s : Session ω)
    (hs : s.server.haltReasons.length = 1) :
    Completes (writeGprs cfg threadId numbers data) s ↔
      (threadId = 1 ∨ ∀ number ∈ numbers.head?, cfg.debugInfo.debugRegisterMap number = none) ∧
        GprsFilled cfg core numbers data s.world := by
  induction numbers generalizing data s with
  | nil => exact iff_of_true trivial ⟨.inr (by simp), trivial⟩
  | cons number rest ih =>
    unfold writeGprs GprsFilled
    cases hname : cfg.debugInfo.debugRegisterMap number with
    | none =>
      refine iff_of_true ?_ ⟨.inr ?_, fun name hname => absurd hname.symm (Option.some_ne_none name)⟩
      · exact ((answers_sendError _).bind (M := fun _ k => k = 1) fun _ k hk =>
          does_pure (by rw [hk])).completes hs
      · rintro _ ⟨⟩
        exact hname
    | some name =>
      have hhead : ¬∀ number' ∈ (number :: rest).head?,
          cfg.debugInfo.debugRegisterMap number' = none := by
        intro h
        have hnone := h number rfl
        rw [hname] at hnone
        cases hnone
      rw [or_iff_left hhead]
      show Ends (coreAt cfg (threadId - 1) >>= _) _ _ s ↔ _
      rw [ends_bind, ends_coreAt hcore]
      apply and_congr_right
      rintro rfl
      rw [ends_bind, ends_call]
      have hfilled : (∀ name', some name = some name' →
          match core.getRegisterDataBuffer name' s.world with
          | (.error _, _) => False
          | (.ok buffer, world) =>
            let size := (core.bufferBytes buffer world).length
            if data.length < 2 * size then data.length % 2 = 0
            else GprsFilled cfg core rest (data.drop (2 * size))
              (storedWorld core buffer 0 (decodePairs cfg size data) world)) ↔
          match core.getRegisterDataBuffer name s.world with
          | (.error _, _) => False
          | (.ok buffer, world) =>
            let size := (core.bufferBytes buffer world).length
            if data.length < 2 * size then data.length % 2 = 0
            else GprsFilled cfg core rest (data.drop (2 * size))
              (storedWorld core buffer 0 (decodePairs cfg size data) world) := by
        refine ⟨fun h => h name rfl, ?_⟩
        rintro h _ ⟨⟩
        exact h
      rw [hfilled]
      rcases core.getRegisterDataBuffer name s.world with ⟨status | buffer, world⟩
      · exact Iff.rfl
      · show Ends (get >>= _) _ _ _ ↔ _
        rw [ends_bind, ends_get, ends_bind, ends_storeDigits]
        dsimp only
        by_cases hshort : data.length < 2 * (core.bufferBytes buffer world).length
        · rw [if_pos hshort, decide_eq_false (not_le.mpr hshort)]
          refine (and_iff_left ?_).trans ⟨fun h => h hshort, fun h _ => h⟩
          exact ((answers_sendError _).bind (M := fun _ k => k = 1) fun _ k hk =>
            does_pure (by rw [hk])).completes (s := { s with world := storedWorld .. }) hs
        · rw [if_neg hshort, decide_eq_true (not_lt.mp hshort)]
          refine (and_iff_right fun hlt => absurd hlt hshort).trans ?_
          exact (ih _ { s with world := storedWorld .. } hs).trans (and_iff_right (.inl rfl))

theorem completes_gdbWriteGprRegisters_iff {data : Bytes} :
    Completes (gdbWriteGprRegisters cfg threadId data) s ↔
      (threadId = 1 ∨ ∀ number ∈ (gprNumbers cfg).head?,
        cfg.debugInfo.debugRegisterMap number = none) ∧
      GprsFilled cfg core (gprNumbers cfg) data s.world := by
  rw [← completes_writeGprs_iff hcore _ _ s hs]
  refine completes_bind_iff hs
    (does_writeGprs hcore (.inr fun _ => trivial) trivial trivial _ _) fun goesOn s' hs' => ?_
  cases goesOn with
  | false => exact (silent_pure ()).completes hs'
  | true => exact (answers_respond _).completes hs'

omit hcore hs in
theorem ends_registerName {f : Option (Nat × Bytes) → Serve ω Unit} {Q : Unit → Session ω → Prop}
    {E : Fault → Prop} (hnone : f none = pure ()) (herror : ∀ error, Ends (sendError error) Q E s) :
    Ends (registerName cfg numberStr >>= f) Q E s ↔
      ∀ number name, simpleHexAtoi64 numberStr = some number →
        cfg.debugInfo.debugRegisterMap number = some name →
          Ends (f (some (number, name))) Q E s := by
  have hsent : ∀ error, Ends ((do
      sendError error
      pure none) >>= f) Q E s := by
    intro error
    rw [ends_bind, ends_bind]
    refine (herror error).mono (fun _ s' hQ => ?_) fun _ he => he
    rw [ends_pure, hnone]
    exact hQ
  unfold registerName
  split
  · next hnumber =>
    refine iff_of_true (hsent _) fun number name hsome => ?_
    rw [hnumber] at hsome
    cases hsome
  · next number hnumber =>
    split
    · next hname =>
      refine iff_of_true (hsent _) fun number' name hsome hfound => ?_
      obtain rfl := Option.some.inj (hnumber.symm.trans hsome)
      rw [hname] at hfound
      cases hfound
    · next name hname =>
      refine ⟨fun h number' name' hsome hfound => ?_, fun h => h number name hnumber hname⟩
      obtain rfl := Option.some.inj (hnumber.symm.trans hsome)
      obtain rfl := Option.some.inj (hname.symm.trans hfound)
      exact h

omit hcore in
theorem completes_registerName {f : Option (Nat × Bytes) → Serve ω Unit} (hnone : f none = pure ()) :
    Completes (registerName cfg numberStr >>= f) s ↔
      ∀ number name, simpleHexAtoi64 numberStr = some number →
        cfg.debugInfo.debugRegisterMap number = some name →
          Completes (f (some (number, name))) s :=
  ends_registerName hnone fun error => (answers_sendError error).completes hs

omit hcore hs in
theorem registerOf_eq_some {name : Bytes} : registerOf cfg numberStr = some name ↔
    ∃ number, simpleHexAtoi64 numberStr = some number ∧
      cfg.debugInfo.debugRegisterMap number = some name := Option.bind_eq_some_iff

omit hcore hs in
theorem forall_registerOf_iff {P : Bytes → Prop} :
    (∀ name, registerOf cfg numberStr = some name → P name) ↔
      ∀ number name, simpleHexAtoi64 numberStr = some number →
        cfg.debugInfo.debugRegisterMap number = some name → P name := by
  simp only [registerOf_eq_some, forall_exists_index, and_imp]
  exact forall_comm

theorem completes_gdbReadRegister_iff :
    Completes (gdbReadRegister cfg threadId numberStr) s ↔
      threadId = 1 ∨ registerOf cfg numberStr = none := by
  refine (completes_registerName hs rfl).trans ⟨fun h => ?_, fun h number name hnumber hname => ?_⟩
  · cases hregister : registerOf cfg numberStr with
    | none => exact .inr rfl
    | some name =>
      obtain ⟨number, hnumber, hname⟩ := registerOf_eq_some.mp hregister
      have hcompletes := h number name hnumber hname
      rw [Completes, ends_bind, ends_coreAt hcore] at hcompletes
      exact .inl hcompletes.1
  · have hid : threadId = 1 := by
      refine h.resolve_right fun hnone => ?_
      rw [registerOf_eq_some.mpr ⟨number, hnumber, hname⟩] at hnone
      cases hnone
    refine ((silent_coreAt hcore (.inl hid)).bind (M := fun _ k => k = 1) fun core => ?_).completes hs
    split
    · refine (silent_call _).bind fun result => ?_
      split
      · exact answers_sendError _
      · exact answers_respond _
    · refine (silent_call _).bind fun result => ?_
      split
      · exact answers_sendError _
      · exact silent_get.bind fun s => answers_respond _

theorem completes_gdbWriteRegister_iff {valueStr : Bytes} :
    Completes (gdbWriteRegister cfg threadId numberStr valueStr) s ↔
      ∀ name, registerOf cfg numberStr = some name →
        threadId = 1 ∧ ∀ buffer, (core.getRegisterDataBuffer name s.world).1 = .ok buffer →
          valueStr.length % 2 = 0 ∨ 2 * (core.bufferBytes buffer
            (core.getRegisterDataBuffer name s.world).2).length ≤ valueStr.length := by
  rw [forall_registerOf_iff]
  refine (completes_registerName hs rfl).trans (forall₄_congr fun number name _ _ => ?_)
  rw [Completes, ends_bind, ends_coreAt hcore]
  apply and_congr_right
  rintro rfl
  rw [ends_bind, ends_call]
  rcases core.getRegisterDataBuffer name s.world with ⟨status | buffer, world⟩
  · exact iff_of_true trivial (by rintro _ ⟨⟩)
  · show Ends (get >>= _) _ _ _ ↔ _
    rw [ends_bind, ends_get, ends_bind, ends_storeDigits]
    constructor
    · rintro ⟨h, -⟩ _ ⟨⟩
      by_cases hshort : valueStr.length < 2 * (core.bufferBytes buffer world).length
      · exact .inl (h hshort)
      · exact .inr (not_lt.mp hshort)
    · intro h
      refine ⟨fun hshort => ?_, trivial⟩
      exact (h buffer rfl).resolve_right (not_le.mpr hshort)

omit hcore in
theorem sendsExactly_gdbSelectThread_iff :
    SendsExactly 1 (gdbSelectThread command : Serve ω Unit) s ↔ command ≠ [] := by
  cases command with
  | nil => exact iff_of_false id fun h => h rfl
  | cons op text =>
    refine iff_of_true ?_ (List.cons_ne_nil _ _)
    unfold gdbSelectThread
    dsimp only
    split
    · exact (answers_sendError _).sendsExactly hs
    · -- The selection has no response.
      show (s.responses ++ [ascii "OK"]).length = _
      rw [List.length_append, List.length_singleton]

omit hcore hs in
theorem head?_of_isPrefixOf {key : Bytes} {c : UInt8} (h : key.isPrefixOf text = true)
    (hc : key.head? = some c) : text.head? = some c := by
  obtain ⟨rest, rfl⟩ := List.isPrefixOf_iff_prefix.mp h
  rw [List.head?_append, hc]
  rfl

omit hcore hs in
theorem not_isPrefixOf {key key' : Bytes} {c c' : UInt8} (h : key.isPrefixOf text = true)
    (hc : key.head? = some c) (hc' : key'.head? = some c') (hne : c ≠ c') :
    ¬key'.isPrefixOf text = true := by
  intro h'
  have heq := (head?_of_isPrefixOf h hc).symm.trans (head?_of_isPrefixOf h' hc')
  exact hne (Option.some.inj heq)

theorem completes_gdbQuery_iff :
    Completes (gdbQuery cfg command) s ↔ command ≠ [] ∧ command ≠ ascii "Supported" ∧
      ((ascii "HostInfo").isPrefixOf command → (gdbHostInfo cfg.debugInfo.lldbHostInfo).isSome) := by
  refine ⟨fun h => ⟨?_, ?_, fun hhost => ?_⟩, fun ⟨hne, hsupported, hhost⟩ =>
    (answers_gdbQuery hcore (.inl ⟨hne, hsupported⟩) (.inl hhost)).completes hs⟩
  · rintro rfl
    exact h
  · rintro rfl
    have hcons : ascii "Supported" = 0x53 :: (ascii "Supported").tail := by decide +kernel
    rw [hcons, gdbQuery, ← hcons, if_neg (by decide +kernel), if_neg (by decide +kernel),
      if_neg (by decide +kernel), if_neg (by decide +kernel), if_neg (by decide +kernel),
      if_neg (by decide +kernel), if_neg (by decide +kernel), if_pos (by decide +kernel)] at h
    have hdrop : (ascii "Supported").drop 9 = [] := by decide +kernel
    rw [hdrop] at h
    exact h
  · cases command with
    | nil => exact h.elim
    | cons c rest =>
      have hhead : (ascii "HostInfo").head? = some 0x48 := by decide +kernel
      have hother : ∀ key c', (ascii key).head? = some c' → 0x48 ≠ c' →
          ¬(ascii key).isPrefixOf (c :: rest) = true := fun _ _ hc' hne =>
        not_isPrefixOf hhost hhead hc' hne
      have hC : c :: rest ≠ ascii "C" := by
        intro heq
        have hc := head?_of_isPrefixOf hhost hhead
        rw [heq] at hc
        exact absurd hc (by decide +kernel)
      rw [gdbQuery, if_neg (hother "Attached" 0x41 (by decide +kernel) (by decide)), if_neg hC,
        if_neg (hother "ExecAndArgs" 0x45 (by decide +kernel) (by decide)),
        if_neg (hother "fThreadInfo" 0x66 (by decide +kernel) (by decide)),
        if_neg (hother "GDBServerVersion" 0x47 (by decide +kernel) (by decide)),
        if_pos hhost] at h
      cases hinfo : gdbHostInfo cfg.debugInfo.lldbHostInfo with
      | none =>
        rw [hinfo] at h
        exact h.elim
      | some response => rfl

omit hcore in
theorem completes_applyAction_zero_iff {action : Bytes} :
    Completes (applyAction cfg action 0) s ↔ action ≠ ascii "c" ∧ action ≠ ascii "s" := by
  obtain ⟨reason, hreason⟩ := List.length_eq_one_iff.mp hs
  have hfault : ∀ advance, ¬Completes (advanceThread cfg advance 0) s := by
    intro advance h
    rw [Completes, advanceThread, ends_bind, ends_haltReasonAt hreason] at h
    exact absurd h.1 (by decide)
  unfold applyAction
  by_cases hc : action = ascii "c"
  · rw [if_pos hc]
    exact iff_of_false (hfault _) fun h => h.1 hc
  · rw [if_neg hc]
    by_cases hstep : action = ascii "s"
    · rw [if_pos hstep]
      exact iff_of_false (hfault _) fun h => h.2 hstep
    · rw [if_neg hstep]
      exact iff_of_true trivial ⟨hc, hstep⟩

omit hs in
/-- The loop of `vCont` completes if each part that it comes to has a thread that there is. -/
theorem completes_vContActions_iff (parts : List Bytes) (s : Session ω)
    (hs : s.server.haltReasons.length = 1) :
    Completes (vContActions cfg parts) s ↔ ∀ part ∈ parts.takeWhile accepted, PartNamesThread part := by
  induction parts generalizing s with
  | nil => exact iff_of_true trivial fun _ hmem => absurd hmem List.not_mem_nil
  | cons part rest ih =>
    have herror : Completes (do
        sendError (ascii "invalid thread id")
        pure false : Serve ω Bool) s :=
      ((answers_sendError _).bind (M := fun _ k => k = 1) fun _ k hk =>
        does_pure (by rw [hk])).completes hs
    unfold vContActions
    dsimp only
    split
    · next hall =>
      -- `-1` is not read as 0.
      have hnames : PartNamesThread part := by
        intro hzero
        rw [hall] at hzero
        exact absurd hzero (by decide +kernel)
      rw [List.takeWhile_cons_of_pos (by rw [accepted, hall]; exact decide_eq_true (.inl rfl)),
        List.forall_mem_cons, and_iff_right hnames]
      exact completes_bind_of_silent hs
        (silent_forM_threadIds hcore (silent_applyAction hcore _ (.inl rfl))) fun _ s' => ih s'
    · next hall =>
      have haccepted : accepted part = true ↔
          simpleHexAtoiInt (threadText part) = some 0 ∨
            simpleHexAtoiInt (threadText part) = some 1 := by
        rw [accepted, decide_eq_true_iff, or_iff_right hall]
      split
      · next hnone =>
        rw [List.takeWhile_cons_of_neg fun h => by
          rw [haccepted, hnone] at h
          exact h.elim nofun nofun]
        exact iff_of_true herror fun _ hmem => absurd hmem List.not_mem_nil
      · next threadId hid =>
        rw [hid, Option.some_inj, Option.some_inj] at haccepted
        rw [hcore, List.length_singleton, Nat.cast_one]
        split
        · next hrange =>
          rw [List.takeWhile_cons_of_neg fun h => by
            have hcases := haccepted.mp h
            omega]
          exact iff_of_true herror fun _ hmem => absurd hmem List.not_mem_nil
        · next hrange =>
          have hcases : threadId = 0 ∨ threadId = 1 := by omega
          rw [List.takeWhile_cons_of_pos (haccepted.mpr hcases), List.forall_mem_cons]
          rcases hcases with rfl | rfl
          · have hnames : PartNamesThread part ↔
                part.take 1 ≠ ascii "c" ∧ part.take 1 ≠ ascii "s" :=
              ⟨fun h => h hid, fun h _ => h⟩
            rw [hnames]
            constructor
            · intro h
              have haction : Completes (applyAction cfg (part.take 1) 0) s := by
                rw [Completes, ends_bind] at h
                exact h.mono (fun _ _ _ => trivial) fun _ he => he
              rw [completes_applyAction_zero_iff hs] at haction
              refine ⟨haction, ?_⟩
              exact (completes_bind_of_silent hs
                (silent_applyAction hcore _ (.inr (.inr haction))) fun _ s' => ih s').mp h
            · rintro ⟨haction, h⟩
              exact (completes_bind_of_silent hs
                (silent_applyAction hcore _ (.inr (.inr haction))) fun _ s' => ih s').mpr h
          · have hnames : PartNamesThread part := by
              intro hzero
              rw [hid] at hzero
              cases hzero
            rw [and_iff_right hnames]
            exact completes_bind_of_silent hs (silent_applyAction hcore _ (.inl rfl))
              fun _ s' => ih s'

theorem completes_gdbVContinue_iff :
    Completes (gdbVContinue cfg command) s ↔ VContCompletes command := by
  unfold gdbVContinue VContCompletes
  have hquestion : ascii "?" = [0x3f] := by decide +kernel
  rw [hquestion]
  split
  · next hcommand =>
    subst hcommand
    exact iff_of_true ((answers_respond _).completes hs) ⟨List.cons_ne_nil _ _, nofun⟩
  · cases command with
    | nil => exact iff_of_false id fun h => h.1 rfl
    | cons c rest =>
      rw [List.head?_cons, Option.some_inj, List.tail_cons, and_iff_right (List.cons_ne_nil _ _)]
      dsimp only
      split
      · next hc =>
        exact iff_of_true ((answers_sendError _).completes hs) fun h => absurd h hc
      · next hc =>
        rw [← completes_vContActions_iff hcore _ s hs, imp_iff_right (not_not.mp hc)]
        refine completes_bind_iff hs
          (does_vContActions hcore _ (.inr fun _ => trivial)) fun goesOn s' hs' => ?_
        cases goesOn with
        | true => exact (answers_vContReport hcore).completes hs'
        | false => exact (silent_pure ()).completes hs'

omit hcore hs in
theorem forall_threadArgument_iff {letter : Char} {P : Char → Bytes → Prop}
    (h : threadArgument command = some (letter, text)) :
    (∀ letter text, threadArgument command = some (letter, text) → P letter text) ↔
      P letter text := by
  refine ⟨fun hall => hall letter text h, fun hP letter' text' h' => ?_⟩
  obtain ⟨rfl, rfl⟩ := Prod.mk.inj (Option.some.inj (h.symm.trans h'))
  exact hP

omit hcore in
theorem sendsExactly_threadOf_iff {letter : Char} {f : Int → Serve ω Unit}
    (hf : Answers (fun _ => True) (f (getThreadId s.server (.ofNat letter.toNat) text))) :
    SendsExactly 1 (threadOf letter text >>= f) s ↔
      Completes (f (getThreadId s.server (.ofNat letter.toNat) text)) s := by
  show SendsExactly 1 (f (getThreadId s.server (.ofNat letter.toNat) text)) s ↔ _
  exact sendsExactly_one_iff hs hf

/-- **One command.** It is answered as it should be if and only if it may be. -/
theorem sendsExactly_parseGdbCommand_iff :
    SendsExactly (expectedResponses command) (parseGdbCommand cfg command) s ↔
      MayReply cfg core s command := by
  cases command with
  | nil => exact Iff.rfl
  | cons c rest =>
    have htrue : ∀ {x : Serve ω Unit}, Answers (fun _ => False) x → (SendsExactly 1 x s ↔ True) :=
      fun hx => iff_true_intro (hx.sendsExactly hs)
    unfold parseGdbCommand MayReply expectedResponses
    dsimp only
    -- One case for each kind of command.
    cases hkind : commandKind c <;> dsimp only <;>
      simp only [reduceCtorEq, if_false, if_true, dispatch]
    case haltReason => exact htrue (answers_gdbHaltReason hcore)
    case cont =>
      rw [forall_threadArgument_iff (by rw [threadArgument, hkind])]
      exact sendsExactly_gdbContinue_iff hcore hs
    case detach => exact htrue answers_gdbDetach
    case readGprRegisters =>
      rw [forall_threadArgument_iff (by rw [threadArgument, hkind]), sendsExactly_threadOf_iff hs
        (answers_gdbReadGprRegisters hcore (.inr fun _ => trivial))]
      exact completes_gdbReadGprRegisters_iff hcore hs
    case writeGprRegisters =>
      rw [forall_threadArgument_iff (by rw [threadArgument, hkind]), sendsExactly_threadOf_iff hs
        (answers_gdbWriteGprRegisters hcore (.inr fun _ => trivial) trivial trivial _)]
      exact completes_gdbWriteGprRegisters_iff hcore hs
    case selectThread => exact sendsExactly_gdbSelectThread_iff hs
    case kill => exact iff_true_intro rfl
    case readMemory =>
      split
      · next hnone =>
        refine iff_of_true ((answers_errorOrE01 _).sendsExactly hs) fun pos hpos => ?_
        rw [hnone] at hpos
        cases hpos
      · next pos hpos =>
        rw [sendsExactly_one_iff hs (answers_gdbReadMemory hcore trivial _ _),
          completes_gdbReadMemory_iff hcore hs, hpos]
        exact ⟨fun h pos' hpos' => Option.some.inj hpos' ▸ h, fun h => h pos rfl⟩
    case writeMemory =>
      split
      · exact htrue (answers_errorOrE01 _)
      · exact htrue (answers_sendError _)
      · exact htrue (answers_gdbWriteMemory hcore _ _ _)
    case readRegister =>
      rw [forall_threadArgument_iff (by rw [threadArgument, hkind]), sendsExactly_threadOf_iff hs
        (answers_gdbReadRegister hcore (.inr fun _ => trivial) _)]
      exact completes_gdbReadRegister_iff hcore hs
    case writeRegister =>
      rw [forall_threadArgument_iff (by rw [threadArgument, hkind])]
      split
      · next hnone =>
        refine iff_of_true ((answers_sendError _).sendsExactly hs) fun pos hpos => ?_
        rw [hnone] at hpos
        cases hpos
      · next pos hpos =>
        rw [sendsExactly_threadOf_iff hs
          (answers_gdbWriteRegister hcore (.inr fun _ => trivial) trivial _ _),
          completes_gdbWriteRegister_iff hcore hs, hpos]
        exact ⟨fun h pos' hpos' => Option.some.inj hpos' ▸ h, fun h => h pos rfl⟩
    case query =>
      rw [sendsExactly_one_iff hs (answers_gdbQuery hcore (.inr trivial) (.inr trivial))]
      exact completes_gdbQuery_iff hcore hs
    case set => exact htrue (answers_gdbSet _)
    case step =>
      rw [forall_threadArgument_iff (by rw [threadArgument, hkind]), sendsExactly_threadOf_iff hs
        (answers_gdbStep hcore (.inr fun _ => trivial))]
      exact completes_gdbStep_iff hcore hs
    case verbose =>
      split
      · next hprefix =>
        rw [sendsExactly_one_iff hs
          (answers_gdbVContinue hcore (.inr trivial) (.inr fun _ => trivial))]
        exact (completes_gdbVContinue_iff hcore hs).trans (imp_iff_right hprefix).symm
      · next hprefix =>
        refine iff_of_true ?_ fun h => absurd h hprefix
        split
        · exact (answers_respond _).sendsExactly hs
        · exact (answers_sendError _).sendsExactly hs
    case breakpoint =>
      split
      · exact htrue (answers_changeBreakpoint hcore _ _)
      · exact htrue (answers_changeBreakpoint hcore _ _)
      · exact htrue (answers_respond _)
    case other => exact htrue (answers_respond _)

omit hcore hs in
/-- What a packet with a command does: it is confirmed, and the command is served. -/
theorem ends_acceptPacket_iff {packet : Bytes} {Q : Unit → Session ω → Prop} {E : Fault → Prop}
    (h : DispatchesExactly cfg.text s.server.noAckMode packet command) :
    ∃ written, Ends (acceptPacket cfg packet) Q E s ↔
      Ends (parseGdbCommand cfg command) Q E { s with written } := by
  obtain ⟨events, hevents, hdispatched⟩ := h
  by_cases hwell : ∃ body, WellFormed cfg.text packet body
  · obtain ⟨body, hbody⟩ := hwell
    rw [acceptGdbCommand_of_wellFormed _ hbody] at hevents
    obtain ⟨clean, hclean, rfl⟩ := Option.map_eq_some_iff.mp hevents
    rw [dispatched_accept] at hdispatched
    obtain rfl := (List.cons.inj hdispatched).1
    unfold acceptPacket
    rw [ends_bind, ends_get, acceptGdbCommand_of_wellFormed _ hbody, hclean]
    cases hmode : s.server.noAckMode with
    | true => exact ⟨s.written, ends_bind⟩
    | false =>
      refine ⟨s.written ++ [0x2b], ?_⟩
      show Ends (handleEvent cfg (.put 0x2b) >>= fun _ => parseGdbCommand cfg clean >>= pure) Q E s ↔ _
      rw [ends_bind, bind_pure]
      rfl
  · obtain ⟨error, hreject⟩ :=
      @acceptGdbCommand_of_not_wellFormed cfg.text _ s.server.noAckMode (not_exists.mp hwell)
    obtain rfl := Option.some.inj (hreject.symm.trans hevents)
    rw [dispatched_reject] at hdispatched
    cases hdispatched

omit hs in
theorem acceptPacket_haltReasons (packet : Bytes) (s : Session ω)
    (hs : s.server.haltReasons.length = 1) :
    Ends (acceptPacket cfg packet) (fun _ s' => s'.server.haltReasons.length = 1) (fun _ => True)
      s := by
  have hevent : ∀ event (s : Session ω), s.server.haltReasons.length = 1 →
      Ends (handleEvent cfg event) (fun _ s' => s'.server.haltReasons.length = 1) (fun _ => True)
        s := by
    intro event s hs
    cases event with
    | put c => exact hs
    | sendError error => exact hs
    | parseGdbCommand command =>
      exact (ends_parseGdbCommand hcore hs (fun _ _ => trivial) (.inr fun _ => trivial)).mono
        (fun _ _ h => h.1) fun _ he => he
  unfold acceptPacket
  rw [ends_bind, ends_get]
  split
  · trivial
  · next events _ =>
    clear * - hevent hs
    induction events generalizing s with
    | nil => exact hs
    | cons event rest ih =>
      show Ends (handleEvent cfg event >>= fun _ => rest.forM (handleEvent cfg)) _ _ _
      rw [ends_bind]
      exact (hevent event s hs).mono (fun _ s' hs' => ih s' hs') fun _ he => he

end OneCore

/-! ### A session -/

theorem haltReasons_run (hcore : cfg.keepFirst.cores = [core]) (world : ω) (input : Bytes)
    (packets : List Bytes) :
    (run (settle (servePacket cfg.keepFirst))
      { server := cfg.keepFirst.server, world, input } packets).server.haltReasons.length = 1 := by
  refine settle_invariant (fun s : Session ω => s.server.haltReasons.length = 1) ?_ ?_ packets
  · intro s packet s' hs hserve
    have hends := acceptPacket_haltReasons hcore packet s hs
    unfold servePacket at hserve
    cases hrun : (acceptPacket cfg.keepFirst packet).run s with
    | error e =>
      rw [hrun] at hserve
      cases hserve
    | ok p =>
      rw [hrun] at hserve
      cases hserve
      exact (ends_of_run_eq_ok hrun).mp hends
  · show (cfg.keepFirst.cores.map fun _ => haltNone).length = 1
    rw [hcore]
    rfl

/-- **Replies.** In every session, whatever the core does, a packet with a command ends without a
    fault and with the response it should have if and only if the command may be answered. -/
theorem repliesOnce_iff (hcore : cfg.keepFirst.cores = [core]) (world : ω) (input : Bytes)
    (packets : List Bytes) {packet command : Bytes} {s : Session ω}
    (hs : run (settle (servePacket cfg.keepFirst)) { server := cfg.keepFirst.server, world, input }
      packets = s) (hcommand : DispatchesExactly cfg.text s.server.noAckMode packet command) :
    RepliesOnce cfg.keepFirst s packet command ↔ MayReply cfg.keepFirst core s command := by
  have hreasons : s.server.haltReasons.length = 1 := by
    rw [← hs]
    exact haltReasons_run hcore world input packets
  obtain ⟨written, hends⟩ := @ends_acceptPacket_iff _ cfg.keepFirst _ _ _
    (fun _ s' => s'.responses.length = s.responses.length + expectedResponses command)
    (fun _ => False) hcommand
  exact hends.trans (sendsExactly_parseGdbCommand_iff (s := { s with written }) hcore hreasons)

/-- `Hg0` and `g` -/
theorem repliesOnce_readGprRegisters :
    RepliesOnce quietConfig.keepFirst
      (run (settle (servePacket quietConfig.keepFirst)) quietSession [ascii "$Hg0#df"])
      (ascii "$g#67") [0x67] := by
  refine (repliesOnce_iff rfl () [] [ascii "$Hg0#df"] rfl ?_).mpr (.inl ?_)
  · refine ⟨[.put 0x2b, .parseGdbCommand [0x67]], ?_, rfl⟩
    decide +kernel
  · rw [forall_threadArgument_iff (show threadArgument _ = some ('g', []) by decide +kernel)]
    decide +kernel

/-- A core that runs. -/
def busyConfig : Config Unit :=
  { quietConfig with
    cores := [{ quietCore with getRunStatus := fun world => (.ok .running, world) }] }

/-- An empty command is read at its first character, and `c` to a core that runs is not answered. -/
theorem repliesOnce_fails :
    (DispatchesExactly quietConfig.text quietSession.server.noAckMode (ascii "$#00") [] ∧
      ¬RepliesOnce quietConfig.keepFirst quietSession (ascii "$#00") []) ∧
    DispatchesExactly busyConfig.text quietSession.server.noAckMode (ascii "$c#63") [0x63] ∧
      ¬RepliesOnce busyConfig.keepFirst quietSession (ascii "$c#63") [0x63] := by
  refine ⟨⟨⟨[.put 0x2b, .parseGdbCommand []], ?_, rfl⟩, fun h => ?_⟩,
    ⟨[.put 0x2b, .parseGdbCommand [0x63]], ?_, rfl⟩, fun h => ?_⟩
  · decide +kernel
  · unfold RepliesOnce SendsExactly at h
    refine (ends_of_run_eq_error (e := .front) (eq_error_of_faultOf ?_)).mp h
    decide +kernel
  · decide +kernel
  · unfold RepliesOnce SendsExactly at h
    obtain ⟨a, s', hrun, hlength⟩ := ends_false_iff.mp h
    have hnone : ((acceptPacket busyConfig.keepFirst (ascii "$c#63")).run quietSession).toOption.map
        (fun p => p.2.responses.length) = some 0 := by decide +kernel
    rw [hrun] at hnone
    have hone : s'.responses.length = 1 := hlength
    have hzero : s'.responses.length = 0 := Option.some.inj hnone
    rw [hone] at hzero
    cases hzero

end MpactSim.Gdb.GdbServer
