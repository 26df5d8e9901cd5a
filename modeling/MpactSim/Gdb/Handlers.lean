import MpactSim.Gdb.Commands

namespace MpactSim.Gdb.GdbServer

open Lib

/-!
# What the handlers of the GDB server do

Of each handler it is said how many responses it sends, which faults it may end in, and that it
leaves the selected threads and the number of halt reasons.

* `Does E x N`  — `x` ends in a fault of `E`, or in a result with which `N` holds of the responses;
* `Silent`, `Answers` — there is no response, there is one;
* `answers_*`   — the handlers.
-/

variable {ω α β : Type} {cfg : Config ω} {core : Core ω} {E : Fault → Prop}

/-- The selected threads and the number of halt reasons are the same. -/
def SameThreads (s s' : Session ω) : Prop :=
  s'.server.threadSelect = s.server.threadSelect ∧
    s'.server.haltReasons.length = s.server.haltReasons.length

theorem SameThreads.trans {s s' s'' : Session ω} (h : SameThreads s s') (h' : SameThreads s' s'') :
    SameThreads s s'' := ⟨h'.1.trans h.1, h'.2.trans h.2⟩

/-- With one halt reason, a part of the server ends in a fault of `E`, or in a result with which `N`
    holds of the number of responses, and leaves the threads. -/
def Does (E : Fault → Prop) (x : Serve ω α) (N : α → Nat → Prop) : Prop :=
  ∀ s : Session ω, s.server.haltReasons.length = 1 →
    Ends x (fun a s' => SameThreads s s' ∧
      ∃ k, N a k ∧ s'.responses.length = s.responses.length + k) E s

/-- There is no response. -/
def Silent (E : Fault → Prop) (x : Serve ω α) : Prop := Does E x fun _ k => k = 0

/-- There is one response. -/
def Answers (E : Fault → Prop) (x : Serve ω α) : Prop := Does E x fun _ k => k = 1

/-! ### Rules -/

variable {x : Serve ω α} {N : α → Nat → Prop}

/-- **Sequence.** The responses of the parts are added. -/
theorem Does.bind {f : α → Serve ω β} {M : β → Nat → Prop} (hx : Does E x N)
    (hf : ∀ a k, N a k → Does E (f a) fun b j => M b (k + j)) : Does E (x >>= f) M := by
  intro s hs
  rw [ends_bind]
  refine (hx s hs).mono ?_ fun _ he => he
  rintro a s' ⟨hsame, k, hk, hlength⟩
  refine (hf a k hk s' (hsame.2.trans hs)).mono ?_ fun _ he => he
  rintro b s'' ⟨hsame', j, hj, hlength'⟩
  exact ⟨hsame.trans hsame', k + j, hj, by rw [hlength', hlength, Nat.add_assoc]⟩

theorem Does.mono {M : α → Nat → Prop} (hx : Does E x N) (h : ∀ a k, N a k → M a k) :
    Does E x M := by
  intro s hs
  refine (hx s hs).mono ?_ fun _ he => he
  rintro a s' ⟨hsame, k, hk, hlength⟩
  exact ⟨hsame, k, h a k hk, hlength⟩

theorem Silent.bind {f : α → Serve ω β} {M : β → Nat → Prop} (hx : Silent E x)
    (hf : ∀ a, Does E (f a) M) : Does E (x >>= f) M := by
  refine Does.bind hx fun a k hk => ?_
  subst hk
  exact (hf a).mono fun b j hj => by rwa [Nat.zero_add]

theorem does_pure {a : α} (h : N a 0) : Does E (pure a : Serve ω α) N :=
  fun _ _ => ⟨⟨rfl, rfl⟩, 0, h, rfl⟩

theorem does_throw {e : Fault} (h : E e) : Does E (throw e : Serve ω α) N :=
  fun _ _ => h

theorem silent_pure (a : α) : Silent E (pure a : Serve ω α) := does_pure rfl

theorem silent_get : Silent E (get : Serve ω (Session ω)) := fun _ _ => ⟨⟨rfl, rfl⟩, 0, rfl, rfl⟩

theorem silent_call (f : CoreCall ω α) : Silent E (call f) := fun _ _ => ⟨⟨rfl, rfl⟩, 0, rfl, rfl⟩

theorem silent_modify {g : Session ω → Session ω} (hg : ∀ s, SameThreads s (g s))
    (hsent : ∀ s, (g s).responses = s.responses) : Silent E (modify g : Serve ω Unit) :=
  fun s _ => ⟨hg s, 0, rfl, by rw [hsent]; rfl⟩

theorem silent_terminate : Silent E (terminate : Serve ω Unit) :=
  silent_modify (fun _ => ⟨rfl, rfl⟩) fun _ => rfl

theorem silent_storeBuffer (bytes : Bytes) : Silent E (storeBuffer bytes : Serve ω Unit) :=
  silent_modify (fun _ => ⟨rfl, rfl⟩) fun _ => rfl

theorem silent_setHaltReason (index reason : Nat) :
    Silent E (setHaltReason index reason : Serve ω Unit) :=
  silent_modify (fun _ => ⟨rfl, List.length_set⟩) fun _ => rfl

theorem answers_respond (response : Bytes) : Answers E (respond response : Serve ω Unit) :=
  fun s _ => ⟨⟨rfl, rfl⟩, 1, rfl, by
    show (s.responses ++ [response]).length = _
    rw [List.length_append, List.length_singleton]⟩

theorem answers_sendError (error : Bytes) : Answers E (sendError error : Serve ω Unit) :=
  answers_respond _

theorem answers_errorOrE01 (error : Bytes) : Answers E (errorOrE01 error : Serve ω Unit) := by
  refine silent_get.bind fun s => ?_
  split
  · exact answers_sendError error
  · exact answers_respond _

theorem silent_atThread {l : List α} {threadId : Int} (hl : l.length = 1)
    (h : threadId = 1 ∨ ∀ i, E (.threadIndex i)) :
    Silent E (atThread l (threadId - 1) : Serve ω α) := by
  obtain ⟨a, rfl⟩ := List.length_eq_one_iff.mp hl
  unfold atThread
  rcases h with rfl | hE
  · exact silent_pure a
  · split
    · split
      · exact silent_pure _
      · exact does_throw (hE _)
    · exact does_throw (hE _)

theorem silent_haltReasonAt {threadId : Int} (h : threadId = 1 ∨ ∀ i, E (.threadIndex i)) :
    Silent E (haltReasonAt (threadId - 1) : Serve ω Nat) := by
  intro s hs
  exact silent_atThread hs h s hs

/-- The part of `vCont` has a thread that there is, or an action that does nothing. -/
def PartNamesThread (part : Bytes) : Prop :=
  simpleHexAtoiInt (threadText part) = some 0 → part.take 1 ≠ ascii "c" ∧ part.take 1 ≠ ascii "s"

section OneCore

variable (hcore : cfg.cores = [core])
include hcore

variable {threadId : Int} {command : Bytes}

theorem silent_coreAt (h : threadId = 1 ∨ ∀ i, E (.threadIndex i)) :
    Silent E (coreAt cfg (threadId - 1)) :=
  silent_atThread (by rw [hcore]; rfl) h

theorem silent_firstCore : Silent E (coreAt cfg 0) := silent_coreAt hcore (.inl rfl)

theorem threadIds_eq : threadIds cfg = [1] := by
  rw [threadIds, hcore]
  rfl

/-! ### Running -/

theorem silent_getHaltReason (h : threadId = 1 ∨ ∀ i, E (.threadIndex i)) :
    Silent E (getHaltReason cfg (threadId - 1)) := by
  refine (silent_coreAt hcore h).bind fun core => (silent_call _).bind fun result => ?_
  split
  · exact silent_pure _
  · refine (silent_call _).bind fun result => ?_
    split
    · exact silent_pure _
    · exact (silent_setHaltReason _ _).bind fun _ => silent_pure _

theorem answers_gdbHaltReason : Answers E (gdbHaltReason cfg) :=
  (silent_getHaltReason hcore (.inl (rfl : (1 : Int) = 1))).bind fun _ => answers_respond _

theorem answers_runUntilHalt (core : Core ω) (h : threadId = 1 ∨ ∀ i, E (.threadIndex i)) :
    Answers E (runUntilHalt cfg core (threadId - 1)) := by
  refine (silent_call _).bind fun result => ?_
  split
  · exact answers_sendError _
  · refine (silent_call _).bind fun result => ?_
    split
    · exact answers_sendError _
    · exact (silent_getHaltReason hcore h).bind fun _ => answers_respond _

theorem does_gdbContinue (h : threadId = 1 ∨ ∀ i, E (.threadIndex i)) (command : Bytes) :
    Does E (gdbContinue cfg threadId command) fun _ k => k ≤ 1 := by
  have hone : ∀ {x : Serve ω Unit}, Answers E x → Does E x fun _ k => k ≤ 1 :=
    fun hx => hx.mono fun _ _ hk => hk.le
  refine (silent_haltReasonAt h).bind fun reason => ?_
  split
  · exact hone (answers_respond _)
  · refine (silent_coreAt hcore h).bind fun core => (silent_call _).bind fun result => ?_
    split
    · exact hone (answers_sendError _)
    · split
      · exact hone (answers_runUntilHalt hcore core h)
      · split
        · exact hone (answers_sendError _)
        · refine (silent_call _).bind fun result => ?_
          split
          · exact hone (answers_sendError _)
          · exact hone (answers_runUntilHalt hcore core h)
    · exact does_pure (Nat.zero_le 1)

theorem silent_advanceThread (advance : Core ω → ω → ω) (h : threadId = 1 ∨ ∀ i, E (.threadIndex i)) :
    Silent E (advanceThread cfg advance threadId) := by
  refine (silent_haltReasonAt h).bind fun reason => ?_
  split
  · exact silent_pure ()
  · refine (silent_coreAt hcore h).bind fun core => (silent_call _).bind fun result => ?_
    split
    · exact silent_call _
    · exact silent_pure ()

theorem silent_applyAction (action : Bytes)
    (h : threadId = 1 ∨ (∀ i, E (.threadIndex i)) ∨ action ≠ ascii "c" ∧ action ≠ ascii "s") :
    Silent E (applyAction cfg action threadId) := by
  unfold applyAction
  rcases h with h | h | ⟨hc, hs⟩
  · split
    · exact silent_advanceThread hcore _ (.inl h)
    · split
      · exact silent_advanceThread hcore _ (.inl h)
      · exact silent_pure ()
  · split
    · exact silent_advanceThread hcore _ (.inr h)
    · split
      · exact silent_advanceThread hcore _ (.inr h)
      · exact silent_pure ()
  · rw [if_neg hc, if_neg hs]
    exact silent_pure ()

theorem silent_forM_threadIds {f : Int → Serve ω Unit} (hf : Silent E (f 1)) :
    Silent E ((threadIds cfg).forM f) := by
  rw [threadIds_eq hcore]
  exact hf.bind fun _ => silent_pure ()

/-- The loop of `vCont` sends a response exactly where it returns with an error. -/
theorem does_vContActions (parts : List Bytes)
    (h : (∀ part ∈ parts, PartNamesThread part) ∨ ∀ i, E (.threadIndex i)) :
    Does E (vContActions cfg parts) fun goesOn k => k = if goesOn then 0 else 1 := by
  induction parts with
  | nil => exact does_pure rfl
  | cons part rest ih =>
    have hrest := ih (h.imp (fun h p hp => h p (List.mem_cons_of_mem _ hp)) id)
    unfold vContActions
    dsimp only
    split
    · exact (silent_forM_threadIds hcore (silent_applyAction hcore _ (.inl rfl))).bind
        fun _ => hrest
    · split
      · exact (answers_sendError _).bind fun _ k hk => does_pure (by rw [hk]; rfl)
      · next threadId hid =>
        split
        · exact (answers_sendError _).bind fun _ k hk => does_pure (by rw [hk]; rfl)
        · next hrange =>
          refine (silent_applyAction hcore _ ?_).bind fun _ => hrest
          -- A number that is not out of range is 1, or 0.
          rw [hcore] at hrange
          rcases h with h | h
          · have hcases : threadId = 1 ∨ threadId = 0 := by
              simp only [List.length_singleton, Nat.cast_one] at hrange
              omega
            rcases hcases with hone | rfl
            · exact .inl hone
            · exact .inr (.inr (h part List.mem_cons_self hid))
          · exact .inr (.inl h)

theorem silent_waitThread : Silent E (waitThread cfg 1) := by
  refine (silent_haltReasonAt (.inl rfl)).bind fun reason => ?_
  split
  · exact silent_pure ()
  · refine (silent_coreAt hcore (.inl rfl)).bind fun core => (silent_call _).bind fun _ =>
      (silent_call _).bind fun result => ?_
    split
    · exact silent_pure ()
    · exact silent_setHaltReason _ _

theorem answers_vContReport : Answers E (vContReport cfg) := by
  refine (silent_forM_threadIds hcore (silent_waitThread hcore)).bind fun _ => ?_
  have hreasons : Silent E ((threadIds cfg).mapM fun threadId =>
      (haltReasonAt (threadId - 1) : Serve ω Nat)) := by
    rw [threadIds_eq hcore]
    exact (silent_haltReasonAt (.inl rfl)).bind fun _ => silent_pure _
  refine hreasons.bind fun reasons => ?_
  split
  · exact answers_respond _
  · refine (silent_firstCore hcore).bind fun core => (silent_call _).bind fun result => ?_
    split
    · exact answers_respond _
    · refine (silent_setHaltReason _ _).bind fun _ => (silent_call _).bind fun result => ?_
      split
      · exact answers_respond _
      · split
        · exact (silent_call _).bind fun _ => answers_respond _
        · exact answers_respond _

theorem answers_gdbVContinue (hfront : command ≠ [] ∨ E .front)
    (h : (∀ part ∈ command.tail.splitOn 0x3b, PartNamesThread part) ∨ ∀ i, E (.threadIndex i)) :
    Answers E (gdbVContinue cfg command) := by
  unfold gdbVContinue
  split
  · exact answers_respond _
  · split
    · exact does_throw (hfront.resolve_left fun hne => hne rfl)
    · next c rest _ =>
      split
      · exact answers_sendError _
      · refine (does_vContActions hcore _ h).bind fun goesOn k hk => ?_
        subst hk
        cases goesOn with
        | true =>
          exact (answers_vContReport hcore).mono fun _ j hj => by rw [hj]; rfl
        | false => exact does_pure rfl

/-! ### The other handlers -/

theorem answers_gdbStep (h : threadId = 1 ∨ ∀ i, E (.threadIndex i)) :
    Answers E (gdbStep cfg threadId) := by
  refine (silent_coreAt hcore h).bind fun core => (silent_call _).bind fun result => ?_
  split
  · exact answers_sendError _
  · exact answers_respond _

omit hcore in
theorem answers_gdbDetach : Answers E (gdbDetach : Serve ω Unit) :=
  (answers_respond _).bind fun _ _ hk =>
    silent_terminate.mono fun _ _ hj => by rw [hk, hj]

theorem answers_gdbReadMemory (hE : E (.bufferIndex bufferSize)) (addressStr lengthStr : Bytes) :
    Answers E (gdbReadMemory cfg addressStr lengthStr) := by
  unfold gdbReadMemory
  split
  · split
    · exact answers_errorOrE01 _
    · refine (silent_firstCore hcore).bind fun core => (silent_call _).bind fun result =>
        (silent_storeBuffer _).bind fun _ => ?_
      split
      · exact answers_errorOrE01 _
      · split
        · exact does_throw hE
        · exact silent_get.bind fun s => answers_respond _
  · exact answers_errorOrE01 _

theorem answers_gdbWriteMemory (addressStr lengthStr data : Bytes) :
    Answers E (gdbWriteMemory cfg addressStr lengthStr data) := by
  unfold gdbWriteMemory
  split
  · split
    · exact answers_errorOrE01 _
    · refine (silent_storeBuffer _).bind fun _ => ?_
      split
      · exact answers_errorOrE01 _
      · refine (silent_firstCore hcore).bind fun core => (silent_call _).bind fun result => ?_
        split
        · exact answers_errorOrE01 _
        · split
          · exact answers_errorOrE01 _
          · exact answers_respond _
  · exact answers_errorOrE01 _

theorem does_readGprs (h : threadId = 1 ∨ ∀ i, E (.threadIndex i)) (numbers : List Nat)
    (response : Bytes) :
    Does E (readGprs cfg threadId numbers response)
      fun result k => k = if result.isSome then 0 else 1 := by
  induction numbers generalizing response with
  | nil => exact does_pure rfl
  | cons number rest ih =>
    unfold readGprs
    split
    · exact ih response
    · refine (silent_coreAt hcore h).bind fun core => (silent_call _).bind fun result => ?_
      split
      · exact (answers_sendError _).bind fun _ k hk => does_pure (by rw [hk]; rfl)
      · exact silent_get.bind fun s => ih _

theorem answers_gdbReadGprRegisters (h : threadId = 1 ∨ ∀ i, E (.threadIndex i)) :
    Answers E (gdbReadGprRegisters cfg threadId) := by
  refine (does_readGprs hcore h _ _).bind fun result k hk => ?_
  subst hk
  split
  · exact (answers_respond _).mono fun _ j hj => by rw [hj]; rfl
  · exact does_pure rfl

omit hcore in
theorem silent_storeDigits (hE : E .removePrefix) (core : Core ω) (buffer left index : Nat)
    (data : Bytes) : Silent E (storeDigits cfg core buffer left index data) := by
  induction left, index, data using storeDigits.induct with
  | case1 => exact silent_pure _
  | case2 => exact silent_pure _
  | case3 => exact does_throw hE
  | case4 left index hi lo data ih => exact (silent_call _).bind fun _ => ih

theorem does_writeGprs (h : threadId = 1 ∨ ∀ i, E (.threadIndex i)) (hremove : E .removePrefix)
    (hvalue : E .value) (numbers : List Nat) (data : Bytes) :
    Does E (writeGprs cfg threadId numbers data) fun goesOn k => k = if goesOn then 0 else 1 := by
  induction numbers generalizing data with
  | nil => exact does_pure rfl
  | cons number rest ih =>
    unfold writeGprs
    split
    · exact (answers_sendError _).bind fun _ k hk => does_pure (by rw [hk]; rfl)
    · refine (silent_coreAt hcore h).bind fun core => (silent_call _).bind fun result => ?_
      split
      · exact does_throw hvalue
      · refine silent_get.bind fun s => (silent_storeDigits hremove _ _ _ _ _).bind fun stored => ?_
        split
        · exact ih _
        · exact (answers_sendError _).bind fun _ k hk => does_pure (by rw [hk]; rfl)

theorem answers_gdbWriteGprRegisters (h : threadId = 1 ∨ ∀ i, E (.threadIndex i))
    (hremove : E .removePrefix) (hvalue : E .value) (data : Bytes) :
    Answers E (gdbWriteGprRegisters cfg threadId data) := by
  refine (does_writeGprs hcore h hremove hvalue _ _).bind fun goesOn k hk => ?_
  subst hk
  cases goesOn with
  | true => exact (answers_respond _).mono fun _ j hj => by rw [hj]; rfl
  | false => exact does_pure rfl

omit hcore in
theorem does_registerName (numberStr : Bytes) :
    Does E (registerName cfg numberStr) fun result k => k = if result.isSome then 0 else 1 := by
  unfold registerName
  split
  · exact (answers_sendError _).bind fun _ k hk => does_pure (by rw [hk]; rfl)
  · split
    · exact (answers_sendError _).bind fun _ k hk => does_pure (by rw [hk]; rfl)
    · exact does_pure rfl

theorem answers_gdbReadRegister (h : threadId = 1 ∨ ∀ i, E (.threadIndex i)) (numberStr : Bytes) :
    Answers E (gdbReadRegister cfg threadId numberStr) := by
  refine (does_registerName numberStr).bind fun result k hk => ?_
  subst hk
  have hone : ∀ {x : Serve ω Unit}, Answers E x → Does E x fun _ j => 0 + j = 1 :=
    fun hx => hx.mono fun _ _ hj => by rw [Nat.zero_add, hj]
  split
  · exact does_pure rfl
  · refine (silent_coreAt hcore h).bind fun core => ?_
    split
    · refine (silent_call _).bind fun result => ?_
      split
      · exact hone (answers_sendError _)
      · exact hone (answers_respond _)
    · refine (silent_call _).bind fun result => ?_
      split
      · exact hone (answers_sendError _)
      · exact silent_get.bind fun s => hone (answers_respond _)

theorem answers_gdbWriteRegister (h : threadId = 1 ∨ ∀ i, E (.threadIndex i))
    (hremove : E .removePrefix) (numberStr valueStr : Bytes) :
    Answers E (gdbWriteRegister cfg threadId numberStr valueStr) := by
  refine (does_registerName numberStr).bind fun result k hk => ?_
  subst hk
  have hone : ∀ {x : Serve ω Unit}, Answers E x → Does E x fun _ j => 0 + j = 1 :=
    fun hx => hx.mono fun _ _ hj => by rw [Nat.zero_add, hj]
  split
  · exact does_pure rfl
  · refine (silent_coreAt hcore h).bind fun core => (silent_call _).bind fun result => ?_
    split
    · exact hone (answers_sendError _)
    · exact silent_get.bind fun s => (silent_storeDigits hremove _ _ _ _ _).bind fun _ =>
        hone (answers_respond _)

theorem answers_changeBreakpoint (change : Core ω → Nat → CoreCall ω (Except Status Unit))
    (addressStr : Bytes) : Answers E (changeBreakpoint cfg change addressStr) := by
  unfold changeBreakpoint
  split
  · exact answers_sendError _
  · refine (silent_firstCore hcore).bind fun core => (silent_call _).bind fun result => ?_
    split
    · exact answers_respond _
    · split
      · exact answers_respond _
      · exact answers_sendError _

omit hcore in
theorem answers_gdbSupported (hfront : command ≠ [] ∨ E .front) :
    Answers E (gdbSupported command : Serve ω Unit) := by
  unfold gdbSupported
  split
  · exact does_throw (hfront.resolve_left fun hne => hne rfl)
  · split
    · refine Silent.bind ?_ fun _ => answers_respond _
      exact silent_modify (fun _ => ⟨rfl, rfl⟩) fun _ => rfl
    · exact answers_respond _

omit hcore in
theorem eq_supported (hstart : (ascii "Supported").isPrefixOf command = true)
    (hdrop : command.drop 9 = []) : command = ascii "Supported" := by
  obtain ⟨rest, rfl⟩ := List.isPrefixOf_iff_prefix.mp hstart
  have hlength : (ascii "Supported").length = 9 := by decide +kernel
  rw [← hlength, List.drop_left] at hdrop
  rw [hdrop, List.append_nil]

/-- The question whether there are features has to be followed by a list of them. -/
theorem answers_gdbQuery (hfront : command ≠ [] ∧ command ≠ ascii "Supported" ∨ E .front)
    (hkey : ((ascii "HostInfo").isPrefixOf command = true →
      (gdbHostInfo cfg.debugInfo.lldbHostInfo).isSome) ∨ E .keyValue) :
    Answers E (gdbQuery cfg command) := by
  unfold gdbQuery
  split
  · exact does_throw (hfront.resolve_left fun hne => hne.1 rfl)
  · split
    · exact answers_respond _
    · split
      · exact answers_respond _
      · split
        · exact (silent_firstCore hcore).bind fun core => (silent_call _).bind fun _ =>
            answers_respond _
        · split
          · exact answers_respond _
          · split
            · exact answers_respond _
            · split
              · next hhost =>
                split
                · next hnone =>
                  refine does_throw (hkey.resolve_left fun hsome => ?_)
                  rw [hnone] at hsome
                  cases hsome hhost
                · exact answers_respond _
              · split
                · exact answers_respond _
                · split
                  · next hstart =>
                    exact answers_gdbSupported
                      (hfront.imp (fun hne hdrop => hne.2 (eq_supported hstart hdrop)) id)
                  · split
                    · exact answers_respond _
                    · exact answers_respond _

omit hcore in
theorem answers_gdbSet (command : Bytes) : Answers E (gdbSet command : Serve ω Unit) := by
  unfold gdbSet
  split
  · refine Silent.bind ?_ fun _ => answers_respond _
    exact silent_modify (fun _ => ⟨rfl, rfl⟩) fun _ => rfl
  · split
    · refine Silent.bind ?_ fun _ => answers_respond _
      exact silent_modify (fun _ => ⟨rfl, rfl⟩) fun _ => rfl
    · split
      · exact answers_respond _
      · exact answers_respond _

end OneCore

end MpactSim.Gdb.GdbServer
