import MpactSim.Gdb.Handlers
import MpactSim.Lib.Run

namespace MpactSim.Gdb.GdbServer

open Lib

/-!
# The threads of a GDB session

A command names a thread with a suffix, or is for the thread that was selected for commands of its
kind, which may be long before.  The server has one core, and a thread is the core with the index
below its number.

* `NamesThread`      — the thread that a command selects or names is one that there is;
* `threadIndex_safe` — in a session of such commands every index is that of the core;
* `threadIndex_fails` — `H` selects any number.
-/

variable {ω : Type} {cfg : Config ω} {core : Core ω} {s s' : Session ω}

/-- The command does not use an index of a thread that there is not. -/
def IndexSafe (cfg : Config ω) (s : Session ω) (command : Bytes) : Prop :=
  ∀ index, serveCommand cfg s command ≠ .error (.threadIndex index)

/-- A suffix that is read names the first thread. -/
def SuffixNamesThread (threadSuffix : Bool) (text : Bytes) : Prop :=
  threadSuffix = true → ∀ digits threadId, threadRe text = some digits →
    simpleAtoiInt digits = some threadId → threadId = 1

/-- The letter that the thread of a command is selected with, and the suffix that may name it. -/
def threadArgument : Bytes → Option (Char × Bytes)
  | [] => none
  | c :: rest =>
    match commandKind c with
    | .cont => some ('c', (splitThread rest).2)
    | .step => some ('c', rest)
    | .readGprRegisters => some ('g', rest)
    | .writeGprRegisters | .readRegister | .writeRegister => some ('g', (splitThread rest).2)
    | _ => none

/-- What `H` selects. -/
def selection : Bytes → Option (UInt8 × Int)
  | c :: op :: text =>
    if commandKind c = .selectThread then (selectedThread text).map fun threadId => (op, threadId)
    else none
  | _ => none

/-- The parts of `vCont`. -/
def vContParts : Bytes → List Bytes
  | [] => []
  | c :: rest =>
    if commandKind c = .verbose ∧ (ascii "Cont").isPrefixOf rest then
      (rest.drop 4).tail.splitOn 0x3b
    else []

/-- The thread that a command names, or selects for `c` or `g`, is the first one.  For `H` that is
    one of the numbers 0, 1 and -1; of the numbers that `vCont` accepts only 0 is not. -/
structure NamesThread (threadSuffix : Bool) (command : Bytes) : Prop where
  suffix : ∀ letter text, threadArgument command = some (letter, text) →
    SuffixNamesThread threadSuffix text
  parts : ∀ part ∈ vContParts command, PartNamesThread part
  selects : ∀ letter ∈ ['c', 'g'], ∀ threadId,
    selection command = some (.ofNat letter.toNat, threadId) → threadId = 1

/-! ### One command -/

/-- There is one halt reason, and the threads are those selected before, or what `H` selects. -/
def Selects (command : Bytes) (s s' : Session ω) : Prop :=
  s'.server.haltReasons.length = 1 ∧ ∀ letter threadId,
    s'.server.threadSelect letter = some threadId →
      s.server.threadSelect letter = some threadId ∨ selection command = some (letter, threadId)

variable {letter : Char} {text command : Bytes} {E : Fault → Prop}

theorem ends_threadOf {α : Type} {f : Int → Serve ω α} {Q : α → Session ω → Prop} :
    Ends (threadOf letter text >>= f) Q E s ↔
      Ends (f (getThreadId s.server (.ofNat letter.toNat) text)) Q E s := Iff.rfl

theorem Does.selects {x : Serve ω Unit} {N : Unit → Nat → Prop} (hx : Does E x N)
    (hs : s.server.haltReasons.length = 1) (command : Bytes) :
    Ends x (fun _ s' => Selects command s s') E s := by
  refine (hx s hs).mono (fun _ s' hend => ⟨hend.1.2.trans hs, fun letter threadId hselect => ?_⟩)
    fun _ he => he
  rw [hend.1.1] at hselect
  exact .inl hselect

theorem gdbSelectThread_selects (hE : E .front) (hs : s.server.haltReasons.length = 1) {c : UInt8}
    (hkind : commandKind c = .selectThread) (rest : Bytes) :
    Ends (gdbSelectThread rest) (fun _ s' => Selects (c :: rest) s s') E s := by
  cases rest with
  | nil => exact hE
  | cons op text =>
    unfold gdbSelectThread
    dsimp only
    split
    · exact (answers_sendError _).selects hs _
    · next threadId hid =>
      refine ⟨hs, fun letter threadId' hselect => ?_⟩
      change (if letter = op then some threadId else s.server.threadSelect letter) =
        some threadId' at hselect
      split at hselect
      · next hop =>
        cases hselect
        rw [selection, if_pos hkind, hid, hop]
        exact .inr rfl
      · exact .inl hselect

/-- **One command.** It ends in a fault of `E`, which has all but the indices of threads, and those
    too unless the command names the first one; and it selects what it says. -/
theorem ends_parseGdbCommand (hcore : cfg.cores = [core]) (hs : s.server.haltReasons.length = 1)
    (hE : ∀ e, (∀ index, e ≠ .threadIndex index) → E e)
    (hthread : ((∀ letter text, threadArgument command = some (letter, text) →
        getThreadId s.server (.ofNat letter.toNat) text = 1) ∧
        ∀ part ∈ vContParts command, PartNamesThread part) ∨ ∀ index, E (.threadIndex index)) :
    Ends (parseGdbCommand cfg command) (fun _ s' => Selects command s s') E s := by
  cases command with
  | nil => exact hE _ nofun
  | cons c rest =>
    unfold parseGdbCommand
    dsimp only
    split
    · split
      · exact (answers_changeBreakpoint hcore _ _).selects hs _
      · exact (answers_changeBreakpoint hcore _ _).selects hs _
      · exact (answers_respond _).selects hs _
    · have hid : ∀ letter text, threadArgument (c :: rest) = some (letter, text) →
          getThreadId s.server (.ofNat letter.toNat) text = 1 ∨ ∀ index, E (.threadIndex index) :=
        fun letter text harg => hthread.imp (fun h => h.1 letter text harg) id
      have hparts := hthread.imp And.right id
      unfold threadArgument at hid
      unfold vContParts at hparts
      dsimp only at hid hparts
      -- One case for each kind of command.
      cases hkind : commandKind c <;> rw [hkind] at hid hparts <;> unfold dispatch <;> dsimp only
      case haltReason => exact (answers_gdbHaltReason hcore).selects hs _
      case cont =>
        rw [ends_threadOf]
        exact (does_gdbContinue hcore (hid _ _ rfl) _).selects hs _
      case detach => exact answers_gdbDetach.selects hs _
      case readGprRegisters =>
        rw [ends_threadOf]
        exact (answers_gdbReadGprRegisters hcore (hid _ _ rfl)).selects hs _
      case writeGprRegisters =>
        rw [ends_threadOf]
        exact (answers_gdbWriteGprRegisters hcore (hid _ _ rfl) (hE _ nofun) (hE _ nofun)
          _).selects hs _
      case selectThread => exact gdbSelectThread_selects (hE _ nofun) hs hkind rest
      case kill => exact silent_terminate.selects hs _
      case readMemory =>
        split
        · exact (answers_errorOrE01 _).selects hs _
        · exact (answers_gdbReadMemory hcore (hE _ nofun) _ _).selects hs _
      case writeMemory =>
        split
        · exact (answers_errorOrE01 _).selects hs _
        · exact (answers_sendError _).selects hs _
        · exact (answers_gdbWriteMemory hcore _ _ _).selects hs _
      case readRegister =>
        rw [ends_threadOf]
        exact (answers_gdbReadRegister hcore (hid _ _ rfl) _).selects hs _
      case writeRegister =>
        split
        · exact (answers_sendError _).selects hs _
        · rw [ends_threadOf]
          exact (answers_gdbWriteRegister hcore (hid _ _ rfl) (hE _ nofun) _ _).selects hs _
      case query =>
        exact (answers_gdbQuery hcore (.inr (hE _ nofun)) (.inr (hE _ nofun))).selects hs _
      case set => exact (answers_gdbSet _).selects hs _
      case step =>
        rw [ends_threadOf]
        exact (answers_gdbStep hcore (hid _ _ rfl)).selects hs _
      case verbose =>
        split
        · next hprefix =>
          rw [if_pos ⟨rfl, hprefix⟩] at hparts
          exact (answers_gdbVContinue hcore (.inr (hE _ nofun)) hparts).selects hs _
        · split
          · exact (answers_respond _).selects hs _
          · exact (answers_sendError _).selects hs _
      case breakpoint => exact (answers_respond _).selects hs _
      case other => exact (answers_respond _).selects hs _

/-! ### What a session keeps -/

/-- There is one halt reason, and what is selected for `c` and `g` is the first thread. -/
structure ThreadsKept (s : Session ω) : Prop where
  haltReasons : s.server.haltReasons.length = 1
  selected : ∀ letter ∈ ['c', 'g'], ∀ threadId,
    s.server.threadSelect (.ofNat letter.toNat) = some threadId → threadId = 1

theorem ThreadsKept.getThreadId_eq (h : ThreadsKept s) (hletter : letter ∈ ['c', 'g'])
    (htext : SuffixNamesThread s.server.threadSuffix text) :
    getThreadId s.server (.ofNat letter.toNat) text = 1 := by
  unfold getThreadId
  split
  · cases hselect : s.server.threadSelect (.ofNat letter.toNat) with
    | none => rfl
    | some threadId => exact h.selected letter hletter threadId hselect
  · next hsuffix =>
    have hon : s.server.threadSuffix = true := by
      cases hoff : s.server.threadSuffix with
      | true => rfl
      | false => exact absurd (.inl (by rw [hoff]; rfl)) hsuffix
    split
    · next digits hdigits =>
      cases hid : simpleAtoiInt digits with
      | none => rfl
      | some threadId => exact htext hon digits threadId hdigits hid
    · rfl

theorem mem_of_threadArgument (h : threadArgument command = some (letter, text)) :
    letter ∈ ['c', 'g'] := by
  cases command with
  | nil => cases h
  | cons c rest =>
    unfold threadArgument at h
    dsimp only at h
    split at h <;> cases h <;> simp

theorem ThreadsKept.serve (hcore : cfg.cores = [core]) (h : ThreadsKept s)
    (hnames : NamesThread s.server.threadSuffix command) :
    ThreadsKept (settle (serveCommand cfg) s command) ∧ IndexSafe cfg s command := by
  have hends := ends_parseGdbCommand (E := fun e => ∀ index, e ≠ .threadIndex index) hcore
    h.haltReasons (fun _ he => he) (.inl ⟨fun letter text harg =>
      h.getThreadId_eq (mem_of_threadArgument harg) (hnames.suffix letter text harg),
      hnames.parts⟩)
  unfold Ends at hends
  unfold settle IndexSafe serveCommand
  cases hrun : (parseGdbCommand cfg command).run s with
  | ok p =>
    rw [hrun] at hends
    refine ⟨⟨hends.1, fun letter hletter threadId hselect => ?_⟩, nofun⟩
    rcases hends.2 _ threadId hselect with hbefore | hnow
    · exact h.selected letter hletter threadId hbefore
    · exact hnames.selects letter hletter threadId hnow
  | error e =>
    rw [hrun] at hends
    refine ⟨h, fun index heq => hends index ?_⟩
    exact Except.error.inj heq

/-- **Threads.** In a session of commands that select and name the first thread only, no index is
    used of a thread that there is not, whatever the core does. -/
theorem threadIndex_safe (hcores : cfg.cores ≠ []) (world : ω) (input : Bytes)
    {commands : List Bytes}
    (hnames : Along (settle (serveCommand cfg.keepFirst))
      (fun s command => NamesThread s.server.threadSuffix command)
      { server := cfg.keepFirst.server, world, input } commands) :
    Along (settle (serveCommand cfg.keepFirst)) (IndexSafe cfg.keepFirst)
      { server := cfg.keepFirst.server, world, input } commands := by
  obtain ⟨core, hcore⟩ := keepFirst_cores hcores
  have hstart : ThreadsKept
      ({ server := cfg.keepFirst.server, world, input } : Session ω) := by
    refine ⟨?_, fun _ _ _ hselect => ?_⟩
    · show (cfg.keepFirst.cores.map fun _ => haltNone).length = 1
      rw [hcore]
      rfl
    · cases hselect
  exact along_of_along ThreadsKept (fun _ _ hs hcommand => (hs.serve hcore hcommand).1)
    (fun _ _ hs hcommand => (hs.serve hcore hcommand).2) hstart hnames

/-- `Hg0` and `g` -/
theorem threadIndex_safe_first :
    Along (settle (serveCommand quietConfig.keepFirst)) (IndexSafe quietConfig.keepFirst)
      quietSession [[0x48, 0x67, 0x30], [0x67]] := by
  refine threadIndex_safe (by decide) () [] ⟨⟨?_, ?_, ?_⟩, ⟨?_, ?_, ?_⟩, trivial⟩
  · intro letter text harg
    cases harg
  · intro part hpart
    cases hpart
  · intro letter _ threadId hselect
    have hfirst : selection [0x48, 0x67, 0x30] = some (0x67, 1) := by decide +kernel
    rw [hfirst] at hselect
    exact (Prod.mk.inj (Option.some.inj hselect)).2.symm
  · intro letter text harg
    have hnone : threadArgument [0x67] = some ('g', []) := by decide +kernel
    rw [hnone] at harg
    cases harg
    intro _ digits threadId hdigits
    have hnone : threadRe [] = none := by decide +kernel
    rw [hnone] at hdigits
    cases hdigits
  · intro part hpart
    cases hpart
  · intro letter _ threadId hselect
    cases hselect

/-- The fault that a command ends in. -/
def faultOf {α : Type} : Except Fault α → Option Fault
  | .ok _ => none
  | .error e => some e

theorem eq_error_of_faultOf {α : Type} {result : Except Fault α} {e : Fault}
    (h : faultOf result = some e) : result = .error e := by
  cases result with
  | ok a => cases h
  | error e' =>
    cases h
    rfl

/-- `Hg5` is accepted, and `g` then uses the index 4. -/
theorem threadIndex_fails :
    ¬Along (settle (serveCommand quietConfig.keepFirst)) (IndexSafe quietConfig.keepFirst)
      quietSession [[0x48, 0x67, 0x35], [0x67]] := by
  rintro ⟨-, hsafe, -⟩
  refine hsafe 4 (eq_error_of_faultOf ?_)
  decide +kernel

end MpactSim.Gdb.GdbServer
