import MpactSim.Lib.Run

namespace MpactSim.Generic

open Lib

/-!
# Program errors

A `ProgramErrorController` keeps the program errors by name.  An error that is raised is in one of
two sets, by whether the error is masked, and has messages.  A call with a name that there is no
error of raises the internal error.

* `raise`, `mask`, `unmask`, `clear`  — the operations;
* `Call.next`                         — a call, with its answer;
* `Raised`, `Masked`                  — what the calls so far say of an error;
* `errors_tracked`                    — the sets and the messages say the same.

`Raise` calls itself, so it has a number of calls that it may make; there is no result where that
is not enough, and none where an index is out of bounds.
-/

/-! ### The source -/

/-- `ProgramErrorInfo` -/
structure ProgramErrorInfo where
  name : String
  isMasked : Bool := false
  errorMessages : List String := []
  deriving DecidableEq

/-- `ProgramErrorController`.  The entries of the map are in the order in which they were made. -/
structure ProgramErrorController where
  name : String
  programErrorMap : List (String × Nat) := []
  unmaskedProgramErrors : Finset Nat := ∅
  maskedProgramErrors : Finset Nat := ∅
  programErrorInfo : List ProgramErrorInfo := []
  deriving DecidableEq

namespace ProgramErrorController

/-- `kInternalErrorName` -/
def internalErrorName : String := "internal_simulator_error"

/-- The index of a name in the map. -/
def find (c : ProgramErrorController) (name : String) : Option Nat :=
  (c.programErrorMap.find? fun entry => entry.1 == name).map Prod.snd

/-- `Insert` -/
def insert (c : ProgramErrorController) (name : String) : ProgramErrorController :=
  { c with
    programErrorMap := c.programErrorMap ++ [(name, c.programErrorInfo.length)]
    programErrorInfo := c.programErrorInfo ++ [{ name }] }

/-- The constructor. -/
def create (name : String) : ProgramErrorController :=
  ({ name } : ProgramErrorController).insert internalErrorName

/-- `Raise`, with the number of calls that may be made. -/
def raise : Nat → ProgramErrorController → String → String → Option ProgramErrorController
  | 0, _, _, _ => none
  | calls + 1, c, name, message =>
    match c.find name with
    | some index => do
      let info ← c.programErrorInfo[index]?
      some { c with
        maskedProgramErrors :=
          if info.isMasked then Insert.insert index c.maskedProgramErrors else c.maskedProgramErrors
        unmaskedProgramErrors :=
          if info.isMasked then c.unmaskedProgramErrors
          else Insert.insert index c.unmaskedProgramErrors
        programErrorInfo := c.programErrorInfo.set index
          { info with errorMessages := info.errorMessages ++ [message] } }
    | none =>
      raise calls c internalErrorName ("Unknown program_error_name in Raise with message: " ++ message)

/-- `AddProgramErrorName` -/
def addProgramErrorName (calls : Nat) (c : ProgramErrorController) (name : String) :
    Option (Bool × ProgramErrorController) :=
  match c.find name with
  | some _ =>
    (c.raise calls internalErrorName "Duplicate program error name in AddProgramError").map
      fun c => (false, c)
  | none => some (true, c.insert name)

/-- `Clear` -/
def clear (calls : Nat) (c : ProgramErrorController) (name : String) :
    Option ProgramErrorController :=
  match c.find name with
  | some index => do
    let info ← c.programErrorInfo[index]?
    some { c with
      programErrorInfo := c.programErrorInfo.set index { info with errorMessages := [] }
      unmaskedProgramErrors := c.unmaskedProgramErrors.erase index
      maskedProgramErrors := c.maskedProgramErrors.erase index }
  | none => c.raise calls internalErrorName "Unknown program_error_name in Clear()"

/-- `ClearAll` -/
def clearAll (c : ProgramErrorController) : ProgramErrorController :=
  { c with
    programErrorInfo := c.programErrorInfo.map fun info => { info with errorMessages := [] }
    unmaskedProgramErrors := ∅
    maskedProgramErrors := ∅ }

/-- `Mask`.  An error in the unmasked set moves to the other. -/
def mask (calls : Nat) (c : ProgramErrorController) (name : String) :
    Option ProgramErrorController :=
  if name = internalErrorName then
    c.raise calls internalErrorName "Cannot mask internal simulator error"
  else
    match c.find name with
    | some index => do
      let info ← c.programErrorInfo[index]?
      let moves := index ∈ c.unmaskedProgramErrors
      some { c with
        programErrorInfo := c.programErrorInfo.set index { info with isMasked := true }
        unmaskedProgramErrors := c.unmaskedProgramErrors.erase index
        maskedProgramErrors :=
          if moves then Insert.insert index c.maskedProgramErrors else c.maskedProgramErrors }
    | none => c.raise calls internalErrorName "Unknown program_error_name in Mask()"

/-- `Unmask` -/
def unmask (calls : Nat) (c : ProgramErrorController) (name : String) :
    Option ProgramErrorController :=
  match c.find name with
  | some index => do
    let info ← c.programErrorInfo[index]?
    let moves := index ∈ c.maskedProgramErrors
    some { c with
      programErrorInfo := c.programErrorInfo.set index { info with isMasked := false }
      maskedProgramErrors := c.maskedProgramErrors.erase index
      unmaskedProgramErrors :=
        if moves then Insert.insert index c.unmaskedProgramErrors else c.unmaskedProgramErrors }
  | none => c.raise calls internalErrorName "Unknown program_error_name in Mask()"

/-- `IsMasked` -/
def isMasked (calls : Nat) (c : ProgramErrorController) (name : String) :
    Option (Bool × ProgramErrorController) :=
  match c.find name with
  | some index => c.programErrorInfo[index]?.map fun info => (info.isMasked, c)
  | none =>
    (c.raise calls internalErrorName "Unknown program_error_name in IsMasked()").map
      fun c => (false, c)

/-- `GetErrorMessages`, which calls itself for the messages of the internal error. -/
def getErrorMessages : Nat → ProgramErrorController → String →
    Option (List String × ProgramErrorController)
  | 0, _, _ => none
  | calls + 1, c, name =>
    match c.find name with
    | some index => c.programErrorInfo[index]?.map fun info => (info.errorMessages, c)
    | none => do
      let c ← c.raise (calls + 1) internalErrorName "Unknown program_error_name in GetErrorMessages"
      getErrorMessages calls c internalErrorName

/-- A call of the controller.  `ProgramError::Raise` is `raise` with the name of the error. -/
inductive Call where
  | addProgramErrorName (name : String)
  | raise (name message : String)
  | mask (name : String)
  | unmask (name : String)
  | clear (name : String)
  | clearAll
  | isMasked (name : String)
  | getErrorMessages (name : String)
  deriving DecidableEq

/-- What a call returns. -/
inductive Answer where
  | nothing
  | flag (value : Bool)
  | messages (messages : List String)
  deriving DecidableEq

namespace Call

/-- A call, with its answer. -/
def next (calls : Nat) (c : ProgramErrorController) : Call → Option (Answer × ProgramErrorController)
  | addProgramErrorName name =>
    (c.addProgramErrorName calls name).map fun (b, c) => (.flag b, c)
  | raise name message => (c.raise calls name message).map fun c => (.nothing, c)
  | mask name => (c.mask calls name).map fun c => (.nothing, c)
  | unmask name => (c.unmask calls name).map fun c => (.nothing, c)
  | clear name => (c.clear calls name).map fun c => (.nothing, c)
  | clearAll => some (.nothing, c.clearAll)
  | isMasked name => (c.isMasked calls name).map fun (b, c) => (.flag b, c)
  | getErrorMessages name =>
    (c.getErrorMessages calls name).map fun (messages, c) => (.messages messages, c)

/-- The controller after a call; a call without a result is not one. -/
def step (calls : Nat) (c : ProgramErrorController) (call : Call) : ProgramErrorController :=
  attempt (fun c call => (call.next calls c).map Prod.snd) c call

end Call

/-! ### The specification -/

/-- `HasProgramErrorName` -/
def Has (c : ProgramErrorController) (e : String) : Prop := (c.find e).isSome

/-- What is kept of an error. -/
def info (c : ProgramErrorController) (e : String) : Option ProgramErrorInfo :=
  (c.find e).bind fun index => c.programErrorInfo[index]?

/-- The error is in the unmasked set. -/
def InUnmasked (c : ProgramErrorController) (e : String) : Prop :=
  ∃ index, c.find e = some index ∧ index ∈ c.unmaskedProgramErrors

/-- The error is in the masked set. -/
def InMasked (c : ProgramErrorController) (e : String) : Prop :=
  ∃ index, c.find e = some index ∧ index ∈ c.maskedProgramErrors

/-- The error has messages. -/
def HasMessages (c : ProgramErrorController) (e : String) : Prop :=
  ∃ i, c.info e = some i ∧ i.errorMessages ≠ []

/-- The error is masked. -/
def IsMasked (c : ProgramErrorController) (e : String) : Prop :=
  ∃ i, c.info e = some i ∧ i.isMasked = true

namespace Call

/-- The name that a call looks up for something other than to add it. -/
def looksUp : Call → Option String
  | raise name _ | mask name | unmask name | clear name | isMasked name
  | getErrorMessages name => some name
  | addProgramErrorName _ | clearAll => none

/-- The call raises the internal error: its name is unknown, or known where it is to be added, or
    it is to mask the internal error. -/
def RaisesInternal (c : ProgramErrorController) (call : Call) : Prop :=
  (∃ name, call.looksUp = some name ∧ ¬c.Has name) ∨
    (∃ name, call = addProgramErrorName name ∧ c.Has name) ∨ call = mask internalErrorName

/-- The call raises an error. -/
def Raises (e : String) (c : ProgramErrorController) (call : Call) : Prop :=
  (c.Has e ∧ ∃ message, call = raise e message) ∨ e = internalErrorName ∧ call.RaisesInternal c

/-- The call leaves the messages of an error. -/
def Keeps (e : String) (_ : ProgramErrorController) (call : Call) : Prop :=
  call ≠ clear e ∧ call ≠ clearAll

/-- The call masks an error. -/
def Masks (e : String) (c : ProgramErrorController) (call : Call) : Prop :=
  call = mask e ∧ c.Has e ∧ e ≠ internalErrorName

/-- The call does not unmask an error. -/
def KeepsMask (e : String) (_ : ProgramErrorController) (call : Call) : Prop := call ≠ unmask e

end Call

/-- The error was raised since it was last cleared. -/
def Raised (calls : Nat) (c : ProgramErrorController) (reqs : List Call) (e : String) : Prop :=
  Since (Call.step calls) (Call.Raises e) (Call.Keeps e) c reqs

/-- The error was masked since it was last unmasked. -/
def Masked (calls : Nat) (c : ProgramErrorController) (reqs : List Call) (e : String) : Prop :=
  Since (Call.step calls) (Call.Masks e) (Call.KeepsMask e) c reqs

/-- What the controller keeps: names and indices go together, the internal error is there and not
    masked, and an error with messages is in the set that its mask says. -/
structure Wf (c : ProgramErrorController) : Prop where
  find_iff : ∀ e index, c.find e = some index ↔
    ∃ i, c.programErrorInfo[index]? = some i ∧ i.name = e
  internal : ∃ i, c.info internalErrorName = some i ∧ i.isMasked = false
  mem_unmasked : ∀ index, index ∈ c.unmaskedProgramErrors ↔
    ∃ i, c.programErrorInfo[index]? = some i ∧ i.isMasked = false ∧ i.errorMessages ≠ []
  mem_masked : ∀ index, index ∈ c.maskedProgramErrors ↔
    ∃ i, c.programErrorInfo[index]? = some i ∧ i.isMasked = true ∧ i.errorMessages ≠ []

/-- What a call does to the error `e`, and to no other. -/
structure Changes (c : ProgramErrorController) (e : String)
    (f : ProgramErrorInfo → ProgramErrorInfo) (c' : ProgramErrorController) : Prop where
  wf : c'.Wf
  info_eq : ∀ e', c'.info e' = if e' = e then (c.info e).map f else c.info e'

variable {c c' : ProgramErrorController} {e name : String} {calls : Nat}

/-! ### What is kept -/

theorem Wf.info_eq_some (h : c.Wf) {i : ProgramErrorInfo} :
    c.info e = some i ↔ i.name = e ∧ ∃ index : Nat, c.programErrorInfo[index]? = some i := by
  unfold info
  rw [Option.bind_eq_some_iff]
  constructor
  · rintro ⟨index, hfind, hi⟩
    obtain ⟨i', hi', hname⟩ := (h.find_iff e index).mp hfind
    obtain rfl := Option.some.inj (hi.symm.trans hi')
    exact ⟨hname, index, hi⟩
  · rintro ⟨hname, index, hi⟩
    exact ⟨index, (h.find_iff e index).mpr ⟨i, hi, hname⟩, hi⟩

theorem Wf.exists_info (h : c.Wf) {index : Nat} (hfind : c.find e = some index) :
    ∃ i, c.programErrorInfo[index]? = some i ∧ i.name = e ∧ c.info e = some i := by
  obtain ⟨i, hi, hname⟩ := (h.find_iff e index).mp hfind
  exact ⟨i, hi, hname, h.info_eq_some.mpr ⟨hname, index, hi⟩⟩

theorem Wf.has_iff (h : c.Wf) : c.Has e ↔ ∃ i, c.info e = some i := by
  unfold Has
  rw [Option.isSome_iff_exists]
  constructor
  · rintro ⟨index, hfind⟩
    obtain ⟨i, -, -, hinfo⟩ := h.exists_info hfind
    exact ⟨i, hinfo⟩
  · rintro ⟨i, hinfo⟩
    obtain ⟨index, hfind, -⟩ := Option.bind_eq_some_iff.mp hinfo
    exact ⟨index, hfind⟩

theorem Wf.has_internal (h : c.Wf) : c.Has internalErrorName := by
  obtain ⟨i, hinfo, -⟩ := h.internal
  exact h.has_iff.mpr ⟨i, hinfo⟩

theorem exists_find_iff {P : ProgramErrorInfo → Prop} :
    (∃ index, c.find e = some index ∧ ∃ i, c.programErrorInfo[index]? = some i ∧ P i) ↔
      ∃ i, c.info e = some i ∧ P i := by
  simp only [info, Option.bind_eq_some_iff]
  constructor
  · rintro ⟨index, hfind, i, hi, hP⟩
    exact ⟨i, ⟨index, hfind, hi⟩, hP⟩
  · rintro ⟨i, ⟨index, hfind, hi⟩, hP⟩
    exact ⟨index, hfind, i, hi, hP⟩

theorem Wf.inUnmasked_iff (h : c.Wf) : c.InUnmasked e ↔ c.HasMessages e ∧ ¬c.IsMasked e := by
  simp only [InUnmasked, h.mem_unmasked, exists_find_iff, HasMessages, IsMasked]
  cases c.info e <;> simp [and_comm]

theorem Wf.inMasked_iff (h : c.Wf) : c.InMasked e ↔ c.HasMessages e ∧ c.IsMasked e := by
  simp only [InMasked, h.mem_masked, exists_find_iff, HasMessages, IsMasked]
  cases c.info e <;> simp [and_comm]

theorem Wf.disjoint (h : c.Wf) : Disjoint c.unmaskedProgramErrors c.maskedProgramErrors := by
  rw [Finset.disjoint_left]
  intro index hunmasked hmasked
  obtain ⟨i, hi, hmask, -⟩ := (h.mem_unmasked index).mp hunmasked
  obtain ⟨i', hi', hmask', -⟩ := (h.mem_masked index).mp hmasked
  simp_all

theorem Wf.not_isMasked_internal (h : c.Wf) : ¬c.IsMasked internalErrorName := by
  obtain ⟨i, hinfo, hmask⟩ := h.internal
  simp [IsMasked, hinfo, hmask]

theorem Wf.isMasked_eq_false (h : c.Wf) {i : ProgramErrorInfo} (hinfo : c.info i.name = some i)
    (heq : i.name = internalErrorName) : i.isMasked = false := by
  obtain ⟨i', hinfo', hmask⟩ := h.internal
  rw [← heq, hinfo] at hinfo'
  cases hinfo'
  exact hmask

/-! ### The operations -/

/-- An entry that is put in the place of one with the same name, and in the set it belongs in. -/
theorem Wf.update (h : c.Wf) {index : Nat} {i : ProgramErrorInfo}
    {f : ProgramErrorInfo → ProgramErrorInfo} (hi : c.programErrorInfo[index]? = some i)
    (hname : (f i).name = i.name) (hinternal : i.name = internalErrorName → (f i).isMasked = false)
    (hmap : c'.programErrorMap = c.programErrorMap)
    (hlist : c'.programErrorInfo = c.programErrorInfo.set index (f i))
    (hunmasked : ∀ k, k ∈ c'.unmaskedProgramErrors ↔
      if k = index then (f i).isMasked = false ∧ (f i).errorMessages ≠ []
      else k ∈ c.unmaskedProgramErrors)
    (hmasked : ∀ k, k ∈ c'.maskedProgramErrors ↔
      if k = index then (f i).isMasked = true ∧ (f i).errorMessages ≠ []
      else k ∈ c.maskedProgramErrors) : c.Changes i.name f c' := by
  have hself : c'.programErrorInfo[index]? = some (f i) := by
    rw [hlist, List.getElem?_set_self (List.getElem?_eq_some_iff.mp hi).1]
  have hother : ∀ k, k ≠ index → c'.programErrorInfo[k]? = c.programErrorInfo[k]? := by
    intro k hk
    rw [hlist, List.getElem?_set_ne hk.symm]
  have hfind : ∀ e, c'.find e = c.find e := fun e => by rw [find, hmap, find]
  have hinfo : ∀ e', c'.info e' = if e' = i.name then (c.info i.name).map f else c.info e' := by
    intro e'
    have hthis : c.find i.name = some index := (h.find_iff _ _).mpr ⟨i, hi, rfl⟩
    split
    · next heq =>
      rw [heq, info, info, hfind, hthis, Option.bind_some, Option.bind_some, hself, hi]
      rfl
    · next hne =>
      rw [info, info, hfind]
      cases hk : c.find e' with
      | none => rfl
      | some k =>
        obtain ⟨i', hi', hname', -⟩ := h.exists_info hk
        refine hother k fun heq => hne ?_
        subst heq
        rw [← hname', Option.some.inj (hi.symm.trans hi')]
  refine ⟨⟨?_, ?_, ?_, ?_⟩, hinfo⟩
  · intro e k
    rw [hfind, h.find_iff]
    by_cases hk : k = index
    · subst hk
      simp [hself, hi, hname]
    · rw [hother k hk]
  · rw [hinfo]
    obtain ⟨i', hinfo', hmask'⟩ := h.internal
    split
    · next heq =>
      have hthis : c.info i.name = some i := h.info_eq_some.mpr ⟨rfl, index, hi⟩
      exact ⟨f i, by rw [hthis]; rfl, hinternal heq.symm⟩
    · exact ⟨i', hinfo', hmask'⟩
  · intro k
    rw [hunmasked]
    split
    · next hk =>
      subst hk
      simp [hself]
    · next hk => rw [hother k hk, h.mem_unmasked]
  · intro k
    rw [hmasked]
    split
    · next hk =>
      subst hk
      simp [hself]
    · next hk => rw [hother k hk, h.mem_masked]

/-- One more message. -/
def push (message : String) (i : ProgramErrorInfo) : ProgramErrorInfo :=
  { i with errorMessages := i.errorMessages ++ [message] }

theorem Wf.raise_known (h : c.Wf) (hname : c.Has name) (calls : Nat) (message : String) :
    ∃ c', c.raise (calls + 1) name message = some c' ∧ c.Changes name (push message) c' := by
  obtain ⟨index, hfind⟩ := Option.isSome_iff_exists.mp hname
  obtain ⟨i, hi, rfl, hinfo⟩ := h.exists_info hfind
  rw [raise, hfind]
  dsimp only
  rw [hi]
  refine ⟨_, rfl, h.update hi rfl (h.isMasked_eq_false hinfo) rfl rfl ?_ ?_⟩
  -- The error is put in the set of its mask; in the other it is not.
  · intro k
    by_cases hk : k = index
    · subst hk
      cases hmask : i.isMasked <;> simp [push, hmask, h.mem_unmasked, hi]
    · cases i.isMasked <;> simp [hk]
  · intro k
    by_cases hk : k = index
    · subst hk
      cases hmask : i.isMasked <;> simp [push, hmask, h.mem_masked, hi]
    · cases i.isMasked <;> simp [hk]

/-- **`Raise`** ends after two calls: it adds a message to the error, or to the internal one. -/
theorem Wf.raise_spec (h : c.Wf) (calls : Nat) (name message : String) :
    ∃ c' message', c.raise (calls + 2) name message = some c' ∧
      c.Changes (if (c.find name).isSome then name else internalErrorName) (push message') c' := by
  split
  · next hname =>
    obtain ⟨c', hrun, hchanges⟩ := h.raise_known hname (calls + 1) message
    exact ⟨c', message, hrun, hchanges⟩
  · next hname =>
    have hnone : c.find name = none := Option.not_isSome_iff_eq_none.mp hname
    obtain ⟨c', hrun, hchanges⟩ := h.raise_known h.has_internal calls
      ("Unknown program_error_name in Raise with message: " ++ message)
    refine ⟨c', _, ?_, hchanges⟩
    rw [raise, hnone]
    exact hrun

theorem Wf.insert_spec (h : c.Wf) (hnew : c.find name = none) :
    (c.insert name).Wf ∧ ∀ e, (c.insert name).info e =
      if e = name then some { name } else c.info e := by
  have hlen : (c.insert name).programErrorInfo[c.programErrorInfo.length]? = some { name } :=
    List.getElem?_concat_length
  have hold : ∀ k, k ≠ c.programErrorInfo.length →
      (c.insert name).programErrorInfo[k]? = c.programErrorInfo[k]? := by
    intro k hk
    show (c.programErrorInfo ++ [_])[k]? = _
    rcases Nat.lt_or_ge k c.programErrorInfo.length with hlt | hge
    · exact List.getElem?_append_left hlt
    · rw [List.getElem?_eq_none hge, List.getElem?_eq_none]
      rw [List.length_append, List.length_singleton]
      omega
  have hfind : ∀ e, (c.insert name).find e =
      if e = name then some c.programErrorInfo.length else c.find e := by
    intro e
    unfold find insert
    rw [List.find?_append]
    split
    · next heq =>
      subst heq
      have hnone : c.programErrorMap.find? (fun entry => entry.1 == e) = none :=
        Option.map_eq_none_iff.mp hnew
      simp [hnone]
    · next hne => simp [Ne.symm hne]
  have hbound : ∀ e k, c.find e = some k → k ≠ c.programErrorInfo.length := by
    intro e k hk
    obtain ⟨i, hi, -⟩ := (h.find_iff e k).mp hk
    exact (List.getElem?_eq_some_iff.mp hi).1.ne
  have hinfo : ∀ e, (c.insert name).info e = if e = name then some { name } else c.info e := by
    intro e
    unfold info
    rw [hfind]
    split
    · exact hlen
    · cases hk : c.find e with
      | none => rfl
      | some k => exact hold k (hbound e k hk)
  refine ⟨⟨?_, ?_, ?_, ?_⟩, hinfo⟩
  · intro e k
    rw [hfind]
    by_cases hk : k = c.programErrorInfo.length
    · subst hk
      rw [hlen]
      by_cases he : e = name
      · simp [he]
      · rw [if_neg he]
        constructor
        · intro hfound
          exact absurd rfl (hbound e _ hfound)
        · rintro ⟨i, hi, rfl⟩
          cases hi
          exact absurd rfl he
    · rw [hold k hk, ← h.find_iff]
      by_cases he : e = name
      · subst he
        rw [if_pos rfl, hnew]
        simp [Ne.symm hk]
      · rw [if_neg he]
  · rw [hinfo]
    split
    · exact ⟨_, rfl, rfl⟩
    · exact h.internal
  · intro k
    show k ∈ c.unmaskedProgramErrors ↔ _
    rw [h.mem_unmasked]
    by_cases hk : k = c.programErrorInfo.length
    · subst hk
      simp [hlen]
    · rw [hold k hk]
  · intro k
    show k ∈ c.maskedProgramErrors ↔ _
    rw [h.mem_masked]
    by_cases hk : k = c.programErrorInfo.length
    · subst hk
      simp [hlen]
    · rw [hold k hk]

theorem wf_create (name : String) : (create name).Wf := by
  have hfind : ∀ e, (create name).find e = if internalErrorName = e then some 0 else none := by
    intro e
    show (([(internalErrorName, 0)] : List (String × Nat)).find? _).map Prod.snd = _
    rw [List.find?_singleton]
    simp only [beq_iff_eq]
    split <;> rfl
  have hlist : ∀ index : Nat, (create name).programErrorInfo[index]? =
      if index = 0 then some { name := internalErrorName } else none := by
    intro index
    cases index <;> rfl
  refine ⟨?_, ⟨{ name := internalErrorName }, ?_, rfl⟩, ?_, ?_⟩
  · intro e index
    rw [hfind, hlist]
    by_cases hindex : index = 0
    · simp [hindex]
    · simp [hindex, Ne.symm hindex]
  · rw [info, hfind, if_pos rfl]
    rfl
  · intro index
    show index ∈ (∅ : Finset Nat) ↔ _
    rw [hlist]
    split <;> simp
  · intro index
    show index ∈ (∅ : Finset Nat) ↔ _
    rw [hlist]
    split <;> simp

/-! ### The calls -/

/-- Without its messages. -/
def cleared (i : ProgramErrorInfo) : ProgramErrorInfo := { i with errorMessages := [] }

/-- Masked, or not. -/
def withMask (value : Bool) (i : ProgramErrorInfo) : ProgramErrorInfo := { i with isMasked := value }

theorem Wf.clear_known (h : c.Wf) (hname : c.Has name) (calls : Nat) :
    ∃ c', c.clear calls name = some c' ∧ c.Changes name cleared c' := by
  obtain ⟨index, hfind⟩ := Option.isSome_iff_exists.mp hname
  obtain ⟨i, hi, rfl, hinfo⟩ := h.exists_info hfind
  rw [clear, hfind]
  dsimp only
  rw [hi]
  refine ⟨_, rfl, h.update hi rfl (h.isMasked_eq_false hinfo) rfl rfl ?_ ?_⟩
  · intro k
    by_cases hk : k = index <;> simp [hk, cleared]
  · intro k
    by_cases hk : k = index <;> simp [hk, cleared]

theorem Wf.mask_known (h : c.Wf) (hname : c.Has name) (hne : name ≠ internalErrorName)
    (calls : Nat) : ∃ c', c.mask calls name = some c' ∧ c.Changes name (withMask true) c' := by
  obtain ⟨index, hfind⟩ := Option.isSome_iff_exists.mp hname
  obtain ⟨i, hi, rfl, hinfo⟩ := h.exists_info hfind
  rw [mask, if_neg hne, hfind]
  dsimp only
  rw [hi]
  refine ⟨_, rfl, h.update hi rfl (fun heq => absurd heq hne) rfl rfl ?_ ?_⟩
  · intro k
    by_cases hk : k = index <;> simp [hk, withMask]
  -- It is in the masked set if it was there, or if it comes from the other.
  · intro k
    by_cases hk : k = index
    · subst hk
      cases hmask : i.isMasked <;>
        by_cases hmessages : i.errorMessages = [] <;>
          simp [withMask, h.mem_unmasked, h.mem_masked, hi, hmask, hmessages]
    · by_cases hmoves : index ∈ c.unmaskedProgramErrors <;> simp [hk, hmoves]

theorem Wf.unmask_known (h : c.Wf) (hname : c.Has name) (calls : Nat) :
    ∃ c', c.unmask calls name = some c' ∧ c.Changes name (withMask false) c' := by
  obtain ⟨index, hfind⟩ := Option.isSome_iff_exists.mp hname
  obtain ⟨i, hi, rfl, hinfo⟩ := h.exists_info hfind
  rw [unmask, hfind]
  dsimp only
  rw [hi]
  refine ⟨_, rfl, h.update hi rfl (fun _ => rfl) rfl rfl ?_ ?_⟩
  · intro k
    by_cases hk : k = index
    · subst hk
      cases hmask : i.isMasked <;>
        by_cases hmessages : i.errorMessages = [] <;>
          simp [withMask, h.mem_unmasked, h.mem_masked, hi, hmask, hmessages]
    · by_cases hmoves : index ∈ c.maskedProgramErrors <;> simp [hk, hmoves]
  · intro k
    by_cases hk : k = index <;> simp [hk, withMask]

theorem Wf.clearAll_spec (h : c.Wf) :
    c.clearAll.Wf ∧ ∀ e, c.clearAll.info e = (c.info e).map cleared := by
  have hlist : ∀ index : Nat, c.clearAll.programErrorInfo[index]? =
      (c.programErrorInfo[index]?).map cleared := fun _ => List.getElem?_map
  have hfind : ∀ e, c.clearAll.find e = c.find e := fun _ => rfl
  have hinfo : ∀ e, c.clearAll.info e = (c.info e).map cleared := by
    intro e
    unfold info
    rw [hfind, Option.map_bind]
    exact congrArg _ (funext hlist)
  refine ⟨⟨?_, ?_, ?_, ?_⟩, hinfo⟩
  · intro e index
    rw [hfind, h.find_iff, hlist]
    simp [cleared]
  · obtain ⟨i, hi, hmask⟩ := h.internal
    exact ⟨cleared i, by rw [hinfo, hi, Option.map_some], hmask⟩
  · intro index
    show index ∈ (∅ : Finset Nat) ↔ _
    simp [hlist, cleared]
  · intro index
    show index ∈ (∅ : Finset Nat) ↔ _
    simp [hlist, cleared]

variable {call : Call} {f : ProgramErrorInfo → ProgramErrorInfo} {message : String}

/-- **Internal errors.** A call that raises the internal error does nothing else. -/
theorem Wf.internal_spec (h : c.Wf) (hcall : call.RaisesInternal c) (calls : Nat) :
    ∃ answer c' message, call.next (calls + 2) c = some (answer, c') ∧
      c.Changes internalErrorName (push message) c' := by
  choose after hrun hchanges using h.raise_known h.has_internal (calls + 1)
  rcases hcall with ⟨name, hlooks, hname⟩ | ⟨name, rfl, hname⟩ | rfl
  · have hnone : c.find name = none := Option.not_isSome_iff_eq_none.mp hname
    have hne : name ≠ internalErrorName := fun heq => hname (heq ▸ h.has_internal)
    cases call with
    | addProgramErrorName | clearAll => cases hlooks
    | raise name' message =>
      cases hlooks
      obtain ⟨c', message', hrun, hchanges⟩ := h.raise_spec calls name message
      rw [hnone] at hchanges
      exact ⟨_, c', message', by rw [Call.next, hrun]; rfl, hchanges⟩
    | mask | unmask | clear | isMasked =>
      cases hlooks
      simp only [Call.next, mask, unmask, clear, isMasked, hnone, if_neg hne, hrun, Option.map_some]
      exact ⟨_, _, _, rfl, hchanges _⟩
    | getErrorMessages =>
      cases hlooks
      -- The internal error is still there, so that its messages are what is returned.
      have hwf := (hchanges "Unknown program_error_name in GetErrorMessages").wf
      obtain ⟨index, hfind⟩ := Option.isSome_iff_exists.mp hwf.has_internal
      obtain ⟨i, hi, -⟩ := hwf.exists_info hfind
      simp only [Call.next, getErrorMessages, hnone, hrun, Option.bind_eq_bind, Option.bind_some, hfind,
        hi, Option.map_some]
      exact ⟨_, _, _, rfl, hchanges _⟩
  · obtain ⟨index, hfind⟩ := Option.isSome_iff_exists.mp hname
    simp only [Call.next, addProgramErrorName, hfind, hrun, Option.map_some]
    exact ⟨_, _, _, rfl, hchanges _⟩
  · simp only [Call.next, mask, if_true, hrun, Option.map_some]
    exact ⟨_, _, _, rfl, hchanges _⟩

/-! ### Messages and masks -/

theorem HasMessages.has (h : c.Wf) (hmessages : c.HasMessages e) : c.Has e := by
  obtain ⟨i, hinfo, -⟩ := hmessages
  exact h.has_iff.mpr ⟨i, hinfo⟩

theorem IsMasked.has (h : c.Wf) (hmasked : c.IsMasked e) : c.Has e := by
  obtain ⟨i, hinfo, -⟩ := hmasked
  exact h.has_iff.mpr ⟨i, hinfo⟩

theorem Changes.isMasked_iff (h : c.Changes name f c') (hf : ∀ i, (f i).isMasked = i.isMasked)
    (e : String) : c'.IsMasked e ↔ c.IsMasked e := by
  simp only [IsMasked, h.info_eq]
  split <;> simp_all

theorem Changes.hasMessages_iff (h : c.Changes name f c')
    (hf : ∀ i, (f i).errorMessages = i.errorMessages) (e : String) :
    c'.HasMessages e ↔ c.HasMessages e := by
  simp only [HasMessages, h.info_eq]
  split <;> simp_all

theorem Changes.hasMessages_push (h : c.Changes name (push message) c') (hwf : c.Wf)
    (hname : c.Has name) (e : String) : c'.HasMessages e ↔ e = name ∨ c.HasMessages e := by
  obtain ⟨i, hi⟩ := hwf.has_iff.mp hname
  simp only [HasMessages, h.info_eq]
  split <;> simp_all [push]

theorem Changes.hasMessages_cleared (h : c.Changes name cleared c') (e : String) :
    c'.HasMessages e ↔ e ≠ name ∧ c.HasMessages e := by
  simp only [HasMessages, h.info_eq]
  split <;> simp_all [cleared]

theorem Changes.isMasked_withMask {value : Bool} (h : c.Changes name (withMask value) c')
    (hwf : c.Wf) (hname : c.Has name) (e : String) :
    c'.IsMasked e ↔ if e = name then value = true else c.IsMasked e := by
  obtain ⟨i, hi⟩ := hwf.has_iff.mp hname
  simp only [IsMasked, h.info_eq]
  split <;> simp_all [withMask]

/-- What a call does, by its request. -/
structure Serves (c : ProgramErrorController) (call : Call) (c' : ProgramErrorController) :
    Prop where
  wf : c'.Wf
  hasMessages_iff : ∀ e, c'.HasMessages e ↔ call.Raises e c ∨ c.HasMessages e ∧ call.Keeps e c
  isMasked_iff : ∀ e, c'.IsMasked e ↔ call.Masks e c ∨ c.IsMasked e ∧ call.KeepsMask e c

theorem Call.RaisesInternal.not_has (h : call.RaisesInternal c) (hlooks : call.looksUp = some e)
    (hmask : call ≠ .mask internalErrorName) : ¬c.Has e := by
  rcases h with ⟨name, hname, hnot⟩ | ⟨name, rfl, -⟩ | rfl
  · obtain rfl := Option.some.inj (hlooks.symm.trans hname)
    exact hnot
  · cases hlooks
  · exact absurd rfl hmask

theorem Wf.serves_internal (h : c.Wf) (hcall : call.RaisesInternal c)
    (hchanges : c.Changes internalErrorName (push message) c') : c.Serves call c' := by
  refine ⟨hchanges.wf, ?_, ?_⟩
  · intro e
    rw [hchanges.hasMessages_push h h.has_internal]
    have hraise : call.Raises e c ↔ e = internalErrorName := by
      refine ⟨?_, fun he => .inr ⟨he, hcall⟩⟩
      rintro (⟨hhas, message, rfl⟩ | ⟨he, -⟩)
      · exact absurd hhas (hcall.not_has rfl nofun)
      · exact he
    have hkeep : c.HasMessages e → call.Keeps e c := by
      intro hmessages
      refine ⟨?_, ?_⟩
      · rintro rfl
        exact hcall.not_has rfl nofun (hmessages.has h)
      · rintro rfl
        rcases hcall with ⟨_, hlooks, -⟩ | ⟨_, heq, -⟩ | heq
        · cases hlooks
        · cases heq
        · cases heq
    rw [hraise, and_iff_left_of_imp hkeep]
  · intro e
    rw [hchanges.isMasked_iff fun _ => rfl]
    have hmask : ¬call.Masks e c := by
      rintro ⟨rfl, hhas, hne⟩
      refine hcall.not_has rfl (fun heq => hne ?_) hhas
      cases heq
      rfl
    have hkeep : c.IsMasked e → call.KeepsMask e c := by
      rintro hmasked rfl
      exact hcall.not_has rfl nofun (hmasked.has h)
    rw [or_iff_right hmask, and_iff_left_of_imp hkeep]

/-- **Step.** A call returns, and does what its request says. -/
theorem Wf.next_spec (h : c.Wf) (call : Call) (calls : Nat) :
    ∃ answer c', call.next (calls + 2) c = some (answer, c') ∧ c.Serves call c' := by
  by_cases hcall : call.RaisesInternal c
  · obtain ⟨answer, c', message, hrun, hchanges⟩ := h.internal_spec hcall calls
    exact ⟨answer, c', hrun, h.serves_internal hcall hchanges⟩
  -- The name is known, but for one that is added.
  have hhas : ∀ name, call.looksUp = some name → c.Has name := by
    intro name hlooks
    by_contra hnot
    exact hcall (.inl ⟨name, hlooks, hnot⟩)
  cases call with
  | addProgramErrorName name =>
    have hnone : c.find name = none := by
      by_contra hsome
      exact hcall (.inr (.inl ⟨name, rfl, Option.isSome_iff_ne_none.mpr hsome⟩))
    obtain ⟨hwf, hinfo⟩ := h.insert_spec hnone
    have hold : ∀ e, e = name → c.info e = none := by
      rintro e rfl
      rw [info, hnone, Option.bind_none]
    refine ⟨.flag true, c.insert name, by rw [Call.next, addProgramErrorName, hnone]; rfl, hwf, ?_, ?_⟩
    · intro e
      unfold HasMessages
      rw [hinfo]
      split
      · next heq => simp [hold e heq, Call.Raises, hcall]
      · simp [Call.Raises, Call.Keeps, hcall]
    · intro e
      unfold IsMasked
      rw [hinfo]
      split
      · next heq => simp [hold e heq, Call.Masks]
      · simp [Call.Masks, Call.KeepsMask]
  | raise name message =>
    have hname := hhas name rfl
    obtain ⟨c', hrun, hchanges⟩ := h.raise_known hname (calls + 1) message
    refine ⟨.nothing, c', by rw [Call.next, hrun]; rfl, hchanges.wf, ?_, ?_⟩
    · intro e
      rw [hchanges.hasMessages_push h hname]
      simp only [Call.Raises, Call.Keeps, hcall, and_false, or_false, Call.raise.injEq]
      by_cases he : e = name
      · simp [he, hname]
      · simp [he, Ne.symm he]
    · intro e
      rw [hchanges.isMasked_iff fun _ => rfl]
      simp [Call.Masks, Call.KeepsMask]
  | mask name =>
    have hname := hhas name rfl
    have hne : name ≠ internalErrorName := by
      rintro rfl
      exact hcall (.inr (.inr rfl))
    obtain ⟨c', hrun, hchanges⟩ := h.mask_known hname hne (calls + 2)
    refine ⟨.nothing, c', by rw [Call.next, hrun]; rfl, hchanges.wf, ?_, ?_⟩
    · intro e
      rw [hchanges.hasMessages_iff fun _ => rfl]
      simp [Call.Raises, Call.Keeps, hcall]
    · intro e
      rw [hchanges.isMasked_withMask h hname]
      by_cases he : e = name
      · simp [he, hname, hne, Call.Masks]
      · simp [he, Ne.symm he, Call.Masks, Call.KeepsMask]
  | unmask name =>
    have hname := hhas name rfl
    obtain ⟨c', hrun, hchanges⟩ := h.unmask_known hname (calls + 2)
    refine ⟨.nothing, c', by rw [Call.next, hrun]; rfl, hchanges.wf, ?_, ?_⟩
    · intro e
      rw [hchanges.hasMessages_iff fun _ => rfl]
      simp [Call.Raises, Call.Keeps, hcall]
    · intro e
      rw [hchanges.isMasked_withMask h hname]
      by_cases he : e = name
      · simp [he, Call.Masks, Call.KeepsMask]
      · simp [he, Ne.symm he, Call.Masks, Call.KeepsMask]
  | clear name =>
    obtain ⟨c', hrun, hchanges⟩ := h.clear_known (hhas name rfl) (calls + 2)
    refine ⟨.nothing, c', by rw [Call.next, hrun]; rfl, hchanges.wf, ?_, ?_⟩
    · intro e
      rw [hchanges.hasMessages_cleared]
      simp [Call.Raises, Call.Keeps, hcall, and_comm, eq_comm]
    · intro e
      rw [hchanges.isMasked_iff fun _ => rfl]
      simp [Call.Masks, Call.KeepsMask]
  | clearAll =>
    obtain ⟨hwf, hinfo⟩ := h.clearAll_spec
    refine ⟨.nothing, c.clearAll, rfl, hwf, ?_, ?_⟩
    · intro e
      unfold HasMessages
      rw [hinfo]
      simp [Call.Raises, Call.Keeps, hcall, cleared]
    · intro e
      unfold IsMasked
      rw [hinfo]
      simp [Call.Masks, Call.KeepsMask, cleared]
  | isMasked name =>
    obtain ⟨index, hfind⟩ := Option.isSome_iff_exists.mp (hhas name rfl)
    obtain ⟨i, hi, -⟩ := h.exists_info hfind
    refine ⟨.flag i.isMasked, c, ?_, h, ?_, ?_⟩
    · rw [Call.next, isMasked, hfind]
      dsimp only
      rw [hi]
      rfl
    · intro e
      simp [Call.Raises, Call.Keeps, hcall]
    · intro e
      simp [Call.Masks, Call.KeepsMask]
  | getErrorMessages name =>
    obtain ⟨index, hfind⟩ := Option.isSome_iff_exists.mp (hhas name rfl)
    obtain ⟨i, hi, -⟩ := h.exists_info hfind
    refine ⟨.messages i.errorMessages, c, ?_, h, ?_, ?_⟩
    · rw [Call.next, getErrorMessages, hfind]
      dsimp only
      rw [hi]
      rfl
    · intro e
      simp [Call.Raises, Call.Keeps, hcall]
    · intro e
      simp [Call.Masks, Call.KeepsMask]

/-! ### Runs -/

theorem Wf.step_spec (h : c.Wf) (call : Call) (calls : Nat) :
    c.Serves call (call.step (calls + 2) c) := by
  obtain ⟨answer, c', hrun, hserves⟩ := h.next_spec call calls
  rw [Call.step, attempt_eq (show (call.next (calls + 2) c).map Prod.snd = some c' by rw [hrun]; rfl)]
  exact hserves

theorem Wf.along (h : c.Wf) (calls : Nat) (reqs : List Call) :
    Along (Call.step (calls + 2)) (fun c _ => c.Wf) c reqs :=
  along_of_along Wf (fun _ call hc (_ : True) => (hc.step_spec call calls).wf)
    (fun _ _ hc _ => hc) h (along_of_forall fun _ _ => trivial)

theorem Wf.run (h : c.Wf) (calls : Nat) (reqs : List Call) :
    (run (Call.step (calls + 2)) c reqs).Wf :=
  run_invariant Wf (fun _ call hc _ => (hc.step_spec call calls).wf) h (h.along calls reqs)

theorem hasMessages_iff_raised (name : String) (calls : Nat) (reqs : List Call) (e : String) :
    (Lib.run (Call.step (calls + 2)) (create name) reqs).HasMessages e ↔
      Raised (calls + 2) (create name) reqs e := by
  have hinit : ¬(create name).HasMessages e := by
    rintro ⟨i, hinfo, hmessages⟩
    obtain ⟨-, index, hi⟩ := (wf_create name).info_eq_some.mp hinfo
    change [({ name := internalErrorName } : ProgramErrorInfo)][index]? = some i at hi
    rw [List.getElem?_singleton] at hi
    split at hi
    · cases hi
      exact hmessages rfl
    · cases hi
  exact iff_since_of_step (fun c => c.HasMessages e) hinit
    (fun _ call hc => (hc.step_spec call calls).hasMessages_iff e)
    ((wf_create name).along calls reqs)

theorem isMasked_iff_masked (name : String) (calls : Nat) (reqs : List Call) (e : String) :
    (Lib.run (Call.step (calls + 2)) (create name) reqs).IsMasked e ↔
      Masked (calls + 2) (create name) reqs e := by
  have hinit : ¬(create name).IsMasked e := by
    rintro ⟨i, hinfo, hmasked⟩
    obtain ⟨-, index, hi⟩ := (wf_create name).info_eq_some.mp hinfo
    change [({ name := internalErrorName } : ProgramErrorInfo)][index]? = some i at hi
    rw [List.getElem?_singleton] at hi
    split at hi
    · cases hi
      cases hmasked
    · cases hi
  exact iff_since_of_step (fun c => c.IsMasked e) hinit
    (fun _ call hc => (hc.step_spec call calls).isMasked_iff e)
    ((wf_create name).along calls reqs)

theorem Changes.mem_sets_iff (h : c.Changes name f c') (hwf : c.Wf) (hne : e ≠ name) :
    (c'.InUnmasked e ↔ c.InUnmasked e) ∧ (c'.InMasked e ↔ c.InMasked e) := by
  have hinfo : c'.info e = c.info e := by rw [h.info_eq, if_neg hne]
  rw [h.wf.inUnmasked_iff, h.wf.inMasked_iff, hwf.inUnmasked_iff, hwf.inMasked_iff]
  unfold HasMessages IsMasked
  rw [hinfo]
  exact ⟨Iff.rfl, Iff.rfl⟩

theorem Changes.raises_internal (h : c.Changes internalErrorName (push message) c') (hwf : c.Wf) :
    (∃ i, c.info internalErrorName = some i ∧
      c'.info internalErrorName = some (push message i)) ∧ c'.InUnmasked internalErrorName := by
  obtain ⟨i, hi, -⟩ := hwf.internal
  refine ⟨⟨i, hi, by rw [h.info_eq, if_pos rfl, hi, Option.map_some]⟩, ?_⟩
  rw [h.wf.inUnmasked_iff, h.hasMessages_push hwf hwf.has_internal]
  exact ⟨.inl rfl, h.wf.not_isMasked_internal⟩

/-- **The errors are tracked.** After every list of calls the two sets are disjoint; an error that
    there is is in the one that its mask says exactly if it was raised since it was last cleared,
    and has messages exactly if it is in one of them; the internal error is not masked.  Every
    further call returns, and one that looks up an unknown name does nothing but to raise the
    internal error. -/
theorem errors_tracked (name : String) (calls : Nat) (reqs : List Call) :
    let start := create name
    let c := Lib.run (Call.step (calls + 2)) start reqs
    Disjoint c.unmaskedProgramErrors c.maskedProgramErrors ∧
    (∀ e, c.Has e →
      (c.IsMasked e ↔ Masked (calls + 2) start reqs e) ∧
      (c.InUnmasked e ↔ Raised (calls + 2) start reqs e ∧ ¬Masked (calls + 2) start reqs e) ∧
      (c.InMasked e ↔ Raised (calls + 2) start reqs e ∧ Masked (calls + 2) start reqs e) ∧
      (c.HasMessages e ↔ c.InUnmasked e ∨ c.InMasked e)) ∧
    ¬c.IsMasked internalErrorName ∧
    ∀ call : Call, ∃ answer c', call.next (calls + 2) c = some (answer, c') ∧
      ∀ e₀, call.looksUp = some e₀ → ¬c.Has e₀ →
        (∀ e, e ≠ internalErrorName → c'.info e = c.info e ∧
          (c'.InUnmasked e ↔ c.InUnmasked e) ∧ (c'.InMasked e ↔ c.InMasked e)) ∧
        (∃ message i, c.info internalErrorName = some i ∧
          c'.info internalErrorName = some (push message i)) ∧
        c'.InUnmasked internalErrorName := by
  intro start c
  have hwf : c.Wf := (wf_create name).run calls reqs
  have hmasked : ∀ e, c.IsMasked e ↔ Masked (calls + 2) start reqs e :=
    isMasked_iff_masked name calls reqs
  have hraised : ∀ e, c.HasMessages e ↔ Raised (calls + 2) start reqs e :=
    hasMessages_iff_raised name calls reqs
  refine ⟨hwf.disjoint, fun e _ => ⟨hmasked e, ?_, ?_, ?_⟩, hwf.not_isMasked_internal, ?_⟩
  · rw [hwf.inUnmasked_iff, hraised, hmasked]
  · rw [hwf.inMasked_iff, hraised, hmasked]
  · rw [hwf.inUnmasked_iff, hwf.inMasked_iff, ← and_or_left]
    exact (and_iff_left (em' _)).symm
  · intro call
    by_cases hcall : call.RaisesInternal c
    · obtain ⟨answer, c', message, hrun, hchanges⟩ := hwf.internal_spec hcall calls
      refine ⟨answer, c', hrun, fun _ _ _ => ⟨?_, ?_, ?_⟩⟩
      · intro e hne
        exact ⟨by rw [hchanges.info_eq, if_neg hne], hchanges.mem_sets_iff hwf hne⟩
      · exact ⟨message, (hchanges.raises_internal hwf).1⟩
      · exact (hchanges.raises_internal hwf).2
    · obtain ⟨answer, c', hrun, -⟩ := hwf.next_spec call calls
      exact ⟨answer, c', hrun, fun e₀ hlooks hnot => absurd (.inl ⟨e₀, hlooks, hnot⟩) hcall⟩

end ProgramErrorController

end MpactSim.Generic
