import MpactSim.Lib.Run
import Mathlib.Data.BitVec

namespace MpactSim.Generic

open Lib

/-!
# Action points

An action point is an address with actions to perform when the simulated program gets
there.  As long as one of them is enabled, a breakpoint instruction stands in program
memory in place of the original one; `ActionPointMemoryInterface` writes either, and a
write may fail.

* `Coherent` — the active count of every address is the number of its enabled actions, and
  the breakpoint instruction is in memory exactly where it is positive;
* `Serves` — a call keeps the state coherent, changes nothing if it returns an error, and
  performs the enabled actions;
* `serves_iff` — which calls do: the source updates its maps before a write that may
  still fail, and performs the actions of an address without looking whether it has any.
-/

universe u

variable {α : Type u}

/-! ### The source -/

/-- An `absl::Status` that is not OK; `memory` is an error of the memory interface. -/
inductive StatusError where
  | notFound (message : String)
  | alreadyExists (message : String)
  | memory (message : String)
  deriving DecidableEq, Repr

/-- `absl::Hex`. -/
def hex (address : BitVec 64) : String := String.ofList (Nat.toDigits 16 address.toNat)

/-- `ActionInfo`. -/
structure ActionInfo (α : Type u) where
  actionFcn : α
  isEnabled : Bool
  deriving DecidableEq, Repr

/-- `ActionPointInfo`.  The map from ids to actions is a list in the order of the ids. -/
structure ActionPointInfo (α : Type u) where
  nextId : Int
  numActive : Int
  actionMap : List (Int × ActionInfo α)
  sorted : (actionMap.map Prod.fst).Pairwise (· < ·)
  fresh : ∀ id ∈ actionMap.map Prod.fst, id < nextId

namespace ActionPointInfo

/-- A new action point. -/
def new : ActionPointInfo α := ⟨0, 0, [], .nil, by simp⟩

/-- The action of an id. -/
def find (ap : ActionPointInfo α) (id : Int) : Option (ActionInfo α) :=
  (ap.actionMap.find? (·.1 = id)).map Prod.snd

/-- Insert an enabled action under the next id. -/
def add (ap : ActionPointInfo α) (f : α) : ActionPointInfo α where
  nextId := ap.nextId + 1
  numActive := ap.numActive + 1
  actionMap := ap.actionMap ++ [(ap.nextId, ⟨f, true⟩)]
  sorted := by
    rw [List.map_append, List.pairwise_append]
    exact ⟨ap.sorted, by simp, by simpa using ap.fresh⟩
  fresh := by
    intro id hid
    rw [List.map_append, List.mem_append] at hid
    rcases hid with hid | hid
    · have := ap.fresh id hid
      omega
    · have : id = ap.nextId := by simpa using hid
      omega

/-- Remove an action and count it out if it is enabled. -/
def erase (ap : ActionPointInfo α) (id : Int) (action : ActionInfo α) : ActionPointInfo α where
  nextId := ap.nextId
  numActive := ap.numActive - if action.isEnabled then 1 else 0
  actionMap := ap.actionMap.filter (·.1 ≠ id)
  sorted := ap.sorted.sublist (List.filter_sublist.map _)
  fresh id hid := ap.fresh id ((List.filter_sublist.map _).subset hid)

/-- Set the flag of an action, with the new count. -/
def enable (ap : ActionPointInfo α) (id : Int) (isEnabled : Bool) (numActive : Int) :
    ActionPointInfo α where
  nextId := ap.nextId
  numActive := numActive
  actionMap := ap.actionMap.map fun p => (p.1, if p.1 = id then { p.2 with isEnabled } else p.2)
  sorted := by simpa [List.map_map, Function.comp_def] using ap.sorted
  fresh := by simpa [List.map_map, Function.comp_def] using ap.fresh

end ActionPointInfo

/-- `ActionPointManagerBase`, and what its memory interface has made of program memory:
    whether the breakpoint instruction is at an address. -/
structure ActionPointManager (α : Type u) where
  actionPointMap : BitVec 64 → Option (ActionPointInfo α)
  breakpoint : BitVec 64 → Bool

/-- What a call returns: a status, with the id of a new action, and the actions that were
    performed. -/
structure Reply (α : Type u) where
  status : Except StatusError (Option Int)
  performed : List (Int × α) := []

inductive ActionCall (α : Type u) where
  | setAction (address : BitVec 64) (f : α)
  | clearAction (address : BitVec 64) (id : Int)
  | enableAction (address : BitVec 64) (id : Int)
  | disableAction (address : BitVec 64) (id : Int)
  | clearAllActionPoints
  | performActions (address : BitVec 64)

/-- The error of the memory interface at each address that a call may write. -/
abbrev WriteErrors := BitVec 64 → Option String

namespace ActionPointManager

/-- Nothing is set. -/
def init : ActionPointManager α := ⟨fun _ => none, fun _ => false⟩

/-- Replace the action point of an address. -/
def put (m : ActionPointManager α) (address : BitVec 64) (ap : ActionPointInfo α) :
    ActionPointManager α :=
  { m with actionPointMap := Function.update m.actionPointMap address (some ap) }

/-- `WriteBreakpointInstruction` and `WriteOriginalInstruction`. -/
def write (m : ActionPointManager α) (errors : WriteErrors) (address : BitVec 64) (isSet : Bool) :
    Except StatusError (ActionPointManager α) :=
  match errors address with
  | some message => .error (.memory message)
  | none => .ok { m with breakpoint := Function.update m.breakpoint address isSet }

/-- The state and the reply after a last write: its error is returned, and what was done
    before it stays. -/
def finish (m : ActionPointManager α) (r : Except StatusError (ActionPointManager α)) :
    ActionPointManager α × Reply α :=
  match r with
  | .error e => (m, { status := .error e })
  | .ok m => (m, { status := .ok none })

/-- The end of `SetAction`.  The next id is an `int`; incrementing the largest one is
    undefined. -/
def addAction (m : ActionPointManager α) (address : BitVec 64) (ap : ActionPointInfo α) (f : α) :
    Option (ActionPointManager α × Reply α) :=
  if ap.nextId < 2 ^ 31 - 1 then
    some (m.put address (ap.add f), { status := .ok (some ap.nextId) })
  else none

/-- `SetAction`. -/
def setAction (m : ActionPointManager α) (errors : WriteErrors) (address : BitVec 64) (f : α) :
    Option (ActionPointManager α × Reply α) :=
  match m.actionPointMap address with
  | none =>
    match m.write errors address true with
    | .error e => some (m, { status := .error e })
    | .ok m => m.addAction address .new f
  | some ap =>
    if ap.numActive = 0 then
      match m.write errors address true with
      | .error e => some (m, { status := .error e })
      | .ok m => m.addAction address ap f
    else m.addAction address ap f

/-- Look up an action for `ClearAction`, `EnableAction` and `DisableAction`. -/
def lookup (m : ActionPointManager α) (address : BitVec 64) (id : Int) :
    Except StatusError (ActionPointInfo α × ActionInfo α) :=
  match m.actionPointMap address with
  | none => .error (.notFound s!"No action point found at: {hex address}")
  | some ap =>
    match ap.find id with
    | none => .error (.notFound s!"No action {id}found at: {hex address}")
    | some action => .ok (ap, action)

/-- `ClearAction`. -/
def clearAction (m : ActionPointManager α) (errors : WriteErrors) (address : BitVec 64) (id : Int) :
    ActionPointManager α × Reply α :=
  match m.lookup address id with
  | .error e => (m, { status := .error e })
  | .ok (ap, action) =>
    let ap := ap.erase id action
    let m := m.put address ap
    if ap.numActive = 0 then m.finish (m.write errors address false)
    else (m, { status := .ok none })

/-- `EnableAction`. -/
def enableAction (m : ActionPointManager α) (errors : WriteErrors) (address : BitVec 64) (id : Int) :
    ActionPointManager α × Reply α :=
  match m.lookup address id with
  | .error e => (m, { status := .error e })
  | .ok (ap, action) =>
    if action.isEnabled then (m, { status := .ok none })
    else
      let ap := ap.enable id true (ap.numActive + 1)
      let m := m.put address ap
      if ap.numActive = 1 then m.finish (m.write errors address true)
      else (m, { status := .ok none })

/-- `DisableAction`. -/
def disableAction (m : ActionPointManager α) (errors : WriteErrors) (address : BitVec 64)
    (id : Int) : ActionPointManager α × Reply α :=
  match m.lookup address id with
  | .error e => (m, { status := .error e })
  | .ok (ap, action) =>
    if ¬ action.isEnabled then (m, { status := .ok none })
    else
      let ap := ap.enable id false (ap.numActive - 1)
      let m := m.put address ap
      if ap.numActive = 0 then m.finish (m.write errors address false)
      else (m, { status := .ok none })

/-- `IsActionEnabled`. -/
def isActionEnabled (m : ActionPointManager α) (address : BitVec 64) (id : Int) : Bool :=
  match m.actionPointMap address with
  | none => false
  | some ap =>
    match ap.find id with
    | none => false
    | some action => action.isEnabled

/-- `ClearAllActionPoints`.  The status of the writes is not used. -/
def clearAllActionPoints (m : ActionPointManager α) (errors : WriteErrors) : ActionPointManager α where
  actionPointMap := fun _ => none
  breakpoint address :=
    match m.actionPointMap address with
    | none => m.breakpoint address
    | some _ => if errors address = none then false else m.breakpoint address

/-- `PerformActions`.  Without an action point the iterator that is dereferenced is the end
    of the map. -/
def performActions (m : ActionPointManager α) (address : BitVec 64) : Option (List (Int × α)) :=
  (m.actionPointMap address).map fun ap =>
    ap.actionMap.filterMap fun p => if p.2.isEnabled then some (p.1, p.2.actionFcn) else none

/-- A call; `none` where the behaviour of the source is undefined. -/
def call (m : ActionPointManager α) (errors : WriteErrors) :
    ActionCall α → Option (ActionPointManager α × Reply α)
  | .setAction address f => m.setAction errors address f
  | .clearAction address id => some (m.clearAction errors address id)
  | .enableAction address id => some (m.enableAction errors address id)
  | .disableAction address id => some (m.disableAction errors address id)
  | .clearAllActionPoints => some (m.clearAllActionPoints errors, { status := .ok none })
  | .performActions address =>
    (m.performActions address).map fun fs => (m, { status := .ok none, performed := fs })

/-- A call in a run, with the writes that fail during it. -/
def step (s : Option (ActionPointManager α)) (e : ActionCall α × WriteErrors) :
    Option (ActionPointManager α) :=
  s.bind fun m => (m.call e.2 e.1).map Prod.fst

end ActionPointManager

/-! ### The specification -/

/-- The number of enabled actions. -/
def ActionPointInfo.enabledCount (ap : ActionPointInfo α) : Nat :=
  ap.actionMap.countP (·.2.isEnabled)

namespace ActionPointManager

/-- The active count of an address. -/
def activeCount (m : ActionPointManager α) (address : BitVec 64) : Int :=
  ((m.actionPointMap address).map ActionPointInfo.numActive).getD 0

/-- The number of enabled actions of an address. -/
def enabledCount (m : ActionPointManager α) (address : BitVec 64) : Nat :=
  ((m.actionPointMap address).map ActionPointInfo.enabledCount).getD 0

/-- Counts, enabled flags and program memory agree. -/
structure Coherent (m : ActionPointManager α) : Prop where
  count : ∀ address, m.activeCount address = m.enabledCount address
  memory : ∀ address, m.breakpoint address = true ↔ 0 < m.activeCount address

/-- `f` is an enabled action of the address. -/
def Enabled (m : ActionPointManager α) (address : BitVec 64) (id : Int) (f : α) : Prop :=
  ∃ ap, m.actionPointMap address = some ap ∧ (id, ⟨f, true⟩) ∈ ap.actionMap

/-- A coherent state, which is the one before if an error is returned. -/
def Sound (m : ActionPointManager α) (r : ActionPointManager α × Reply α) : Prop :=
  r.1.Coherent ∧ ∀ e, r.2.status = .error e → r.1 = m

/-- What a call has to do. -/
def Serves (s : Option (ActionPointManager α)) (e : ActionCall α × WriteErrors) : Prop :=
  ∃ m r, s = some m ∧ m.call e.2 e.1 = some r ∧ Sound m r ∧
    ∀ address, e.1 = .performActions address →
      (r.2.performed.map Prod.fst).Pairwise (· < ·) ∧
        ∀ id f, (id, f) ∈ r.2.performed ↔ m.Enabled address id f

/-- The calls that do so: the last write of the call succeeds if it is needed, an id is left
    for a new action, and there is an action point to perform. -/
def Harmless : Option (ActionPointManager α) → ActionCall α × WriteErrors → Prop
  | none, _ => False
  | some m, (.setAction address _, errors) =>
    (m.activeCount address = 0 ∧ errors address ≠ none) ∨
      ((m.actionPointMap address).map ActionPointInfo.nextId).getD 0 < 2 ^ 31 - 1
  | some m, (.clearAction address id, errors) =>
    ∀ ap action, m.lookup address id = .ok (ap, action) →
      ap.numActive = (if action.isEnabled then 1 else 0) → errors address = none
  | some m, (.enableAction address id, errors) =>
    ∀ ap action, m.lookup address id = .ok (ap, action) →
      action.isEnabled = false → ap.numActive = 0 → errors address = none
  | some m, (.disableAction address id, errors) =>
    ∀ ap action, m.lookup address id = .ok (ap, action) →
      action.isEnabled = true → ap.numActive = 1 → errors address = none
  | some m, (.clearAllActionPoints, errors) =>
    ∀ address, 0 < m.activeCount address → errors address = none
  | some m, (.performActions address, _) => m.actionPointMap address ≠ none

end ActionPointManager

/-! ### Enabled actions are counted -/

namespace ActionPointInfo

variable {ap : ActionPointInfo α} {id : Int} {action : ActionInfo α}

theorem enabledCount_add (ap : ActionPointInfo α) (f : α) :
    (ap.add f).enabledCount = ap.enabledCount + 1 := by
  simp [enabledCount, add]

theorem mem_of_find (h : ap.find id = some action) : (id, action) ∈ ap.actionMap := by
  obtain ⟨p, hp, rfl⟩ := Option.map_eq_some_iff.mp h
  have hid : p.1 = id := by simpa using List.find?_some hp
  have hmem := List.mem_of_find?_eq_some hp
  rwa [← hid]

theorem exists_split (h : ap.find id = some action) :
    ∃ before after, ap.actionMap = before ++ (id, action) :: after ∧
      (∀ p ∈ before, p.1 ≠ id) ∧ ∀ p ∈ after, p.1 ≠ id := by
  obtain ⟨before, after, hsplit⟩ := List.append_of_mem (mem_of_find h)
  have hsorted := ap.sorted
  rw [hsplit, List.map_append, List.map_cons, List.pairwise_append] at hsorted
  obtain ⟨-, hright, hcross⟩ := hsorted
  refine ⟨before, after, hsplit, fun p hp => ?_, fun p hp => ?_⟩
  · exact ne_of_lt (hcross p.1 (List.mem_map_of_mem hp) id List.mem_cons_self)
  · exact ne_of_gt (List.rel_of_pairwise_cons hright (List.mem_map_of_mem hp))

theorem enabledCount_erase (h : ap.find id = some action) :
    ((ap.erase id action).enabledCount : Int) =
      ap.enabledCount - if action.isEnabled then 1 else 0 := by
  obtain ⟨before, after, hsplit, hbefore, hafter⟩ := exists_split h
  have hfilter : (ap.erase id action).actionMap = before ++ after := by
    simp only [erase, hsplit, List.filter_append, List.filter_cons]
    rw [List.filter_eq_self.mpr (by simpa using hbefore),
      List.filter_eq_self.mpr (by simpa using hafter)]
    simp
  simp only [enabledCount, hfilter, hsplit, List.countP_append, List.countP_cons]
  by_cases henabled : action.isEnabled
  · simp [henabled]
    omega
  · simp [henabled]

theorem enabledCount_enable (h : ap.find id = some action) (isEnabled : Bool) (numActive : Int) :
    ((ap.enable id isEnabled numActive).enabledCount : Int) =
      ap.enabledCount - (if action.isEnabled then 1 else 0) + if isEnabled then 1 else 0 := by
  obtain ⟨before, after, hsplit, hbefore, hafter⟩ := exists_split h
  have hsame : ∀ l : List (Int × ActionInfo α), (∀ p ∈ l, p.1 ≠ id) →
      l.map (fun p => (p.1, if p.1 = id then { p.2 with isEnabled } else p.2)) = l := by
    intro l hl
    calc l.map _ = l.map (fun p => p) := List.map_congr_left fun p hp => by rw [if_neg (hl p hp)]
      _ = l := List.map_id l
  have hmap : (ap.enable id isEnabled numActive).actionMap =
      before ++ (id, { action with isEnabled }) :: after := by
    simp only [enable, hsplit, List.map_append, List.map_cons, hsame before hbefore,
      hsame after hafter, if_true]
  simp only [enabledCount, hmap, hsplit, List.countP_append, List.countP_cons]
  split <;> split <;> simp_all <;> omega

theorem erase_ne (h : ap.find id = some action) : ap.erase id action ≠ ap := by
  intro heq
  have hmem : (id, action) ∈ (ap.erase id action).actionMap := by
    rw [heq]
    exact mem_of_find h
  simp [erase] at hmem

theorem enable_ne {isEnabled : Bool} {numActive : Int} (h : numActive ≠ ap.numActive) :
    ap.enable id isEnabled numActive ≠ ap := by
  intro heq
  exact h (congrArg ActionPointInfo.numActive heq)

end ActionPointInfo

/-! ### Steps -/

namespace ActionPointManager

variable {m : ActionPointManager α} {address : BitVec 64} {errors : WriteErrors}

variable {id : Int} {ap : ActionPointInfo α}

theorem lookup_eq_ok {action : ActionInfo α} (h : m.lookup address id = .ok (ap, action)) :
    m.actionPointMap address = some ap ∧ ap.find id = some action := by
  unfold lookup at h
  split at h
  · cases h
  · rename_i ap' hap
    split at h
    · cases h
    · rename_i action' haction
      cases h
      exact ⟨hap, haction⟩

theorem Coherent.at (hm : m.Coherent) (hap : m.actionPointMap address = some ap) :
    ap.numActive = ap.enabledCount ∧ (m.breakpoint address = true ↔ 0 < ap.numActive) := by
  have hcount := hm.count address
  have hmemory := hm.memory address
  simp only [activeCount, enabledCount, hap, Option.map_some, Option.getD_some] at hcount hmemory
  exact ⟨hcount, hmemory⟩

theorem Coherent.update (hm : m.Coherent) {ap : ActionPointInfo α} {isSet : Bool}
    (hcount : ap.numActive = ap.enabledCount) (hset : isSet = true ↔ 0 < ap.numActive) :
    Coherent ⟨Function.update m.actionPointMap address (some ap),
      Function.update m.breakpoint address isSet⟩ := by
  constructor
  · intro a
    by_cases ha : a = address
    · subst ha
      simpa [activeCount, enabledCount] using hcount
    · simpa [activeCount, enabledCount, ha] using hm.count a
  · intro a
    by_cases ha : a = address
    · subst ha
      simpa [activeCount] using hset
    · simpa [activeCount, ha] using hm.memory a

theorem Coherent.put (hm : m.Coherent) (hcount : ap.numActive = ap.enabledCount)
    (hset : m.breakpoint address = true ↔ 0 < ap.numActive) : (m.put address ap).Coherent := by
  have h := @Coherent.update _ _ address hm _ _ hcount hset
  rwa [Function.update_eq_self] at h

/-- **The common step** of `ClearAction`, `EnableAction` and `DisableAction`: an action point
    is replaced, and the instruction is written if the new count is `n`. -/
theorem sound_finish_iff (hm : m.Coherent) {ap' : ActionPointInfo α} {isSet : Bool} {n : Int}
    (hap : m.actionPointMap address = some ap) (hne : ap' ≠ ap)
    (hcount : ap'.numActive = ap'.enabledCount) (hset : isSet = true ↔ 0 < n)
    (hkeep : ap'.numActive ≠ n → (0 < ap'.numActive ↔ 0 < ap.numActive)) :
    Sound m (if ap'.numActive = n then
        (m.put address ap').finish ((m.put address ap').write errors address isSet)
      else (m.put address ap', { status := .ok none })) ↔
      (ap'.numActive = n → errors address = none) := by
  have hchanged : m.put address ap' ≠ m := by
    intro heq
    have hat : (m.put address ap').actionPointMap address = m.actionPointMap address := by rw [heq]
    simp only [ActionPointManager.put, Function.update_self, hap, Option.some.injEq] at hat
    exact hne hat
  by_cases hn : ap'.numActive = n
  · rw [if_pos hn]
    unfold write
    cases herror : errors address with
    | some message =>
      -- The action point is replaced although the error is returned.
      simp only [finish, hn, reduceCtorEq, imp_false, not_true_eq_false, iff_false]
      exact fun h => hchanged (h.2 _ rfl)
    | none =>
      simp only [finish, implies_true, iff_true]
      refine ⟨hm.update hcount ?_, fun e he => by cases he⟩
      rw [hset, hn]
  · rw [if_neg hn]
    simp only [hn, false_imp_iff, iff_true]
    refine ⟨hm.put hcount ?_, fun e he => by cases he⟩
    rw [hkeep hn]
    exact (hm.at hap).2

theorem sound_self (hm : m.Coherent) (status : Except StatusError (Option Int)) :
    Sound m (m, { status := status }) := ⟨hm, fun _ _ => rfl⟩

theorem clearAction_sound_iff (hm : m.Coherent) :
    Sound m (m.clearAction errors address id) ↔
      Harmless (some m) (.clearAction address id, errors) := by
  unfold clearAction Harmless
  cases hlookup : m.lookup address id with
  | error e => simpa [hlookup] using sound_self hm (.error e)
  | ok found =>
    obtain ⟨ap, action⟩ := found
    obtain ⟨hap, hfind⟩ := lookup_eq_ok hlookup
    obtain ⟨hcount, -⟩ := hm.at hap
    have herase := ActionPointInfo.enabledCount_erase hfind
    have hnum : (ap.erase id action).numActive =
      ap.numActive - if action.isEnabled then 1 else 0 := rfl
    refine (sound_finish_iff (n := 0) hm hap
      (ActionPointInfo.erase_ne hfind) (by omega) (by simp) (fun hne => by omega)).trans ⟨fun h ap' action' heq hzero => ?_, fun h hzero => ?_⟩
    · rw [hlookup] at heq
      cases heq
      exact h (by omega)
    · exact h ap action hlookup (by omega)

theorem enableAction_sound_iff (hm : m.Coherent) :
    Sound m (m.enableAction errors address id) ↔
      Harmless (some m) (.enableAction address id, errors) := by
  unfold enableAction Harmless
  cases hlookup : m.lookup address id with
  | error e => simpa [hlookup] using sound_self hm (.error e)
  | ok found =>
    obtain ⟨ap, action⟩ := found
    obtain ⟨hap, hfind⟩ := lookup_eq_ok hlookup
    obtain ⟨hcount, -⟩ := hm.at hap
    by_cases henabled : action.isEnabled = true
    · simpa [henabled, hlookup] using sound_self hm (.ok none)
    · have henable := ActionPointInfo.enabledCount_enable hfind true (ap.numActive + 1)
      have hnum : (ap.enable id true (ap.numActive + 1)).numActive = ap.numActive + 1 := rfl
      simp only [henabled, if_true, if_false, Bool.false_eq_true] at henable ⊢
      refine (sound_finish_iff (n := 1) hm hap
        (ActionPointInfo.enable_ne (by omega)) (by omega) (by simp) (fun hne => by omega)).trans ⟨fun h ap' action' heq _ hzero => ?_, fun h hone => ?_⟩
      · rw [hlookup] at heq
        cases heq
        exact h (by omega)
      · exact h ap action hlookup (by simpa using henabled) (by omega)

theorem disableAction_sound_iff (hm : m.Coherent) :
    Sound m (m.disableAction errors address id) ↔
      Harmless (some m) (.disableAction address id, errors) := by
  unfold disableAction Harmless
  cases hlookup : m.lookup address id with
  | error e => simpa [hlookup] using sound_self hm (.error e)
  | ok found =>
    obtain ⟨ap, action⟩ := found
    obtain ⟨hap, hfind⟩ := lookup_eq_ok hlookup
    obtain ⟨hcount, -⟩ := hm.at hap
    by_cases henabled : action.isEnabled = true
    · have hdisable := ActionPointInfo.enabledCount_enable hfind false (ap.numActive - 1)
      have hnum : (ap.enable id false (ap.numActive - 1)).numActive = ap.numActive - 1 := rfl
      simp only [henabled, not_true_eq_false, if_true, if_false, Bool.false_eq_true] at hdisable ⊢
      refine (sound_finish_iff (n := 0) hm hap
        (ActionPointInfo.enable_ne (by omega)) (by omega) (by simp) (fun hne => by omega)).trans ⟨fun h ap' action' heq _ hone => ?_, fun h hzero => ?_⟩
      · rw [hlookup] at heq
        cases heq
        exact h (by omega)
      · exact h ap action hlookup henabled (by omega)
    · simpa [henabled, hlookup] using sound_self hm (.ok none)

theorem addAction_sound_iff (hm : m.Coherent) {ap : ActionPointInfo α} (f : α)
    (hcount : ap.numActive = ap.enabledCount) :
    (∃ r, addAction ⟨m.actionPointMap, Function.update m.breakpoint address true⟩ address ap f
        = some r ∧ Sound m r) ↔ ap.nextId < 2 ^ 31 - 1 := by
  unfold addAction
  split
  · rename_i hid
    refine iff_of_true ⟨_, rfl, ?_, fun e he => by cases he⟩ hid
    have hadd := ActionPointInfo.enabledCount_add ap f
    refine hm.update ?_ ?_
    · show ap.numActive + 1 = _
      omega
    · show _ ↔ 0 < ap.numActive + 1
      simp only [true_iff]
      omega
  · rename_i hid
    simpa using hid

theorem setAction_sound_iff (hm : m.Coherent) {f : α} :
    (∃ r, m.setAction errors address f = some r ∧ Sound m r) ↔
      Harmless (some m) (.setAction address f, errors) := by
  unfold setAction Harmless
  cases hap : m.actionPointMap address with
  | none =>
    have hactive : m.activeCount address = 0 := by simp [activeCount, hap]
    cases herror : errors address with
    | some message =>
      simp only [write, herror]
      exact iff_of_true ⟨_, rfl, sound_self hm _⟩ (.inl ⟨hactive, by simp⟩)
    | none =>
      simp only [write, herror]
      rw [addAction_sound_iff hm f rfl]
      simp [hap, ActionPointInfo.new]
  | some ap =>
    obtain ⟨hcount, hmemory⟩ := hm.at hap
    have hactive : m.activeCount address = ap.numActive := by simp [activeCount, hap]
    by_cases hzero : ap.numActive = 0
    · cases herror : errors address with
      | some message =>
        simp only [write, herror, if_pos hzero]
        exact iff_of_true ⟨_, rfl, sound_self hm _⟩ (.inl ⟨by omega, by simp⟩)
      | none =>
        simp only [write, herror, if_pos hzero]
        rw [addAction_sound_iff hm f hcount]
        simp [hap]
    · -- The breakpoint instruction is in memory already.
      have hset : Function.update m.breakpoint address true = m.breakpoint := by
        rw [Function.update_eq_self_iff]
        exact (hmemory.mpr (by omega)).symm
      have hadd := @addAction_sound_iff _ _ address hm _ f hcount
      rw [hset] at hadd
      simp only [if_neg hzero]
      rw [hadd]
      simp [hap, hactive, hzero]

theorem clearAllActionPoints_coherent_iff (hm : m.Coherent) :
    (m.clearAllActionPoints errors).Coherent ↔
      Harmless (some m) (.clearAllActionPoints, errors) := by
  -- A breakpoint instruction that could not be written back is left without an action point.
  have hbreak : ∀ a, (m.clearAllActionPoints errors).breakpoint a = true ↔
      0 < m.activeCount a ∧ errors a ≠ none := by
    intro a
    have hmemory := hm.memory a
    unfold clearAllActionPoints
    cases hap : m.actionPointMap a with
    | none => simpa [activeCount, hap] using hmemory
    | some ap =>
      by_cases herror : errors a = none
      · simp [herror, hap]
      · simpa [herror, hap] using hmemory
  constructor
  · intro h a hpos
    by_contra herror
    have := (h.memory a).mp ((hbreak a).mpr ⟨hpos, herror⟩)
    exact absurd this (lt_irrefl 0)
  · intro h
    refine ⟨fun a => rfl, fun a => ?_⟩
    rw [hbreak]
    constructor
    · rintro ⟨hpos, herror⟩
      exact absurd (h a hpos) herror
    · intro hpos
      exact absurd hpos (lt_irrefl 0)

/-- `PerformActions` performs the enabled actions in the order of their ids. -/
theorem performActions_spec {fs : List (Int × α)} (h : m.performActions address = some fs) :
    (fs.map Prod.fst).Pairwise (· < ·) ∧ ∀ id f, (id, f) ∈ fs ↔ m.Enabled address id f := by
  obtain ⟨ap, hap, rfl⟩ := Option.map_eq_some_iff.mp h
  constructor
  · have hsorted := List.pairwise_map.mp ap.sorted
    rw [List.pairwise_map, List.pairwise_filterMap]
    refine hsorted.imp fun {p q} hpq p' hp' q' hq' => ?_
    split at hp' <;> split at hq' <;> simp_all
    obtain ⟨rfl, rfl⟩ := And.intro hp' hq'
    exact hpq
  · intro id f
    rw [List.mem_filterMap]
    constructor
    · rintro ⟨⟨id', f', isEnabled⟩, hmem, hp⟩
      cases isEnabled with
      | false => simp at hp
      | true =>
        simp only [if_true, Option.some.injEq, Prod.mk.injEq] at hp
        obtain ⟨rfl, rfl⟩ := hp
        exact ⟨ap, hap, hmem⟩
    · rintro ⟨ap', hap', hmem⟩
      rw [hap] at hap'
      cases hap'
      exact ⟨_, hmem, by simp⟩

/-- **Step lemma.** From a coherent state, a call does what it has to exactly when it is
    harmless. -/
theorem serves_iff (hm : m.Coherent) (call : ActionCall α) (errors : WriteErrors) :
    Serves (some m) (call, errors) ↔ Harmless (some m) (call, errors) := by
  -- Only `PerformActions` is asked to perform.
  have hserves : (∀ a, call ≠ .performActions a) →
      (Serves (some m) (call, errors) ↔ ∃ r, m.call errors call = some r ∧ Sound m r) := by
    intro hcall
    constructor
    · rintro ⟨m', r, hm', hr, hsound, -⟩
      cases hm'
      exact ⟨r, hr, hsound⟩
    · rintro ⟨r, hr, hsound⟩
      exact ⟨m, r, rfl, hr, hsound, fun a ha => absurd ha (hcall a)⟩
  cases call with
  | setAction address f =>
    rw [hserves (by simp)]
    exact setAction_sound_iff hm
  | clearAction address id =>
    rw [hserves (by simp), ← clearAction_sound_iff hm]
    simp [call]
  | enableAction address id =>
    rw [hserves (by simp), ← enableAction_sound_iff hm]
    simp [call]
  | disableAction address id =>
    rw [hserves (by simp), ← disableAction_sound_iff hm]
    simp [call]
  | clearAllActionPoints =>
    rw [hserves (by simp), ← clearAllActionPoints_coherent_iff hm]
    simp [call, Sound]
  | performActions address =>
    constructor
    · rintro ⟨m', r, hm', hr, -, -⟩ hnone
      cases hm'
      simp [call, performActions, hnone] at hr
    · intro hsome
      obtain ⟨ap, hap⟩ := Option.ne_none_iff_exists'.mp hsome
      obtain ⟨fs, hperform⟩ : ∃ fs, m.performActions address = some fs :=
        ⟨_, by rw [performActions, hap, Option.map_some]⟩
      refine ⟨m, (m, { status := .ok none, performed := fs }), rfl, ?_, sound_self hm _, ?_⟩
      · rw [call, hperform, Option.map_some]
      · intro a ha
        cases ha
        exact performActions_spec hperform

/-! ### Runs -/

/-- **Action points.** Whatever is called and whichever writes fail: every state is coherent
    and every call does what it has to exactly when every call is harmless. -/
theorem coherent_iff_harmless (calls : List (ActionCall α × WriteErrors)) :
    ((∀ before after, calls = before ++ after →
        ∃ m, run step (some init) before = some m ∧ m.Coherent) ∧
      Along step Serves (some (init : ActionPointManager α)) calls) ↔
      Along step Harmless (some init) calls := by
  let P : Option (ActionPointManager α) → Prop := fun s => ∃ m, s = some m ∧ m.Coherent
  have hinit : P (some init) := ⟨init, rfl, fun a => rfl, fun a => by simp [init, activeCount]⟩
  have hstep : ∀ s e, P s → (Serves s e ↔ Harmless s e) := by
    rintro _ ⟨call, errors⟩ ⟨m, rfl, hm⟩
    exact serves_iff hm call errors
  have hkeep : ∀ s e, P s → Serves s e → P (step s e) := by
    rintro _ e - ⟨m, r, rfl, hr, hsound, -⟩
    exact ⟨r.1, by rw [step, Option.bind_some, hr, Option.map_some], hsound.1⟩
  rw [← along_iff_along P hstep hkeep hinit]
  constructor
  · exact fun h => h.2
  · refine fun h => ⟨?_, h⟩
    rintro before after rfl
    exact run_invariant P hkeep hinit (along_append.mp h).1

/-- A failed write leaves a disabled action with its breakpoint instruction in memory. -/
theorem disableAction_leaves_breakpoint :
    let s := run step (some (init : ActionPointManager Unit))
      [(.setAction 16 (), fun _ => none), (.disableAction 16 0, fun _ => some "write failed")]
    s.map (fun m => (m.activeCount 16, m.breakpoint 16)) = some (0, true) ∧
      ¬ ∃ m, s = some m ∧ m.Coherent := by
  intro s
  have hs : s.map (fun m => (m.activeCount 16, m.breakpoint 16)) = some (0, true) := by decide
  refine ⟨hs, ?_⟩
  rintro ⟨m, hm, hcoherent⟩
  rw [hm, Option.map_some, Option.some.injEq, Prod.mk.injEq] at hs
  have := (hcoherent.memory 16).mp hs.2
  omega

end ActionPointManager

end MpactSim.Generic
