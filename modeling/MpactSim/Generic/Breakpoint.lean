import MpactSim.Generic.ActionPoint

namespace MpactSim.Generic

open Lib

/-!
# Breakpoints

A `BreakpointManager` keeps its breakpoints as actions of an action point manager that it
shares with other clients.  It remembers an action by its address and its id, and ids
start again when the action points are cleared.

* `Owned` — every id that is remembered is that of the manager's own action;
* `Isolated` — what `IsBreakpoint` and `ClearBreakpoint` then do;
* `breakpoints_isolated` — which runs keep the ids owned, and what holds in them.
-/

universe u

variable {β : Type u}

/-! ### The actions of a manager, by address and id -/

namespace ActionPointInfo

variable {α : Type u}

theorem find_add (ap : ActionPointInfo α) (f : α) (id : Int) :
    (ap.add f).find id = if id = ap.nextId then some ⟨f, true⟩ else ap.find id := by
  unfold find add
  rw [List.find?_append, List.find?_singleton]
  by_cases hid : id = ap.nextId
  · -- No action has the next id.
    have hnone : ap.actionMap.find? (·.1 = id) = none := by
      rw [List.find?_eq_none]
      intro p hp heq
      have := ap.fresh p.1 (List.mem_map_of_mem hp)
      have : p.1 = id := by simpa using heq
      omega
    rw [hnone, if_pos hid]
    simp [hid]
  · cases ap.actionMap.find? (·.1 = id) <;> simp [hid, Ne.symm hid]

theorem find_erase (ap : ActionPointInfo α) (id : Int) (action : ActionInfo α) (id' : Int) :
    (ap.erase id action).find id' = if id' = id then none else ap.find id' := by
  unfold find erase
  rw [List.find?_filter]
  by_cases hid : id' = id
  · simp [hid]
  · rw [if_neg hid]
    congr 2
    funext p
    by_cases hp : p.1 = id'
    · simp [hp, hid]
    · simp [hp]

theorem find_enable (ap : ActionPointInfo α) (id : Int) (isEnabled : Bool) (numActive id' : Int) :
    (ap.enable id isEnabled numActive).find id' =
      (ap.find id').map fun action =>
        if id' = id then { action with isEnabled } else action := by
  unfold find enable
  rw [List.find?_map, Option.map_map, Option.map_map]
  -- The ids are not changed.
  change Option.map _ (ap.actionMap.find? fun p => decide (p.1 = id')) = _
  cases hfind : ap.actionMap.find? fun p => decide (p.1 = id') with
  | none => rfl
  | some p =>
    have hp : p.1 = id' := by simpa using List.find?_some hfind
    simp [hp]

end ActionPointInfo

namespace ActionPointManager

variable {α : Type u} {m : ActionPointManager α}

/-- The action of an address and an id. -/
def action (m : ActionPointManager α) (address : BitVec 64) (id : Int) : Option (ActionInfo α) :=
  (m.actionPointMap address).bind (·.find id)

theorem isActionEnabled_eq (m : ActionPointManager α) (address : BitVec 64) (id : Int) :
    m.isActionEnabled address id = ((m.action address id).map (·.isEnabled)).getD false := by
  unfold isActionEnabled action
  cases m.actionPointMap address with
  | none => rfl
  | some ap => cases h : ap.find id <;> simp [h]

theorem action_put (m : ActionPointManager α) (address : BitVec 64) (ap : ActionPointInfo α)
    (a : BitVec 64) (id : Int) :
    (m.put address ap).action a id = if a = address then ap.find id else m.action a id := by
  unfold action put
  by_cases ha : a = address
  · subst ha
    simp
  · simp [ha]

theorem lookup_cases (m : ActionPointManager α) (address : BitVec 64) (id : Int) :
    (∃ e, m.lookup address id = .error e ∧ m.action address id = none) ∨
      ∃ ap info, m.lookup address id = .ok (ap, info) ∧ m.action address id = some info := by
  unfold lookup action
  cases m.actionPointMap address with
  | none => exact .inl ⟨_, rfl, rfl⟩
  | some ap =>
    simp only [Option.bind_some]
    cases ap.find id with
    | none => exact .inl ⟨_, rfl, rfl⟩
    | some info => exact .inr ⟨ap, info, rfl, rfl⟩

theorem action_finish (m : ActionPointManager α) (errors : WriteErrors) (address : BitVec 64)
    (isSet : Bool) :
    (m.finish (m.write errors address isSet)).1.action = m.action := by
  unfold write
  cases errors address <;> rfl

theorem action_clearAction (m : ActionPointManager α) (errors : WriteErrors) (address : BitVec 64)
    (id : Int) (a : BitVec 64) (id' : Int) :
    (m.clearAction errors address id).1.action a id' =
      if a = address ∧ id' = id then none else m.action a id' := by
  unfold clearAction
  rcases m.lookup_cases address id with ⟨e, hlookup, hnone⟩ | ⟨ap, info, hlookup, hsome⟩
  · rw [hlookup]
    dsimp only
    split
    · rename_i h
      rw [h.1, h.2, hnone]
    · rfl
  · obtain ⟨hap, -⟩ := lookup_eq_ok hlookup
    rw [hlookup]
    have hput : ((m.put address (ap.erase id info)).action) a id' =
        if a = address ∧ id' = id then none else m.action a id' := by
      rw [action_put]
      by_cases ha : a = address
      · subst ha
        rw [if_pos rfl, ap.find_erase]
        simp [action, hap]
      · simp [ha]
    dsimp only
    split
    · rw [action_finish]
      exact hput
    · exact hput

/-- Whether `ClearAction` has to write. -/
def LastActive (m : ActionPointManager α) (address : BitVec 64) (id : Int) : Prop :=
  ∃ ap info, m.lookup address id = .ok (ap, info) ∧
    ap.numActive = if info.isEnabled then 1 else 0

theorem clearAction_status (m : ActionPointManager α) (errors : WriteErrors) (address : BitVec 64)
    (id : Int) :
    (∃ x, (m.clearAction errors address id).2.status = .ok x) ↔
      m.action address id ≠ none ∧ (m.LastActive address id → errors address = none) := by
  unfold clearAction LastActive
  rcases m.lookup_cases address id with ⟨e, hlookup, hnone⟩ | ⟨ap, info, hlookup, hsome⟩
  · simp [hlookup, hnone]
  · have hzero : (ap.erase id info).numActive = 0 ↔
        ap.numActive = if info.isEnabled then 1 else 0 := sub_eq_zero
    simp only [hlookup, hsome, Except.ok.injEq, Prod.mk.injEq, ne_eq, reduceCtorEq,
      not_false_eq_true, true_and]
    by_cases hlast : (ap.erase id info).numActive = 0
    · rw [if_pos hlast]
      unfold write
      cases herror : errors address with
      | some message => simp [finish, hzero.mp hlast]
      | none => simp [finish]
    · rw [if_neg hlast]
      refine iff_of_true ⟨none, rfl⟩ ?_
      rintro ⟨ap', info', ⟨rfl, rfl⟩, hactive⟩
      exact absurd (hzero.mpr hactive) hlast

/-- At most the flag of one action is changed. -/
def FlagOnly (m m' : ActionPointManager α) (address : BitVec 64) (id : Int) : Prop :=
  ∀ a id', (m'.action a id').map (·.actionFcn) = (m.action a id').map (·.actionFcn) ∧
    (¬ (a = address ∧ id' = id) → m'.action a id' = m.action a id')

theorem flagOnly_self (m : ActionPointManager α) (address : BitVec 64) (id : Int) :
    FlagOnly m m address id := fun _ _ => ⟨rfl, fun _ => rfl⟩

variable {address : BitVec 64} {ap : ActionPointInfo α}

theorem flagOnly_put {id : Int} (hap : m.actionPointMap address = some ap) (isEnabled : Bool)
    (numActive : Int) :
    FlagOnly m (m.put address (ap.enable id isEnabled numActive)) address id := by
  intro a id'
  rw [action_put]
  by_cases ha : a = address
  · subst ha
    have haction : m.action a id' = ap.find id' := by rw [action, hap, Option.bind_some]
    rw [if_pos rfl, ap.find_enable, haction]
    constructor
    · cases ap.find id' with
      | none => rfl
      | some info =>
        simp only [Option.map_some, Option.some.injEq]
        split <;> rfl
    · intro hne
      have hid : id' ≠ id := fun h => hne ⟨rfl, h⟩
      simp [hid]
  · exact ⟨by rw [if_neg ha], fun _ => if_neg ha⟩

theorem flagOnly_finish {id : Int} (hap : m.actionPointMap address = some ap) (errors : WriteErrors)
    (isEnabled isSet : Bool) (numActive n : Int) :
    FlagOnly m (if numActive = n then
        (m.put address (ap.enable id isEnabled numActive)).finish
          ((m.put address (ap.enable id isEnabled numActive)).write errors address isSet)
      else (m.put address (ap.enable id isEnabled numActive), { status := .ok none })).1
      address id := by
  split
  · intro a id'
    rw [action_finish]
    exact flagOnly_put hap isEnabled numActive a id'
  · exact flagOnly_put hap isEnabled numActive

theorem flagOnly_enableAction (m : ActionPointManager α) (errors : WriteErrors)
    (address : BitVec 64) (id : Int) :
    FlagOnly m (m.enableAction errors address id).1 address id := by
  unfold enableAction
  rcases m.lookup_cases address id with ⟨e, hlookup, -⟩ | ⟨ap, info, hlookup, -⟩
  · rw [hlookup]
    exact flagOnly_self m address id
  · rw [hlookup]
    dsimp only
    split
    · exact flagOnly_self m address id
    · exact flagOnly_finish (lookup_eq_ok hlookup).1 errors true true _ 1

theorem flagOnly_disableAction (m : ActionPointManager α) (errors : WriteErrors)
    (address : BitVec 64) (id : Int) :
    FlagOnly m (m.disableAction errors address id).1 address id := by
  unfold disableAction
  rcases m.lookup_cases address id with ⟨e, hlookup, -⟩ | ⟨ap, info, hlookup, -⟩
  · rw [hlookup]
    exact flagOnly_self m address id
  · rw [hlookup]
    dsimp only
    split
    · exact flagOnly_self m address id
    · exact flagOnly_finish (lookup_eq_ok hlookup).1 errors false false _ 0

/-- Whether `SetAction` gets an id, or fails before it takes one. -/
def CanSet (m : ActionPointManager α) (errors : WriteErrors) (address : BitVec 64) : Prop :=
  (m.activeCount address = 0 ∧ errors address ≠ none) ∨
    ((m.actionPointMap address).map ActionPointInfo.nextId).getD 0 < 2 ^ 31 - 1

/-- The end of `SetAction`. -/
theorem addAction_spec {f : α} {r : ActionPointManager α × Reply α}
    (hap : (m.actionPointMap address).getD .new = ap) (h : m.addAction address ap f = some r) :
    ∃ id, r.2.status = .ok (some id) ∧ m.action address id = none ∧
      ∀ a id', r.1.action a id' =
        if a = address ∧ id' = id then some ⟨f, true⟩ else m.action a id' := by
  unfold addAction at h
  split at h
  · cases h
    have hfind : ∀ id, ap.find id = m.action address id := by
      intro id
      rw [← hap, action]
      cases m.actionPointMap address <;> rfl
    refine ⟨ap.nextId, rfl, ?_, fun a id' => ?_⟩
    · rw [← hfind]
      cases hnext : ap.find ap.nextId with
      | none => rfl
      | some info =>
        have := ap.fresh _ (List.mem_map_of_mem (ActionPointInfo.mem_of_find hnext))
        exact absurd this (lt_irrefl _)
    · rw [action_put]
      by_cases ha : a = address
      · subst ha
        rw [if_pos rfl, ap.find_add, hfind]
        simp
      · simp [ha]
  · cases h

/-- `SetAction` adds an enabled action under an id that no action has, or returns an error
    and adds none. -/
theorem setAction_spec {errors : WriteErrors} {f : α} {r : ActionPointManager α × Reply α}
    (h : m.setAction errors address f = some r) :
    (∃ e, r = (m, { status := .error e })) ∨
      ∃ id, r.2.status = .ok (some id) ∧ m.action address id = none ∧
        ∀ a id', r.1.action a id' =
          if a = address ∧ id' = id then some ⟨f, true⟩ else m.action a id' := by
  unfold setAction write at h
  split at h
  · rename_i hap
    cases herror : errors address with
    | some message =>
      rw [herror] at h
      cases h
      exact .inl ⟨_, rfl⟩
    | none =>
      rw [herror] at h
      have hnew : (m.actionPointMap address).getD .new = .new := by rw [hap]; rfl
      exact .inr (addAction_spec
        (m := ⟨m.actionPointMap, Function.update m.breakpoint address true⟩) hnew h)
  · rename_i ap hap
    have hget : (m.actionPointMap address).getD .new = ap := by rw [hap]; rfl
    split at h
    · cases herror : errors address with
      | some message =>
        rw [herror] at h
        cases h
        exact .inl ⟨_, rfl⟩
      | none =>
        rw [herror] at h
        exact .inr (addAction_spec
          (m := ⟨m.actionPointMap, Function.update m.breakpoint address true⟩) hget h)
    · exact .inr (addAction_spec hget h)

theorem setAction_defined_iff (m : ActionPointManager α) (errors : WriteErrors)
    (address : BitVec 64) (f : α) :
    (∃ r, m.setAction errors address f = some r) ↔ m.CanSet errors address := by
  unfold setAction CanSet write addAction activeCount
  cases hap : m.actionPointMap address with
  | none => cases errors address <;> simp [ActionPointInfo.new]
  | some ap =>
    by_cases hzero : ap.numActive = 0
    · cases errors address <;> simp [hzero]
    · simp [hzero]

end ActionPointManager

/-! ### The source -/

/-- The action functions: that of the breakpoint manager, and those of other clients. -/
inductive DebugAction (β : Type u) where
  | doBreakpointAction
  | client (f : β)
  deriving DecidableEq, Repr

/-- `BreakpointManager` on its action point manager.  A breakpoint is an address and the id
    of its action; no call depends on the order of the map. -/
structure BreakpointManager (β : Type u) where
  actionPointManager : ActionPointManager (DebugAction β)
  breakpointMap : List (BitVec 64 × Int)
  nodup : (breakpointMap.map Prod.fst).Nodup

/-- The calls on the two objects: those of the breakpoint manager, and those of other
    clients on the action point manager. -/
inductive DebugCall (β : Type u) where
  | setBreakpoint (address : BitVec 64)
  | clearBreakpoint (address : BitVec 64)
  | disableBreakpoint (address : BitVec 64)
  | enableBreakpoint (address : BitVec 64)
  | clearAllBreakpoints
  | setAction (address : BitVec 64) (f : β)
  | clearAction (address : BitVec 64) (id : Int)
  | enableAction (address : BitVec 64) (id : Int)
  | disableAction (address : BitVec 64) (id : Int)
  | clearAllActionPoints

namespace BreakpointManager

/-- Nothing is set. -/
def init : BreakpointManager β := ⟨.init, [], .nil⟩

/-- The id of the breakpoint at an address. -/
def breakpointId (s : BreakpointManager β) (address : BitVec 64) : Option Int :=
  (s.breakpointMap.find? (·.1 = address)).map Prod.snd

/-- `HasBreakpoint`. -/
def hasBreakpoint (s : BreakpointManager β) (address : BitVec 64) : Bool :=
  (s.breakpointId address).isSome

/-- The state with another state of the action point manager. -/
def withActions (s : BreakpointManager β) (m : ActionPointManager (DebugAction β)) :
    BreakpointManager β :=
  { s with actionPointManager := m }

/-- Erase a breakpoint from the map. -/
def eraseBreakpoint (s : BreakpointManager β) (address : BitVec 64) : BreakpointManager β :=
  { s with
    breakpointMap := s.breakpointMap.filter (·.1 ≠ address)
    nodup := s.nodup.sublist (List.filter_sublist.map _) }

/-- Insert a breakpoint at an address that has none. -/
def insertBreakpoint (s : BreakpointManager β) (address : BitVec 64) (id : Int) :
    BreakpointManager β :=
  if h : address ∈ s.breakpointMap.map Prod.fst then s
  else { s with
    breakpointMap := (address, id) :: s.breakpointMap
    nodup := List.nodup_cons.mpr ⟨h, s.nodup⟩ }

/-- `SetBreakpoint`. -/
def setBreakpoint (s : BreakpointManager β) (errors : WriteErrors) (address : BitVec 64) :
    Option (BreakpointManager β × Except StatusError Unit) :=
  if s.hasBreakpoint address then
    some (s, .error (.alreadyExists
      s!"Error SetBreakpoint: Breakpoint at {hex address} already exists"))
  else
    (s.actionPointManager.setAction errors address .doBreakpointAction).map fun (m, reply) =>
      match reply.status with
      | .error e => (s.withActions m, .error e)
      -- A status that is OK comes with the id of the new action.
      | .ok id => ((s.withActions m).insertBreakpoint address (id.getD 0), .ok ())

/-- `ClearBreakpoint`. -/
def clearBreakpoint (s : BreakpointManager β) (errors : WriteErrors) (address : BitVec 64) :
    BreakpointManager β × Except StatusError Unit :=
  match s.breakpointId address with
  | none =>
    (s, .error (.notFound s!"Error ClearBreakpoint: No breakpoint set for {hex address}"))
  | some id =>
    let (m, reply) := s.actionPointManager.clearAction errors address id
    match reply.status with
    | .error e => (s.withActions m, .error e)
    | .ok _ => ((s.withActions m).eraseBreakpoint address, .ok ())

/-- `DisableBreakpoint`. -/
def disableBreakpoint (s : BreakpointManager β) (errors : WriteErrors) (address : BitVec 64) :
    BreakpointManager β × Except StatusError Unit :=
  match s.breakpointId address with
  | none =>
    (s, .error (.notFound s!"Error DisableBreakpoint: No breakpoint set for {hex address}"))
  | some id =>
    let (m, reply) := s.actionPointManager.disableAction errors address id
    (s.withActions m, reply.status.map fun _ => ())

/-- `EnableBreakpoint`. -/
def enableBreakpoint (s : BreakpointManager β) (errors : WriteErrors) (address : BitVec 64) :
    BreakpointManager β × Except StatusError Unit :=
  match s.breakpointId address with
  | none =>
    (s, .error (.notFound s!"Error EnableBreakpoint: No breakpoint set for {hex address}"))
  | some id =>
    let (m, reply) := s.actionPointManager.enableAction errors address id
    (s.withActions m, reply.status.map fun _ => ())

/-- `ClearAllBreakpoints`.  The status of the calls is not used. -/
def clearAllBreakpoints (s : BreakpointManager β) (errors : WriteErrors) : BreakpointManager β where
  actionPointManager := s.breakpointMap.foldl
    (fun m bp => (m.clearAction errors bp.1 bp.2).1) s.actionPointManager
  breakpointMap := []
  nodup := .nil

/-- `IsBreakpoint`. -/
def isBreakpoint (s : BreakpointManager β) (address : BitVec 64) : Bool :=
  match s.breakpointId address with
  | none => false
  | some id => s.actionPointManager.isActionEnabled address id

/-- A call; `none` where the behaviour of the source is undefined. -/
def call (s : BreakpointManager β) (errors : WriteErrors) :
    DebugCall β → Option (BreakpointManager β)
  | .setBreakpoint address => (s.setBreakpoint errors address).map Prod.fst
  | .clearBreakpoint address => some (s.clearBreakpoint errors address).1
  | .disableBreakpoint address => some (s.disableBreakpoint errors address).1
  | .enableBreakpoint address => some (s.enableBreakpoint errors address).1
  | .clearAllBreakpoints => some (s.clearAllBreakpoints errors)
  | .setAction address f =>
    (s.actionPointManager.setAction errors address (.client f)).map fun r => s.withActions r.1
  | .clearAction address id =>
    some (s.withActions (s.actionPointManager.clearAction errors address id).1)
  | .enableAction address id =>
    some (s.withActions (s.actionPointManager.enableAction errors address id).1)
  | .disableAction address id =>
    some (s.withActions (s.actionPointManager.disableAction errors address id).1)
  | .clearAllActionPoints => some (s.withActions (s.actionPointManager.clearAllActionPoints errors))

/-- A call in a run, with the writes that fail during it. -/
def step (s : Option (BreakpointManager β)) (e : DebugCall β × WriteErrors) :
    Option (BreakpointManager β) :=
  s.bind fun s => s.call e.2 e.1

/-! ### The specification -/

/-- Every breakpoint remembers an action of the manager itself. -/
def Owned (s : BreakpointManager β) : Prop :=
  ∀ address id, s.breakpointId address = some id →
    ∃ isEnabled, s.actionPointManager.action address id = some ⟨.doBreakpointAction, isEnabled⟩

/-- `IsBreakpoint` tells whether there is a breakpoint with an enabled action of the manager,
    and `ClearBreakpoint` succeeds wherever there is a breakpoint, if no write fails. -/
def Isolated (s : BreakpointManager β) : Prop :=
  (∀ address, s.isBreakpoint address = true ↔ ∃ id, s.breakpointId address = some id ∧
    s.actionPointManager.action address id = some ⟨.doBreakpointAction, true⟩) ∧
  ∀ address, s.hasBreakpoint address = true →
    (s.clearBreakpoint (fun _ => none) address).2 = .ok ()

/-- Whether a call is one of the breakpoint manager. -/
def OnBreakpoints : DebugCall β → Prop
  | .setBreakpoint _ | .clearBreakpoint _ | .disableBreakpoint _ | .enableBreakpoint _
  | .clearAllBreakpoints => True
  | _ => False

/-- A call on breakpoints leaves the actions of other clients as they are. -/
def KeepsOthers (s : Option (BreakpointManager β)) (e : DebugCall β × WriteErrors) : Prop :=
  OnBreakpoints e.1 → ∃ s₀ s₁, s = some s₀ ∧ s₀.call e.2 e.1 = some s₁ ∧
    ∀ address id f isEnabled,
      s₀.actionPointManager.action address id = some ⟨.client f, isEnabled⟩ →
        s₁.actionPointManager.action address id = some ⟨.client f, isEnabled⟩

/-- The calls that keep the ids owned: no client clears an action of the manager, the action
    points are cleared only while there is no breakpoint, the write of `ClearBreakpoint`
    succeeds if it is needed, and an id is left for a new action. -/
def Isolating : Option (BreakpointManager β) → DebugCall β × WriteErrors → Prop
  | none, _ => False
  | some s, (.setBreakpoint address, errors) =>
    s.hasBreakpoint address = true ∨ s.actionPointManager.CanSet errors address
  | some s, (.clearBreakpoint address, errors) =>
    ∀ id, s.breakpointId address = some id →
      s.actionPointManager.LastActive address id → errors address = none
  | some s, (.setAction address _, errors) => s.actionPointManager.CanSet errors address
  | some s, (.clearAction address id, _) => s.breakpointId address ≠ some id
  | some s, (.clearAllActionPoints, _) => s.breakpointMap = []
  | some _, _ => True

/-! ### The map of breakpoints -/

variable {s : BreakpointManager β}

variable {address : BitVec 64} {id : Int} {m : ActionPointManager (DebugAction β)}

theorem breakpointId_eq_some :
    s.breakpointId address = some id ↔ (address, id) ∈ s.breakpointMap := by
  constructor
  · intro h
    obtain ⟨p, hp, rfl⟩ := Option.map_eq_some_iff.mp h
    have haddress : p.1 = address := by simpa using List.find?_some hp
    have hmem := List.mem_of_find?_eq_some hp
    rwa [← haddress]
  · intro h
    -- The entry that is found has the same address, so it is the same entry.
    obtain ⟨p, hp⟩ : ∃ p, s.breakpointMap.find? (·.1 = address) = some p := by
      rw [← Option.isSome_iff_exists, List.find?_isSome]
      exact ⟨_, h, by simp⟩
    have haddress : p.1 = address := by simpa using List.find?_some hp
    have heq : p = (address, id) :=
      List.inj_on_of_nodup_map s.nodup (List.mem_of_find?_eq_some hp) h haddress
    rw [breakpointId, hp, heq]
    rfl

theorem breakpointId_insert (h : s.hasBreakpoint address = false) (id : Int) (a : BitVec 64) :
    (s.insertBreakpoint address id).breakpointId a =
      if a = address then some id else s.breakpointId a := by
  have hnone : address ∉ s.breakpointMap.map Prod.fst := by
    intro hmem
    obtain ⟨p, hp, rfl⟩ := List.mem_map.mp hmem
    rw [hasBreakpoint, breakpointId_eq_some.mpr hp] at h
    cases h
  unfold insertBreakpoint breakpointId
  rw [dif_neg hnone, List.find?_cons]
  by_cases ha : a = address
  · simp [ha]
  · simp [ha, Ne.symm ha]

theorem breakpointId_erase (s : BreakpointManager β) (address a : BitVec 64) :
    (s.eraseBreakpoint address).breakpointId a =
      if a = address then none else s.breakpointId a := by
  unfold eraseBreakpoint breakpointId
  rw [List.find?_filter]
  by_cases ha : a = address
  · simp [ha]
  · rw [if_neg ha]
    congr 2
    funext p
    by_cases hp : p.1 = a
    · simp [hp, ha]
    · simp [hp]

/-! ### Steps -/

theorem owned_withActions (hs : s.Owned) (hm : ∀ address id, s.breakpointId address = some id →
      (m.action address id).map (·.actionFcn) =
        (s.actionPointManager.action address id).map (·.actionFcn)) : (s.withActions m).Owned := by
  intro address id hid
  obtain ⟨isEnabled, haction⟩ := hs address id hid
  have hfcn := hm address id hid
  rw [haction, Option.map_some, Option.map_eq_some_iff] at hfcn
  obtain ⟨⟨f, isEnabled'⟩, haction', hf⟩ := hfcn
  cases hf
  exact ⟨isEnabled', haction'⟩

theorem owned_setAction (hs : s.Owned) {info : ActionInfo (DebugAction β)}
    (hm : ∀ a id', m.action a id' =
      if a = address ∧ id' = id then some info else s.actionPointManager.action a id')
    (hfree : s.actionPointManager.action address id = none) : (s.withActions m).Owned := by
  refine owned_withActions hs fun a id' hid => ?_
  obtain ⟨isEnabled, haction⟩ := hs a id' hid
  rw [hm, if_neg]
  rintro ⟨rfl, rfl⟩
  rw [haction] at hfree
  cases hfree

theorem owned_insert (hs : s.Owned) {isEnabled : Bool} (hhas : s.hasBreakpoint address = false)
    (haction : s.actionPointManager.action address id = some ⟨.doBreakpointAction, isEnabled⟩) :
    (s.insertBreakpoint address id).Owned := by
  have hkeep : (s.insertBreakpoint address id).actionPointManager = s.actionPointManager := by
    unfold insertBreakpoint
    split <;> rfl
  intro a id' hid
  rw [breakpointId_insert hhas] at hid
  rw [hkeep]
  by_cases ha : a = address
  · rw [if_pos ha, Option.some.injEq] at hid
    rw [ha, ← hid]
    exact ⟨isEnabled, haction⟩
  · rw [if_neg ha] at hid
    exact hs a id' hid

/-- The state after a call is owned, if there is one. -/
def OwnedAfter (s : BreakpointManager β) (e : DebugCall β × WriteErrors) : Prop :=
  ∃ s', s.call e.2 e.1 = some s' ∧ s'.Owned

theorem setBreakpoint_owned_iff (hs : s.Owned) (errors : WriteErrors) (address : BitVec 64) :
    s.OwnedAfter (.setBreakpoint address, errors) ↔
      s.hasBreakpoint address = true ∨ s.actionPointManager.CanSet errors address := by
  unfold OwnedAfter call setBreakpoint
  by_cases hhas : s.hasBreakpoint address = true
  · simpa [hhas] using hs
  · rw [← ActionPointManager.setAction_defined_iff _ _ _ DebugAction.doBreakpointAction]
    simp only [hhas, Bool.false_eq_true, if_false, false_or, Option.map_map, Option.map_eq_some_iff]
    constructor
    · rintro ⟨s', ⟨r, hr, -⟩, -⟩
      exact ⟨r, hr⟩
    · rintro ⟨⟨m, reply⟩, hr⟩
      refine ⟨_, ⟨_, hr, rfl⟩, ?_⟩
      rcases ActionPointManager.setAction_spec hr with ⟨e, heq⟩ | ⟨id, hstatus, hfree, haction⟩
      · cases heq
        exact hs
      · -- The new breakpoint has the new action; the old ones keep theirs.
        have hstatus' : reply.status = .ok (some id) := hstatus
        have haction' : ∀ a id', m.action a id' =
          if a = address ∧ id' = id then some ⟨.doBreakpointAction, true⟩
          else s.actionPointManager.action a id' := haction
        simp only [Function.comp_apply, hstatus', Option.getD_some]
        exact owned_insert (owned_setAction hs haction' hfree) (Bool.eq_false_iff.mpr hhas)
          ((haction' address id).trans (if_pos ⟨rfl, rfl⟩))

theorem setAction_owned_iff (hs : s.Owned) (errors : WriteErrors) (address : BitVec 64) (f : β) :
    s.OwnedAfter (.setAction address f, errors) ↔ s.actionPointManager.CanSet errors address := by
  unfold OwnedAfter
  rw [← ActionPointManager.setAction_defined_iff _ _ _ (DebugAction.client f)]
  simp only [call, Option.map_eq_some_iff]
  constructor
  · rintro ⟨s', ⟨r, hr, -⟩, -⟩
    exact ⟨r, hr⟩
  · rintro ⟨r, hr⟩
    refine ⟨_, ⟨r, hr, rfl⟩, ?_⟩
    rcases ActionPointManager.setAction_spec hr with ⟨e, rfl⟩ | ⟨id, -, hfree, haction⟩
    · exact hs
    · exact owned_setAction hs haction hfree

theorem clearBreakpoint_owned_iff (hs : s.Owned) (errors : WriteErrors) (address : BitVec 64) :
    (s.clearBreakpoint errors address).1.Owned ↔ ∀ id, s.breakpointId address = some id →
      s.actionPointManager.LastActive address id → errors address = none := by
  unfold clearBreakpoint
  cases hid : s.breakpointId address with
  | none => simpa using hs
  | some id =>
    obtain ⟨isEnabled, haction⟩ := hs address id hid
    have hstatus := s.actionPointManager.clearAction_status errors address id
    have hcleared := s.actionPointManager.action_clearAction errors address id
    simp only [haction, ne_eq, reduceCtorEq, not_false_eq_true, true_and] at hstatus
    simp only [Option.some.injEq, forall_eq']
    rw [← hstatus]
    generalize s.actionPointManager.clearAction errors address id = r at hcleared hstatus ⊢
    obtain ⟨m, reply⟩ := r
    dsimp only at hcleared ⊢
    cases hreply : reply.status with
    | error e =>
      -- The action is gone and the breakpoint stays.
      simp only [reduceCtorEq, exists_false, iff_false]
      intro howned
      obtain ⟨isEnabled', haction'⟩ := howned address id hid
      have hgone : m.action address id = none := (hcleared address id).trans (if_pos ⟨rfl, rfl⟩)
      exact absurd (hgone.symm.trans haction') (by simp)
    | ok x =>
      simp only [Except.ok.injEq, exists_eq', iff_true]
      intro a id' hid'
      rw [breakpointId_erase] at hid'
      by_cases ha : a = address
      · rw [if_pos ha] at hid'
        cases hid'
      · rw [if_neg ha] at hid'
        obtain ⟨isEnabled', haction'⟩ := hs a id' hid'
        refine ⟨isEnabled', ?_⟩
        show m.action a id' = _
        rw [hcleared, if_neg fun h => ha h.1, haction']

theorem clearAction_owned_iff (hs : s.Owned) (errors : WriteErrors) (address : BitVec 64) (id : Int) :
    (s.withActions (s.actionPointManager.clearAction errors address id).1).Owned ↔
      s.breakpointId address ≠ some id := by
  have hcleared := s.actionPointManager.action_clearAction errors address id
  constructor
  · intro howned hid
    obtain ⟨isEnabled, haction⟩ := howned address id hid
    have hgone := (hcleared address id).trans (if_pos ⟨rfl, rfl⟩)
    exact absurd (hgone.symm.trans haction) (by simp)
  · intro hid
    refine owned_withActions hs fun a id' hid' => ?_
    rw [hcleared, if_neg]
    rintro ⟨rfl, rfl⟩
    exact hid hid'

theorem clearAllActionPoints_owned_iff (errors : WriteErrors) :
    (s.withActions (s.actionPointManager.clearAllActionPoints errors)).Owned ↔
      s.breakpointMap = [] := by
  constructor
  · intro howned
    rw [List.eq_nil_iff_forall_not_mem]
    rintro ⟨address, id⟩ hmem
    obtain ⟨isEnabled, haction⟩ := howned address id (breakpointId_eq_some.mpr hmem)
    cases haction
  · intro hnil address id hid
    have hmem : (address, id) ∈ s.breakpointMap := breakpointId_eq_some.mp hid
    rw [hnil] at hmem
    cases hmem

theorem owned_flagOnly (hs : s.Owned) (hm : s.actionPointManager.FlagOnly m address id) :
    (s.withActions m).Owned :=
  owned_withActions hs fun a id' _ => (hm a id').1

/-- **Step lemma.** A call keeps the ids owned exactly when it is `Isolating`. -/
theorem owned_step_iff (hs : s.Owned) (call : DebugCall β) (errors : WriteErrors) :
    s.OwnedAfter (call, errors) ↔ Isolating (some s) (call, errors) := by
  -- A call that is always defined.
  have hdefined : ∀ {s' : BreakpointManager β}, s.call errors call = some s' →
      (s.OwnedAfter (call, errors) ↔ s'.Owned) := by
    intro s' hs'
    unfold OwnedAfter
    simp [hs']
  cases call with
  | setBreakpoint address => exact setBreakpoint_owned_iff hs errors address
  | clearBreakpoint address => exact (hdefined rfl).trans (clearBreakpoint_owned_iff hs errors address)
  | disableBreakpoint address =>
    refine (hdefined rfl).trans (iff_of_true ?_ trivial)
    unfold disableBreakpoint
    split
    · exact hs
    · exact owned_flagOnly hs (s.actionPointManager.flagOnly_disableAction errors address _)
  | enableBreakpoint address =>
    refine (hdefined rfl).trans (iff_of_true ?_ trivial)
    unfold enableBreakpoint
    split
    · exact hs
    · exact owned_flagOnly hs (s.actionPointManager.flagOnly_enableAction errors address _)
  | clearAllBreakpoints =>
    refine (hdefined rfl).trans (iff_of_true ?_ trivial)
    intro address id hid
    cases breakpointId_eq_some.mp hid
  | setAction address f => exact setAction_owned_iff hs errors address f
  | clearAction address id => exact (hdefined rfl).trans (clearAction_owned_iff hs errors address id)
  | enableAction address id =>
    exact (hdefined rfl).trans (iff_of_true
      (owned_flagOnly hs (s.actionPointManager.flagOnly_enableAction errors address id)) trivial)
  | disableAction address id =>
    exact (hdefined rfl).trans (iff_of_true
      (owned_flagOnly hs (s.actionPointManager.flagOnly_disableAction errors address id)) trivial)
  | clearAllActionPoints => exact (hdefined rfl).trans (clearAllActionPoints_owned_iff errors)

/-! ### What owned ids give -/

theorem Owned.isolated (hs : s.Owned) : s.Isolated := by
  constructor
  · intro address
    unfold isBreakpoint
    cases hid : s.breakpointId address with
    | none => simp
    | some id =>
      obtain ⟨isEnabled, haction⟩ := hs address id hid
      simp [ActionPointManager.isActionEnabled_eq, haction]
  · intro address hhas
    obtain ⟨id, hid⟩ := Option.isSome_iff_exists.mp hhas
    obtain ⟨isEnabled, haction⟩ := hs address id hid
    obtain ⟨x, hx⟩ := (s.actionPointManager.clearAction_status (fun _ => none) address id).mpr
      ⟨by rw [haction]; simp, fun _ => rfl⟩
    simp only [clearBreakpoint, hid, hx]

theorem action_clearActions (errors : WriteErrors) {bps : List (BitVec 64 × Int)}
    (h : (address, id) ∉ bps) :
    (bps.foldl (fun m bp => (m.clearAction errors bp.1 bp.2).1) m).action address id =
      m.action address id := by
  induction bps generalizing m with
  | nil => rfl
  | cons bp rest ih =>
    rw [List.mem_cons, not_or] at h
    rw [List.foldl_cons, ih h.2, m.action_clearAction, if_neg]
    rintro ⟨rfl, rfl⟩
    exact h.1 rfl

/-- With owned ids, a call on breakpoints touches no action of another client. -/
theorem Owned.keepsOthers (hs : s.Owned) {call : DebugCall β} {errors : WriteErrors}
    (hcall : Isolating (some s) (call, errors)) : KeepsOthers (some s) (call, errors) := by
  intro hbreakpoints
  obtain ⟨s', hs', -⟩ := (owned_step_iff hs call errors).mpr hcall
  refine ⟨s, s', rfl, hs', fun address id f isEnabled haction => ?_⟩
  -- The action of a client is not that of a breakpoint.
  have hother : s.breakpointId address ≠ some id := by
    intro hid
    obtain ⟨isEnabled', haction'⟩ := hs address id hid
    rw [haction] at haction'
    cases haction'
  have hne : ∀ a id', s.breakpointId a = some id' → ¬ (address = a ∧ id = id') := by
    rintro a id' hid ⟨rfl, rfl⟩
    exact hother hid
  cases call with
  | setBreakpoint a =>
    simp only [BreakpointManager.call, setBreakpoint] at hs'
    split at hs'
    · cases hs'
      exact haction
    · simp only [Option.map_map, Option.map_eq_some_iff, Function.comp_apply] at hs'
      obtain ⟨⟨m, reply⟩, hr, rfl⟩ := hs'
      rcases ActionPointManager.setAction_spec hr with ⟨e, heq⟩ | ⟨id', hstatus, hfree, hset⟩
      · cases heq
        exact haction
      · have hstatus' : reply.status = .ok (some id') := hstatus
        have hm : m.action address id = some ⟨.client f, isEnabled⟩ := by
          rw [hset address id, if_neg, haction]
          rintro ⟨rfl, rfl⟩
          rw [haction] at hfree
          cases hfree
        simp only [hstatus', insertBreakpoint]
        split <;> exact hm
  | clearBreakpoint a =>
    cases hs'
    unfold clearBreakpoint
    split
    · exact haction
    · rename_i id' hid
      have hm := s.actionPointManager.action_clearAction errors a id' address id
      rw [if_neg (hne a id' hid), haction] at hm
      dsimp only
      split <;> exact hm
  | disableBreakpoint a =>
    cases hs'
    unfold disableBreakpoint
    split
    · exact haction
    · rename_i id' hid
      have hm := (s.actionPointManager.flagOnly_disableAction errors a id' address id).2 (hne a id' hid)
      exact hm.trans haction
  | enableBreakpoint a =>
    cases hs'
    unfold enableBreakpoint
    split
    · exact haction
    · rename_i id' hid
      have hm := (s.actionPointManager.flagOnly_enableAction errors a id' address id).2 (hne a id' hid)
      exact hm.trans haction
  | clearAllBreakpoints =>
    cases hs'
    have hmem : (address, id) ∉ s.breakpointMap := fun h => hother (breakpointId_eq_some.mpr h)
    exact (action_clearActions errors hmem).trans haction
  | setAction a f' => cases hbreakpoints
  | clearAction a id' => cases hbreakpoints
  | enableAction a id' => cases hbreakpoints
  | disableAction a id' => cases hbreakpoints
  | clearAllActionPoints => cases hbreakpoints

/-! ### Runs -/

/-- **Isolation of breakpoints.** Along a run the remembered ids are owned in every state
    exactly when every call is `Isolating`; and then `IsBreakpoint` and `ClearBreakpoint` do
    what they should in every state, and no call on breakpoints touches an action of
    another client. -/
theorem breakpoints_isolated (calls : List (DebugCall β × WriteErrors)) :
    ((∀ before after, calls = before ++ after →
        ∃ s : BreakpointManager β, run step (some init) before = some s ∧ s.Owned) ↔
      Along step Isolating (some init) calls) ∧
    (Along step Isolating (some init) calls →
      (∀ before after, calls = before ++ after →
        ∃ s : BreakpointManager β, run step (some init) before = some s ∧ s.Isolated) ∧
      Along step KeepsOthers (some init) calls) := by
  let P : Option (BreakpointManager β) → Prop := fun s => ∃ s₀, s = some s₀ ∧ s₀.Owned
  have hinit : P (some init) := by
    refine ⟨init, rfl, fun address id hid => ?_⟩
    cases breakpointId_eq_some.mp hid
  have hstep : ∀ s e, P s → (P (step s e) ↔ Isolating s e) := by
    rintro _ ⟨call, errors⟩ ⟨s, rfl, hs⟩
    exact owned_step_iff hs call errors
  have hiff := @forall_run_iff_along _ _ _ P _ hstep _ hinit calls
  refine ⟨hiff, fun h => ⟨fun before after heq => ?_, ?_⟩⟩
  · obtain ⟨s, hrun, hs⟩ := hiff.mpr h before after heq
    exact ⟨s, hrun, hs.isolated⟩
  · refine along_of_along P (fun s e hP he => (hstep s e hP).mpr he) ?_ hinit h
    rintro _ ⟨call, errors⟩ ⟨s, rfl, hs⟩ hcall
    exact hs.keepsOthers hcall

/-- After the action points are cleared, another client gets the id that the breakpoint
    remembers: the breakpoint seems to be there, and clearing it removes the other action. -/
theorem breakpoint_takes_other_action :
    let errors : WriteErrors := fun _ => none
    let s := run step (some (init : BreakpointManager Unit))
      [(.setBreakpoint 16, errors), (.clearAllActionPoints, errors), (.setAction 16 (), errors)]
    s.map (fun s => (s.isBreakpoint 16, s.actionPointManager.action 16 0)) =
        some (true, some ⟨.client (), true⟩) ∧
      (step s (.clearBreakpoint 16, errors)).map (fun s => s.actionPointManager.action 16 0) =
        some none ∧
      ¬ KeepsOthers s (.clearBreakpoint 16, errors) := by
  intro errors s
  have hs : s.map (fun s => (s.isBreakpoint 16, s.actionPointManager.action 16 0)) =
      some (true, some ⟨.client (), true⟩) := by decide
  have hcleared : (step s (.clearBreakpoint 16, errors)).map
      (fun s => s.actionPointManager.action 16 0) = some none := by decide
  refine ⟨hs, hcleared, fun h => ?_⟩
  obtain ⟨s₀, s₁, hs₀, hs₁, hkeep⟩ := h trivial
  rw [hs₀, Option.map_some, Option.some.injEq, Prod.mk.injEq] at hs
  rw [hs₀, step, Option.bind_some, hs₁, Option.map_some, Option.some.injEq] at hcleared
  exact absurd (hcleared.symm.trans (hkeep 16 0 () true hs.2)) (by simp)

end BreakpointManager

end MpactSim.Generic
