import MpactSim.Lib.Monad
import MpactSim.Lib.Run
import MpactSim.Memory.Interface

namespace MpactSim.Memory

open Lib

/-!
# Routing scalar accesses

A `SingleInitiatorRouter` forwards an access to the target whose range it is in.  There are
targets of three kinds, each with its own map and default target; scalar loads and stores
look at the plain memory targets and then at the tagged ones.

`route` says where an access should go.  `forward_eq_route_iff` says when it does: a plain
default target is taken before any tagged target is looked at, the tagged targets are
looked up by the first byte alone, and a store looks up one byte more than it writes.
-/

universe u

variable {μ τ ω ι : Type u}

/-! ### The source -/

/-- The errors of the router, with their texts. -/
inductive RouterError where
  | invalidArgument (text : String)
  | alreadyExists (text : String)
  deriving DecidableEq, Repr

/-- `SingleInitiatorRouter`, with targets that are plain memories, tagged memories and atomic
    memories. -/
structure SingleInitiatorRouter (μ τ ω : Type u) where
  memoryTargets : RangeMap Addr μ
  defaultMemoryTarget : Option μ
  taggedTargets : RangeMap Addr τ
  defaultTaggedTarget : Option τ
  atomicTargets : RangeMap Addr ω
  defaultAtomicTarget : Option ω

/-- `AddTargetPrivate`. -/
def addTargetPrivate (map : RangeMap Addr ι) (interface : ι) (base top : Addr) :
    Except RouterError (RangeMap Addr ι) :=
  if base > top then .error (.invalidArgument "Memory range base must be less than the top")
  else if base = top then .error (.invalidArgument "Memory range size must be non-zero")
  else
    match RangeMap.find? map ⟨base, top⟩ with
    | some it =>
      -- An exact duplicate is ignored.
      if it.1.lo = base ∧ it.1.hi = top then .ok map
      else .error (.alreadyExists ("Memory range conflicts with existing range: [" ++
        hexText it.1.lo ++ ".." ++ hexText it.1.hi ++ ">"))
    | none => .ok (RangeMap.insert map (⟨base, top⟩, interface))

/-- The check of `AddDefaultTarget`; a null pointer resets the default target. -/
def addDefault (current target : Option ι) (text : String) : Except RouterError (Option ι) :=
  if target.isSome ∧ current.isSome then .error (.alreadyExists text) else .ok target

/-- A call of `AddTarget` or `AddDefaultTarget`. -/
inductive RouterCall (μ τ ω : Type u) where
  | addMemory (target : μ) (base top : Addr)
  | addTagged (target : τ) (base top : Addr)
  | addAtomic (target : ω) (base top : Addr)
  | defaultMemory (target : Option μ)
  | defaultTagged (target : Option τ)
  | defaultAtomic (target : Option ω)

namespace SingleInitiatorRouter

/-- The constructor. -/
def init : SingleInitiatorRouter μ τ ω := ⟨[], none, [], none, [], none⟩

/-- `AddTarget` and `AddDefaultTarget`. -/
def call (r : SingleInitiatorRouter μ τ ω) :
    RouterCall μ τ ω → Except RouterError (SingleInitiatorRouter μ τ ω)
  | .addMemory target base top => do
    let targets ← addTargetPrivate r.memoryTargets target base top
    pure { r with memoryTargets := targets }
  | .addTagged target base top => do
    let targets ← addTargetPrivate r.taggedTargets target base top
    pure { r with taggedTargets := targets }
  | .addAtomic target base top => do
    let targets ← addTargetPrivate r.atomicTargets target base top
    pure { r with atomicTargets := targets }
  | .defaultMemory target => do
    let target ← addDefault r.defaultMemoryTarget target "Default memory target already exists"
    pure { r with defaultMemoryTarget := target }
  | .defaultTagged target => do
    let target ← addDefault r.defaultTaggedTarget target
      "Default tagged memory target already exists"
    pure { r with defaultTaggedTarget := target }
  | .defaultAtomic target => do
    let target ← addDefault r.defaultAtomicTarget target
      "Default atomic memory target already exists"
    pure { r with defaultAtomicTarget := target }

/-- The second half of a scalar `Load` or `Store`: the tagged targets. -/
def forwardTagged (r : SingleInitiatorRouter μ τ ω) (address : Addr) (size : Nat) :
    Option (μ ⊕ τ) :=
  match RangeMap.find? r.taggedTargets ⟨address, address⟩ with
  | some it => if it.1.Contains (accessRange address size) then some (.inr it.2) else none
  | none => r.defaultTaggedTarget.map .inr

/-- The body of a scalar `Load` or `Store`, which differ in the range they look up: where the
    access goes, or `none` if it goes nowhere. -/
def forward (r : SingleInitiatorRouter μ τ ω) (key : AddressRange) (address : Addr) (size : Nat) :
    Option (μ ⊕ τ) :=
  match RangeMap.find? r.memoryTargets key with
  | some it =>
    if it.1.Contains (accessRange address size) then some (.inl it.2)
    else r.forwardTagged address size
  | none =>
    match r.defaultMemoryTarget with
    | some target => some (.inl target)
    | none => r.forwardTagged address size

/-- Where a scalar `Load` goes. -/
def load (r : SingleInitiatorRouter μ τ ω) (address : Addr) (size : Nat) : Option (μ ⊕ τ) :=
  r.forward ⟨address, address + BitVec.ofNat 64 size - 1⟩ address size

/-- Where a scalar `Store` goes; the range it looks up has one byte more. -/
def store (r : SingleInitiatorRouter μ τ ω) (address : Addr) (size : Nat) : Option (μ ⊕ τ) :=
  r.forward ⟨address, address + BitVec.ofNat 64 size⟩ address size

end SingleInitiatorRouter

/-! ### The specification -/

/-- Some plain or tagged target has a byte of the access. -/
def SingleInitiatorRouter.Overlapped (r : SingleInitiatorRouter μ τ ω) (access : AddressRange) :
    Prop :=
  (∃ e ∈ r.memoryTargets, e.1.Overlaps access) ∨ ∃ e ∈ r.taggedTargets, e.1.Overlaps access

instance (r : SingleInitiatorRouter μ τ ω) (access : AddressRange) :
    Decidable (r.Overlapped access) :=
  inferInstanceAs (Decidable (_ ∨ _))

/-- The target that has all of an access. -/
def containing (map : RangeMap Addr ι) (access : AddressRange) : Option (AddressRange × ι) :=
  List.find? (fun e => e.1.Contains access) map

/-- Where an access should go: to the target that has all of it, to the default target if no
    target has a byte of it, and nowhere else.  Of two targets or two default targets, the
    plain one comes first. -/
def SingleInitiatorRouter.route (r : SingleInitiatorRouter μ τ ω) (access : AddressRange) :
    Option (μ ⊕ τ) :=
  match containing r.memoryTargets access with
  | some e => some (.inl e.2)
  | none =>
    match containing r.taggedTargets access with
    | some e => some (.inr e.2)
    | none =>
      if r.Overlapped access then none
      else (r.defaultMemoryTarget.map .inl).or (r.defaultTaggedTarget.map .inr)

/-- When an access that looks up `key` goes where it should. -/
def SingleInitiatorRouter.RouteOk (r : SingleInitiatorRouter μ τ ω) (access key : AddressRange) :
    Prop :=
  match containing r.memoryTargets access with
  | some e =>
    -- The range does not start after the key, as it does if the key wraps around to 0.
    e.1.lo ≤ key.hi ∨ r.defaultMemoryTarget = some e.2
  | none =>
    if (∀ e ∈ r.memoryTargets, ¬ e.1.Overlaps key) ∧ r.defaultMemoryTarget.isSome then
      -- The plain default target is taken.
      ¬ r.Overlapped access
    else
      -- A tagged target has the first byte, or the tagged default target is the right one.
      (∃ e ∈ r.taggedTargets, e.1.Overlaps ⟨access.lo, access.lo⟩) ∨
        if r.Overlapped access then r.defaultTaggedTarget = none else r.defaultMemoryTarget = none

/-! ### Lookups -/

variable {map : RangeMap Addr ι} {access : AddressRange}

theorem containing_eq_none_iff :
    containing map access = none ↔ ∀ e ∈ map, ¬ e.1.Contains access := by
  rw [containing, List.find?_eq_none]
  simp

theorem of_containing_eq_some {e : AddressRange × ι} (h : containing map access = some e) :
    e ∈ map ∧ e.1.Contains access :=
  ⟨List.mem_of_find?_eq_some h, of_decide_eq_true (List.find?_some h :)⟩

theorem containing_eq_some_of_mem (h : RangeMap.Sorted map) (haccess : access.lo ≤ access.hi)
    {e : AddressRange × ι} (he : e ∈ map) (hcontains : e.1.Contains access) :
    containing map access = some e := by
  cases hfind : containing map access with
  | none => exact absurd hcontains (containing_eq_none_iff.mp hfind e he)
  | some f =>
    obtain ⟨hf, hcontains'⟩ := of_containing_eq_some hfind
    rw [h.eq_of_mem hf he hcontains'.1 (haccess.trans hcontains'.2) hcontains.1
      (haccess.trans hcontains.2)]

/-- The tagged targets take the access where it should go, or leave it to their default. -/
theorem forwardTagged_eq {r : SingleInitiatorRouter μ τ ω} (h : RangeMap.Sorted r.taggedTargets)
    {address : Addr} {size : Nat} (haccess : address ≤ (accessRange address size).hi) :
    r.forwardTagged address size =
      match containing r.taggedTargets (accessRange address size) with
      | some e => some (.inr e.2)
      | none =>
        if ∃ e ∈ r.taggedTargets, e.1.Overlaps ⟨address, address⟩ then none
        else r.defaultTaggedTarget.map .inr := by
  unfold SingleInitiatorRouter.forwardTagged
  cases hfind : RangeMap.find? r.taggedTargets ⟨address, address⟩ with
  | none =>
    have hnone := (RangeMap.find?_eq_none_iff h _).mp hfind
    have hcontaining : containing r.taggedTargets (accessRange address size) = none := by
      rw [containing_eq_none_iff]
      intro e he hcontains
      exact hnone e he ⟨hcontains.1, haccess.trans hcontains.2⟩
    rw [hcontaining]
    dsimp only
    rw [if_neg (by simpa using hnone)]
  | some it =>
    obtain ⟨hit, hoverlap⟩ := RangeMap.mem_of_find?_eq_some h hfind
    dsimp only
    by_cases hcontains : it.1.Contains (accessRange address size)
    · rw [if_pos hcontains, containing_eq_some_of_mem h haccess hit hcontains]
    · -- No other target has the first byte.
      have hcontaining : containing r.taggedTargets (accessRange address size) = none := by
        rw [containing_eq_none_iff]
        intro e he hcontains'
        have heq := h.eq_of_mem he hit hcontains'.1 (haccess.trans hcontains'.2) hoverlap.1
          hoverlap.2
        exact hcontains (heq ▸ hcontains')
      rw [if_neg hcontains, hcontaining]
      dsimp only
      rw [if_pos ⟨it, hit, hoverlap⟩]

/-- The ranges of each kind are disjoint. -/
structure SingleInitiatorRouter.Sorted (r : SingleInitiatorRouter μ τ ω) : Prop where
  memory : RangeMap.Sorted r.memoryTargets
  tagged : RangeMap.Sorted r.taggedTargets
  atomic : RangeMap.Sorted r.atomicTargets

section Forward

variable {r : SingleInitiatorRouter μ τ ω} {address : Addr} {size : Nat} {key : AddressRange}

theorem forwardTagged_ne_inl (target : μ) : r.forwardTagged address size ≠ some (.inl target) := by
  unfold SingleInitiatorRouter.forwardTagged
  cases RangeMap.find? r.taggedTargets ⟨address, address⟩ with
  | none => cases r.defaultTaggedTarget <;> simp
  | some it =>
    dsimp only
    split <;> simp

/-- The tagged targets, for an access that no plain target has all of. -/
theorem forwardTagged_eq_route_iff (h : r.Sorted)
    (haccess : address ≤ (accessRange address size).hi)
    (hnone : containing r.memoryTargets (accessRange address size) = none) :
    r.forwardTagged address size = r.route (accessRange address size) ↔
      (∃ e ∈ r.taggedTargets, e.1.Overlaps ⟨address, address⟩) ∨
        if r.Overlapped (accessRange address size) then r.defaultTaggedTarget = none
        else r.defaultMemoryTarget = none := by
  rw [forwardTagged_eq h.tagged haccess, SingleInitiatorRouter.route, hnone]
  cases htagged : containing r.taggedTargets (accessRange address size) with
  | some e =>
    obtain ⟨he, hcontains⟩ := of_containing_eq_some htagged
    exact iff_of_true rfl (.inl ⟨e, he, hcontains.1, haccess.trans hcontains.2⟩)
  | none =>
    dsimp only
    by_cases hfirst : ∃ e ∈ r.taggedTargets, e.1.Overlaps ⟨address, address⟩
    · -- A target has the first byte and not all of the access.
      obtain ⟨e, he, hoverlap⟩ := hfirst
      have hover : r.Overlapped (accessRange address size) :=
        .inr ⟨e, he, le_trans hoverlap.1 haccess, hoverlap.2⟩
      rw [if_pos ⟨e, he, hoverlap⟩, if_pos hover]
      exact iff_of_true rfl (.inl ⟨e, he, hoverlap⟩)
    · rw [if_neg hfirst, or_iff_right hfirst]
      by_cases hover : r.Overlapped (accessRange address size)
      · rw [if_pos hover, if_pos hover, Option.map_eq_none_iff]
      · rw [if_neg hover, if_neg hover]
        cases hmemory : r.defaultMemoryTarget with
        | none => simp
        | some target => cases r.defaultTaggedTarget <;> simp

/-- **Routing.** An access goes where it should if and only if `RouteOk` holds. -/
theorem forward_eq_route_iff (h : r.Sorted) (haccess : address ≤ (accessRange address size).hi)
    (hkey : key.lo = address) :
    r.forward key address size = r.route (accessRange address size) ↔
      r.RouteOk (accessRange address size) key := by
  unfold SingleInitiatorRouter.RouteOk
  cases hcontaining : containing r.memoryTargets (accessRange address size) with
  | some e =>
    obtain ⟨he, hcontains⟩ := of_containing_eq_some hcontaining
    have hroute : r.route (accessRange address size) = some (.inl e.2) := by
      rw [SingleInitiatorRouter.route, hcontaining]
    have hlo : e.1.lo ≤ address := hcontains.1
    have hhi : address ≤ e.1.hi := haccess.trans hcontains.2
    rw [hroute]
    unfold SingleInitiatorRouter.forward
    by_cases htouch : e.1.lo ≤ key.hi
    · have hfind : RangeMap.find? r.memoryTargets key = some e :=
        RangeMap.find?_eq_some_of_mem h.memory he (hkey ▸ hlo) (hkey ▸ hhi) htouch
      rw [hfind]
      dsimp only
      rw [if_pos hcontains]
      exact iff_of_true rfl (.inl htouch)
    · -- The key starts in the range and ends before it, and nothing is found.
      have hfind : RangeMap.find? r.memoryTargets key = none := by
        rw [RangeMap.find?_eq_none_iff h.memory]
        intro f hf hoverlap
        rw [Range.Overlaps, hkey] at hoverlap
        have hlt : key.hi < address := lt_of_lt_of_le (not_le.mp htouch) hlo
        have heq := h.memory.eq_of_mem hf he (hoverlap.1.trans hlt.le) hoverlap.2 hlo hhi
        exact htouch (heq ▸ hoverlap.1)
      rw [hfind]
      dsimp only
      rw [or_iff_right htouch]
      cases r.defaultMemoryTarget with
      | none => exact iff_of_false (forwardTagged_ne_inl e.2) (by simp)
      | some target => simp
  | none =>
    dsimp only
    have hmiss := containing_eq_none_iff.mp hcontaining
    unfold SingleInitiatorRouter.forward
    cases hfind : RangeMap.find? r.memoryTargets key with
    | some it =>
      obtain ⟨hit, hoverlap⟩ := RangeMap.mem_of_find?_eq_some h.memory hfind
      have hfound : ¬ ((∀ e ∈ r.memoryTargets, ¬ e.1.Overlaps key) ∧
          r.defaultMemoryTarget.isSome) := fun hall => hall.1 it hit hoverlap
      dsimp only
      rw [if_neg (hmiss it hit), if_neg hfound]
      exact forwardTagged_eq_route_iff h haccess hcontaining
    | none =>
      have hall := (RangeMap.find?_eq_none_iff h.memory key).mp hfind
      dsimp only
      cases hdefault : r.defaultMemoryTarget with
      | none =>
        dsimp only
        rw [if_neg (by simp)]
        have htagged := forwardTagged_eq_route_iff h haccess hcontaining
        rwa [hdefault] at htagged
      | some target =>
        dsimp only
        rw [if_pos ⟨hall, rfl⟩, SingleInitiatorRouter.route, hcontaining]
        -- The plain default target is right unless something overlaps the access.
        cases htagged : containing r.taggedTargets (accessRange address size) with
        | some e =>
          obtain ⟨he, hcontains⟩ := of_containing_eq_some htagged
          have hover : r.Overlapped (accessRange address size) :=
            .inr ⟨e, he, hcontains.1.trans haccess, le_trans haccess hcontains.2⟩
          exact iff_of_false (by simp) (fun hnot => hnot hover)
        | none =>
          dsimp only
          rw [hdefault]
          by_cases hover : r.Overlapped (accessRange address size)
          · rw [if_pos hover]
            exact iff_of_false (by simp) (fun hnot => hnot hover)
          · rw [if_neg hover]
            exact iff_of_true rfl hover

end Forward

/-! ### Runs -/

theorem sorted_addTargetPrivate {map' : RangeMap Addr ι} (h : RangeMap.Sorted map) {interface : ι}
    {base top : Addr} (hadd : addTargetPrivate map interface base top = .ok map') :
    RangeMap.Sorted map' := by
  unfold addTargetPrivate at hadd
  rw [ite_error_eq_ok, ite_error_eq_ok] at hadd
  obtain ⟨hle, -, hadd⟩ := hadd
  cases hfind : RangeMap.find? map ⟨base, top⟩ with
  | none =>
    rw [hfind] at hadd
    cases hadd
    exact h.insert (not_lt.mp hle) ((RangeMap.find?_eq_none_iff h _).mp hfind)
  | some it =>
    rw [hfind] at hadd
    dsimp only at hadd
    split at hadd
    · cases hadd
      exact h
    · cases hadd

/-- **Step lemma.** -/
theorem SingleInitiatorRouter.Sorted.call {r r' : SingleInitiatorRouter μ τ ω} (h : r.Sorted)
    {c : RouterCall μ τ ω} (hcall : r.call c = .ok r') : r'.Sorted := by
  cases c with
  | addMemory target base top =>
    obtain ⟨map, hadd, hok⟩ := bind_eq_ok.mp hcall
    cases hok
    exact ⟨sorted_addTargetPrivate h.memory hadd, h.tagged, h.atomic⟩
  | addTagged target base top =>
    obtain ⟨map, hadd, hok⟩ := bind_eq_ok.mp hcall
    cases hok
    exact ⟨h.memory, sorted_addTargetPrivate h.tagged hadd, h.atomic⟩
  | addAtomic target base top =>
    obtain ⟨map, hadd, hok⟩ := bind_eq_ok.mp hcall
    cases hok
    exact ⟨h.memory, h.tagged, sorted_addTargetPrivate h.atomic hadd⟩
  | defaultMemory target =>
    obtain ⟨_, _, hok⟩ := bind_eq_ok.mp hcall
    cases hok
    exact ⟨h.memory, h.tagged, h.atomic⟩
  | defaultTagged target =>
    obtain ⟨_, _, hok⟩ := bind_eq_ok.mp hcall
    cases hok
    exact ⟨h.memory, h.tagged, h.atomic⟩
  | defaultAtomic target =>
    obtain ⟨_, _, hok⟩ := bind_eq_ok.mp hcall
    cases hok
    exact ⟨h.memory, h.tagged, h.atomic⟩

theorem SingleInitiatorRouter.sorted_run (calls : List (RouterCall μ τ ω)) :
    (run (settle SingleInitiatorRouter.call) SingleInitiatorRouter.init calls).Sorted :=
  settle_invariant SingleInitiatorRouter.Sorted (fun _ _ _ hr hcall => hr.call hcall)
    ⟨RangeMap.sorted_nil, RangeMap.sorted_nil, RangeMap.sorted_nil⟩ calls

/-- **Scalar routing.** For a router built by any calls, and an access of at least one byte that
    does not wrap, both `Load` and `Store` send it where it should go if and only if `RouteOk`
    holds for the range that each looks up. -/
theorem load_store_route_iff (calls : List (RouterCall μ τ ω)) (address : Addr) (size : Nat)
    (hpos : 1 ≤ size) (hwrap : address.toNat + size ≤ 2 ^ 64) :
    let r := run (settle SingleInitiatorRouter.call) SingleInitiatorRouter.init calls
    let access := accessRange address size
    (r.load address size = r.route access ∧ r.store address size = r.route access) ↔
      (r.RouteOk access access ∧
        r.RouteOk access ⟨address, address + BitVec.ofNat 64 size⟩) := by
  intro r access
  have hr : r.Sorted := SingleInitiatorRouter.sorted_run calls
  have haccess : address ≤ (accessRange address size).hi := by
    rw [BitVec.le_def, accessRange_hi address hpos, Nat.mod_eq_of_lt (by omega)]
    omega
  exact and_congr (forward_eq_route_iff hr haccess rfl) (forward_eq_route_iff hr haccess rfl)

/-- A router with one target, and an access to its first bytes. -/
theorem load_store_route_iff_one_target :
    (run (settle SingleInitiatorRouter.call) SingleInitiatorRouter.init
        ([.addMemory 'm' 0x1000 0x1fff] : List (RouterCall Char Char Char))).RouteOk
      (accessRange 0x1000 4) (accessRange 0x1000 4) ∧
    (run (settle SingleInitiatorRouter.call) SingleInitiatorRouter.init
        ([.addMemory 'm' 0x1000 0x1fff] : List (RouterCall Char Char Char))).RouteOk
      (accessRange 0x1000 4) ⟨0x1000, 0x1000 + BitVec.ofNat 64 4⟩ :=
  (load_store_route_iff ([.addMemory 'm' 0x1000 0x1fff] : List (RouterCall Char Char Char))
    0x1000 4 (by decide) (by decide)).mp (by decide)

/-- A store that ends just before a target, with a default target: unlike a load, it is
    forwarded nowhere. -/
theorem store_before_target :
    let calls : List (RouterCall Char Char Char) :=
      [.addMemory 'm' 0x1000 0x1fff, .defaultMemory (some 'd')]
    let r := run (settle SingleInitiatorRouter.call) SingleInitiatorRouter.init calls
    r.load 0xff0 16 = some (.inl 'd') ∧ r.store 0xff0 16 = none ∧
      r.route (accessRange 0xff0 16) = some (.inl 'd') := by
  decide

end MpactSim.Memory
