import MpactSim.Lib.Monad
import MpactSim.Memory.FlatDemand

namespace MpactSim.Memory

open Lib

/-!
# The bounds check

A `FlatDemandMemory` keeps its first address and the one behind its last, which is computed in 64
bits as is the end of an access.  No access changes the two, so that the check is the same in
every state (`run_sameShape`).

`bounds_check_iff` says for which accesses the check is right.
-/

/-! ### The specification -/

/-- All units of an access are in the memory; nothing wraps around. -/
def UnitsInMemory (memorySize base address : Addr) (units : Nat) : Prop :=
  ∀ i < units, base.toNat ≤ address.toNat + i ∧
    address.toNat + i < base.toNat + memorySize.toNat

/-- The end of the access and that of the memory are on the same side of the end of the address
    space, or the access is refused in any case. -/
def EndsAlike (memorySize base address : Addr) (units : Nat) : Prop :=
  address.toNat < base.toNat ∨
    if base.toNat + memorySize.toNat < 2 ^ 64 then
      address.toNat + units < 2 ^ 64 ∨
        base.toNat + memorySize.toNat + 2 ^ 64 < address.toNat + units
    else 2 ^ 64 ≤ address.toNat + units

instance (memorySize base address : Addr) (units : Nat) :
    Decidable (EndsAlike memorySize base address units) :=
  inferInstanceAs (Decidable (_ ∨ _))

namespace FlatDemandMemory

/-! ### Accesses keep the bounds -/

variable {m m' : FlatDemandMemory} {isLoad : Bool}

theorem copyBlock_sameShape {address : Addr} {data data' : Bytes} {units : Nat}
    (h : m.copyBlock address data units isLoad = some (m', data')) : SameShape m m' := by
  unfold copyBlock at h
  dsimp only at h
  split at h
  · split at h
    · cases h
      exact sameShape_setBlock ..
    · cases h
      exact sameShape_setBlock ..
  · cases h

theorem loadStoreHelper_sameShape {fuel : Nat} {address : Addr} {data data' : Bytes} {size : Nat}
    (h : loadStoreHelper fuel m address data size isLoad = some (m', data')) : SameShape m m' := by
  induction fuel generalizing m address data size data' with
  | zero => cases h
  | succ fuel ih =>
    obtain ⟨⟨m₁, copied⟩, hcopy, h⟩ := Option.bind_eq_some_iff.mp h
    have hshape := copyBlock_sameShape hcopy
    dsimp only at h
    split at h
    · obtain ⟨⟨m₂, rest⟩, hrest, h⟩ := Option.bind_eq_some_iff.mp h
      cases h
      exact hshape.trans (ih hrest)
    · cases h
      exact hshape

theorem vector_sameShape {addresses : List Addr} {masks : List Bool} {elSize : Nat} {db db' : Bytes}
    (h : m.vector addresses masks elSize db isLoad = some (m', db')) : SameShape m m' := by
  unfold vector at h
  split at h
  · cases h
  · refine foldlM_invariant (fun state : FlatDemandMemory × Bytes => SameShape m state.1)
      (fun state i _ state' hstate hstep => hstate.trans ?_) h (.refl m)
    unfold element at hstep
    split at hstep
    · dsimp only at hstep
      split at hstep
      · cases hstep
      · obtain ⟨⟨m₁, data⟩, hhelper, hstep⟩ := Option.bind_eq_some_iff.mp hstep
        cases hstep
        exact loadStoreHelper_sameShape hhelper
    · cases hstep
      exact .refl _

theorem call_sameShape {m m' : FlatDemandMemory} {c : MemoryCall} {db : Bytes}
    (h : m.call c = some (m', db)) : SameShape m m' := by
  cases c with
  | load address data =>
    have h : m.load address data = some (m', db) := h
    unfold load at h
    dsimp only at h
    split at h
    · cases h
    · exact loadStoreHelper_sameShape h
  | store address data =>
    have h : m.store address data = some (m', db) := h
    unfold store at h
    dsimp only at h
    split at h
    · cases h
    · split at h
      · cases h
      · exact loadStoreHelper_sameShape h
  | loadVector addresses masks elSize data => exact vector_sameShape h
  | storeVector addresses masks elSize data => exact vector_sameShape h

/-- **Bounds.** A run keeps the bounds of the memory. -/
theorem run_sameShape {calls : List MemoryCall} {dbs : List Bytes}
    (h : m.run calls = some (m', dbs)) : SameShape m m' := by
  induction calls generalizing m dbs with
  | nil =>
    cases h
    exact .refl _
  | cons c rest ih =>
    obtain ⟨⟨m₁, db⟩, hcall, h⟩ := Option.bind_eq_some_iff.mp h
    obtain ⟨⟨m₂, dbs'⟩, hrest, h⟩ := Option.bind_eq_some_iff.mp h
    cases h
    exact (call_sameShape hcall).trans (ih hrest)

theorem bounds_init {memorySize base : Addr} {unit : Nat} {fill : UInt8}
    (h : init memorySize base unit fill = some m) : m.base = base ∧ m.max = base + memorySize := by
  unfold init at h
  split at h
  · cases h
    exact ⟨rfl, rfl⟩
  · cases h

end FlatDemandMemory

/-! ### The check -/

theorem unitsInMemory_iff {memorySize base address : Addr} {units : Nat} (hpos : 0 < units) :
    UnitsInMemory memorySize base address units ↔
      base.toNat ≤ address.toNat ∧ address.toNat + units ≤ base.toNat + memorySize.toNat := by
  constructor
  · intro h
    have hfirst := h 0 hpos
    have hlast := h (units - 1) (by omega)
    omega
  · intro h i hi
    omega

theorem outOfBounds_eq_false_iff (m : FlatDemandMemory) (address : Addr) (units : Nat) :
    m.outOfBounds address units = false ↔
      m.base.toNat ≤ address.toNat ∧ (address.toNat + units) % 2 ^ 64 ≤ m.max.toNat := by
  have hend : (address + BitVec.ofNat 64 units).toNat = (address.toNat + units) % 2 ^ 64 := by
    rw [BitVec.toNat_add, BitVec.toNat_ofNat, Nat.add_mod_mod]
  rw [FlatDemandMemory.outOfBounds, Bool.or_eq_false_iff, decide_eq_false_iff_not,
    decide_eq_false_iff_not, gt_iff_lt, not_lt, not_lt, BitVec.le_def, BitVec.le_def, hend]

/-- **Bounds check.** In every state of a memory the check of an access is right exactly if the
    access and the memory end on the same side of the end of the address space. -/
theorem bounds_check_iff {memorySize base : Addr} {unit : Nat} {fill : UInt8}
    {m₀ m : FlatDemandMemory} {calls : List MemoryCall} {dbs : List Bytes}
    (hinit : FlatDemandMemory.init memorySize base unit fill = some m₀)
    (hrun : m₀.run calls = some (m, dbs)) (address : Addr) {units : Nat} (hpos : 0 < units)
    (hint : units < 2 ^ 31) :
    (m.outOfBounds address units = false ↔ UnitsInMemory memorySize base address units) ↔
      EndsAlike memorySize base address units := by
  have hshape := FlatDemandMemory.run_sameShape hrun
  obtain ⟨hbase, hmax⟩ := FlatDemandMemory.bounds_init hinit
  rw [outOfBounds_eq_false_iff, unitsInMemory_iff hpos, hshape.base, hshape.max, hbase, hmax,
    BitVec.toNat_add]
  unfold EndsAlike
  have ha := address.isLt
  have hb := base.isLt
  have hs := memorySize.isLt
  split
  · omega
  · omega

/-- The first unit of a memory of 0x100 units. -/
theorem bounds_check_firstUnit :
    ∃ m, FlatDemandMemory.init 0x100 0x1000 1 0 = some m ∧
      (m.outOfBounds 0x1000 1 = false ↔ UnitsInMemory 0x100 0x1000 0x1000 1) := by
  obtain ⟨m, hinit⟩ : ∃ m, FlatDemandMemory.init 0x100 0x1000 1 0 = some m := ⟨_, rfl⟩
  have hends : EndsAlike 0x100 0x1000 0x1000 1 := by decide
  have hrun : m.run [] = some (m, []) := rfl
  exact ⟨m, hinit, (bounds_check_iff hinit hrun 0x1000 (by decide) (by decide)).mpr hends⟩

/-- The memory that is made from a base address of 0x1000 alone refuses its first unit, and the
    one that is made from no arguments accepts an access that wraps around. -/
theorem bounds_check_wraps :
    (∃ m, FlatDemandMemory.init 0xffffffffffffffff 0x1000 1 0 = some m ∧
      m.outOfBounds 0x1000 1 = true ∧ UnitsInMemory 0xffffffffffffffff 0x1000 0x1000 1) ∧
    ∃ m, FlatDemandMemory.init 0xffffffffffffffff 0 1 0 = some m ∧
      m.outOfBounds 0xffffffffffffffff 2 = false ∧
      ¬ UnitsInMemory 0xffffffffffffffff 0 0xffffffffffffffff 2 := by
  refine ⟨⟨_, rfl, by decide, ?_⟩, _, rfl, by decide, ?_⟩
  · rw [unitsInMemory_iff (by decide)]
    decide
  · rw [unitsInMemory_iff (by decide)]
    decide

end MpactSim.Memory
