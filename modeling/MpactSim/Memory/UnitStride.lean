import MpactSim.Memory.DemandVector
import MpactSim.Memory.FlatMemory

namespace MpactSim.Memory

open Lib

/-!
# Unit-stride accesses

A vector access with one address is compared with the scalar accesses of its unmasked elements.
`FlatDemandMemory` and `FlatMemory` take the size of an element in bytes from one element to the
next, so that the two agree only if a unit is a byte or no element but the first is accessed.

`unitStrideAgrees_iff` adds what else keeps them apart: only the vector loads of a
`FlatDemandMemory` are checked, and a `FlatMemory` knows four sizes of elements.
-/

/-! ### The specification -/

section Specification

variable (address : Addr) (masks : List Bool) (elSize : Nat)

/-- The address of an element, which is `elSize / unit` units after the one before it. -/
def stepAddress (unit i : Nat) : Addr := address + BitVec.ofNat 64 (i * (elSize / unit))

/-- The scalar accesses of the unmasked elements, each with its part of the data buffer. -/
def scalars {M : Type} (access : M → Addr → Bytes → Option (M × Bytes)) (unit : Nat) (m : M)
    (db : Bytes) : Option (M × Bytes) :=
  slots (fun i m => access m (stepAddress address elSize unit i)) (fun i => masks.getD i false)
    elSize masks.length m db

/-- The accesses are in the range of the memory. -/
def ScalarsInMemory (memorySize base : Addr) (unit : Nat) : Prop :=
  ∀ i < masks.length, masks.getD i false = true →
    base.toNat ≤ address.toNat + i * (elSize / unit) ∧
      address.toNat + i * (elSize / unit) + elSize / unit ≤ base.toNat + memorySize.toNat ∧
      address.toNat + i * (elSize / unit) + elSize / unit ≤ 2 ^ 64

end Specification

namespace FlatDemandMemory

/-- The bytes of the memory. -/
def contents (m : FlatDemandMemory) : Bytes :=
  readAt m.flat (m.base.toNat * 2 ^ m.shift) ((m.max - m.base).toNat * 2 ^ m.shift)

end FlatDemandMemory

/-- The bytes of the memory. -/
def FlatMemory.contents (m : FlatMemory) : Bytes := readAt m.buffer 0 m.size

/-- The memories hold the same bytes, and so do the data buffers. -/
def SameResult (s : FlatDemandMemory × Bytes) (t : FlatMemory × Bytes) : Prop :=
  s.1.contents = t.1.contents ∧ s.2 = t.2

/-- In every state of the two memories, and for every data buffer, a vector access with one address
    has the effect of the scalar accesses.  If these are in range, it has the same effect on both
    memories. -/
structure UnitStrideAgrees (memorySize base : Addr) (unit : Nat) (demand : FlatDemandMemory)
    (flat : FlatMemory) (address : Addr) (masks : List Bool) (elSize : Nat) : Prop where
  demand_scalars : ∀ d db isLoad, FlatDemandMemory.SameShape demand d →
    elSize * masks.length ≤ db.length → db.length < 2 ^ 31 →
    d.vector [address] masks elSize db isLoad =
      scalars address masks elSize (FlatDemandMemory.access isLoad) unit d db
  flat_scalars : ∀ f db isLoad, FlatMemory.SameShape flat f →
    elSize * masks.length ≤ db.length → db.length < 2 ^ 31 →
    f.vector [address] masks elSize db isLoad =
      scalars address masks elSize (FlatMemory.access isLoad) unit f db
  same : ScalarsInMemory address masks elSize memorySize base unit → ∀ d f db isLoad,
    FlatDemandMemory.SameShape demand d → FlatMemory.SameShape flat f → d.contents = f.contents →
    elSize * masks.length ≤ db.length → db.length < 2 ^ 31 →
    Option.Rel SameResult (d.vector [address] masks elSize db isLoad)
        (f.vector [address] masks elSize db isLoad) ∧
      Option.Rel SameResult (scalars address masks elSize (FlatDemandMemory.access isLoad) unit d db)
        (scalars address masks elSize (FlatMemory.access isLoad) unit f db)

/-- A unit is a byte, or only the first element is accessed. -/
def OneStep (unit : Nat) (masks : List Bool) : Prop :=
  unit = 1 ∨ ∀ i, masks.getD i false = true → i = 0

/-- All elements at these addresses pass the checks of a `FlatMemory`. -/
def AllPlaced (m : FlatMemory) (masks : List Bool) (elSize : Nat) (address : Nat → Addr) : Prop :=
  ∀ i < masks.length, masks.getD i false = true → (m.place (address i) elSize).isSome

/-! ### Addresses -/

section Addresses

variable {address : Addr} {elSize unit i : Nat}

theorem stepAddress_eq (h : unit = 1 ∨ i = 0) :
    stepAddress address elSize unit i = address + BitVec.ofNat 64 (i * elSize) := by
  unfold stepAddress
  rcases h with rfl | rfl
  · rw [Nat.div_one]
  · rw [Nat.zero_mul, Nat.zero_mul]

theorem elementAddress_single (h : i * elSize < 2 ^ 32) :
    elementAddress [address] elSize i = address + BitVec.ofNat 64 (i * elSize) := by
  unfold elementAddress
  rw [if_neg (by simp), Nat.mod_eq_of_lt h]
  rfl

theorem entryAddress_single :
    FlatMemory.entryAddress [address] elSize i = address + BitVec.ofNat 64 (i * elSize) := by
  unfold FlatMemory.entryAddress
  rw [if_neg (by simp)]
  rfl

theorem offset_modEq (a base : Addr) (k shift : Nat) :
    ((a + BitVec.ofNat 64 k - base) <<< shift).toNat ≡
      (2 ^ 64 - base.toNat + a.toNat) * 2 ^ shift + k * 2 ^ shift [MOD 2 ^ 64] := by
  rw [BitVec.toNat_shiftLeft, BitVec.toNat_sub, BitVec.toNat_add, BitVec.toNat_ofNat,
    Nat.shiftLeft_eq, ← Nat.add_mul]
  refine (Nat.mod_modEq _ _).trans (Nat.ModEq.mul_right _ ?_)
  refine (Nat.mod_modEq _ _).trans ?_
  rw [Nat.add_mod_mod, Nat.add_assoc]
  exact Nat.ModEq.add_left _ (Nat.mod_modEq _ _)

theorem step_offset_ne (address base : Addr) (shift : Nat) (hunit : unit ≠ 1) (hi : i ≠ 0)
    (hpos : 0 < elSize) (hdvd : unit ∣ elSize) (hsmall : i * elSize * 2 ^ shift < 2 ^ 64) :
    ((address + BitVec.ofNat 64 (i * elSize) - base) <<< shift).toNat ≠
      ((stepAddress address elSize unit i - base) <<< shift).toNat := by
  intro heq
  have hunit : 1 < unit := by
    have := Nat.pos_of_dvd_of_pos hdvd hpos
    omega
  have hstep : i * (elSize / unit) * 2 ^ shift < i * elSize * 2 ^ shift :=
    Nat.mul_lt_mul_of_pos_right
      (Nat.mul_lt_mul_of_pos_left (Nat.div_lt_self hpos hunit) (Nat.pos_of_ne_zero hi))
      (Nat.two_pow_pos shift)
  have hfirst := offset_modEq address base (i * elSize) shift
  have hsecond := offset_modEq address base (i * (elSize / unit)) shift
  have hmod := Nat.ModEq.add_left_cancel' _
    ((hfirst.symm.trans (heq ▸ Nat.ModEq.refl _)).trans hsecond)
  have hsame := Nat.ModEq.eq_of_lt_of_lt hmod hsmall (by omega)
  omega

theorem index_mul_lt {masks : List Bool} (hint : elSize * masks.length < 2 ^ 31)
    (hi : i < masks.length) : i * elSize < 2 ^ 31 := by
  have hmul := Nat.mul_le_mul_left elSize (Nat.le_of_lt hi)
  rw [Nat.mul_comm]
  omega

end Addresses

/-! ### Each memory for itself -/

section Settle

variable {memorySize base : Addr} {unit elSize : Nat} {fill : UInt8} {masks : List Bool}

theorem demand_scalars_iff (address : Addr) {demand : FlatDemandMemory}
    (hinit : FlatDemandMemory.init memorySize base unit fill = some demand) (hpos : 0 < elSize)
    (hdvd : unit ∣ elSize) (hint : elSize * masks.length < 2 ^ 31) :
    (∀ d db isLoad, FlatDemandMemory.SameShape demand d → elSize * masks.length ≤ db.length →
        db.length < 2 ^ 31 → d.vector [address] masks elSize db isLoad =
          scalars address masks elSize (FlatDemandMemory.access isLoad) unit d db) ↔
      2 ^ 16 < unit ∨ OneStep unit masks ∧
        ∀ i < masks.length, masks.getD i false = true →
          demand.outOfBounds (stepAddress address elSize unit i) (elSize / unit) = false := by
  obtain ⟨hshift, -⟩ := FlatDemandMemory.unit_init hinit
  have hne : elSize / unit ≠ 0 := by
    have hle := Nat.le_of_dvd hpos hdvd
    have := Nat.pos_of_dvd_of_pos hdvd hpos
    exact Nat.ne_of_gt (Nat.div_pos hle this)
  have hunits : elSize >>> demand.shift = elSize / unit := by rw [Nat.shiftRight_eq_div_pow, hshift]
  -- A vector access as a sequence of checked accesses.
  have hvector : ∀ d db isLoad, FlatDemandMemory.SameShape demand d →
      elSize * masks.length ≤ db.length → db.length < 2 ^ 31 →
      d.vector [address] masks elSize db isLoad =
        slots (fun i m => m.checkedAccess isLoad (elementAddress [address] elSize i))
          (fun i => masks.getD i false) elSize masks.length d db := by
    intro d db isLoad hd hfit hlt
    exact FlatDemandMemory.vector_eq_slots hpos (by rw [hd.shift, hshift]; exact hdvd) hfit hlt
  have helement : ∀ i < masks.length,
      elementAddress [address] elSize i = address + BitVec.ofNat 64 (i * elSize) := by
    intro i hi
    have := index_mul_lt hint hi
    exact elementAddress_single (by omega)
  constructor
  · intro h
    by_contra hcond
    rw [not_or, not_lt] at hcond
    have hunit : unit ≤ 2 ^ 16 := hcond.1
    have ha := FlatDemandMemory.allocates_init hinit hunit
    have hsize : elSize >>> demand.shift ≠ 0 := by rw [hunits]; exact hne
    let db : Bytes := List.replicate (elSize * masks.length) 0
    have hlen : db.length = elSize * masks.length := List.length_replicate
    -- The scalar loads succeed in every state, so the vector load does.
    have hload : ∀ d, FlatDemandMemory.SameShape demand d → ∃ d' db',
        slots (fun i m => FlatDemandMemory.access true m (stepAddress address elSize unit i))
          (fun i => masks.getD i false) elSize masks.length d db = some (d', db') ∧
        slots (fun i m => m.checkedAccess true (elementAddress [address] elSize i))
          (fun i => masks.getD i false) elSize masks.length d db = some (d', db') := by
      intro d hd
      obtain ⟨d', db', hscalars⟩ := FlatDemandMemory.slots_load_exists
        (stepAddress address elSize unit) masks (hd.allocates ha) (by rw [hd.shift]; exact hsize)
        (le_of_eq hlen.symm)
      refine ⟨d', db', hscalars, ?_⟩
      rw [← hvector d db true hd (le_of_eq hlen.symm) (by omega),
        h d db true hd (le_of_eq hlen.symm) (by omega)]
      exact hscalars
    have hone : OneStep unit masks := by
      by_contra hone
      unfold OneStep at hone
      push Not at hone
      obtain ⟨hbyte, i, hmask, hi⟩ := hone
      have hlt := lt_length_of_unmasked hmask
      have hsmall := index_mul_lt hint hlt
      -- A state with one byte set, where the vector load looks for element `i`.
      obtain ⟨d, hd, hflat⟩ := FlatDemandMemory.exists_flat demand
        ((elementAddress [address] elSize i).toNat * 2 ^ demand.shift)
      obtain ⟨d', db', hscalars, hchecked⟩ := hload d hd
      have hsize' : elSize >>> d.shift ≠ 0 := by rw [hd.shift]; exact hsize
      have hfirst := FlatDemandMemory.slots_first (hd.allocates ha) hsize'
        (fun _ _ _ _ h => h) (le_of_eq hlen.symm) hscalars hlt hmask
      have hfirst' := FlatDemandMemory.slots_first (hd.allocates ha) hsize'
        (fun _ _ _ _ h => FlatDemandMemory.access_of_checkedAccess h) (le_of_eq hlen.symm)
        hchecked hlt hmask
      rw [hfirst, hflat, hd.shift] at hfirst'
      have hplace := step_offset_ne address 0#64 0 hbyte hi hpos hdvd (by omega)
      rw [BitVec.sub_zero, BitVec.sub_zero, BitVec.shiftLeft_zero, BitVec.shiftLeft_zero,
        ← helement i hlt] at hplace
      have hmul : (stepAddress address elSize unit i).toNat * 2 ^ demand.shift ≠
          (elementAddress [address] elSize i).toNat * 2 ^ demand.shift :=
        fun h => hplace (Nat.eq_of_mul_eq_mul_right (Nat.two_pow_pos _) h).symm
      dsimp only at hfirst'
      rw [if_neg hmul, if_pos rfl] at hfirst'
      exact absurd hfirst' (by decide)
    refine hcond.2 ⟨hone, fun i hi hmask => ?_⟩
    obtain ⟨d', db', -, hchecked⟩ := hload demand (.refl demand)
    have hkeeps := FlatDemandMemory.checkedAccess_slots_keeps demand true
      (elementAddress [address] elSize) elSize
    obtain ⟨-, -, hdone⟩ := slots_sound hkeeps (.refl demand) (le_of_eq hlen.symm) hchecked
    obtain ⟨t, slot, t', ht, hslot, haccess⟩ := hdone i hi hmask
    have hcheck := FlatDemandMemory.inBounds_of_checkedAccess haccess
    rw [hslot, ht.shift, hunits, ht.outOfBounds_eq, helement i hi] at hcheck
    rw [stepAddress_eq (hone.imp_right fun h => h i hmask)]
    exact hcheck
  · intro hcond d db isLoad hd hfit hlt
    rw [hvector d db isLoad hd hfit hlt]
    have hkeeps := FlatDemandMemory.checkedAccess_slots_keeps demand isLoad
      (elementAddress [address] elSize) elSize
    refine slots_congr hkeeps hd hfit ?_
    intro i hi hmask t slot ht hslot
    unfold FlatDemandMemory.checkedAccess
    rw [hslot, ht.shift, hunits, ht.outOfBounds_eq]
    rcases hcond with hbig | ⟨hone, hcheck⟩
    · -- No access has a result.
      have hblock := FlatDemandMemory.allocation_init hinit hbig
      rw [← ht.allocation] at hblock
      rw [FlatDemandMemory.access_eq_none hblock, FlatDemandMemory.access_eq_none hblock, ite_self]
    · have hsame : elementAddress [address] elSize i = stepAddress address elSize unit i := by
        rw [helement i hi, stepAddress_eq (hone.imp_right fun h => h i hmask)]
      rw [hsame, hcheck i hi hmask, if_neg Bool.false_ne_true]

theorem flat_scalars_iff (address : Addr) {flat : FlatMemory}
    (hinit : FlatMemory.init memorySize base unit fill = some flat) (hpos : 0 < elSize)
    (hdvd : unit ∣ elSize) (hint : elSize * masks.length < 2 ^ 31) :
    (∀ f db isLoad, FlatMemory.SameShape flat f → elSize * masks.length ≤ db.length →
        db.length < 2 ^ 31 → f.vector [address] masks elSize db isLoad =
          scalars address masks elSize (FlatMemory.access isLoad) unit f db) ↔
      elSize ∈ FlatMemory.elementSizes ∧ OneStep unit masks ∨
        ¬AllPlaced flat masks elSize (stepAddress address elSize unit) ∧
          ¬(elSize ∈ FlatMemory.elementSizes ∧
            AllPlaced flat masks elSize (FlatMemory.entryAddress [address] elSize)) := by
  have hunit := FlatMemory.unit_init hinit
  have hplaced : ∀ f (addr : Nat → Addr), FlatMemory.SameShape flat f →
      (AllPlaced f masks elSize addr ↔ AllPlaced flat masks elSize addr) := by
    intro f addr hf
    unfold AllPlaced
    simp only [hf.place_eq]
  constructor
  · intro h
    let db : Bytes := List.replicate (elSize * masks.length) 0
    have hlen : db.length = elSize * masks.length := List.length_replicate
    have hfit := le_of_eq hlen.symm
    have hflat := h flat db true (.refl flat) hfit (by omega)
    by_cases hscalars : AllPlaced flat masks elSize (stepAddress address elSize unit)
    · left
      have hsome := (FlatMemory.slots_isSome_iff true hfit).mpr hscalars
      have hsize : elSize ∈ FlatMemory.elementSizes := by
        by_contra hsize
        unfold FlatMemory.vector at hflat
        rw [if_neg hsize] at hflat
        unfold scalars at hflat
        rw [← hflat] at hsome
        cases hsome
      refine ⟨hsize, ?_⟩
      rw [FlatMemory.vector_eq_slots hsize hfit] at hflat
      unfold scalars at hflat
      rw [← hflat] at hsome
      have hvector := (FlatMemory.slots_isSome_iff true hfit).mp hsome
      by_contra hone
      unfold OneStep at hone
      push Not at hone
      obtain ⟨hbyte, i, hmask, hi⟩ := hone
      have hlt := lt_length_of_unmasked hmask
      have hsmall := index_mul_lt hint hlt
      obtain ⟨p, hp⟩ := Option.isSome_iff_exists.mp (hvector i hlt hmask)
      obtain ⟨q, hq⟩ := Option.isSome_iff_exists.mp (hscalars i hlt hmask)
      -- A state with one byte set, where the vector load looks for element `i`.
      let f : FlatMemory := { flat with buffer := fun r => if r = p then 1 else 0 }
      have hf : FlatMemory.SameShape flat f := ⟨rfl, rfl, rfl⟩
      obtain ⟨⟨f', db'⟩, hload⟩ := Option.isSome_iff_exists.mp
        ((FlatMemory.slots_isSome_iff true hfit).mpr ((hplaced f _ hf).mpr hvector))
      have hload' := hload
      rw [← FlatMemory.vector_eq_slots hsize hfit, h f db true hf hfit (by omega)] at hload'
      have hfirst := FlatMemory.slots_first hpos hfit hload hlt hmask
        ((hf.place_eq _ _).trans hp)
      have hfirst' := FlatMemory.slots_first hpos hfit hload' hlt hmask
        ((hf.place_eq _ _).trans hq)
      have hsizes : elSize ≤ 8 := by
        unfold FlatMemory.elementSizes at hsize
        simp only [List.mem_cons, List.not_mem_nil, or_false] at hsize
        omega
      have hshift : 2 ^ flat.shift ≤ 8 := by
        rw [hunit.1]
        exact (Nat.le_of_dvd hpos hdvd).trans hsizes
      have hplace := step_offset_ne address flat.base flat.shift hbyte hi hpos hdvd
        (lt_of_le_of_lt (Nat.mul_le_mul_left _ hshift) (by omega))
      rw [← entryAddress_single] at hplace
      have hne : q ≠ p := by
        rw [FlatMemory.place_eq_offset hp, FlatMemory.place_eq_offset hq]
        exact hplace.symm
      rw [hfirst'] at hfirst
      have hbytes : (if q = p then (1 : UInt8) else 0) = if p = p then 1 else 0 :=
        Option.some.inj hfirst
      rw [if_neg hne, if_pos rfl] at hbytes
      exact absurd hbytes (by decide)
    · right
      refine ⟨hscalars, fun ⟨hsize, hvector⟩ => hscalars ?_⟩
      rw [FlatMemory.vector_eq_slots hsize hfit] at hflat
      have hsome := (FlatMemory.slots_isSome_iff true hfit).mpr hvector
      rw [hflat] at hsome
      exact (FlatMemory.slots_isSome_iff true hfit).mp hsome
  · rintro (⟨hsize, hone⟩ | ⟨hscalars, hvector⟩) f db isLoad hf hfit hlt
    · rw [FlatMemory.vector_eq_slots hsize hfit]
      refine slots_congr (FlatMemory.slots_keeps f isLoad _ elSize) (.refl f) hfit ?_
      intro i hi hmask t slot ht hslot
      rw [entryAddress_single, stepAddress_eq (hone.imp_right fun h => h i hmask)]
    · -- Neither has a result.
      have hnone : scalars address masks elSize (FlatMemory.access isLoad) unit f db = none := by
        rw [← Option.not_isSome_iff_eq_none]
        intro hsome
        exact hscalars ((hplaced f _ hf).mp ((FlatMemory.slots_isSome_iff isLoad hfit).mp hsome))
      rw [hnone]
      by_cases hsize : elSize ∈ FlatMemory.elementSizes
      · rw [FlatMemory.vector_eq_slots hsize hfit, ← Option.not_isSome_iff_eq_none]
        intro hsome
        exact hvector
          ⟨hsize, (hplaced f _ hf).mp ((FlatMemory.slots_isSome_iff isLoad hfit).mp hsome)⟩
      · unfold FlatMemory.vector
        rw [if_neg hsize]

end Settle

/-! ### Both memories -/

section Place

variable {memorySize base address : Addr} {unit units : Nat} {f : FlatMemory}

theorem FlatMemory.place_eq_some (hshift : 2 ^ f.shift = unit) (hbase : f.base = base)
    (hsize : f.size = memorySize.toNat * unit) (hbound : f.size < 2 ^ 63)
    (hlo : base.toNat ≤ address.toNat)
    (hhi : address.toNat + units ≤ base.toNat + memorySize.toNat) :
    f.place address (units * unit) = some ((address.toNat - base.toNat) * unit) := by
  have hfit : (address.toNat - base.toNat) * unit + units * unit ≤ f.size := by
    rw [hsize, ← Nat.add_mul]
    exact Nat.mul_le_mul_right unit (by omega)
  have hsub : (address - base).toNat = address.toNat - base.toNat := by
    rw [BitVec.toNat_sub]
    have := address.isLt
    have := base.isLt
    omega
  have hoffset : (f.offset address).toNat = (address.toNat - base.toNat) * unit := by
    unfold FlatMemory.offset
    rw [hbase, BitVec.toNat_shiftLeft, hsub, Nat.shiftLeft_eq, hshift,
      Nat.mod_eq_of_lt (by omega)]
  have hcheck : ¬f.offset address + BitVec.ofNat 64 (units * unit) > BitVec.ofNat 64 f.size := by
    rw [gt_iff_lt, not_lt, BitVec.le_def, BitVec.toNat_add, BitVec.toNat_ofNat, BitVec.toNat_ofNat,
      hoffset, Nat.add_mod_mod, Nat.mod_eq_of_lt (by omega), Nat.mod_eq_of_lt (by omega)]
    exact hfit
  have hle : ¬address < f.base := by
    rw [hbase, not_lt, BitVec.le_def]
    exact hlo
  unfold FlatMemory.place
  rw [if_neg hle, if_neg hcheck, hoffset, if_pos hfit]

end Place

/-- States of the two memories that hold the same bytes. -/
structure SameBytes (memorySize base : Addr) (unit : Nat) (d : FlatDemandMemory) (f : FlatMemory) :
    Prop where
  allocates : d.Allocates
  demand_shift : 2 ^ d.shift = unit
  flat_shift : 2 ^ f.shift = unit
  demand_base : d.base = base
  flat_base : f.base = base
  demand_size : (d.max - d.base).toNat = memorySize.toNat
  size : f.size = memorySize.toNat * unit
  bound : f.size < 2 ^ 63
  bytes : readAt d.flat (base.toNat * unit) f.size = readAt f.buffer 0 f.size

section Both

variable {memorySize base address : Addr} {unit units : Nat} {d : FlatDemandMemory} {f : FlatMemory}

theorem SameBytes.contents_eq (h : SameBytes memorySize base unit d f) :
    d.contents = f.contents := by
  unfold FlatDemandMemory.contents FlatMemory.contents
  rw [h.demand_shift, h.demand_size, h.demand_base, ← h.size]
  exact h.bytes

/-- **Step lemma.** A scalar access in range has the same effect on both memories. -/
theorem SameBytes.access (h : SameBytes memorySize base unit d f) (isLoad : Bool) {slot : Bytes}
    (hpos : units ≠ 0) (hslot : slot.length = units * unit) (hlo : base.toNat ≤ address.toNat)
    (hhi : address.toNat + units ≤ base.toNat + memorySize.toNat)
    (hend : address.toNat + units ≤ 2 ^ 64) (hcheck : d.outOfBounds address units = false) :
    ∃ d' f' slot', d.access isLoad address slot = some (d', slot') ∧
      f.access isLoad address slot = some (f', slot') ∧ SameBytes memorySize base unit d' f' ∧
        slot'.length = slot.length := by
  have hunit : 0 < unit := h.demand_shift ▸ Nat.two_pow_pos _
  have hunits : slot.length >>> d.shift = units := by
    rw [Nat.shiftRight_eq_div_pow, h.demand_shift, hslot, Nat.mul_div_cancel _ hunit]
  have hplace : f.place address slot.length = some ((address.toNat - base.toNat) * unit) := by
    rw [hslot]
    exact FlatMemory.place_eq_some h.flat_shift h.flat_base h.size h.bound hlo hhi
  have hfit : (address.toNat - base.toNat) * unit + slot.length ≤ f.size := by
    rw [h.size, hslot, ← Nat.add_mul]
    exact Nat.mul_le_mul_right unit (by omega)
  have hposition : address.toNat * unit =
      base.toNat * unit + (address.toNat - base.toNat) * unit := by
    rw [← Nat.add_mul, Nat.add_sub_cancel' hlo]
  have hdemand := FlatDemandMemory.access_eq d address slot isLoad (by rw [hunits]; exact hpos)
    (.inr (by rw [hunits]; exact hcheck))
  rw [hunits] at hdemand
  have hflat := FlatMemory.access_eq isLoad _ hplace
  cases isLoad with
  | true =>
    obtain ⟨d', hload, hshape, hsame⟩ := FlatDemandMemory.loadStoreHelper_load units d address slot
      units h.allocates (Nat.pos_of_ne_zero hpos) (le_refl _) hend
      (by rw [h.demand_shift, hslot])
    rw [h.demand_shift, ← hslot, List.drop_length, List.append_nil, hposition,
      readAt_part h.bytes hfit, Nat.zero_add] at hload
    refine ⟨d', f, _, hdemand.trans hload, hflat, ?_, length_readAt ..⟩
    exact ⟨hshape.allocates h.allocates, hshape.shift ▸ h.demand_shift, h.flat_shift,
      hshape.base.trans h.demand_base, h.flat_base, by rw [hshape.max, hshape.base, h.demand_size],
      h.size, h.bound, hsame ▸ h.bytes⟩
  | false =>
    obtain ⟨d', hstore, hshape, hwritten⟩ := FlatDemandMemory.loadStoreHelper_store units d address
      slot units h.allocates (Nat.pos_of_ne_zero hpos) (le_refl _) hend
      (by rw [h.demand_shift, hslot])
    rw [h.demand_shift, ← hslot, List.take_length, hposition] at hwritten
    refine ⟨d', _, slot, hdemand.trans hstore, hflat, ?_, rfl⟩
    refine ⟨hshape.allocates h.allocates, hshape.shift ▸ h.demand_shift, h.flat_shift,
      hshape.base.trans h.demand_base, h.flat_base, by rw [hshape.max, hshape.base, h.demand_size],
      h.size, h.bound, ?_⟩
    have hsame := readAt_writeAt_same h.bytes ((address.toNat - base.toNat) * unit) slot
    rw [Nat.zero_add] at hsame
    rw [hwritten]
    exact hsame

end Both

/-- **Unit-stride accesses.** A vector access with one address agrees with the scalar accesses in
    both memories, and these with each other, exactly if

    * the checks of the on-demand memory pass and a unit is a byte or only the first element is
      accessed (or the memory has no accesses, for its unit is too large), and
    * the memory that is allocated at once knows the size of an element and a unit is a byte or only
      the first element is accessed (or it refuses both the vector access and the scalar ones). -/
theorem unitStrideAgrees_iff {memorySize base address : Addr} {unit elSize : Nat} {fill : UInt8}
    {masks : List Bool} {demand : FlatDemandMemory} {flat : FlatMemory}
    (hdemand : FlatDemandMemory.init memorySize base unit fill = some demand)
    (hflat : FlatMemory.init memorySize base unit fill = some flat) (hpos : 0 < elSize)
    (hdvd : unit ∣ elSize) (hint : elSize * masks.length < 2 ^ 31) :
    UnitStrideAgrees memorySize base unit demand flat address masks elSize ↔
      (2 ^ 16 < unit ∨ OneStep unit masks ∧
        ∀ i < masks.length, masks.getD i false = true →
          demand.outOfBounds (stepAddress address elSize unit i) (elSize / unit) = false) ∧
      (elSize ∈ FlatMemory.elementSizes ∧ OneStep unit masks ∨
        ¬AllPlaced flat masks elSize (stepAddress address elSize unit) ∧
          ¬(elSize ∈ FlatMemory.elementSizes ∧
            AllPlaced flat masks elSize (FlatMemory.entryAddress [address] elSize))) := by
  have hdemandIff := demand_scalars_iff address hdemand hpos hdvd hint
  have hflatIff := flat_scalars_iff address hflat hpos hdvd hint
  constructor
  · intro h
    exact ⟨hdemandIff.mp h.demand_scalars, hflatIff.mp h.flat_scalars⟩
  · rintro ⟨hdemandCond, hflatCond⟩
    have hdemandScalars := hdemandIff.mpr hdemandCond
    have hflatScalars := hflatIff.mpr hflatCond
    refine ⟨hdemandScalars, hflatScalars, ?_⟩
    intro hin d f db isLoad hd hf hcontents hfit hlt
    rw [hdemandScalars d db isLoad hd hfit hlt, hflatScalars f db isLoad hf hfit hlt]
    suffices h : Option.Rel SameResult
        (scalars address masks elSize (FlatDemandMemory.access isLoad) unit d db)
        (scalars address masks elSize (FlatMemory.access isLoad) unit f db) from ⟨h, h⟩
    obtain ⟨hdemandShift, -⟩ := FlatDemandMemory.unit_init hdemand
    obtain ⟨hdemandBase, hdemandMax⟩ := FlatDemandMemory.bounds_init hdemand
    obtain ⟨hflatShift, hflatBase, hflatSize, hbound⟩ := FlatMemory.unit_init hflat
    have hunitPos := Nat.pos_of_dvd_of_pos hdvd hpos
    obtain ⟨units, hunits⟩ := hdvd
    have hdiv : elSize / unit = units := by rw [hunits, Nat.mul_div_cancel_left _ hunitPos]
    have hne : units ≠ 0 := by
      rintro rfl
      omega
    have hrange : ∀ i < masks.length, masks.getD i false = true →
        base.toNat ≤ (stepAddress address elSize unit i).toNat ∧
          (stepAddress address elSize unit i).toNat + units ≤ base.toNat + memorySize.toNat ∧
          (stepAddress address elSize unit i).toNat + units ≤ 2 ^ 64 := by
      intro i hi hmask
      obtain ⟨hlo, hhi, hend⟩ := hin i hi hmask
      rw [hdiv] at hlo hhi hend
      have hsum : (stepAddress address elSize unit i).toNat = address.toNat + i * units := by
        unfold stepAddress
        rw [hdiv, BitVec.toNat_add, BitVec.toNat_ofNat, Nat.add_mod_mod,
          Nat.mod_eq_of_lt (by omega)]
      rw [hsum]
      exact ⟨hlo, hhi, hend⟩
    -- The scalar accesses are in range, so that the memories do not agree by refusing them.
    have hplaced : AllPlaced flat masks elSize (stepAddress address elSize unit) := by
      intro i hi hmask
      obtain ⟨hlo, hhi, -⟩ := hrange i hi hmask
      have hplace := FlatMemory.place_eq_some hflatShift hflatBase hflatSize hbound hlo hhi
      rw [Nat.mul_comm units, ← hunits] at hplace
      rw [hplace]
      rfl
    have hsizes : elSize ∈ FlatMemory.elementSizes := by
      rcases hflatCond with h | h
      · exact h.1
      · exact absurd hplaced h.1
    have hsmall : unit ≤ 2 ^ 16 := by
      have hle : unit ≤ elSize := Nat.le_of_dvd hpos ⟨units, hunits⟩
      unfold FlatMemory.elementSizes at hsizes
      simp only [List.mem_cons, List.not_mem_nil, or_false] at hsizes
      omega
    have hcheck := (hdemandCond.resolve_left (by omega)).2
    have hsame : SameBytes memorySize base unit d f := by
      have hmax : (d.max - d.base).toNat = memorySize.toNat := by
        rw [hd.max, hd.base, hdemandMax, hdemandBase, BitVec.add_comm, BitVec.add_sub_cancel]
      unfold FlatDemandMemory.contents FlatMemory.contents at hcontents
      rw [hmax, hd.base, hd.shift, hdemandBase, hdemandShift, hf.size, hflatSize] at hcontents
      exact ⟨hd.allocates (FlatDemandMemory.allocates_init hdemand hsmall), hd.shift ▸ hdemandShift,
        hf.shift ▸ hflatShift, hd.base.trans hdemandBase, hf.base.trans hflatBase, hmax,
        hf.size.trans hflatSize, hf.size ▸ hbound, by rw [hf.size, hflatSize]; exact hcontents⟩
    have hstep : ∀ i < masks.length, masks.getD i false = true →
        ∀ (s : FlatDemandMemory) (t : FlatMemory) slot,
        SameBytes memorySize base unit s t ∧ FlatDemandMemory.SameShape demand s →
        slot.length = elSize → ∃ s' t' slot',
          s.access isLoad (stepAddress address elSize unit i) slot = some (s', slot') ∧
            t.access isLoad (stepAddress address elSize unit i) slot = some (t', slot') ∧
            (SameBytes memorySize base unit s' t' ∧ FlatDemandMemory.SameShape demand s') ∧
            slot'.length = elSize := by
      rintro i hi hmask s t slot ⟨hst, hs⟩ hslot
      obtain ⟨hlo, hhi, hend⟩ := hrange i hi hmask
      have hbounds := hcheck i hi hmask
      rw [← hs.outOfBounds_eq, hdiv] at hbounds
      obtain ⟨s', t', slot', h, h', hst', hlen⟩ := hst.access isLoad hne
        (by rw [hslot, hunits, Nat.mul_comm]) hlo hhi hend hbounds
      exact ⟨s', t', slot', h, h', ⟨hst', hs.trans (FlatDemandMemory.access_keeps h).1⟩,
        hlen.trans hslot⟩
    obtain ⟨d', f', db', hd', hf', hrel, -⟩ := slots_rel
      (R := fun d f => SameBytes memorySize base unit d f ∧ FlatDemandMemory.SameShape demand d)
      ⟨hsame, hd⟩ hfit hstep
    unfold scalars
    rw [hd', hf']
    exact .some ⟨hrel.1.contents_eq, rfl⟩

/-- Two words in memories whose units are bytes. -/
theorem unitStrideAgrees_bytes :
    ∃ d f, FlatDemandMemory.init 0x100 0x1000 1 0 = some d ∧
      FlatMemory.init 0x100 0x1000 1 0 = some f ∧
      UnitStrideAgrees 0x100 0x1000 1 d f 0x1010 [true, true] 4 := by
  refine ⟨_, _, rfl, rfl, (unitStrideAgrees_iff rfl rfl (by decide) ⟨4, rfl⟩ (by decide)).mpr
    ⟨.inr ⟨.inl rfl, ?_⟩, .inl ⟨by decide, .inl rfl⟩⟩⟩
  intro i hi _
  match i, hi with
  | 0, _ => decide
  | 1, _ => decide

/-- Two units of two bytes: the vector load takes the second from two units after the first, where
    the scalar load takes the next one. -/
theorem not_unitStrideAgrees_wideUnit :
    ∃ d f f', FlatDemandMemory.init 0x10 0x1000 2 0 = some d ∧
      FlatMemory.init 0x10 0x1000 2 0 = some f ∧ f.store 0x1001 [7, 7] = some (f', [7, 7]) ∧
      (f'.vector [0x1000] [true, true] 2 [0, 0, 0, 0] true).map Prod.snd = some [0, 0, 0, 0] ∧
      (scalars 0x1000 [true, true] 2 (FlatMemory.access true) 2 f' [0, 0, 0, 0]).map Prod.snd =
        some [0, 0, 7, 7] ∧
      ¬UnitStrideAgrees 0x10 0x1000 2 d f 0x1000 [true, true] 2 := by
  obtain ⟨f, hf⟩ : ∃ f, FlatMemory.init 0x10 0x1000 2 0 = some f := ⟨_, rfl⟩
  obtain ⟨f', hf'⟩ : ∃ f', f.store 0x1001 [7, 7] = some (f', [7, 7]) := by
    cases hf
    exact ⟨_, rfl⟩
  have hvector : (f'.vector [0x1000] [true, true] 2 [0, 0, 0, 0] true).map Prod.snd =
      some [0, 0, 0, 0] := by
    cases hf
    cases hf'
    decide
  have hscalars : (scalars 0x1000 [true, true] 2 (FlatMemory.access true) 2 f'
      [0, 0, 0, 0]).map Prod.snd = some [0, 0, 7, 7] := by
    cases hf
    cases hf'
    decide
  refine ⟨_, f, f', rfl, hf, hf', hvector, hscalars, fun h => ?_⟩
  have hstore : f.access false 0x1001 [7, 7] = some (f', [7, 7]) := hf'
  have hshape := (FlatMemory.access_keeps hstore).1
  rw [h.flat_scalars f' [0, 0, 0, 0] true hshape (by decide) (by decide), hscalars] at hvector
  exact absurd hvector (by decide)

end MpactSim.Memory
