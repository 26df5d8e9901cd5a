import MpactSim.Lib.Slots
import MpactSim.Memory.BoundsCheck

namespace MpactSim.Memory

open Lib

/-!
# Vector accesses of on-demand memory

A vector access of a `FlatDemandMemory` is a sequence of scalar accesses, except that its loads are
checked too (`vector_eq_slots`).  What an access does depends on its own part of the data buffer
only (`loadStoreHelper_append`).
-/

namespace FlatDemandMemory

/-- A scalar access. -/
def access (isLoad : Bool) (m : FlatDemandMemory) (address : Addr) (db : Bytes) :
    Option (FlatDemandMemory × Bytes) :=
  if isLoad then m.load address db else m.store address db

/-- An access that is checked as the elements of a vector access are. -/
def checkedAccess (isLoad : Bool) (m : FlatDemandMemory) (address : Addr) (db : Bytes) :
    Option (FlatDemandMemory × Bytes) :=
  if m.outOfBounds address (db.length >>> m.shift) then none else m.access isLoad address db

variable {m m' : FlatDemandMemory} {address : Addr} {data data' tail : Bytes} {units size : Nat}
  {isLoad : Bool}

theorem copyBlock_append (hdata : units <<< m.shift ≤ data.length) :
    m.copyBlock address (data ++ tail) units isLoad = m.copyBlock address data units isLoad := by
  have hall : units <<< m.shift ≤ (data ++ tail).length := by
    rw [List.length_append]
    omega
  unfold copyBlock
  dsimp only
  rw [List.take_append_of_le_length hdata]
  simp only [hdata, hall, and_true]

theorem loadStoreHelper_append (fuel : Nat) (hdata : size <<< m.shift ≤ data.length) :
    loadStoreHelper fuel m address (data ++ tail) size isLoad =
      (loadStoreHelper fuel m address data size isLoad).map fun r => (r.1, r.2 ++ tail) := by
  induction fuel generalizing m address data size with
  | zero => rfl
  | succ fuel ih =>
    unfold loadStoreHelper
    dsimp only
    generalize hunits : min size (allocationSize - address.toNat % allocationSize) = units
    have hle : units <<< m.shift ≤ size <<< m.shift := by
      rw [Nat.shiftLeft_eq, Nat.shiftLeft_eq]
      exact Nat.mul_le_mul_right _ (by omega)
    rw [copyBlock_append (by omega)]
    cases hcopy : m.copyBlock address data units isLoad with
    | none => rfl
    | some r =>
      obtain ⟨m₁, copied⟩ := r
      have hshape := copyBlock_sameShape hcopy
      simp only [Option.bind_eq_bind, Option.bind_some, hshape.shift]
      rw [List.drop_append_of_le_length (by omega)]
      split
      · rw [ih (by
          rw [hshape.shift, List.length_drop, Nat.shiftLeft_eq, Nat.shiftLeft_eq,
            Nat.sub_mul]
          rw [Nat.shiftLeft_eq, Nat.shiftLeft_eq] at hle
          rw [Nat.shiftLeft_eq] at hdata
          omega)]
        cases loadStoreHelper fuel m₁ (address + BitVec.ofNat 64 units)
            (data.drop (units <<< m.shift)) (size - units) isLoad with
        | none => rfl
        | some r => simp
      · simp

theorem length_copyBlock (h : m.copyBlock address data units isLoad = some (m', data')) :
    data'.length = units <<< m.shift ∧ units <<< m.shift ≤ data.length := by
  unfold copyBlock at h
  dsimp only at h
  split at h
  · rename_i hfit
    refine ⟨?_, hfit.2⟩
    split at h
    · cases h
      exact length_readAt ..
    · cases h
      rw [List.length_take]
      omega
  · cases h

theorem length_loadStoreHelper {fuel : Nat}
    (h : loadStoreHelper fuel m address data size isLoad = some (m', data')) :
    data'.length = data.length := by
  induction fuel generalizing m address data size data' with
  | zero => cases h
  | succ fuel ih =>
    obtain ⟨⟨m₁, copied⟩, hcopy, h⟩ := Option.bind_eq_some_iff.mp h
    have hshape := copyBlock_sameShape hcopy
    obtain ⟨hlen, hle⟩ := length_copyBlock hcopy
    dsimp only at h
    rw [hshape.shift] at h
    split at h
    · obtain ⟨⟨m₂, rest⟩, hrest, h⟩ := Option.bind_eq_some_iff.mp h
      cases h
      rw [List.length_append, ih hrest, List.length_drop, hlen]
      omega
    · cases h
      rw [List.length_append, List.length_drop, hlen]
      omega

/-- A load succeeds, also one that wraps around, and begins with the byte at its address. -/
theorem loadStoreHelper_first {fuel : Nat} (ha : m.Allocates) (hpos : 0 < size) (hfuel : size ≤ fuel)
    (hdata : size * 2 ^ m.shift ≤ data.length) :
    ∃ m' data', loadStoreHelper fuel m address data size true = some (m', data') ∧
      m'.flat = m.flat ∧ data'[0]? = some (m.flat (address.toNat * 2 ^ m.shift)) := by
  induction fuel generalizing m address data size with
  | zero => omega
  | succ fuel ih =>
    have hunits := units_pos hpos address.toNat
    generalize hmin : min size (allocationSize - address.toNat % allocationSize) = units at hunits
    have hbytes : units * 2 ^ m.shift ≤ size * 2 ^ m.shift := Nat.mul_le_mul_right _ (by omega)
    obtain ⟨m₁, hcopy, hshape, hflat⟩ :=
      copyBlock_load ha (by omega : units ≤ allocationSize - address.toNat % allocationSize)
        (by omega : units * 2 ^ m.shift ≤ data.length)
    have hfirst : 0 < units * 2 ^ m.shift := Nat.mul_pos hunits (Nat.two_pow_pos _)
    have hhead : ∀ rest : Bytes, (readAt m.flat (address.toNat * 2 ^ m.shift)
        (units * 2 ^ m.shift) ++ rest)[0]? = some (m.flat (address.toNat * 2 ^ m.shift)) := by
      intro rest
      rw [List.getElem?_append_left (by rw [length_readAt]; exact hfirst),
        List.getElem?_eq_getElem (by rw [length_readAt]; exact hfirst), getElem_readAt,
        Nat.add_zero]
    unfold loadStoreHelper
    simp only [hmin, hcopy, Option.bind_eq_bind, Option.bind_some, Nat.shiftLeft_eq, hshape.shift]
    by_cases hleft : size - units > 0
    · have hdrop : (size - units) * 2 ^ m₁.shift ≤ (data.drop (units * 2 ^ m.shift)).length := by
        rw [hshape.shift, List.length_drop, Nat.sub_mul]
        omega
      obtain ⟨m₂, rest, hrest, hflat', -⟩ := @ih m₁ (address + BitVec.ofNat 64 units) _ _
        (hshape.allocates ha) hleft (by omega) hdrop
      rw [if_pos hleft, hrest]
      exact ⟨m₂, _, rfl, hflat'.trans hflat, hhead rest⟩
    · rw [if_neg hleft]
      exact ⟨m₁, _, rfl, hflat, hhead _⟩

theorem access_eq (m : FlatDemandMemory) (address : Addr) (data : Bytes) (isLoad : Bool)
    (hsize : data.length >>> m.shift ≠ 0)
    (h : isLoad = true ∨ m.outOfBounds address (data.length >>> m.shift) = false) :
    m.access isLoad address data =
      loadStoreHelper (data.length >>> m.shift) m address data (data.length >>> m.shift) isLoad := by
  unfold access load store
  cases isLoad with
  | true => simp [hsize]
  | false =>
    rcases h with h | h
    · cases h
    · simp [hsize, h]

theorem access_keeps (h : m.access isLoad address data = some (m', data')) :
    SameShape m m' ∧ data'.length = data.length := by
  have hcall : ∃ c, m.call c = some (m', data') := by
    cases isLoad with
    | true => exact ⟨.load address data, h⟩
    | false => exact ⟨.store address data, h⟩
  obtain ⟨c, hcall⟩ := hcall
  refine ⟨call_sameShape hcall, ?_⟩
  unfold access load store at h
  dsimp only at h
  split at h
  · split at h
    · cases h
    · exact length_loadStoreHelper h
  · split at h
    · cases h
    · split at h
      · cases h
      · exact length_loadStoreHelper h

theorem access_of_checkedAccess {r : FlatDemandMemory × Bytes}
    (h : m.checkedAccess isLoad address data = some r) : m.access isLoad address data = some r := by
  unfold checkedAccess at h
  split at h
  · cases h
  · exact h

theorem inBounds_of_checkedAccess {r : FlatDemandMemory × Bytes}
    (h : m.checkedAccess isLoad address data = some r) :
    m.outOfBounds address (data.length >>> m.shift) = false := by
  unfold checkedAccess at h
  split at h
  · cases h
  · rename_i hcheck
    exact Bool.not_eq_true _ ▸ hcheck

theorem checkedAccess_slots_keeps (m : FlatDemandMemory) (isLoad : Bool) (addr : Nat → Addr)
    (elSize : Nat) :
    Keeps (fun i (m : FlatDemandMemory) => m.checkedAccess isLoad (addr i)) elSize
      (SameShape m) := by
  intro i s slot s' slot' hs hslot h
  obtain ⟨hshape, hlen⟩ := access_keeps (access_of_checkedAccess h)
  exact ⟨hs.trans hshape, hlen.trans hslot⟩

theorem SameShape.outOfBounds_eq (h : SameShape m m') (address : Addr) (units : Nat) :
    m'.outOfBounds address units = m.outOfBounds address units := by
  unfold outOfBounds
  rw [h.base, h.max]

/-- A vector access is a sequence of checked accesses at the addresses of its elements. -/
theorem vector_eq_slots {addresses : List Addr} {masks : List Bool} {elSize : Nat} {db : Bytes}
    (hpos : 0 < elSize) (hdvd : 2 ^ m.shift ∣ elSize) (hfit : elSize * masks.length ≤ db.length)
    (hint : db.length < 2 ^ 31) :
    m.vector addresses masks elSize db isLoad =
      slots (fun i m => m.checkedAccess isLoad (elementAddress addresses elSize i))
        (fun i => masks.getD i false) elSize masks.length m db := by
  obtain ⟨n, hn⟩ := hdvd
  have hunits : elSize >>> m.shift = n := by
    rw [Nat.shiftRight_eq_div_pow, hn, Nat.mul_div_cancel_left _ (Nat.two_pow_pos _)]
  have hbytes : n <<< m.shift = elSize := by rw [Nat.shiftLeft_eq, Nat.mul_comm, ← hn]
  have hne : n ≠ 0 := by
    rintro rfl
    omega
  have hkeeps := checkedAccess_slots_keeps m isLoad (elementAddress addresses elSize) elSize
  unfold vector
  rw [hunits, if_neg hne]
  refine foldlM_eq_slots hkeeps (.refl m) hfit ?_
  intro i hi state hshape hlen
  obtain ⟨hoff, hplace⟩ := element_place hfit hint hi
  have hslot := length_slot (hlen ▸ hplace : elSize * i + elSize ≤ state.2.length)
  unfold element slotStep
  dsimp only
  by_cases hmask : masks.getD i false = true
  · rw [if_pos hmask, if_pos hmask, hoff, hshape.shift, hunits]
    unfold checkedAccess
    rw [hslot, hshape.shift, hunits]
    by_cases hcheck : state.1.outOfBounds (elementAddress addresses elSize i) n = true
    · rw [if_pos hcheck, if_pos hcheck]
      rfl
    · have hcheck := Bool.not_eq_true _ |>.mp hcheck
      -- The rest of the buffer is not touched.
      have hsplit : state.2.drop (elSize * i) =
          (state.2.drop (elSize * i)).take elSize ++ state.2.drop (elSize * i + elSize) := by
        rw [← List.drop_drop, List.take_append_drop]
      have haccess := access_eq state.1 (elementAddress addresses elSize i)
        ((state.2.drop (elSize * i)).take elSize) isLoad
        (by rw [hslot, hshape.shift, hunits]; exact hne)
        (.inr (by rw [hslot, hshape.shift, hunits]; exact hcheck))
      rw [hslot, hshape.shift, hunits] at haccess
      rw [hcheck, if_neg Bool.false_ne_true, if_neg Bool.false_ne_true, haccess]
      conv_lhs => rw [hsplit]
      rw [loadStoreHelper_append n (by rw [hshape.shift, hslot, hbytes])]
      cases loadStoreHelper n state.1 (elementAddress addresses elSize i)
          ((state.2.drop (elSize * i)).take elSize) n isLoad with
      | none => rfl
      | some r => simp
  · rw [if_neg hmask, if_neg hmask]

theorem access_load (address : Addr) (ha : m.Allocates) (hsize : data.length >>> m.shift ≠ 0) :
    ∃ m' data', m.access true address data = some (m', data') ∧ m'.flat = m.flat ∧
      data'[0]? = some (m.flat (address.toNat * 2 ^ m.shift)) := by
  have hdata : (data.length >>> m.shift) * 2 ^ m.shift ≤ data.length := by
    rw [Nat.shiftRight_eq_div_pow]
    exact Nat.div_mul_le_self ..
  rw [access_eq m address data true hsize (.inl rfl)]
  exact loadStoreHelper_first ha (Nat.pos_of_ne_zero hsize) (le_refl _) hdata

theorem exists_flat (m : FlatDemandMemory) (p : Nat) :
    ∃ d, SameShape m d ∧ d.flat = fun q => if q = p then 1 else 0 := by
  let size := allocationSize * 2 ^ m.shift
  refine ⟨{ m with blocks := fun k => some fun i => if k * size + i = p then 1 else 0 },
    ⟨rfl, rfl, rfl, rfl, rfl⟩, ?_⟩
  funext q
  show (if q / size * size + q % size = p then (1 : UInt8) else 0) = _
  rw [Nat.mul_comm, Nat.div_add_mod]

section Slots

variable {addr : Nat → Addr} {masks : List Bool} {elSize : Nat} {db : Bytes}
  {acc : Nat → FlatDemandMemory → Bytes → Option (FlatDemandMemory × Bytes)}

/-- The elements that are loaded begin with the bytes at their addresses. -/
theorem slots_first (ha : m.Allocates) (hsize : elSize >>> m.shift ≠ 0)
    (hacc : ∀ i m slot r, acc i m slot = some r → m.access true (addr i) slot = some r)
    (hfit : elSize * masks.length ≤ db.length) {db' : Bytes}
    (h : slots acc (fun i => masks.getD i false) elSize masks.length m db = some (m', db'))
    {i : Nat} (hi : i < masks.length) (hmask : masks.getD i false = true) :
    ((db'.drop (elSize * i)).take elSize)[0]? = some (m.flat ((addr i).toNat * 2 ^ m.shift)) := by
  have hload : ∀ t slot, SameShape m t → slot.length = elSize → ∀ i, ∃ t' slot',
      t.access true (addr i) slot = some (t', slot') ∧ t'.flat = t.flat ∧
        slot'[0]? = some (t.flat ((addr i).toNat * 2 ^ m.shift)) := by
    intro t slot hshape hslot i
    rw [← hshape.shift]
    exact access_load (addr i) (hshape.allocates ha) (by rw [hslot, hshape.shift]; exact hsize)
  have hkeeps : Keeps acc elSize fun t => SameShape m t ∧ t.flat = m.flat := by
    rintro i s slot s' slot' ⟨hs, hflat⟩ hslot h
    have haccess := hacc i s slot _ h
    obtain ⟨hshape, hlen⟩ := access_keeps haccess
    obtain ⟨t', slot₁, h₁, hflat₁, -⟩ := hload s slot hs hslot i
    rw [h₁] at haccess
    cases haccess
    exact ⟨⟨hs.trans hshape, hflat₁.trans hflat⟩, hlen.trans hslot⟩
  obtain ⟨-, -, hdone⟩ := slots_sound hkeeps ⟨.refl m, rfl⟩ hfit h
  obtain ⟨t, slot, t', ⟨hshape, hflat⟩, hslot, haccess⟩ := hdone i hi hmask
  obtain ⟨t₁, slot₁, h₁, -, hfirst⟩ := hload t slot hshape hslot i
  rw [hacc i t slot _ haccess] at h₁
  cases h₁
  rw [hfirst, hflat]

theorem slots_load_exists (addr : Nat → Addr) (masks : List Bool) (ha : m.Allocates)
    (hsize : elSize >>> m.shift ≠ 0)
    (hfit : elSize * masks.length ≤ db.length) :
    ∃ m' db', slots (fun i m => m.access true (addr i)) (fun i => masks.getD i false) elSize
      masks.length m db = some (m', db') := by
  refine slots_exists (SameShape.refl m) hfit fun i _ _ s slot hshape hslot => ?_
  obtain ⟨s', slot', h, -, -⟩ := access_load (addr i) (hshape.allocates ha)
    (by rw [hslot, hshape.shift]; exact hsize : slot.length >>> s.shift ≠ 0)
  obtain ⟨hshape', hlen⟩ := access_keeps h
  exact ⟨s', slot', h, hshape.trans hshape', hlen.trans hslot⟩

end Slots

variable {memorySize base : Addr} {unit : Nat} {fill : UInt8}

theorem unit_init (h : init memorySize base unit fill = some m) :
    2 ^ m.shift = unit ∧
      m.allocationByteSize = (BitVec.ofNat 32 (allocationSize * unit)).toInt := by
  unfold init at h
  split at h
  · rename_i hpow
    cases h
    obtain ⟨k, rfl⟩ := Nat.ne_zero_and_sub_one_eq_zero_iff_isPowerOfTwo.mp hpow
    exact ⟨by rw [Nat.log2_two_pow], rfl⟩
  · cases h

theorem allocates_init (h : init memorySize base unit fill = some m) (hunit : unit ≤ 2 ^ 16) :
    m.Allocates := by
  obtain ⟨hshift, hsize⟩ := unit_init h
  have hle : allocationSize * unit ≤ 2 ^ 30 := by
    unfold allocationSize
    omega
  have hnat : (BitVec.ofNat 32 (allocationSize * unit)).toNat = allocationSize * unit := by
    rw [BitVec.toNat_ofNat, Nat.mod_eq_of_lt (by omega)]
  rw [Allocates, hsize, hshift, BitVec.toInt_eq_toNat_of_lt (by omega), hnat]

theorem allocation_init (h : init memorySize base unit fill = some m) (hunit : 2 ^ 16 < unit) :
    m.allocationByteSize ≤ 0 := by
  obtain ⟨rfl, hsize⟩ := unit_init h
  have hshift : 16 < m.shift := (Nat.pow_lt_pow_iff_right (by decide : 1 < 2)).mp hunit
  have hpow : allocationSize * 2 ^ m.shift = 2 ^ 31 * 2 ^ (m.shift - 17) := by
    rw [show allocationSize = 2 ^ 14 from rfl, ← pow_add, ← pow_add]
    congr 1
    omega
  have hmod : (BitVec.ofNat 32 (allocationSize * 2 ^ m.shift)).toNat = 0 ∨
      (BitVec.ofNat 32 (allocationSize * 2 ^ m.shift)).toNat = 2 ^ 31 := by
    rw [BitVec.toNat_ofNat, hpow]
    generalize 2 ^ (m.shift - 17) = k
    omega
  rw [hsize, BitVec.toInt_eq_toNat_cond]
  rcases hmod with hmod | hmod
  · rw [hmod]
    decide
  · rw [hmod]
    decide

theorem access_eq_none (hblock : m.allocationByteSize ≤ 0) :
    m.access isLoad address data = none := by
  have hhelper : ∀ n isLoad, n ≠ 0 → loadStoreHelper n m address data n isLoad = none := by
    intro n isLoad hn
    obtain ⟨k, rfl⟩ : ∃ k, n = k + 1 := ⟨n - 1, by omega⟩
    have hunits := units_pos (Nat.succ_pos k) address.toNat
    have hpos : 0 < min (k + 1) (allocationSize - address.toNat % allocationSize) <<< m.shift := by
      rw [Nat.shiftLeft_eq]
      exact Nat.mul_pos hunits (Nat.two_pow_pos _)
    unfold loadStoreHelper copyBlock
    dsimp only
    rw [if_neg]
    · rfl
    · rintro ⟨hle, -⟩
      have hbytes := Nat.add_pos_right ((address.toNat % allocationSize) <<< m.shift) hpos
      exact absurd (lt_of_lt_of_le (Int.natCast_pos.mpr hbytes) hle) (not_lt.mpr hblock)
  unfold access load store
  dsimp only
  split
  · split
    · rfl
    · rename_i hne
      exact hhelper _ _ hne
  · split
    · rfl
    · split
      · rfl
      · rename_i hne
        exact hhelper _ _ hne

end FlatDemandMemory

end MpactSim.Memory
