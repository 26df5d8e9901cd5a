import MpactSim.Lib.FlatArray
import MpactSim.Lib.Slots
import MpactSim.Memory.Interface

namespace MpactSim.Memory

open Lib

/-!
# Memory that is allocated at once

A `FlatMemory` is one array of bytes.  An access is checked against the ends of the array, with the
position of the access computed in 64 bits.

The step from one element of a unit-stride access to the next is the size of an element in bytes,
but addresses count addressable units (`vector_eq_slots`).
-/

/-! ### The source -/

/-- `FlatMemory`; the buffer is an array of `size` bytes. -/
structure FlatMemory where
  size : Nat
  base : Addr
  shift : Nat
  buffer : Nat → UInt8

namespace FlatMemory

/-- The constructor.  The unit has to be a power of two, and the size in bytes is an `int64_t`. -/
def init (memorySize base : Addr) (unit : Nat) (fill : UInt8) : Option FlatMemory :=
  if unit ≠ 0 ∧ unit &&& (unit - 1) = 0 ∧ memorySize.toNat * unit < 2 ^ 63 then
    some ⟨memorySize.toNat * unit, base, Nat.log2 unit, fun _ => fill⟩
  else none

/-- The position of an access in the buffer. -/
def offset (m : FlatMemory) (address : Addr) : Addr := (address - m.base) <<< m.shift

/-- The checks of an access and its position.  A copy beyond the buffer has no result. -/
def place (m : FlatMemory) (address : Addr) (size : Nat) : Option Nat :=
  if address < m.base then none
  else if m.offset address + BitVec.ofNat 64 size > BitVec.ofNat 64 m.size then none
  else if (m.offset address).toNat + size ≤ m.size then some (m.offset address).toNat
  else none

/-- Scalar `Load`. -/
def load (m : FlatMemory) (address : Addr) (db : Bytes) : Option (FlatMemory × Bytes) :=
  (m.place address db.length).map fun p => (m, readAt m.buffer p db.length)

/-- Scalar `Store`. -/
def store (m : FlatMemory) (address : Addr) (db : Bytes) : Option (FlatMemory × Bytes) :=
  (m.place address db.length).map fun p => ({ m with buffer := writeAt m.buffer p db }, db)

/-- The address of an entry in `LoadData` and `StoreData`. -/
def entryAddress (addresses : List Addr) (elSize entry : Nat) : Addr :=
  if addresses.length > 1 then addresses.getD entry 0
  else addresses.getD 0 0 + BitVec.ofNat 64 (entry * elSize)

/-- The body of the loop in `LoadData` and `StoreData`, with the check of `Set` and `Get`. -/
def element (m : FlatMemory) (addresses : List Addr) (masks : List Bool) (elSize : Nat)
    (isLoad : Bool) (db : Bytes) (entry : Nat) : Option (FlatMemory × Bytes) :=
  if masks.getD entry false then do
    let p ← m.place (entryAddress addresses elSize entry) elSize
    if (entry + 1) * elSize ≤ db.length then
      if isLoad then
        some (m, db.take (entry * elSize) ++ readAt m.buffer p elSize ++
          db.drop (entry * elSize + elSize))
      else
        let value := (db.drop (entry * elSize)).take elSize
        some ({ m with buffer := writeAt m.buffer p value }, db)
    else none
  else some (m, db)

/-- The sizes of the types that `LoadData` and `StoreData` are used at. -/
def elementSizes : List Nat := [1, 2, 4, 8]

/-- Vector `Load` and `Store`. -/
def vector (m : FlatMemory) (addresses : List Addr) (masks : List Bool) (elSize : Nat)
    (db : Bytes) (isLoad : Bool) : Option (FlatMemory × Bytes) :=
  if elSize ∈ elementSizes then
    (List.range masks.length).foldlM
      (fun (state : FlatMemory × Bytes) i =>
        state.1.element addresses masks elSize isLoad state.2 i) (m, db)
  else none

/-- A scalar access. -/
def access (isLoad : Bool) (m : FlatMemory) (address : Addr) (db : Bytes) :
    Option (FlatMemory × Bytes) :=
  if isLoad then m.load address db else m.store address db

/-! ### Accesses -/

/-- Two states of one memory. -/
structure SameShape (m m' : FlatMemory) : Prop where
  size : m'.size = m.size
  base : m'.base = m.base
  shift : m'.shift = m.shift

theorem SameShape.refl (m : FlatMemory) : SameShape m m := ⟨rfl, rfl, rfl⟩

theorem SameShape.trans {m m' m'' : FlatMemory} (h : SameShape m m') (h' : SameShape m' m'') :
    SameShape m m'' :=
  ⟨h'.size.trans h.size, h'.base.trans h.base, h'.shift.trans h.shift⟩

theorem SameShape.place_eq {m m' : FlatMemory} (h : SameShape m m') (address : Addr) (size : Nat) :
    m'.place address size = m.place address size := by
  unfold place offset
  rw [h.size, h.base, h.shift]

variable {m m' : FlatMemory} {address : Addr} {db db' : Bytes} {isLoad : Bool}

theorem access_eq (isLoad : Bool) (p : Nat) (hplace : m.place address db.length = some p) :
    m.access isLoad address db =
      if isLoad then some (m, readAt m.buffer p db.length)
      else some ({ m with buffer := writeAt m.buffer p db }, db) := by
  unfold access load store
  rw [hplace]
  rfl

theorem access_eq_none (hplace : m.place address db.length = none) :
    m.access isLoad address db = none := by
  unfold access load store
  rw [hplace]
  cases isLoad <;> rfl

theorem access_keeps (h : m.access isLoad address db = some (m', db')) :
    SameShape m m' ∧ db'.length = db.length ∧ (isLoad = true → m' = m) := by
  cases hplace : m.place address db.length with
  | none =>
    rw [access_eq_none hplace] at h
    cases h
  | some p =>
    rw [access_eq isLoad p hplace] at h
    split at h
    · cases h
      exact ⟨.refl _, length_readAt .., fun _ => rfl⟩
    · rename_i hload
      cases h
      exact ⟨⟨rfl, rfl, rfl⟩, rfl, fun h => absurd h hload⟩

/-- A vector access is a sequence of scalar accesses at the addresses of its entries. -/
theorem vector_eq_slots {addresses : List Addr} {masks : List Bool} {elSize : Nat}
    (hsize : elSize ∈ elementSizes) (hfit : elSize * masks.length ≤ db.length) :
    m.vector addresses masks elSize db isLoad =
      slots (fun i m => m.access isLoad (entryAddress addresses elSize i))
        (fun i => masks.getD i false) elSize masks.length m db := by
  have hkeeps : Keeps (fun i (m : FlatMemory) => m.access isLoad (entryAddress addresses elSize i))
      elSize fun _ => True := by
    intro i s slot s' slot' _ hslot h
    exact ⟨trivial, (access_keeps h).2.1.trans hslot⟩
  unfold vector
  rw [if_pos hsize]
  refine foldlM_eq_slots hkeeps trivial hfit ?_
  intro i hi state _ hlen
  have hslot := length_slot (hlen ▸ slot_fits hfit hi : elSize * i + elSize ≤ state.2.length)
  have hindex : (i + 1) * elSize ≤ state.2.length := by
    rw [Nat.mul_comm, Nat.mul_succ, hlen]
    exact slot_fits hfit hi
  unfold element slotStep
  dsimp only
  by_cases hmask : masks.getD i false = true
  · rw [if_pos hmask, if_pos hmask, Nat.mul_comm i elSize]
    cases hplace : state.1.place (entryAddress addresses elSize i) elSize with
    | none =>
      rw [access_eq_none (by rw [hslot]; exact hplace)]
      rfl
    | some p =>
      rw [access_eq isLoad p (by rw [hslot]; exact hplace), hslot, Option.bind_eq_bind,
        Option.bind_some, if_pos hindex]
      cases isLoad with
      | true => rfl
      | false =>
        -- A store leaves the data buffer as it is.
        have hput : state.2.take (elSize * i) ++ (state.2.drop (elSize * i)).take elSize ++
            state.2.drop (elSize * i + elSize) = state.2 := by
          rw [List.append_assoc, ← List.drop_drop, List.take_append_drop, List.take_append_drop]
        rw [if_neg Bool.false_ne_true, if_neg Bool.false_ne_true, Option.bind_eq_bind,
          Option.bind_some, Option.pure_def, hput]
  · rw [if_neg hmask, if_neg hmask]

theorem unit_init {memorySize base : Addr} {unit : Nat} {fill : UInt8}
    (h : init memorySize base unit fill = some m) :
    2 ^ m.shift = unit ∧ m.base = base ∧ m.size = memorySize.toNat * unit ∧ m.size < 2 ^ 63 := by
  unfold init at h
  split at h
  · rename_i hpow
    obtain ⟨hzero, hand, hsize⟩ := hpow
    cases h
    obtain ⟨k, rfl⟩ := Nat.ne_zero_and_sub_one_eq_zero_iff_isPowerOfTwo.mp ⟨hzero, hand⟩
    exact ⟨by rw [Nat.log2_two_pow], rfl, rfl, hsize⟩
  · cases h

theorem place_eq_offset {size p : Nat} (h : m.place address size = some p) :
    p = (m.offset address).toNat := by
  unfold place at h
  split at h
  · cases h
  · split at h
    · cases h
    · split at h
      · cases h
        rfl
      · cases h

section Slots

variable {addr : Nat → Addr} {masks : List Bool} {elSize : Nat}

theorem slots_keeps (m : FlatMemory) (isLoad : Bool) (addr : Nat → Addr) (elSize : Nat) :
    Keeps (fun i m => access isLoad m (addr i)) elSize (SameShape m) := by
  intro i s slot s' slot' hs hslot h
  obtain ⟨hshape, hlen, -⟩ := access_keeps h
  exact ⟨hs.trans hshape, hlen.trans hslot⟩

theorem slots_isSome_iff (isLoad : Bool) (hfit : elSize * masks.length ≤ db.length) :
    (slots (fun i m => access isLoad m (addr i)) (fun i => masks.getD i false) elSize
        masks.length m db).isSome ↔
      ∀ i < masks.length, masks.getD i false = true → (m.place (addr i) elSize).isSome := by
  constructor
  · intro h i hi hmask
    obtain ⟨⟨m', db'⟩, h⟩ := Option.isSome_iff_exists.mp h
    obtain ⟨-, -, hdone⟩ := slots_sound (slots_keeps m isLoad addr elSize) (.refl m) hfit h
    obtain ⟨t, slot, t', hshape, hslot, haccess⟩ := hdone i hi hmask
    by_contra hnone
    rw [Bool.not_eq_true, Option.isSome_eq_false_iff, Option.isNone_iff_eq_none] at hnone
    rw [access_eq_none (by rw [hshape.place_eq, hslot]; exact hnone)] at haccess
    cases haccess
  · intro h
    have hstep : ∀ i < masks.length, masks.getD i false = true → ∀ (s : FlatMemory) slot,
        SameShape m s → slot.length = elSize → ∃ s' slot',
          access isLoad s (addr i) slot = some (s', slot') ∧ SameShape m s' ∧
            slot'.length = elSize := by
      intro i hi hmask s slot hshape hslot
      obtain ⟨p, hp⟩ := Option.isSome_iff_exists.mp (h i hi hmask)
      have haccess := access_eq isLoad p (by rw [hshape.place_eq, hslot]; exact hp)
      have hsome : ∃ r, access isLoad s (addr i) slot = some r := by
        rw [haccess]
        split
        · exact ⟨_, rfl⟩
        · exact ⟨_, rfl⟩
      obtain ⟨⟨s', slot'⟩, hr⟩ := hsome
      obtain ⟨hshape', hlen, -⟩ := access_keeps hr
      exact ⟨s', slot', hr, hshape.trans hshape', hlen.trans hslot⟩
    obtain ⟨m', db', h⟩ := slots_exists (SameShape.refl m) hfit hstep
    rw [h]
    rfl

theorem slots_first (hpos : 0 < elSize) (hfit : elSize * masks.length ≤ db.length)
    (h : slots (fun i m => access true m (addr i)) (fun i => masks.getD i false) elSize
      masks.length m db = some (m', db')) {i : Nat} (hi : i < masks.length)
    (hmask : masks.getD i false = true) {p : Nat} (hplace : m.place (addr i) elSize = some p) :
    ((db'.drop (elSize * i)).take elSize)[0]? = some (m.buffer p) := by
  have hkeeps : Keeps (fun i m => access true m (addr i)) elSize fun t => t = m := by
    rintro i s slot s' slot' rfl hslot h
    obtain ⟨-, hlen, hsame⟩ := access_keeps h
    exact ⟨hsame rfl, hlen.trans hslot⟩
  obtain ⟨-, -, hdone⟩ := slots_sound hkeeps rfl hfit h
  obtain ⟨_, slot, t', rfl, hslot, haccess⟩ := hdone i hi hmask
  rw [access_eq true p (by rw [hslot]; exact hplace), if_pos rfl, hslot] at haccess
  have hread := congrArg Prod.snd (Option.some.inj haccess)
  dsimp only at hread
  rw [← hread, List.getElem?_eq_getElem (by rw [length_readAt]; exact hpos), getElem_readAt,
    Nat.add_zero]

end Slots

end FlatMemory

end MpactSim.Memory
