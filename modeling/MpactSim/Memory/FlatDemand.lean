import MpactSim.Lib.FlatArray
import MpactSim.Memory.Interface

namespace MpactSim.Memory

open Lib

/-!
# Memory that is allocated on demand

A `FlatDemandMemory` has a block for every 2^14 addressable units that have been accessed.  An
access is cut at the ends of blocks, and a new block is filled with one value.

`flat` is the array of bytes that the blocks stand for, with the bytes of the unit at address
`u` from position `u * unit` on.  `run_refines` says that the memory does what such an array
does, if the unit is not too large, the addresses of the memory end below 2^64 and all sizes
are multiples of the unit.  Sizes below the unit are not supported, although they are
documented.
-/

/-! ### The source -/

/-- `kAllocationSize`, in addressable units. -/
def allocationSize : Nat := 16 * 1024

/-- `FlatDemandMemory`; a block is an array of `allocationByteSize` bytes. -/
structure FlatDemandMemory where
  base : Addr
  max : Addr
  fill : UInt8
  shift : Nat
  allocationByteSize : Int
  blocks : Nat → Option (Nat → UInt8)

/-- An access; a data buffer is given with its contents before the access. -/
inductive MemoryCall where
  | load (address : Addr) (db : Bytes)
  | store (address : Addr) (db : Bytes)
  | loadVector (addresses : List Addr) (masks : List Bool) (elSize : Nat) (db : Bytes)
  | storeVector (addresses : List Addr) (masks : List Bool) (elSize : Nat) (db : Bytes)

namespace FlatDemandMemory

/-- The constructor.  The unit has to be a power of two, and `allocation_byte_size_` is an
    `int`. -/
def init (memorySize base : Addr) (unit : Nat) (fill : UInt8) : Option FlatDemandMemory :=
  if unit ≠ 0 ∧ unit &&& (unit - 1) = 0 then
    some ⟨base, base + memorySize, fill, Nat.log2 unit,
      (BitVec.ofNat 32 (allocationSize * unit)).toInt, fun _ => none⟩
  else none

/-- Find a block, or allocate a new one. -/
def block (m : FlatDemandMemory) (k : Nat) : Nat → UInt8 := (m.blocks k).getD fun _ => m.fill

/-- Insert a block in `block_map_`. -/
def setBlock (m : FlatDemandMemory) (k : Nat) (b : Nat → UInt8) : FlatDemandMemory :=
  { m with blocks := Function.update m.blocks k (some b) }

/-- A step of the loop in `LoadStoreHelper` for the units of one block: the memory and the bytes
    at the data pointer after it.  A copy beyond the block or the data has no result. -/
def copyBlock (m : FlatDemandMemory) (address : Addr) (data : Bytes) (units : Nat)
    (isLoad : Bool) : Option (FlatDemandMemory × Bytes) :=
  let k := address.toNat / allocationSize
  let block := m.block k
  let byteOffset := (address.toNat % allocationSize) <<< m.shift
  let bytes := units <<< m.shift
  if byteOffset + bytes ≤ m.allocationByteSize ∧ bytes ≤ data.length then
    if isLoad then some (m.setBlock k block, readAt block byteOffset bytes)
    else some (m.setBlock k (writeAt block byteOffset (data.take bytes)), data.take bytes)
  else none

/-- `LoadStoreHelper`: the memory and the data after it.  Every round but the last copies at
    least one unit, so `fuel` rounds are enough for `fuel` units. -/
def loadStoreHelper (fuel : Nat) (m : FlatDemandMemory) (address : Addr) (data : Bytes)
    (sizeInUnits : Nat) (isLoad : Bool) : Option (FlatDemandMemory × Bytes) :=
  match fuel with
  | 0 => none
  | fuel + 1 => do
    let units := min sizeInUnits (allocationSize - address.toNat % allocationSize)
    let (m, copied) ← m.copyBlock address data units isLoad
    let rest := data.drop (units <<< m.shift)
    if sizeInUnits - units > 0 then
      let (m, rest) ← loadStoreHelper fuel m (address + BitVec.ofNat 64 units) rest
        (sizeInUnits - units) isLoad
      pure (m, copied ++ rest)
    else pure (m, copied ++ rest)

/-- The bounds check of an access. -/
def outOfBounds (m : FlatDemandMemory) (address : Addr) (sizeInUnits : Nat) : Bool :=
  address < m.base || address + BitVec.ofNat 64 sizeInUnits > m.max

/-- Scalar `Load`; one that is out of bounds is only logged. -/
def load (m : FlatDemandMemory) (address : Addr) (db : Bytes) :
    Option (FlatDemandMemory × Bytes) :=
  let sizeInUnits := db.length >>> m.shift
  if sizeInUnits = 0 then none
  else loadStoreHelper sizeInUnits m address db sizeInUnits true

/-- Scalar `Store`. -/
def store (m : FlatDemandMemory) (address : Addr) (db : Bytes) :
    Option (FlatDemandMemory × Bytes) :=
  let sizeInUnits := db.length >>> m.shift
  if m.outOfBounds address sizeInUnits then none
  else if sizeInUnits = 0 then none
  else loadStoreHelper sizeInUnits m address db sizeInUnits false

/-- The body of the loop over the elements of a vector access. -/
def element (m : FlatDemandMemory) (addresses : List Addr) (masks : List Bool) (elSize : Nat)
    (isLoad : Bool) (db : Bytes) (i : Nat) : Option (FlatDemandMemory × Bytes) :=
  if masks.getD i false then do
    let sizeInUnits := elSize >>> m.shift
    let address := elementAddress addresses elSize i
    if m.outOfBounds address sizeInUnits then none
    else
      let offset := elSize * i % 2 ^ 32
      let (m, data) ← loadStoreHelper sizeInUnits m address (db.drop offset) sizeInUnits isLoad
      pure (m, db.take offset ++ data)
  else some (m, db)

/-- Vector `Load` and `Store`. -/
def vector (m : FlatDemandMemory) (addresses : List Addr) (masks : List Bool) (elSize : Nat)
    (db : Bytes) (isLoad : Bool) : Option (FlatDemandMemory × Bytes) :=
  if elSize >>> m.shift = 0 then none
  else
    (List.range masks.length).foldlM
      (fun (state : FlatDemandMemory × Bytes) i =>
        state.1.element addresses masks elSize isLoad state.2 i) (m, db)

/-- An access: the memory and the data buffer after it, or `none` if it is refused. -/
def call (m : FlatDemandMemory) : MemoryCall → Option (FlatDemandMemory × Bytes)
  | .load address db => m.load address db
  | .store address db => m.store address db
  | .loadVector addresses masks elSize db => m.vector addresses masks elSize db true
  | .storeVector addresses masks elSize db => m.vector addresses masks elSize db false

/-- The memory after a list of accesses, and the data buffers after each of them. -/
def run (m : FlatDemandMemory) : List MemoryCall → Option (FlatDemandMemory × List Bytes)
  | [] => some (m, [])
  | c :: rest => do
    let (m, db) ← m.call c
    let (m, dbs) ← m.run rest
    pure (m, db :: dbs)

/-- The bytes that the blocks stand for. -/
def flat (m : FlatDemandMemory) : Nat → UInt8 := ofBlocks (allocationSize * 2 ^ m.shift) m.block

end FlatDemandMemory

/-! ### The specification -/

/-- Write the unmasked elements of a data buffer, in order. -/
def flatStoreVector (unit : Nat) (addresses : List Addr) (masks : List Bool) (elSize : Nat)
    (db : Bytes) (f : Nat → UInt8) : Nat → UInt8 :=
  (List.range masks.length).foldl
    (fun f i =>
      if masks.getD i false then
        writeAt f ((addresses.getD i 0).toNat * unit) ((db.drop (elSize * i)).take elSize)
      else f) f

/-- What an access does to an array of bytes and to its data buffer. -/
def flatCall (unit : Nat) (f : Nat → UInt8) : MemoryCall → (Nat → UInt8) × Bytes
  | .load address db => (f, readAt f (address.toNat * unit) db.length)
  | .store address db => (writeAt f (address.toNat * unit) db, db)
  | .loadVector addresses masks elSize db =>
    (f, db.mapIdx fun j b =>
      if masks.getD (j / elSize) false then
        f ((addresses.getD (j / elSize) 0).toNat * unit + j % elSize)
      else b)
  | .storeVector addresses masks elSize db =>
    (flatStoreVector unit addresses masks elSize db f, db)

/-- The array after a list of accesses, and the data buffers after each of them. -/
def flatRun (unit : Nat) (f : Nat → UInt8) : List MemoryCall → (Nat → UInt8) × List Bytes
  | [] => (f, [])
  | c :: rest =>
    let (f, db) := flatCall unit f c
    let (f, dbs) := flatRun unit f rest
    (f, db :: dbs)

/-- The bytes of an access are in the memory. -/
def InMemory (memorySize base : Addr) (unit : Nat) (address : Addr) (size : Nat) : Prop :=
  base ≤ address ∧ address.toNat * unit + size ≤ (base.toNat + memorySize.toNat) * unit

/-- An access within the bounds of the memory; a vector access has an address for each entry of
    the mask and a data buffer for all elements. -/
def CallInMemory (memorySize base : Addr) (unit : Nat) : MemoryCall → Prop
  | .load address db => InMemory memorySize base unit address db.length
  | .store address db => InMemory memorySize base unit address db.length
  | .loadVector addresses masks elSize db | .storeVector addresses masks elSize db =>
    masks.length ≤ addresses.length ∧ elSize * masks.length ≤ db.length ∧ db.length < 2 ^ 31 ∧
      ∀ i < masks.length, masks.getD i false = true →
        InMemory memorySize base unit (addresses.getD i 0) elSize

/-- The size of an access. -/
def MemoryCall.size : MemoryCall → Nat
  | .load _ db => db.length
  | .store _ db => db.length
  | .loadVector _ _ elSize _ => elSize
  | .storeVector _ _ elSize _ => elSize

/-- The sizes that the memory supports. -/
def SizeOk (unit size : Nat) : Prop := 0 < size ∧ unit ∣ size

/-! ### Blocks -/

namespace FlatDemandMemory

/-- Two states of one memory. -/
structure SameShape (m m' : FlatDemandMemory) : Prop where
  base : m'.base = m.base
  max : m'.max = m.max
  fill : m'.fill = m.fill
  shift : m'.shift = m.shift
  allocation : m'.allocationByteSize = m.allocationByteSize

theorem SameShape.refl (m : FlatDemandMemory) : SameShape m m := ⟨rfl, rfl, rfl, rfl, rfl⟩

theorem SameShape.trans {m m' m'' : FlatDemandMemory} (h : SameShape m m') (h' : SameShape m' m'') :
    SameShape m m'' :=
  ⟨h'.base.trans h.base, h'.max.trans h.max, h'.fill.trans h.fill, h'.shift.trans h.shift,
    h'.allocation.trans h.allocation⟩

/-- The blocks have the size that they should have. -/
def Allocates (m : FlatDemandMemory) : Prop :=
  m.allocationByteSize = (allocationSize * 2 ^ m.shift : Nat)

theorem SameShape.allocates {m m' : FlatDemandMemory} (h : SameShape m m') (ha : m.Allocates) :
    m'.Allocates := by
  rw [Allocates, h.allocation, h.shift]
  exact ha

theorem sameShape_setBlock (m : FlatDemandMemory) (k : Nat) (b : Nat → UInt8) :
    SameShape m (m.setBlock k b) := ⟨rfl, rfl, rfl, rfl, rfl⟩

theorem block_setBlock (m : FlatDemandMemory) (k : Nat) (b : Nat → UInt8) :
    (m.setBlock k b).block = Function.update m.block k b := by
  funext j
  by_cases hj : j = k
  · subst hj
    simp [block, setBlock]
  · simp [block, setBlock, hj]

theorem position_eq (address unit : Nat) :
    address / allocationSize * (allocationSize * unit) + address % allocationSize * unit =
      address * unit := by
  calc
    _ = (allocationSize * (address / allocationSize) + address % allocationSize) * unit := by ring
    _ = address * unit := by rw [Nat.div_add_mod]

variable {m : FlatDemandMemory} {address : Addr} {data : Bytes} {units : Nat}

theorem offset_add_le (unit : Nat)
    (hunits : units ≤ allocationSize - address.toNat % allocationSize) :
    address.toNat % allocationSize * unit + units * unit ≤ allocationSize * unit := by
  have hmod : address.toNat % allocationSize < allocationSize :=
    Nat.mod_lt _ (by decide)
  rw [← Nat.add_mul]
  exact Nat.mul_le_mul_right unit (by omega)

theorem copyBlock_load (ha : m.Allocates)
    (hunits : units ≤ allocationSize - address.toNat % allocationSize)
    (hdata : units * 2 ^ m.shift ≤ data.length) :
    ∃ m', m.copyBlock address data units true =
        some (m', readAt m.flat (address.toNat * 2 ^ m.shift) (units * 2 ^ m.shift)) ∧
      SameShape m m' ∧ m'.flat = m.flat := by
  have hfit := offset_add_le (2 ^ m.shift) hunits
  let k := address.toNat / allocationSize
  refine ⟨m.setBlock k (m.block k), ?_, sameShape_setBlock _ _ _, ?_⟩
  · have hread := readAt_ofBlocks m.block k hfit
    rw [position_eq] at hread
    unfold copyBlock
    dsimp only
    rw [ha, Nat.shiftLeft_eq, Nat.shiftLeft_eq, if_pos ⟨by exact_mod_cast hfit, hdata⟩, if_pos rfl,
      flat, hread]
  · rw [flat, block_setBlock, Function.update_eq_self]
    rfl

theorem copyBlock_store (ha : m.Allocates)
    (hunits : units ≤ allocationSize - address.toNat % allocationSize)
    (hdata : units * 2 ^ m.shift ≤ data.length) :
    ∃ m', m.copyBlock address data units false =
        some (m', data.take (units * 2 ^ m.shift)) ∧ SameShape m m' ∧
      m'.flat = writeAt m.flat (address.toNat * 2 ^ m.shift)
        (data.take (units * 2 ^ m.shift)) := by
  have hfit := offset_add_le (2 ^ m.shift) hunits
  let k := address.toNat / allocationSize
  refine ⟨m.setBlock k (writeAt (m.block k) (address.toNat % allocationSize * 2 ^ m.shift)
    (data.take (units * 2 ^ m.shift))), ?_, sameShape_setBlock _ _ _, ?_⟩
  · unfold copyBlock
    dsimp only
    rw [ha, Nat.shiftLeft_eq, Nat.shiftLeft_eq, if_pos ⟨by exact_mod_cast hfit, hdata⟩,
      if_neg Bool.false_ne_true]
  · have hpos : 0 < allocationSize * 2 ^ m.shift := Nat.mul_pos (by decide) (Nat.two_pow_pos _)
    have hlen : (data.take (units * 2 ^ m.shift)).length = units * 2 ^ m.shift := by
      rw [List.length_take]
      omega
    have hfit' : address.toNat % allocationSize * 2 ^ m.shift +
        (data.take (units * 2 ^ m.shift)).length ≤ allocationSize * 2 ^ m.shift := by
      rw [hlen]
      exact hfit
    have hupdate := ofBlocks_update m.block k hfit' hpos
    rw [position_eq] at hupdate
    rw [flat, block_setBlock]
    exact hupdate

/-! ### Accesses -/

theorem units_pos {size : Nat} (hpos : 0 < size) (address : Nat) :
    0 < min size (allocationSize - address % allocationSize) := by
  have hmod : address % allocationSize < allocationSize := Nat.mod_lt _ (by decide)
  omega

theorem toNat_add_units {size : Nat} (hlt : units < size) (haddr : address.toNat + size ≤ 2 ^ 64) :
    (address + BitVec.ofNat 64 units).toNat = address.toNat + units := by
  rw [BitVec.toNat_add, BitVec.toNat_ofNat, Nat.add_mod_mod, Nat.mod_eq_of_lt (by omega)]

/-- **Loop rule of `LoadStoreHelper`.** If every copy within a block does what `Copied` says,
    and such copies one after the other do what `Done` says, so does the loop. -/
theorem loadStoreHelper_rule (isLoad : Bool)
    (Copied Done : FlatDemandMemory → Addr → Bytes → Nat → FlatDemandMemory → Bytes → Prop)
    (hcopy : ∀ (m : FlatDemandMemory) (address : Addr) (data : Bytes) (units : Nat), m.Allocates →
      units ≤ allocationSize - address.toNat % allocationSize →
      units * 2 ^ m.shift ≤ data.length →
      ∃ m' copied, m.copyBlock address data units isLoad = some (m', copied) ∧ SameShape m m' ∧
        Copied m address data units m' copied)
    (hlast : ∀ m address data units m' copied, Copied m address data units m' copied →
      Done m address data units m' (copied ++ data.drop (units * 2 ^ m.shift)))
    (hnext : ∀ (m : FlatDemandMemory) (address : Addr) (data : Bytes) (units left : Nat)
      (m₁ m₂ : FlatDemandMemory) (copied rest : Bytes), SameShape m m₁ →
      (units + left) * 2 ^ m.shift ≤ data.length →
      (address + BitVec.ofNat 64 units).toNat = address.toNat + units →
      Copied m address data units m₁ copied →
      Done m₁ (address + BitVec.ofNat 64 units) (data.drop (units * 2 ^ m.shift)) left m₂ rest →
      Done m address data (units + left) m₂ (copied ++ rest))
    (fuel : Nat) (m : FlatDemandMemory) (address : Addr) (data : Bytes) (size : Nat)
    (ha : m.Allocates) (hpos : 0 < size) (hfuel : size ≤ fuel)
    (haddr : address.toNat + size ≤ 2 ^ 64) (hdata : size * 2 ^ m.shift ≤ data.length) :
    ∃ m' data', loadStoreHelper fuel m address data size isLoad = some (m', data') ∧
      SameShape m m' ∧ Done m address data size m' data' := by
  -- Induction on the rounds; each leaves the rest of the data to the next.
  induction fuel generalizing m address data size with
  | zero => omega
  | succ fuel ih =>
    have hunits := units_pos hpos address.toNat
    obtain ⟨units, hmin⟩ : ∃ n, n = min size (allocationSize - address.toNat % allocationSize) :=
      ⟨_, rfl⟩
    rw [← hmin] at hunits
    have hle : units ≤ size := by omega
    have hbytes : units * 2 ^ m.shift ≤ size * 2 ^ m.shift := Nat.mul_le_mul_right _ hle
    obtain ⟨m₁, copied, hcopied, hshape, hdone⟩ :=
      hcopy m address data units ha (by omega) (by omega)
    unfold loadStoreHelper
    simp only [← hmin, hcopied, Option.bind_eq_bind, Option.bind_some, Nat.shiftLeft_eq, hshape.shift]
    obtain ⟨left, rfl⟩ : ∃ left, size = units + left := ⟨size - units, by omega⟩
    rw [Nat.add_sub_cancel_left]
    by_cases hleft : left > 0
    · have haddr' := toNat_add_units (by omega : units < units + left) haddr
      obtain ⟨m₂, rest, hrest, hshape', hdone'⟩ := ih m₁ (address + BitVec.ofNat 64 units)
        (data.drop (units * 2 ^ m.shift)) left (hshape.allocates ha) hleft (by omega)
        (by omega) (by rw [hshape.shift, List.length_drop, Nat.le_sub_iff_add_le' (by omega),
          ← Nat.add_mul]; exact hdata)
      refine ⟨m₂, copied ++ rest, ?_, hshape.trans hshape',
        hnext m address data units left m₁ m₂ copied rest hshape hdata haddr' hdone hdone'⟩
      rw [if_pos hleft, hrest]
      rfl
    · obtain rfl : left = 0 := by omega
      refine ⟨m₁, _, ?_, hshape, hlast m address data units m₁ copied hdone⟩
      rw [if_neg hleft]
      rfl

/-- A load by `LoadStoreHelper` reads consecutive bytes, through any number of blocks. -/
theorem loadStoreHelper_load (fuel : Nat) (m : FlatDemandMemory) (address : Addr) (data : Bytes)
    (size : Nat) (ha : m.Allocates) (hpos : 0 < size)
    (hfuel : size ≤ fuel) (haddr : address.toNat + size ≤ 2 ^ 64)
    (hdata : size * 2 ^ m.shift ≤ data.length) :
    ∃ m', loadStoreHelper fuel m address data size true =
        some (m', readAt m.flat (address.toNat * 2 ^ m.shift) (size * 2 ^ m.shift) ++
          data.drop (size * 2 ^ m.shift)) ∧
      SameShape m m' ∧ m'.flat = m.flat := by
  obtain ⟨m', data', hrun, hshape, rfl, hflat⟩ := loadStoreHelper_rule true
    (fun m address _ units m' copied =>
      copied = readAt m.flat (address.toNat * 2 ^ m.shift) (units * 2 ^ m.shift) ∧
        m'.flat = m.flat)
    (fun m address data size m' data' =>
      data' = readAt m.flat (address.toNat * 2 ^ m.shift) (size * 2 ^ m.shift) ++
          data.drop (size * 2 ^ m.shift) ∧
        m'.flat = m.flat)
    (by
      intro m address data units ha hunits hdata
      obtain ⟨m', hcopy, hshape, hflat⟩ := copyBlock_load ha hunits hdata
      exact ⟨m', _, hcopy, hshape, rfl, hflat⟩)
    (by
      rintro m address data units m' copied ⟨rfl, hflat⟩
      exact ⟨rfl, hflat⟩)
    (by
      rintro m address data units left m₁ m₂ copied rest hshape - haddr ⟨rfl, hflat⟩ ⟨rfl, hflat'⟩
      refine ⟨?_, hflat'.trans hflat⟩
      rw [haddr, hshape.shift, hflat, ← List.append_assoc, Nat.add_mul address.toNat,
        Nat.add_mul units, ← readAt_add, List.drop_drop])
    fuel m address data size ha hpos hfuel haddr hdata
  exact ⟨m', hrun, hshape, hflat⟩

/-- A store by `LoadStoreHelper` writes consecutive bytes, through any number of blocks. -/
theorem loadStoreHelper_store (fuel : Nat) (m : FlatDemandMemory) (address : Addr) (data : Bytes)
    (size : Nat) (ha : m.Allocates) (hpos : 0 < size)
    (hfuel : size ≤ fuel) (haddr : address.toNat + size ≤ 2 ^ 64)
    (hdata : size * 2 ^ m.shift ≤ data.length) :
    ∃ m', loadStoreHelper fuel m address data size false = some (m', data) ∧ SameShape m m' ∧
      m'.flat = writeAt m.flat (address.toNat * 2 ^ m.shift)
        (data.take (size * 2 ^ m.shift)) := by
  obtain ⟨m', data', hrun, hshape, rfl, hflat⟩ := loadStoreHelper_rule false
    (fun m address data units m' copied => copied = data.take (units * 2 ^ m.shift) ∧
      m'.flat = writeAt m.flat (address.toNat * 2 ^ m.shift) (data.take (units * 2 ^ m.shift)))
    (fun m address data size m' data' => data' = data ∧
      m'.flat = writeAt m.flat (address.toNat * 2 ^ m.shift) (data.take (size * 2 ^ m.shift)))
    (by
      intro m address data units ha hunits hdata
      obtain ⟨m', hcopy, hshape, hflat⟩ := copyBlock_store ha hunits hdata
      exact ⟨m', _, hcopy, hshape, rfl, hflat⟩)
    (by
      rintro m address data units m' copied ⟨rfl, hflat⟩
      exact ⟨List.take_append_drop _ _, hflat⟩)
    (by
      rintro m address data units left m₁ m₂ copied rest hshape hdata haddr ⟨rfl, hflat⟩
        ⟨rfl, hflat'⟩
      have hlen : (data.take (units * 2 ^ m.shift)).length = units * 2 ^ m.shift := by
        rw [Nat.add_mul] at hdata
        rw [List.length_take]
        omega
      refine ⟨List.take_append_drop _ _, ?_⟩
      have hwrite := writeAt_append m.flat (address.toNat * 2 ^ m.shift)
        (data.take (units * 2 ^ m.shift))
        ((data.drop (units * 2 ^ m.shift)).take (left * 2 ^ m.shift))
      rw [hlen] at hwrite
      rw [hflat', hflat, haddr, hshape.shift, Nat.add_mul address.toNat, hwrite, Nat.add_mul units,
        List.take_add])
    fuel m address data size ha hpos hfuel haddr hdata
  exact ⟨m', hrun, hshape, hflat⟩

/-- A memory of the given bounds and unit. -/
structure Configured (memorySize base : Addr) (unit : Nat) (m : FlatDemandMemory) : Prop where
  unit_eq : 2 ^ m.shift = unit
  allocates : m.Allocates
  base_eq : m.base = base
  max_eq : m.max.toNat = base.toNat + memorySize.toNat

section Access

variable {memorySize base : Addr} {unit size : Nat}

theorem Configured.sameShape {m' : FlatDemandMemory} (h : Configured memorySize base unit m)
    (hshape : SameShape m m') : Configured memorySize base unit m' where
  unit_eq := by rw [hshape.shift, h.unit_eq]
  allocates := hshape.allocates h.allocates
  base_eq := hshape.base.trans h.base_eq
  max_eq := by rw [hshape.max, h.max_eq]

theorem Configured.shift_ne_zero (h : Configured memorySize base unit m) (hsize : SizeOk unit size) :
    size >>> m.shift ≠ 0 := by
  obtain ⟨hpos, hdvd⟩ := hsize
  have hle := Nat.le_of_dvd hpos hdvd
  have hunit : 0 < unit := h.unit_eq ▸ Nat.two_pow_pos _
  rw [Nat.shiftRight_eq_div_pow, h.unit_eq]
  exact Nat.ne_of_gt (Nat.div_pos hle hunit)

/-- An access of a supported size that is in the memory passes its checks. -/
theorem Configured.checks (h : Configured memorySize base unit m) (hsize : SizeOk unit size)
    (hin : InMemory memorySize base unit address size) :
    size >>> m.shift ≠ 0 ∧ (size >>> m.shift) * 2 ^ m.shift = size ∧
      address.toNat + size >>> m.shift ≤ 2 ^ 64 ∧
      m.outOfBounds address (size >>> m.shift) = false := by
  obtain ⟨hpos, n, hn⟩ := hsize
  obtain ⟨hlo, hhi⟩ := hin
  have hunit : 0 < unit := h.unit_eq ▸ Nat.two_pow_pos _
  have hshift : size >>> m.shift = n := by
    rw [Nat.shiftRight_eq_div_pow, h.unit_eq, hn, Nat.mul_div_cancel_left n hunit]
  have hmax := h.max_eq
  have hlt := m.max.isLt
  have hle : address.toNat + n ≤ base.toNat + memorySize.toNat := by
    refine Nat.le_of_mul_le_mul_right ?_ hunit
    rw [Nat.add_mul, Nat.mul_comm n unit, ← hn]
    exact hhi
  have hsum : (address + BitVec.ofNat 64 n).toNat = address.toNat + n := by
    rw [BitVec.toNat_add, BitVec.toNat_ofNat, Nat.add_mod_mod, Nat.mod_eq_of_lt (by omega)]
  rw [hshift, h.unit_eq]
  refine ⟨hshift ▸ h.shift_ne_zero ⟨hpos, n, hn⟩, by rw [hn, Nat.mul_comm], by omega, ?_⟩
  · have hbase : ¬ address < m.base := by
      rw [h.base_eq]
      exact not_lt.mpr hlo
    have htop : ¬ address + BitVec.ofNat 64 n > m.max := by
      rw [gt_iff_lt, BitVec.lt_def, hsum, hmax]
      omega
    simp [outOfBounds, hbase, htop]

theorem load_refines (address : Addr) (data : Bytes) (h : Configured memorySize base unit m)
    (hin : InMemory memorySize base unit address data.length) (hsize : SizeOk unit data.length) :
    ∃ m', m.load address data = some (m', readAt m.flat (address.toNat * unit) data.length) ∧
      SameShape m m' ∧ m'.flat = m.flat := by
  obtain ⟨hne, hmul, haddr, -⟩ := h.checks hsize hin
  obtain ⟨m', hload, hshape, hflat⟩ := loadStoreHelper_load (data.length >>> m.shift) m address data
    (data.length >>> m.shift) h.allocates (Nat.pos_of_ne_zero hne) (le_refl _) haddr (by rw [hmul])
  refine ⟨m', ?_, hshape, hflat⟩
  unfold load
  dsimp only
  rw [if_neg hne, hload, hmul, h.unit_eq, List.drop_length, List.append_nil]

theorem store_refines (address : Addr) (data : Bytes) (h : Configured memorySize base unit m)
    (hin : InMemory memorySize base unit address data.length) (hsize : SizeOk unit data.length) :
    ∃ m', m.store address data = some (m', data) ∧ SameShape m m' ∧
      m'.flat = writeAt m.flat (address.toNat * unit) data := by
  obtain ⟨hne, hmul, haddr, hbounds⟩ := h.checks hsize hin
  obtain ⟨m', hstore, hshape, hflat⟩ := loadStoreHelper_store (data.length >>> m.shift) m address
    data (data.length >>> m.shift) h.allocates (Nat.pos_of_ne_zero hne) (le_refl _) haddr
    (by rw [hmul])
  refine ⟨m', ?_, hshape, ?_⟩
  · unfold store
    dsimp only
    rw [hbounds, if_neg Bool.false_ne_true, if_neg hne, hstore]
  · rw [hflat, hmul, h.unit_eq, List.take_length]

/-- The data buffer after `k` elements are loaded. -/
def loadedElements (f : Nat → UInt8) (unit : Nat) (addresses : List Addr) (masks : List Bool)
    (elSize k : Nat) (db : Bytes) : Bytes :=
  db.mapIdx fun j b =>
    if j / elSize < k ∧ masks.getD (j / elSize) false then
      f ((addresses.getD (j / elSize) 0).toNat * unit + j % elSize)
    else b

theorem length_loadedElements (f : Nat → UInt8) (unit : Nat) (addresses : List Addr)
    (masks : List Bool) (elSize k : Nat) (db : Bytes) :
    (loadedElements f unit addresses masks elSize k db).length = db.length := by
  rw [loadedElements, List.length_mapIdx]

variable {elSize : Nat} {db : Bytes}

theorem getElem_loadedElements {f : Nat → UInt8} {addresses : List Addr} {masks : List Bool}
    {k j : Nat} (hj : j < (loadedElements f unit addresses masks elSize k db).length)
    (hj' : j < db.length) :
    (loadedElements f unit addresses masks elSize k db)[j] =
      if j / elSize < k ∧ masks.getD (j / elSize) false then
        f ((addresses.getD (j / elSize) 0).toNat * unit + j % elSize)
      else db[j] := by
  simp [loadedElements]

/-- One more element is loaded to its place in the buffer. -/
theorem loadedElements_succ (f : Nat → UInt8) (unit : Nat) (addresses : List Addr)
    (masks : List Bool) {k : Nat} (hpos : 0 < elSize) (hlen : elSize * (k + 1) ≤ db.length) :
    loadedElements f unit addresses masks elSize (k + 1) db =
      if masks.getD k false then
        (loadedElements f unit addresses masks elSize k db).take (elSize * k) ++
          (readAt f ((addresses.getD k 0).toNat * unit) elSize ++
            (loadedElements f unit addresses masks elSize k db).drop (elSize * k + elSize))
      else loadedElements f unit addresses masks elSize k db := by
  rw [Nat.mul_succ] at hlen
  have hdiv : ∀ j, j / elSize < k ↔ j < elSize * k := by
    intro j
    rw [Nat.div_lt_iff_lt_mul hpos, Nat.mul_comm]
  have heq : ∀ j, elSize * k ≤ j → j < elSize * k + elSize →
      j / elSize = k ∧ j % elSize = j - elSize * k := by
    intro j hlo hhi
    have hj : j = elSize * k + (j - elSize * k) := by omega
    have hlt : j - elSize * k < elSize := by omega
    constructor
    · rw [hj, Nat.mul_add_div hpos, Nat.div_eq_of_lt hlt, Nat.add_zero]
    · rw [hj, Nat.mul_add_mod, Nat.mod_eq_of_lt hlt]
      omega
  by_cases hmask : masks.getD k false = true
  · rw [if_pos hmask]
    apply List.ext_getElem
    · simp only [length_loadedElements, List.length_append, List.length_take, List.length_drop,
        length_readAt]
      omega
    · intro j hj hj'
      rw [length_loadedElements] at hj
      rw [getElem_loadedElements _ hj]
      have hsucc : j / elSize < k + 1 ↔ j < elSize * k + elSize := by
        rw [Nat.div_lt_iff_lt_mul hpos, Nat.mul_comm, Nat.mul_succ]
      by_cases hbefore : j < elSize * k
      · rw [List.getElem_append_left (by rw [List.length_take, length_loadedElements]; omega),
          List.getElem_take, getElem_loadedElements _ hj]
        simp only [hsucc, hdiv]
        have h₁ : j < elSize * k + elSize := by omega
        simp [hbefore, h₁]
      · rw [List.getElem_append_right (by rw [List.length_take, length_loadedElements]; omega)]
        simp only [List.length_take, length_loadedElements, Nat.min_eq_left (by omega :
          elSize * k ≤ db.length)]
        by_cases hthis : j < elSize * k + elSize
        · obtain ⟨hk, hmod⟩ := heq j (by omega) hthis
          rw [List.getElem_append_left (by rw [length_readAt]; omega), getElem_readAt, if_pos]
          · rw [hk, hmod]
          · exact ⟨by omega, by rw [hk]; exact hmask⟩
        · rw [List.getElem_append_right (by rw [length_readAt]; omega), List.getElem_drop]
          simp only [length_readAt]
          have hidx : elSize * k + elSize + (j - elSize * k - elSize) = j := by omega
          simp only [hidx]
          rw [getElem_loadedElements _ hj, if_neg, if_neg]
          · rw [hdiv]
            exact fun h => hbefore h.1
          · rw [hsucc]
            exact fun h => hthis h.1
  · rw [if_neg hmask]
    apply List.ext_getElem
    · rw [length_loadedElements, length_loadedElements]
    · intro j hj hj'
      rw [length_loadedElements] at hj
      rw [getElem_loadedElements _ hj, getElem_loadedElements _ hj]
      by_cases hk : j / elSize = k
      · rw [if_neg, if_neg]
        · exact fun h => absurd h.1 (by omega)
        · rw [hk]
          exact fun h => hmask h.2
      · have hlt : j / elSize < k + 1 ↔ j / elSize < k := by omega
        simp only [hlt]

section Vector

variable {addresses : List Addr} {masks : List Bool} {elSize : Nat} {db : Bytes}

theorem element_place (hlen : elSize * masks.length ≤ db.length) (hdb : db.length < 2 ^ 31)
    {i : Nat} (hi : i < masks.length) :
    elSize * i % 2 ^ 32 = elSize * i ∧ elSize * i + elSize ≤ db.length := by
  have hmul : elSize * i + elSize ≤ elSize * masks.length := by
    rw [← Nat.mul_succ]
    exact Nat.mul_le_mul_left elSize hi
  exact ⟨Nat.mod_eq_of_lt (by omega), by omega⟩

theorem vectorLoad_refines (h : Configured memorySize base unit m) (hsize : SizeOk unit elSize)
    (haddresses : masks.length ≤ addresses.length) (hlen : elSize * masks.length ≤ db.length)
    (hdb : db.length < 2 ^ 31)
    (hin : ∀ i < masks.length, masks.getD i false = true →
      InMemory memorySize base unit (addresses.getD i 0) elSize)
    {k : Nat} (hk : k ≤ masks.length) :
    ∃ m', (List.range k).foldlM (fun (state : FlatDemandMemory × Bytes) i =>
        state.1.element addresses masks elSize true state.2 i) (m, db) =
        some (m', loadedElements m.flat unit addresses masks elSize k db) ∧
      SameShape m m' ∧ m'.flat = m.flat := by
  induction k with
  | zero =>
    refine ⟨m, ?_, SameShape.refl m, rfl⟩
    have hnone : loadedElements m.flat unit addresses masks elSize 0 db = db := by
      apply List.ext_getElem
      · rw [length_loadedElements]
      · intro j hj hj'
        rw [getElem_loadedElements _ hj', if_neg (fun h => Nat.not_lt_zero _ h.1)]
    rw [hnone]
    rfl
  | succ k ih =>
    obtain ⟨m₁, hfold, hshape, hflat⟩ := ih (by omega)
    have hmul : elSize * (k + 1) ≤ elSize * masks.length := Nat.mul_le_mul_left elSize hk
    have hsucc := loadedElements_succ m.flat unit addresses masks hsize.1
      (by omega : elSize * (k + 1) ≤ db.length)
    have hlast : ∃ m', m₁.element addresses masks elSize true
        (loadedElements m.flat unit addresses masks elSize k db) k =
          some (m', loadedElements m.flat unit addresses masks elSize (k + 1) db) ∧
        SameShape m₁ m' ∧ m'.flat = m₁.flat := by
      rw [hsucc]
      unfold FlatDemandMemory.element
      by_cases hmask : masks.getD k false = true
      · have hcfg := h.sameShape hshape
        have haddr := elementAddress_of_lt (Nat.lt_of_lt_of_le hk haddresses) elSize
        obtain ⟨hoff, hfit⟩ := element_place hlen hdb hk
        obtain ⟨hne, hbytes, hwrap, hbounds⟩ := hcfg.checks hsize (hin k hk hmask)
        obtain ⟨m₂, hload, hshape', hflat'⟩ := loadStoreHelper_load (elSize >>> m₁.shift) m₁
          (addresses.getD k 0)
          ((loadedElements m.flat unit addresses masks elSize k db).drop (elSize * k))
          (elSize >>> m₁.shift) hcfg.allocates (Nat.pos_of_ne_zero hne) (le_refl _) hwrap
          (by rw [hbytes, List.length_drop, length_loadedElements]; omega)
        rw [hbytes, hcfg.unit_eq, hflat, List.drop_drop] at hload
        refine ⟨m₂, ?_, hshape', hflat'⟩
        rw [if_pos hmask, if_pos hmask]
        dsimp only
        rw [haddr, hbounds, if_neg Bool.false_ne_true, hoff, hload]
        rfl
      · rw [if_neg hmask, if_neg hmask]
        exact ⟨m₁, rfl, SameShape.refl m₁, rfl⟩
    obtain ⟨m₂, helement, hshape', hflat'⟩ := hlast
    refine ⟨m₂, ?_, hshape.trans hshape', hflat'.trans hflat⟩
    rw [List.range_succ, List.foldlM_append, hfold]
    show (m₁.element addresses masks elSize true _ k).bind some = _
    rw [helement]
    rfl

theorem vectorStore_refines (h : Configured memorySize base unit m) (hsize : SizeOk unit elSize)
    (hlen : elSize * masks.length ≤ db.length) (hdb : db.length < 2 ^ 31)
    (hin : ∀ i < masks.length, masks.getD i false = true →
      InMemory memorySize base unit (elementAddress addresses elSize i) elSize)
    {k : Nat} (hk : k ≤ masks.length) :
    ∃ m', (List.range k).foldlM (fun (state : FlatDemandMemory × Bytes) i =>
        state.1.element addresses masks elSize false state.2 i) (m, db) = some (m', db) ∧
      SameShape m m' ∧
      m'.flat = (List.range k).foldl (fun f i =>
        if masks.getD i false then
          writeAt f ((elementAddress addresses elSize i).toNat * unit) ((db.drop (elSize * i)).take elSize)
        else f) m.flat := by
  induction k with
  | zero => exact ⟨m, rfl, SameShape.refl m, rfl⟩
  | succ k ih =>
    obtain ⟨m₁, hfold, hshape, hflat⟩ := ih (by omega)
    have hlast : ∃ m', m₁.element addresses masks elSize false db k = some (m', db) ∧
        SameShape m₁ m' ∧ m'.flat = if masks.getD k false then
          writeAt m₁.flat ((elementAddress addresses elSize k).toNat * unit) ((db.drop (elSize * k)).take elSize)
        else m₁.flat := by
      unfold FlatDemandMemory.element
      by_cases hmask : masks.getD k false = true
      · have hcfg := h.sameShape hshape
        obtain ⟨hoff, hfit⟩ := element_place hlen hdb hk
        obtain ⟨hne, hbytes, hwrap, hbounds⟩ := hcfg.checks hsize (hin k hk hmask)
        obtain ⟨m₂, hstore, hshape', hflat'⟩ := loadStoreHelper_store (elSize >>> m₁.shift) m₁
          (elementAddress addresses elSize k) (db.drop (elSize * k)) (elSize >>> m₁.shift) hcfg.allocates
          (Nat.pos_of_ne_zero hne) (le_refl _) hwrap (by rw [hbytes, List.length_drop]; omega)
        rw [hbytes, hcfg.unit_eq] at hflat'
        refine ⟨m₂, ?_, hshape', ?_⟩
        · rw [if_pos hmask]
          dsimp only
          rw [hbounds, if_neg Bool.false_ne_true, hoff, hstore]
          simp only [Option.bind_eq_bind, Option.bind_some, List.take_append_drop]
          rfl
        · rw [if_pos hmask, hflat']
      · rw [if_neg hmask, if_neg hmask]
        exact ⟨m₁, rfl, SameShape.refl m₁, rfl⟩
    obtain ⟨m₂, helement, hshape', hflat'⟩ := hlast
    refine ⟨m₂, ?_, hshape.trans hshape', ?_⟩
    · rw [List.range_succ, List.foldlM_append, hfold]
      show (m₁.element addresses masks elSize false db k).bind some = _
      rw [helement]
      rfl
    · rw [List.range_succ, List.foldl_append, hflat', hflat]
      rfl

end Vector

theorem storeVector_refines {addresses : List Addr} {masks : List Bool}
    (h : Configured memorySize base unit m) (hsize : SizeOk unit elSize)
    (hlen : elSize * masks.length ≤ db.length) (hdb : db.length < 2 ^ 31)
    (hin : ∀ i < masks.length, masks.getD i false = true →
      InMemory memorySize base unit (elementAddress addresses elSize i) elSize) :
    ∃ m', m.vector addresses masks elSize db false = some (m', db) ∧ SameShape m m' ∧
      m'.flat = (List.range masks.length).foldl (fun f i =>
        if masks.getD i false then
          writeAt f ((elementAddress addresses elSize i).toNat * unit)
            ((db.drop (elSize * i)).take elSize)
        else f) m.flat := by
  obtain ⟨m', hfold, hshape, hflat⟩ := vectorStore_refines h hsize hlen hdb hin (le_refl _)
  refine ⟨m', ?_, hshape, hflat⟩
  unfold vector
  rw [if_neg (h.shift_ne_zero hsize), hfold]

theorem loadedElements_length (f : Nat → UInt8) (unit : Nat) (addresses : List Addr)
    (masks : List Bool) (elSize : Nat) (db : Bytes) :
    loadedElements f unit addresses masks elSize masks.length db =
      db.mapIdx fun j b =>
        if masks.getD (j / elSize) false then
          f ((addresses.getD (j / elSize) 0).toNat * unit + j % elSize)
        else b := by
  unfold loadedElements
  congr 1
  funext j b
  have hmask : masks.getD (j / elSize) false = true → j / elSize < masks.length := by
    intro h
    by_contra hge
    rw [List.getD_eq_default _ _ (not_lt.mp hge)] at h
    exact Bool.false_ne_true h
  by_cases h : masks.getD (j / elSize) false = true
  · rw [if_pos ⟨hmask h, h⟩, if_pos h]
  · rw [if_neg (fun hand => h hand.2), if_neg h]

/-- **Step lemma.** An access that is in the memory, of a size that it supports, does to the
    memory what it does to an array of bytes. -/
theorem call_refines (h : Configured memorySize base unit m) {c : MemoryCall}
    (hin : CallInMemory memorySize base unit c) (hsize : SizeOk unit c.size) :
    ∃ m', m.call c = some (m', (flatCall unit m.flat c).2) ∧ SameShape m m' ∧
      m'.flat = (flatCall unit m.flat c).1 := by
  cases c with
  | load address db => exact load_refines address db h hin hsize
  | store address db => exact store_refines address db h hin hsize
  | loadVector addresses masks elSize db =>
    obtain ⟨haddresses, hlen, hdb, hin⟩ := hin
    have hsize : SizeOk unit elSize := hsize
    obtain ⟨m', hfold, hshape, hflat⟩ :=
      vectorLoad_refines h hsize haddresses hlen hdb hin (le_refl _)
    refine ⟨m', ?_, hshape, hflat⟩
    have hne : elSize >>> m.shift ≠ 0 := h.shift_ne_zero hsize
    show m.vector addresses masks elSize db true = _
    unfold vector
    rw [if_neg hne, hfold, loadedElements_length]
    rfl
  | storeVector addresses masks elSize db =>
    obtain ⟨haddresses, hlen, hdb, hin⟩ := hin
    have hsize : SizeOk unit elSize := hsize
    have haddr : ∀ i < masks.length,
        elementAddress addresses elSize i = addresses.getD i 0 :=
      fun i hi => elementAddress_of_lt (Nat.lt_of_lt_of_le hi haddresses) elSize
    obtain ⟨m', hstore, hshape, hflat⟩ := storeVector_refines h hsize hlen hdb
      (fun i hi hmask => (haddr i hi).symm ▸ hin i hi hmask)
    refine ⟨m', hstore, hshape, hflat.trans ?_⟩
    apply List.foldl_ext
    intro f i hi
    rw [haddr i (List.mem_range.mp hi)]

/-- **Run lemma.** -/
theorem run_eq_flatRun (h : Configured memorySize base unit m) {calls : List MemoryCall}
    (hin : ∀ c ∈ calls, CallInMemory memorySize base unit c)
    (hsize : ∀ c ∈ calls, SizeOk unit c.size) :
    ∃ m', m.run calls = some (m', (flatRun unit m.flat calls).2) ∧
      m'.flat = (flatRun unit m.flat calls).1 := by
  induction calls generalizing m with
  | nil => exact ⟨m, rfl, rfl⟩
  | cons c rest ih =>
    obtain ⟨m₁, hcall, hshape, hflat⟩ := call_refines h (hin c (List.mem_cons_self ..))
      (hsize c (List.mem_cons_self ..))
    obtain ⟨m₂, hrun, hflat'⟩ := ih (h.sameShape hshape)
      (fun c hc => hin c (List.mem_cons_of_mem _ hc))
      (fun c hc => hsize c (List.mem_cons_of_mem _ hc))
    rw [hflat] at hrun hflat'
    refine ⟨m₂, ?_, hflat'⟩
    unfold run
    rw [hcall, Option.bind_eq_bind, Option.bind_some]
    dsimp only
    rw [hrun]
    rfl

theorem configured_init {fill : UInt8} (hinit : init memorySize base unit fill = some m)
    (hunit : unit ≤ 2 ^ 16) (hmax : base.toNat + memorySize.toNat < 2 ^ 64) :
    Configured memorySize base unit m ∧ m.flat = fun _ => fill := by
  unfold init at hinit
  split at hinit
  · rename_i hpow
    cases hinit
    have hlog : 2 ^ Nat.log2 unit = unit := by
      obtain ⟨k, rfl⟩ := Nat.ne_zero_and_sub_one_eq_zero_iff_isPowerOfTwo.mp hpow
      rw [Nat.log2_two_pow]
    refine ⟨⟨hlog, ?_, rfl, ?_⟩, rfl⟩
    · show (BitVec.ofNat 32 (allocationSize * unit)).toInt =
        ((allocationSize * 2 ^ Nat.log2 unit : Nat) : Int)
      have hle : allocationSize * unit ≤ 2 ^ 30 := by
        unfold allocationSize
        omega
      have hnat : (BitVec.ofNat 32 (allocationSize * unit)).toNat = allocationSize * unit := by
        rw [BitVec.toNat_ofNat, Nat.mod_eq_of_lt (by omega)]
      rw [hlog, BitVec.toInt_eq_toNat_of_lt (by omega), hnat]
    · show (base + memorySize).toNat = _
      rw [BitVec.toNat_add, Nat.mod_eq_of_lt hmax]
  · cases hinit

end Access

end FlatDemandMemory

/-- **Flat memory.** A memory with a unit of at most 2^16 bytes, whose addresses end below 2^64,
    does what an array of bytes does that has the fill value everywhere: for every sequence of
    accesses that are in the memory, of positive multiples of the unit, it succeeds, gives
    the same data buffers and stands for the same array. -/
theorem run_refines {memorySize base : Addr} {unit : Nat} {fill : UInt8} {m : FlatDemandMemory}
    (hinit : FlatDemandMemory.init memorySize base unit fill = some m) (hunit : unit ≤ 2 ^ 16)
    (hmax : base.toNat + memorySize.toNat < 2 ^ 64) (calls : List MemoryCall)
    (hin : ∀ c ∈ calls, CallInMemory memorySize base unit c)
    (hsize : ∀ c ∈ calls, SizeOk unit c.size) :
    ∃ m', m.run calls = some (m', (flatRun unit (fun _ => fill) calls).2) ∧
      m'.flat = (flatRun unit (fun _ => fill) calls).1 := by
  obtain ⟨hcfg, hflat⟩ := FlatDemandMemory.configured_init hinit hunit hmax
  rw [← hflat]
  exact FlatDemandMemory.run_eq_flatRun hcfg hin hsize

/-- Two units are stored over the end of a block and loaded again. -/
theorem run_refines_two_blocks :
    ∃ m m', FlatDemandMemory.init 0x10000 0x1000 2 0xff = some m ∧
      m.run [.store 0x3fff [1, 2, 3, 4], .load 0x4000 [0, 0, 0, 0]] =
        some (m', [[1, 2, 3, 4], [3, 4, 0xff, 0xff]]) := by
  obtain ⟨m, hinit⟩ : ∃ m, FlatDemandMemory.init 0x10000 0x1000 2 0xff = some m := ⟨_, rfl⟩
  obtain ⟨m', hrun, -⟩ := run_refines hinit (by decide) (by decide)
    [.store 0x3fff [1, 2, 3, 4], .load 0x4000 [0, 0, 0, 0]]
    (by
      rintro c hc
      simp only [List.mem_cons, List.not_mem_nil, or_false] at hc
      rcases hc with rfl | rfl
      · exact ⟨(by decide : (0x1000 : Addr) ≤ 0x3fff), by decide⟩
      · exact ⟨(by decide : (0x1000 : Addr) ≤ 0x4000), by decide⟩)
    (by
      rintro c hc
      simp only [List.mem_cons, List.not_mem_nil, or_false] at hc
      rcases hc with rfl | rfl
      · exact ⟨by decide, 2, rfl⟩
      · exact ⟨by decide, 2, rfl⟩)
  exact ⟨m, m', hinit, hrun⟩

/-- A byte is not stored in a memory with units of two bytes. -/
theorem store_below_unit :
    ((FlatDemandMemory.init 0x10000 0x1000 2 0).bind fun m =>
        (m.run [.store 0x1000 [5]]).map Prod.snd) = none ∧
      CallInMemory 0x10000 0x1000 2 (.store 0x1000 [5]) :=
  ⟨by decide, (by decide : (0x1000 : Addr) ≤ 0x1000), by decide⟩

end MpactSim.Memory
