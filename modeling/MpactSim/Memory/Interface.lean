import Mathlib.Data.BitVec
import Mathlib.Data.List.GetD
import MpactSim.Lib.Intervals

namespace MpactSim.Memory

/-!
# The memory interface

A memory holds a byte at each 64-bit address.  Scalar and vector accesses are the ones
of `MemoryInterface`; a data buffer is the list of its bytes, in the byte order of the
host (little endian).

A store is first turned into the list of single byte writes it makes (`byteWrites`,
`vectorWrites`), which is then carried out in order by `Mem.apply`.
-/

/-- A 64-bit address; address arithmetic wraps. -/
abbrev Addr := BitVec 64

/-- Addresses are ordered as unsigned numbers. -/
instance : LinearOrder Addr where
  le_refl a := BitVec.le_refl a
  le_trans a b c := BitVec.le_trans
  lt_iff_le_not_ge a b := by
    rw [BitVec.lt_def, BitVec.le_def, BitVec.le_def]
    omega
  le_antisymm a b := BitVec.le_antisymm
  le_total a b := BitVec.le_total a b
  toDecidableLE := inferInstance
  toDecidableEq := inferInstance
  toDecidableLT := inferInstance

/-- The bytes of a data buffer. -/
abbrev Bytes := List UInt8

/-- The contents of memory. -/
abbrev Mem := Addr → UInt8

/-! ### Accesses -/

/-- The writes of a scalar store. -/
def byteWrites (address : Addr) (db : Bytes) : List (Addr × UInt8) :=
  db.mapIdx fun i b => (address + BitVec.ofNat 64 i, b)

/-- The address of element `i`: its own entry for an indexed access, and `i` elements
    from the only entry for a unit-stride access.  The offset is computed in 32 bits. -/
def elementAddress (addresses : List Addr) (elSize i : Nat) : Addr :=
  if addresses.length > 1 then addresses.getD i 0
  else addresses.getD 0 0 + BitVec.ofNat 64 (i * elSize % 2 ^ 32)

theorem elementAddress_of_lt {addresses : List Addr} {i : Nat} (hi : i < addresses.length)
    (elSize : Nat) : elementAddress addresses elSize i = addresses.getD i 0 := by
  unfold elementAddress
  split
  · rfl
  · obtain rfl : i = 0 := by omega
    rw [Nat.zero_mul, Nat.zero_mod]
    exact BitVec.add_zero _

theorem lt_length_of_unmasked {masks : List Bool} {i : Nat} (hmask : masks.getD i false = true) :
    i < masks.length := by
  by_contra h
  rw [List.getD_eq_default _ _ (not_lt.mp h)] at hmask
  cases hmask

/-- The writes of a vector store: element by element, leaving out the masked ones. -/
def vectorWrites (addresses : List Addr) (mask : List Bool) (elSize : Nat) (db : Bytes) :
    List (Addr × UInt8) :=
  (List.range mask.length).flatMap fun i =>
    if mask.getD i false then
      byteWrites (elementAddress addresses elSize i) ((db.drop (elSize * i)).take elSize)
    else []

/-! ### Address ranges -/

/-- `AddressRange`, a key of the maps from addresses to watchpoints or targets. -/
abbrev AddressRange := Lib.Range Addr

/-- The first and the last byte of an access: `{address, address + size - 1}`. -/
def accessRange (address : Addr) (size : Nat) : AddressRange :=
  ⟨address, address + BitVec.ofNat 64 size - 1⟩

/-- `absl::Hex`. -/
def hexText (a : Addr) : String := String.ofList (Nat.toDigits 16 a.toNat)

theorem accessRange_hi (address : Addr) {size : Nat} (hpos : 1 ≤ size) :
    (accessRange address size).hi.toNat = (address.toNat + (size - 1)) % 2 ^ 64 := by
  have hsum : address + BitVec.ofNat 64 size - 1 = address + BitVec.ofNat 64 (size - 1) := by
    obtain ⟨n, rfl⟩ : ∃ n, size = n + 1 := ⟨size - 1, by omega⟩
    rw [Nat.add_sub_cancel, BitVec.ofNat_add, ← BitVec.add_assoc]
    exact BitVec.add_sub_cancel _ _
  show (address + BitVec.ofNat 64 size - 1).toNat = _
  rw [hsum, BitVec.toNat_add, BitVec.toNat_ofNat, Nat.add_mod_mod]

namespace Mem

/-- Carry out writes in order. -/
def apply (mem : Mem) (writes : List (Addr × UInt8)) : Mem :=
  writes.foldl (fun m w => Function.update m w.1 w.2) mem

/-- Load `size` bytes. -/
def load (mem : Mem) (address : Addr) (size : Nat) : Bytes :=
  (List.range size).map fun i => mem (address + BitVec.ofNat 64 i)

/-- Load the unmasked elements into a data buffer. -/
def loadVector (mem : Mem) (addresses : List Addr) (mask : List Bool) (elSize : Nat)
    (db : Bytes) : Bytes :=
  db.mapIdx fun j b =>
    if mask.getD (j / elSize) false then
      mem (elementAddress addresses elSize (j / elSize) + BitVec.ofNat 64 (j % elSize))
    else b

theorem apply_of_notMem {mem : Mem} {writes : List (Addr × UInt8)} {a : Addr}
    (h : a ∉ writes.map Prod.fst) : mem.apply writes a = mem a := by
  induction writes generalizing mem with
  | nil => rfl
  | cons w rest ih =>
    rw [List.map_cons, List.mem_cons, not_or] at h
    show apply (Function.update mem w.1 w.2) rest a = mem a
    rw [ih h.2, Function.update_of_ne h.1]

theorem apply_of_mem {mem : Mem} {writes : List (Addr × UInt8)}
    (hnodup : (writes.map Prod.fst).Nodup) {w : Addr × UInt8} (hw : w ∈ writes) :
    mem.apply writes w.1 = w.2 := by
  induction writes generalizing mem with
  | nil => cases hw
  | cons v rest ih =>
    obtain ⟨hv, hnodup⟩ := List.nodup_cons.mp hnodup
    show apply (Function.update mem v.1 v.2) rest w.1 = w.2
    rcases List.mem_cons.mp hw with rfl | hw
    · rw [apply_of_notMem hv, Function.update_self]
    · exact ih hnodup hw

end Mem

end MpactSim.Memory
