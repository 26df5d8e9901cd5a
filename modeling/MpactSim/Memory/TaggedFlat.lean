import MpactSim.Memory.FlatDemand

namespace MpactSim.Memory

open Lib

/-!
# Memory with tags

A `TaggedFlatDemandMemory` has one memory for data and one for tags, with a tag for each granule
of data.  A store of data alone clears the tags of the granules it writes to; a tagged store
writes the tags too.

`tag_integrity` says that the tags are right after every store of a run, as long as units are
bytes and a vector store has the form that the clearing of tags is made for: an address for
each entry of the mask, and a data buffer with no more than the elements.
-/

/-! ### The source -/

/-- `TaggedFlatDemandMemory`. -/
structure TaggedFlatDemandMemory where
  granule : Nat
  shift : Nat
  dataMemory : FlatDemandMemory
  tagMemory : FlatDemandMemory

/-- A store; tags come with the data in a tagged one. -/
inductive TaggedCall where
  | store (address : Addr) (db : Bytes)
  | storeVector (addresses : List Addr) (masks : List Bool) (elSize : Nat) (db : Bytes)
  | storeTagged (address : Addr) (db tags : Bytes)

/-- `CheckRequest`: the address and the size are aligned to granules, and there is a tag for
    each of them. -/
def checkRequest (granule shift : Nat) (address : Addr) (db : Option Bytes) (tags : Bytes) :
    Bool :=
  let mask := (1 <<< shift) - 1
  if address.toNat &&& mask ≠ 0 then false
  else
    match db with
    | none => true
    | some db =>
      if db.length &&& mask ≠ 0 then false
      else db.length / granule = tags.length

namespace TaggedFlatDemandMemory

/-- The constructor; nothing is made unless the granule is a power of two. -/
def init (memorySize base : Addr) (unit : Nat) (fill : UInt8) (granule : Nat) :
    Option TaggedFlatDemandMemory := do
  if granule ≠ 0 ∧ granule &&& (granule - 1) = 0 then
    let dataMemory ← FlatDemandMemory.init memorySize base unit fill
    let shift := Nat.log2 granule
    let tagMemory ← FlatDemandMemory.init (memorySize >>> shift) (base >>> shift) 1 0
    pure ⟨granule, shift, dataMemory, tagMemory⟩
  else none

/-- `ClearTags`; the number of tags is an `int`. -/
def clearTags (m : TaggedFlatDemandMemory) (address : Addr) (size : Nat) :
    Option TaggedFlatDemandMemory := do
  let lo := address >>> m.shift
  let hi := (address + BitVec.ofNat 64 size - 1) >>> m.shift
  let numTags := ((hi - lo + 1).setWidth 32).toInt
  let (tagMemory, _) ← m.tagMemory.store lo (List.replicate numTags.toNat 0)
  pure { m with tagMemory := tagMemory }

/-- `Store` without tags. -/
def store (m : TaggedFlatDemandMemory) (address : Addr) (db : Bytes) :
    Option TaggedFlatDemandMemory := do
  let (dataMemory, _) ← m.dataMemory.store address db
  clearTags { m with dataMemory := dataMemory } address db.length

/-- A step of the loop over the addresses in the vector `Store`; reading the mask beyond its
    span has no result. -/
def clearElement (addresses : List Addr) (masks : List Bool) (storeSize : Nat)
    (m : TaggedFlatDemandMemory) (i : Nat) : Option TaggedFlatDemandMemory :=
  match masks[i]? with
  | some true => m.clearTags (addresses.getD i 0) storeSize
  | some false => some m
  | none => none

/-- Vector `Store` without tags. -/
def storeVector (m : TaggedFlatDemandMemory) (addresses : List Addr) (masks : List Bool)
    (elSize : Nat) (db : Bytes) : Option TaggedFlatDemandMemory :=
  if addresses.length = 0 then some m
  else do
    let storeSize := db.length / addresses.length
    let (dataMemory, _) ← m.dataMemory.vector addresses masks elSize db false
    (List.range addresses.length).foldlM (clearElement addresses masks storeSize)
      { m with dataMemory := dataMemory }

/-- `Store` with tags; a request that does not pass `CheckRequest` is dropped. -/
def storeTagged (m : TaggedFlatDemandMemory) (address : Addr) (db tags : Bytes) :
    Option TaggedFlatDemandMemory :=
  if checkRequest m.granule m.shift address (some db) tags then do
    let (dataMemory, _) ← m.dataMemory.store address db
    let (tagMemory, _) ← m.tagMemory.store (address >>> m.shift) tags
    pure { m with dataMemory := dataMemory, tagMemory := tagMemory }
  else some m

/-- `Load` with tags, and without data if there is no buffer for it: the buffers after it. -/
def loadTagged (m : TaggedFlatDemandMemory) (address : Addr) (db : Option Bytes) (tags : Bytes) :
    Option (Option Bytes × Bytes) :=
  if checkRequest m.granule m.shift address db tags then do
    let db ← match db with
      | some db => do
        let (_, db) ← m.dataMemory.load address db
        pure (some db)
      | none => pure none
    let (_, tags) ← m.tagMemory.load (address >>> m.shift) tags
    pure (db, tags)
  else some (db, tags)

/-- A store, or `none` if it is refused. -/
def call (m : TaggedFlatDemandMemory) : TaggedCall → Option TaggedFlatDemandMemory
  | .store address db => m.store address db
  | .storeVector addresses masks elSize db => m.storeVector addresses masks elSize db
  | .storeTagged address db tags => m.storeTagged address db tags

/-- The memory after a list of stores. -/
def run (m : TaggedFlatDemandMemory) (calls : List TaggedCall) : Option TaggedFlatDemandMemory :=
  calls.foldlM call m

/-- The tag of a granule, by its number. -/
def tag (m : TaggedFlatDemandMemory) (g : Nat) : UInt8 := m.tagMemory.flat g

end TaggedFlatDemandMemory

/-! ### The specification -/

/-- The bytes that a data-only store writes. -/
def TaggedCall.writes : TaggedCall → List (Addr × UInt8)
  | .store address db => byteWrites address db
  | .storeVector addresses masks elSize db => vectorWrites addresses masks elSize db
  | .storeTagged _ _ _ => []

/-- Some written byte is in the granule. -/
def WritesGranule (granule : Nat) (writes : List (Addr × UInt8)) (g : Nat) : Prop :=
  ∃ w ∈ writes, w.1.toNat / granule = g

/-- What a store should do to the tags: one of data alone clears those of the granules it writes
    to and leaves the others; after a tagged one, the tags that are loaded are those stored. -/
def TagsRight (c : TaggedCall) (m m' : TaggedFlatDemandMemory) : Prop :=
  match c with
  | .storeTagged address db tags =>
    checkRequest m.granule m.shift address (some db) tags = true →
      ∀ tags' : Bytes, tags'.length = tags.length →
        m'.loadTagged address none tags' = some (none, tags) ∧
        ∀ db' : Bytes, db'.length = db.length →
          ∃ loaded, m'.loadTagged address (some db') tags' = some (some loaded, tags)
  | c => ∀ g, (WritesGranule m.granule c.writes g → m'.tag g = 0) ∧
      (¬ WritesGranule m.granule c.writes g → m'.tag g = m.tag g)

/-- The bytes of an access are in the data memory, and the tags of their granules in the tag
    memory. -/
def InTagged (memorySize base : Addr) (granule : Nat) (address : Addr) (size : Nat) : Prop :=
  InMemory memorySize base 1 address size ∧
    (address.toNat + size - 1) / granule < base.toNat / granule + memorySize.toNat / granule

/-- The vector stores for which the right tags are cleared: indexed ones with a data buffer for
    just the elements, and those with unit stride of which all elements or none are stored. -/
def FormOk (addresses : List Addr) (masks : List Bool) (elSize : Nat) (db : Bytes) : Prop :=
  (addresses.length = masks.length ∧ db.length / addresses.length = elSize) ∨
    (addresses.length = 1 ∧ masks ≠ [] ∧
      (((∀ b ∈ masks, b = true) ∧ db.length = elSize * masks.length) ∨
        ((∀ b ∈ masks, b = false) ∧ elSize * masks.length ≤ db.length)))

/-- A store of at least one byte, for which the tags are kept right. -/
def TaggedCallOk (memorySize base : Addr) (granule : Nat) : TaggedCall → Prop
  | .store address db =>
    0 < db.length ∧ db.length < 2 ^ 31 ∧ InTagged memorySize base granule address db.length
  | .storeVector addresses masks elSize db =>
    0 < elSize ∧ db.length < 2 ^ 31 ∧ FormOk addresses masks elSize db ∧
      ∀ i < masks.length, masks.getD i false = true →
        InTagged memorySize base granule (elementAddress addresses elSize i) elSize
  | .storeTagged address db tags =>
    checkRequest granule (Nat.log2 granule) address (some db) tags = true →
      0 < db.length ∧ db.length < 2 ^ 31 ∧ InTagged memorySize base granule address db.length

/-! ### Clearing tags -/

namespace TaggedFlatDemandMemory

/-- A memory with byte units, with its tags. -/
structure Ready (memorySize base : Addr) (granule : Nat) (m : TaggedFlatDemandMemory) : Prop where
  granule_eq : m.granule = granule
  shift_eq : m.shift = Nat.log2 granule
  pow_eq : 2 ^ m.shift = granule
  data : m.dataMemory.Configured memorySize base 1
  tags : m.tagMemory.Configured (memorySize >>> m.shift) (base >>> m.shift) 1

variable {memorySize base : Addr} {granule : Nat} {m : TaggedFlatDemandMemory} {address : Addr}
  {size : Nat}

theorem Ready.granule_pos (h : Ready memorySize base granule m) : 0 < granule :=
  h.pow_eq ▸ Nat.two_pow_pos _

theorem Ready.toNat_shift (h : Ready memorySize base granule m) (a : Addr) :
    (a >>> m.shift).toNat = a.toNat / granule := by
  rw [BitVec.toNat_ushiftRight, Nat.shiftRight_eq_div_pow, h.pow_eq]

theorem Ready.setData (h : Ready memorySize base granule m) {dataMemory : FlatDemandMemory}
    (hshape : m.dataMemory.SameShape dataMemory) :
    Ready memorySize base granule { m with dataMemory := dataMemory } :=
  ⟨h.granule_eq, h.shift_eq, h.pow_eq, h.data.sameShape hshape, h.tags⟩

theorem Ready.setTags (h : Ready memorySize base granule m) {tagMemory : FlatDemandMemory}
    (hshape : m.tagMemory.SameShape tagMemory) :
    Ready memorySize base granule { m with tagMemory := tagMemory } :=
  ⟨h.granule_eq, h.shift_eq, h.pow_eq, h.data, h.tags.sameShape hshape⟩

theorem inTagged_no_wrap (h : Ready memorySize base granule m)
    (hin : InTagged memorySize base granule address size) : address.toNat + size < 2 ^ 64 := by
  have hle := hin.1.2
  have hmax := h.data.max_eq
  have hlt := m.dataMemory.max.isLt
  omega

theorem exists_div_eq_iff (hgranule : 0 < granule) {a n g : Nat} (hpos : 0 < n) :
    (∃ j < n, (a + j) / granule = g) ↔ a / granule ≤ g ∧ g ≤ (a + n - 1) / granule := by
  constructor
  · rintro ⟨j, hj, rfl⟩
    exact ⟨Nat.div_le_div_right (by omega), Nat.div_le_div_right (by omega)⟩
  · rintro ⟨hlo, hhi⟩
    -- The first byte of the access that is not below the granule.
    rw [Nat.le_div_iff_mul_le hgranule] at hhi
    by_cases hfirst : a / granule = g
    · exact ⟨0, hpos, hfirst⟩
    · have hlt : a < g * granule := by
        rw [← Nat.div_lt_iff_lt_mul hgranule]
        omega
      refine ⟨g * granule - a, by omega, ?_⟩
      have hsum : a + (g * granule - a) = g * granule := by omega
      rw [hsum, Nat.mul_div_cancel _ hgranule]

theorem numTags_eq (lo hi : Addr) (hle : lo.toNat ≤ hi.toNat)
    (hlt : hi.toNat - lo.toNat + 1 < 2 ^ 31) :
    ((hi - lo + 1).setWidth 32).toInt.toNat = hi.toNat - lo.toNat + 1 := by
  have hsub : (hi - lo).toNat = hi.toNat - lo.toNat := BitVec.toNat_sub_of_le hle
  have hsum : (hi - lo + 1).toNat = hi.toNat - lo.toNat + 1 := by
    rw [BitVec.toNat_add, hsub]
    exact Nat.mod_eq_of_lt (by simp; omega)
  have hwidth : ((hi - lo + 1).setWidth 32).toNat = hi.toNat - lo.toNat + 1 := by
    rw [BitVec.toNat_setWidth, hsum]
    exact Nat.mod_eq_of_lt (by omega)
  rw [BitVec.toInt_eq_toNat_of_lt (by omega), hwidth]
  exact Int.toNat_natCast _

/-- **Clearing.** The tags of the granules of an access are cleared, and no others. -/
theorem clearTags_spec (h : Ready memorySize base granule m) (hpos : 0 < size)
    (hsize : size < 2 ^ 31) (hin : InTagged memorySize base granule address size) :
    ∃ m', m.clearTags address size = some m' ∧ Ready memorySize base granule m' ∧
      ∀ g, m'.tag g = if address.toNat / granule ≤ g ∧ g ≤ (address.toNat + size - 1) / granule
        then 0 else m.tag g := by
  have hwrap := inTagged_no_wrap h hin
  have hlast : (address + BitVec.ofNat 64 size - 1).toNat = address.toNat + size - 1 := by
    have hhi := accessRange_hi address hpos
    rw [Nat.mod_eq_of_lt (by omega)] at hhi
    rw [Nat.add_sub_assoc hpos]
    exact hhi
  have hlo := h.toNat_shift address
  have hhi := h.toNat_shift (address + BitVec.ofNat 64 size - 1)
  rw [hlast] at hhi
  have hle : address.toNat / granule ≤ (address.toNat + size - 1) / granule :=
    Nat.div_le_div_right (by omega)
  have hcount : (address.toNat + size - 1) / granule ≤ address.toNat / granule + (size - 1) := by
    rw [Nat.add_sub_assoc hpos]
    calc (address.toNat + (size - 1)) / granule
        ≤ (address.toNat + (size - 1) * granule) / granule :=
          Nat.div_le_div_right (Nat.add_le_add_left
            (Nat.le_mul_of_pos_right _ h.granule_pos) _)
      _ = address.toNat / granule + (size - 1) := Nat.add_mul_div_right _ _ h.granule_pos
  have hnum := numTags_eq (address >>> m.shift)
    ((address + BitVec.ofNat 64 size - 1) >>> m.shift) (by rw [hlo, hhi]; exact hle)
    (by rw [hlo, hhi]; omega)
  rw [hlo, hhi] at hnum
  obtain ⟨n, hn⟩ : ∃ n, n = (address.toNat + size - 1) / granule - address.toNat / granule + 1 :=
    ⟨_, rfl⟩
  rw [← hn] at hnum
  have hlen : (List.replicate n (0 : UInt8)).length = n := List.length_replicate
  obtain ⟨tagMemory, hstore, hshape, hflat⟩ := FlatDemandMemory.store_refines
    (address >>> m.shift) (List.replicate n 0) h.tags
    (by
      rw [hlen, InMemory, BitVec.le_def, h.toNat_shift, h.toNat_shift, h.toNat_shift]
      refine ⟨Nat.div_le_div_right hin.1.1, ?_⟩
      have htop := hin.2
      omega)
    (by rw [hlen]; exact ⟨by omega, one_dvd _⟩)
  refine ⟨{ m with tagMemory := tagMemory }, ?_, h.setTags hshape, ?_⟩
  · unfold clearTags
    dsimp only
    rw [hnum, hstore]
    rfl
  · intro g
    show tagMemory.flat g = _
    rw [hflat, hlo, Nat.mul_one]
    by_cases hg : address.toNat / granule ≤ g ∧ g ≤ (address.toNat + size - 1) / granule
    · rw [if_pos hg, writeAt_of_mem hg.1 (by rw [hlen]; omega), List.getElem_replicate]
    · rw [if_neg hg, writeAt_of_notMem (by rw [hlen]; omega)]
      rfl

/-! ### Stores -/

variable {db tags : Bytes}

theorem writesGranule_byteWrites (hgranule : 0 < granule) (hpos : 0 < db.length)
    (hwrap : address.toNat + db.length ≤ 2 ^ 64) {g : Nat} :
    WritesGranule granule (byteWrites address db) g ↔
      address.toNat / granule ≤ g ∧ g ≤ (address.toNat + db.length - 1) / granule := by
  rw [← exists_div_eq_iff hgranule hpos]
  have hbyte : ∀ j < db.length, (address + BitVec.ofNat 64 j).toNat = address.toNat + j := by
    intro j hj
    rw [BitVec.toNat_add, BitVec.toNat_ofNat, Nat.add_mod_mod, Nat.mod_eq_of_lt (by omega)]
  constructor
  · rintro ⟨w, hw, hg⟩
    obtain ⟨j, hj, rfl⟩ := List.mem_mapIdx.mp hw
    exact ⟨j, hj, by rw [← hbyte j hj]; exact hg⟩
  · rintro ⟨j, hj, hg⟩
    exact ⟨_, List.mem_mapIdx.mpr ⟨j, hj, rfl⟩, by rw [← hg, ← hbyte j hj]⟩

theorem store_tags (h : Ready memorySize base granule m)
    (hok : TaggedCallOk memorySize base granule (.store address db)) :
    ∃ m', m.store address db = some m' ∧ Ready memorySize base granule m' ∧
      TagsRight (.store address db) m m' := by
  obtain ⟨hpos, hsize, hin⟩ := hok
  obtain ⟨dataMemory, hstore, hshape, -⟩ :=
    FlatDemandMemory.store_refines address db h.data hin.1 ⟨hpos, one_dvd _⟩
  obtain ⟨m', hclear, hready, htag⟩ := clearTags_spec (h.setData hshape) hpos hsize hin
  refine ⟨m', ?_, hready, fun g => ?_⟩
  · unfold store
    rw [hstore]
    exact hclear
  · have hwrap := inTagged_no_wrap h hin
    show (WritesGranule m.granule (byteWrites address db) g → _) ∧
      (¬ WritesGranule m.granule (byteWrites address db) g → _)
    rw [h.granule_eq, writesGranule_byteWrites h.granule_pos hpos (by omega), htag]
    exact ⟨fun hg => if_pos hg, fun hg => if_neg hg⟩

theorem aligned_of_checkRequest {shift : Nat} (hpow : 2 ^ shift = granule) {db : Option Bytes}
    (hcheck : checkRequest granule shift address db tags = true) :
    address.toNat % granule = 0 ∧ ∀ data, db = some data → data.length = granule * tags.length := by
  subst hpow
  unfold checkRequest at hcheck
  dsimp only at hcheck
  rw [Nat.one_shiftLeft, Nat.and_two_pow_sub_one_eq_mod] at hcheck
  split at hcheck
  · cases hcheck
  · rename_i haddr
    refine ⟨not_not.mp haddr, ?_⟩
    rintro data rfl
    dsimp only at hcheck
    rw [Nat.and_two_pow_sub_one_eq_mod] at hcheck
    split at hcheck
    · cases hcheck
    · rename_i hsize
      rw [← of_decide_eq_true hcheck,
        Nat.mul_div_cancel' (Nat.dvd_of_mod_eq_zero (not_not.mp hsize))]

theorem of_checkRequest (h : Ready memorySize base granule m)
    (hcheck : checkRequest m.granule m.shift address (some db) tags = true) :
    address.toNat % granule = 0 ∧ db.length = granule * tags.length := by
  rw [h.granule_eq] at hcheck
  obtain ⟨haddr, hsize⟩ := aligned_of_checkRequest h.pow_eq hcheck
  exact ⟨haddr, hsize db rfl⟩

theorem tags_inMemory (h : Ready memorySize base granule m) (halign : address.toNat % granule = 0)
    (hpos : 0 < tags.length)
    (hin : InTagged memorySize base granule address (granule * tags.length)) :
    InMemory (memorySize >>> m.shift) (base >>> m.shift) 1 (address >>> m.shift) tags.length := by
  obtain ⟨hdata, htop⟩ := hin
  rw [InMemory, BitVec.le_def, h.toNat_shift, h.toNat_shift, h.toNat_shift]
  refine ⟨Nat.div_le_div_right hdata.1, ?_⟩
  have hgranule := h.granule_pos
  obtain ⟨q, hq⟩ := Nat.dvd_of_mod_eq_zero halign
  obtain ⟨t, ht⟩ : ∃ t, tags.length = t + 1 := ⟨tags.length - 1, by omega⟩
  -- The last granule of the access is the one before its end.
  have hlast : (granule * q + granule * (t + 1) - 1) / granule = q + t := by
    have hsum : granule * q + granule * (t + 1) - 1 = granule * (q + t) + (granule - 1) := by
      rw [Nat.mul_succ, Nat.mul_add]
      omega
    rw [hsum, Nat.mul_add_div hgranule, Nat.div_eq_of_lt (by omega), Nat.add_zero]
  rw [hq, ht, hlast] at htop
  rw [hq, ht, Nat.mul_div_cancel_left q hgranule]
  omega

theorem checkRequest_congr {shift : Nat} {db' tags' : Bytes} (hdb : db'.length = db.length)
    (htags : tags'.length = tags.length)
    (hcheck : checkRequest granule shift address (some db) tags = true) :
    checkRequest granule shift address none tags' = true ∧
      checkRequest granule shift address (some db') tags' = true := by
  unfold checkRequest at hcheck ⊢
  dsimp only at hcheck ⊢
  split at hcheck
  · cases hcheck
  · rename_i haddr
    rw [if_neg haddr, if_neg haddr, hdb, htags]
    exact ⟨rfl, hcheck⟩

theorem storeTagged_tags (h : Ready memorySize base granule m)
    (hok : TaggedCallOk memorySize base granule (.storeTagged address db tags)) :
    ∃ m', m.storeTagged address db tags = some m' ∧ Ready memorySize base granule m' ∧
      TagsRight (.storeTagged address db tags) m m' := by
  by_cases hcheck : checkRequest m.granule m.shift address (some db) tags = true
  · have hcheck' : checkRequest granule (Nat.log2 granule) address (some db) tags = true := by
      rw [h.shift_eq, h.granule_eq] at hcheck
      exact hcheck
    obtain ⟨hpos, hsize, hin⟩ := hok hcheck'
    obtain ⟨halign, hlen⟩ := of_checkRequest h hcheck
    have htags : 0 < tags.length := by
      by_contra hzero
      rw [Nat.eq_zero_of_not_pos hzero, Nat.mul_zero] at hlen
      omega
    have hintags := tags_inMemory h halign htags (hlen ▸ hin)
    obtain ⟨dataMemory, hdata, hdshape, -⟩ :=
      FlatDemandMemory.store_refines address db h.data hin.1 ⟨hpos, one_dvd _⟩
    obtain ⟨tagMemory, htag, htshape, htflat⟩ :=
      FlatDemandMemory.store_refines (address >>> m.shift) tags h.tags hintags ⟨htags, one_dvd _⟩
    have hready := (h.setData hdshape).setTags htshape
    refine ⟨{ m with dataMemory := dataMemory, tagMemory := tagMemory }, ?_, hready, ?_⟩
    · unfold storeTagged
      rw [if_pos hcheck, hdata, Option.bind_eq_bind, Option.bind_some]
      dsimp only
      rw [htag]
      rfl
    · intro _ tags' htags'
      obtain ⟨_, hload, -, -⟩ := FlatDemandMemory.load_refines (address >>> m.shift) tags'
        hready.tags (by rw [htags']; exact hintags) ⟨by omega, one_dvd _⟩
      have hread : readAt tagMemory.flat ((address >>> m.shift).toNat * 1) tags'.length = tags := by
        rw [htflat, htags', readAt_writeAt]
      rw [hread] at hload
      constructor
      · unfold loadTagged
        rw [if_pos (checkRequest_congr rfl htags' hcheck).1]
        dsimp only
        rw [Option.bind_eq_bind, Option.pure_def, Option.bind_some, hload]
        rfl
      · intro db' hdb'
        obtain ⟨_, hloadData, -, -⟩ := FlatDemandMemory.load_refines address db' hready.data
          (by rw [hdb']; exact hin.1) ⟨by omega, one_dvd _⟩
        refine ⟨readAt dataMemory.flat (address.toNat * 1) db'.length, ?_⟩
        unfold loadTagged
        rw [if_pos (checkRequest_congr hdb' htags' hcheck).2]
        dsimp only
        rw [hloadData]
        simp only [Option.bind_eq_bind, Option.pure_def, Option.bind_some]
        rw [hload]
        rfl
  · refine ⟨m, ?_, h, fun hcheck' => absurd hcheck' hcheck⟩
    unfold storeTagged
    rw [if_neg hcheck]

/-! ### Vector stores -/

section Vector

variable {addresses : List Addr} {masks : List Bool} {elSize storeSize : Nat} {db : Bytes}

/-- The granules that the first `k` rounds of the loop clear. -/
def Cleared (granule : Nat) (addresses : List Addr) (masks : List Bool) (storeSize k g : Nat) :
    Prop :=
  ∃ i < k, masks.getD i false = true ∧ (addresses.getD i 0).toNat / granule ≤ g ∧
    g ≤ ((addresses.getD i 0).toNat + storeSize - 1) / granule

/-- The loop over the addresses. -/
theorem clearLoop_spec (h : Ready memorySize base granule m) (hpos : 0 < storeSize)
    (hsize : storeSize < 2 ^ 31) {k : Nat} (hk : k ≤ masks.length)
    (hin : ∀ i < k, masks.getD i false = true →
      InTagged memorySize base granule (addresses.getD i 0) storeSize) :
    ∃ m', (List.range k).foldlM (clearElement addresses masks storeSize) m = some m' ∧
      Ready memorySize base granule m' ∧
      ∀ g, (Cleared granule addresses masks storeSize k g → m'.tag g = 0) ∧
        (¬ Cleared granule addresses masks storeSize k g → m'.tag g = m.tag g) := by
  induction k with
  | zero =>
    refine ⟨m, rfl, h, fun g => ⟨?_, fun _ => rfl⟩⟩
    rintro ⟨i, hi, -⟩
    exact absurd hi (Nat.not_lt_zero i)
  | succ k ih =>
    obtain ⟨m₁, hfold, hready, htags⟩ := ih (by omega) (fun i hi => hin i (by omega))
    have hsplit : ∀ g, Cleared granule addresses masks storeSize (k + 1) g ↔
        Cleared granule addresses masks storeSize k g ∨ (masks.getD k false = true ∧
          (addresses.getD k 0).toNat / granule ≤ g ∧
          g ≤ ((addresses.getD k 0).toNat + storeSize - 1) / granule) := by
      intro g
      constructor
      · rintro ⟨i, hi, hclear⟩
        rcases Nat.lt_succ_iff_lt_or_eq.mp hi with hlt | rfl
        · exact .inl ⟨i, hlt, hclear⟩
        · exact .inr hclear
      · rintro (⟨i, hi, hclear⟩ | hclear)
        · exact ⟨i, by omega, hclear⟩
        · exact ⟨k, by omega, hclear⟩
    have hget : masks[k]? = some (masks.getD k false) := by
      rw [List.getElem?_eq_getElem hk, List.getD_eq_getElem _ _ hk]
    rw [List.range_succ, List.foldlM_append, hfold]
    show ∃ m', (clearElement addresses masks storeSize m₁ k).bind some = some m' ∧ _
    unfold clearElement
    rw [hget]
    cases hmask : masks.getD k false with
    | false =>
      refine ⟨m₁, rfl, hready, fun g => ?_⟩
      rw [hsplit, hmask]
      simpa using htags g
    | true =>
      obtain ⟨m₂, hclear, hready', htag⟩ :=
        clearTags_spec hready hpos hsize (hin k (by omega) hmask)
      refine ⟨m₂, ?_, hready', fun g => ?_⟩
      · dsimp only
        rw [hclear]
        rfl
      · rw [hsplit, hmask, htag]
        by_cases hg : (addresses.getD k 0).toNat / granule ≤ g ∧
            g ≤ ((addresses.getD k 0).toNat + storeSize - 1) / granule
        · rw [if_pos hg]
          exact ⟨fun _ => rfl, fun hnot => absurd (.inr ⟨rfl, hg⟩) hnot⟩
        · rw [if_neg hg]
          refine ⟨fun hor => (htags g).1 ?_, fun hnot => (htags g).2 fun hc => hnot (.inl hc)⟩
          exact hor.resolve_right fun hthis => hg hthis.2

/-- The granules that the unmasked elements of a vector store are in. -/
theorem writesGranule_vectorWrites (h : Ready memorySize base granule m) (hpos : 0 < elSize)
    (hlen : elSize * masks.length ≤ db.length)
    (hin : ∀ i < masks.length, masks.getD i false = true →
      InTagged memorySize base granule (elementAddress addresses elSize i) elSize) {g : Nat} :
    WritesGranule granule (vectorWrites addresses masks elSize db) g ↔
      ∃ i < masks.length, masks.getD i false = true ∧
        (elementAddress addresses elSize i).toNat / granule ≤ g ∧
        g ≤ ((elementAddress addresses elSize i).toNat + elSize - 1) / granule := by
  have helement : ∀ i < masks.length, masks.getD i false = true →
      (WritesGranule granule (byteWrites (elementAddress addresses elSize i)
        ((db.drop (elSize * i)).take elSize)) g ↔
        (elementAddress addresses elSize i).toNat / granule ≤ g ∧
          g ≤ ((elementAddress addresses elSize i).toNat + elSize - 1) / granule) := by
    intro i hi hmask
    have hmul : elSize * i + elSize ≤ elSize * masks.length := by
      rw [← Nat.mul_succ]
      exact Nat.mul_le_mul_left elSize hi
    have hslice : ((db.drop (elSize * i)).take elSize).length = elSize := by
      rw [List.length_take, List.length_drop]
      omega
    have hwrap := inTagged_no_wrap h (hin i hi hmask)
    rw [writesGranule_byteWrites h.granule_pos (by omega) (by omega), hslice]
  constructor
  · rintro ⟨w, hw, hg⟩
    obtain ⟨i, hi, hwi⟩ := List.mem_flatMap.mp hw
    have hlt := List.mem_range.mp hi
    by_cases hmask : masks.getD i false = true
    · rw [if_pos hmask] at hwi
      exact ⟨i, hlt, hmask, (helement i hlt hmask).mp ⟨w, hwi, hg⟩⟩
    · rw [if_neg hmask] at hwi
      exact absurd hwi List.not_mem_nil
  · rintro ⟨i, hi, hmask, hg⟩
    obtain ⟨w, hw, hgw⟩ := (helement i hi hmask).mpr hg
    refine ⟨w, List.mem_flatMap.mpr ⟨i, List.mem_range.mpr hi, ?_⟩, hgw⟩
    rw [if_pos hmask]
    exact hw

theorem toNat_elementAddress (h : Ready memorySize base granule m)
    (hone : addresses.length = 1) (hlen : elSize * masks.length < 2 ^ 31)
    (hin : ∀ i < masks.length,
      InTagged memorySize base granule (elementAddress addresses elSize i) elSize)
    {i : Nat} (hi : i < masks.length) :
    (elementAddress addresses elSize i).toNat = (addresses.getD 0 0).toNat + elSize * i := by
  have haddr : ∀ j < masks.length, (elementAddress addresses elSize j).toNat =
      ((addresses.getD 0 0).toNat + elSize * j) % 2 ^ 64 := by
    intro j hj
    have hmul : elSize * j ≤ elSize * masks.length := Nat.mul_le_mul_left elSize hj.le
    rw [elementAddress, if_neg (by omega), Nat.mul_comm j, Nat.mod_eq_of_lt (by omega),
      BitVec.toNat_add, BitVec.toNat_ofNat, Nat.add_mod_mod]
  induction i with
  | zero =>
    rw [haddr 0 hi, Nat.mul_zero, Nat.add_zero]
    exact Nat.mod_eq_of_lt (BitVec.isLt _)
  | succ i ih =>
    have hprev := ih (by omega)
    have hwrap := inTagged_no_wrap h (hin i (by omega))
    rw [haddr _ hi, Nat.mul_succ, ← Nat.add_assoc, ← hprev]
    exact Nat.mod_eq_of_lt hwrap

theorem cleared_iff_indexed (h : Ready memorySize base granule m)
    (hlength : addresses.length = masks.length) (hpos : 0 < elSize)
    (hlen : elSize * masks.length ≤ db.length)
    (hin : ∀ i < masks.length, masks.getD i false = true →
      InTagged memorySize base granule (elementAddress addresses elSize i) elSize) (g : Nat) :
    Cleared granule addresses masks elSize addresses.length g ↔
      WritesGranule granule (vectorWrites addresses masks elSize db) g := by
  rw [writesGranule_vectorWrites h hpos hlen hin, hlength]
  refine exists_congr fun i => and_congr_right fun hi => ?_
  rw [elementAddress_of_lt (hlength ▸ hi) elSize]

/-- The granules that are cleared are those written to: all elements with unit stride. -/
theorem cleared_iff_unit_stride (h : Ready memorySize base granule m)
    (hone : addresses.length = 1) (hmasks : masks ≠ []) (hall : ∀ b ∈ masks, b = true)
    (hpos : 0 < elSize) (hdb : db.length < 2 ^ 31) (hlen : db.length = elSize * masks.length)
    (hin : ∀ i < masks.length,
      InTagged memorySize base granule (elementAddress addresses elSize i) elSize) (g : Nat) :
    Cleared granule addresses masks db.length 1 g ↔
      WritesGranule granule (vectorWrites addresses masks elSize db) g := by
  have hmask : ∀ i < masks.length, masks.getD i false = true := by
    intro i hi
    rw [List.getD_eq_getElem _ _ hi]
    exact hall _ (List.getElem_mem hi)
  have hcount : 0 < masks.length := List.length_pos_iff.mpr hmasks
  have hdbpos : 0 < db.length := by
    rw [hlen]
    exact Nat.mul_pos hpos hcount
  have haddr := fun i hi => toNat_elementAddress h hone (hlen ▸ hdb) hin (i := i) hi
  have hcleared : Cleared granule addresses masks db.length 1 g ↔
      ∃ j < db.length, ((addresses.getD 0 0).toNat + j) / granule = g := by
    rw [exists_div_eq_iff h.granule_pos hdbpos]
    constructor
    · rintro ⟨i, hi, -, hg⟩
      obtain rfl : i = 0 := by omega
      exact hg
    · intro hg
      exact ⟨0, Nat.one_pos, hmask 0 hcount, hg⟩
  rw [hcleared, writesGranule_vectorWrites h hpos (le_of_eq hlen.symm) (fun i hi _ => hin i hi)]
  constructor
  · rintro ⟨j, hj, hg⟩
    -- Byte `j` of the store is byte `j % elSize` of element `j / elSize`.
    have hi : j / elSize < masks.length := by
      rw [Nat.div_lt_iff_lt_mul hpos, Nat.mul_comm, ← hlen]
      exact hj
    refine ⟨j / elSize, hi, hmask _ hi, ?_⟩
    rw [← exists_div_eq_iff h.granule_pos hpos, haddr _ hi]
    refine ⟨j % elSize, Nat.mod_lt _ hpos, ?_⟩
    rw [Nat.add_assoc, Nat.div_add_mod, hg]
  · rintro ⟨i, hi, -, hg⟩
    rw [← exists_div_eq_iff h.granule_pos hpos, haddr _ hi] at hg
    obtain ⟨j, hj, hg⟩ := hg
    have hmul : elSize * i + elSize ≤ elSize * masks.length := by
      rw [← Nat.mul_succ]
      exact Nat.mul_le_mul_left elSize hi
    refine ⟨elSize * i + j, by omega, ?_⟩
    rw [← Nat.add_assoc, hg]

theorem inTagged_unit_stride (h : Ready memorySize base granule m)
    (hone : addresses.length = 1) (hcount : 0 < masks.length) (hpos : 0 < elSize)
    (hdb : db.length < 2 ^ 31) (hlen : db.length = elSize * masks.length)
    (hin : ∀ i < masks.length,
      InTagged memorySize base granule (elementAddress addresses elSize i) elSize) :
    InTagged memorySize base granule (addresses.getD 0 0) db.length := by
  obtain ⟨n, hn⟩ : ∃ n, masks.length = n + 1 := ⟨masks.length - 1, by omega⟩
  have hfirst := hin 0 hcount
  have hlast := hin n (by omega)
  have haddr := toNat_elementAddress h hone (hlen ▸ hdb) hin (by omega : n < masks.length)
  rw [elementAddress_of_lt (by omega) elSize] at hfirst
  obtain ⟨⟨-, htop⟩, htags⟩ := hlast
  rw [haddr] at htop htags
  rw [hn, Nat.mul_succ] at hlen
  refine ⟨⟨hfirst.1.1, by omega⟩, ?_⟩
  have hend : (addresses.getD 0 0).toNat + db.length - 1 =
      (addresses.getD 0 0).toNat + elSize * n + elSize - 1 := by omega
  rw [hend]
  exact htags

theorem storeVector_tags (h : Ready memorySize base granule m)
    (hok : TaggedCallOk memorySize base granule (.storeVector addresses masks elSize db)) :
    ∃ m', m.storeVector addresses masks elSize db = some m' ∧ Ready memorySize base granule m' ∧
      TagsRight (.storeVector addresses masks elSize db) m m' := by
  obtain ⟨hpos, hdb, hform, hin⟩ := hok
  -- What is to be shown of the loop, for its number of rounds and the size it clears.
  have hmain : ∀ hlen : elSize * masks.length ≤ db.length,
      addresses.length ≠ 0 → addresses.length ≤ masks.length →
      0 < db.length / addresses.length →
      (∀ i < addresses.length, masks.getD i false = true →
        InTagged memorySize base granule (addresses.getD i 0) (db.length / addresses.length)) →
      (∀ g, Cleared granule addresses masks (db.length / addresses.length) addresses.length g ↔
        WritesGranule granule (vectorWrites addresses masks elSize db) g) →
      ∃ m', m.storeVector addresses masks elSize db = some m' ∧
        Ready memorySize base granule m' ∧
        TagsRight (.storeVector addresses masks elSize db) m m' := by
    intro hlen hne hle hstore hloop hcleared
    obtain ⟨dataMemory, hdata, hshape, -⟩ := FlatDemandMemory.storeVector_refines h.data
      ⟨hpos, one_dvd _⟩ hlen hdb (fun i hi hmask => (hin i hi hmask).1)
    obtain ⟨m', hfold, hready, htags⟩ := clearLoop_spec (h.setData hshape) hstore
      (lt_of_le_of_lt (Nat.div_le_self _ _) hdb) hle hloop
    refine ⟨m', ?_, hready, fun g => ?_⟩
    · unfold storeVector
      rw [if_neg hne]
      dsimp only
      rw [hdata]
      exact hfold
    · show (WritesGranule m.granule (vectorWrites addresses masks elSize db) g → _) ∧
        (¬ WritesGranule m.granule (vectorWrites addresses masks elSize db) g → _)
      rw [h.granule_eq, ← hcleared g]
      exact htags g
  rcases hform with ⟨hlength, hsize⟩ | ⟨hone, hmasks, hform⟩
  · have hne : addresses.length ≠ 0 := by
      intro hzero
      rw [hzero, Nat.div_zero] at hsize
      omega
    have hlen : elSize * masks.length ≤ db.length := by
      rw [← hlength, ← hsize]
      exact Nat.div_mul_le_self _ _
    refine hmain hlen hne hlength.le (by rw [hsize]; exact hpos) ?_ ?_
    · intro i hi hmask
      rw [hsize, ← elementAddress_of_lt hi elSize]
      exact hin i (hlength ▸ hi) hmask
    · intro g
      rw [hsize]
      exact cleared_iff_indexed h hlength hpos hlen hin g
  · have hcount : 0 < masks.length := List.length_pos_iff.mpr hmasks
    rw [hone, Nat.div_one] at hmain
    have helement : elSize ≤ elSize * masks.length := Nat.le_mul_of_pos_right _ hcount
    rcases hform with ⟨hall, hlen⟩ | ⟨hnone, hlen⟩
    · have hin' : ∀ i < masks.length,
          InTagged memorySize base granule (elementAddress addresses elSize i) elSize := by
        intro i hi
        refine hin i hi ?_
        rw [List.getD_eq_getElem _ _ hi]
        exact hall _ (List.getElem_mem hi)
      refine hmain (le_of_eq hlen.symm) Nat.one_ne_zero hcount (by omega) ?_ ?_
      · intro i hi _
        obtain rfl : i = 0 := by omega
        exact inTagged_unit_stride h hone hcount hpos hdb hlen hin'
      · exact cleared_iff_unit_stride h hone hmasks hall hpos hdb hlen hin'
    · have hmask : ∀ i < masks.length, ¬ masks.getD i false = true := by
        intro i hi
        rw [List.getD_eq_getElem _ _ hi, hnone _ (List.getElem_mem hi)]
        exact Bool.false_ne_true
      refine hmain hlen Nat.one_ne_zero hcount (by omega) ?_ ?_
      · intro i hi hset
        exact absurd hset (hmask i (by omega))
      · intro g
        rw [writesGranule_vectorWrites h hpos hlen hin]
        refine iff_of_false ?_ ?_
        · rintro ⟨i, hi, hset, -⟩
          exact hmask i (by omega) hset
        · rintro ⟨i, hi, hset, -⟩
          exact hmask i hi hset

end Vector

/-! ### Runs -/

/-- **Step lemma.** -/
theorem call_tags (h : Ready memorySize base granule m) {c : TaggedCall}
    (hok : TaggedCallOk memorySize base granule c) :
    ∃ m', m.call c = some m' ∧ Ready memorySize base granule m' ∧ TagsRight c m m' := by
  cases c with
  | store address db => exact store_tags h hok
  | storeVector addresses masks elSize db => exact storeVector_tags h hok
  | storeTagged address db tags => exact storeTagged_tags h hok

/-- **Run lemma.** -/
theorem run_ready (h : Ready memorySize base granule m) {calls : List TaggedCall}
    (hok : ∀ c ∈ calls, TaggedCallOk memorySize base granule c) :
    ∃ m', m.run calls = some m' ∧ Ready memorySize base granule m' := by
  induction calls generalizing m with
  | nil => exact ⟨m, rfl, h⟩
  | cons c rest ih =>
    obtain ⟨m₁, hcall, hready, -⟩ := call_tags h (hok c (List.mem_cons_self ..))
    obtain ⟨m₂, hrun, hready'⟩ := ih hready (fun c hc => hok c (List.mem_cons_of_mem _ hc))
    refine ⟨m₂, ?_, hready'⟩
    rw [run, List.foldlM_cons, hcall]
    exact hrun

theorem ready_init {fill : UInt8} (hinit : init memorySize base 1 fill granule = some m)
    (hmax : base.toNat + memorySize.toNat < 2 ^ 64) : Ready memorySize base granule m := by
  unfold init at hinit
  split at hinit
  · rename_i hpow
    obtain ⟨dataMemory, hdata, hinit⟩ := Option.bind_eq_some_iff.mp hinit
    obtain ⟨tagMemory, htags, hinit⟩ := Option.bind_eq_some_iff.mp hinit
    cases hinit
    have hlog : 2 ^ Nat.log2 granule = granule := by
      obtain ⟨k, rfl⟩ := Nat.ne_zero_and_sub_one_eq_zero_iff_isPowerOfTwo.mp hpow
      rw [Nat.log2_two_pow]
    have hle : ∀ a : Addr, (a >>> Nat.log2 granule).toNat ≤ a.toNat := by
      intro a
      rw [BitVec.toNat_ushiftRight]
      exact Nat.shiftRight_le _ _
    have hbase := hle base
    have hsize := hle memorySize
    exact ⟨rfl, rfl, hlog, (FlatDemandMemory.configured_init hdata (by decide) hmax).1,
      (FlatDemandMemory.configured_init htags (by decide) (by omega)).1⟩
  · cases hinit

end TaggedFlatDemandMemory

/-- **Tag integrity.** In a memory with byte units whose addresses end below 2^64, and for stores
    for which the right tags are cleared, every store of a run succeeds and does to the tags
    what it should. -/
theorem tag_integrity {memorySize base : Addr} {granule : Nat} {fill : UInt8}
    {m : TaggedFlatDemandMemory}
    (hinit : TaggedFlatDemandMemory.init memorySize base 1 fill granule = some m)
    (hmax : base.toNat + memorySize.toNat < 2 ^ 64) (calls : List TaggedCall)
    (hok : ∀ c ∈ calls, TaggedCallOk memorySize base granule c) :
    ∀ before c after, calls = before ++ c :: after →
      ∃ m₁ m₂, m.run before = some m₁ ∧ m₁.call c = some m₂ ∧ TagsRight c m₁ m₂ := by
  rintro before c after rfl
  obtain ⟨m₁, hrun, hready⟩ := TaggedFlatDemandMemory.run_ready
    (TaggedFlatDemandMemory.ready_init hinit hmax)
    (fun c' hc => hok c' (List.mem_append_left _ hc))
  obtain ⟨m₂, hcall, -, htags⟩ := TaggedFlatDemandMemory.call_tags hready (hok c (by simp))
  exact ⟨m₁, m₂, hrun, hcall, htags⟩

/-- A tagged store, and a store of two elements with unit stride after it. -/
theorem tag_integrity_unit_stride :
    ∃ m m₁ m₂, TaggedFlatDemandMemory.init 0x10000 0x1000 1 0 16 = some m ∧
      m.run [.storeTagged 0x1000 (List.replicate 16 7) [1]] = some m₁ ∧
      m₁.call (.storeVector [0x1004] [true, true] 2 [1, 2, 3, 4]) = some m₂ ∧
      TagsRight (.storeVector [0x1004] [true, true] 2 [1, 2, 3, 4]) m₁ m₂ := by
  obtain ⟨m, hinit⟩ : ∃ m, TaggedFlatDemandMemory.init 0x10000 0x1000 1 0 16 = some m :=
    ⟨_, rfl⟩
  have hok : ∀ c ∈ [TaggedCall.storeTagged 0x1000 (List.replicate 16 7) [1],
      .storeVector [0x1004] [true, true] 2 [1, 2, 3, 4]],
      TaggedCallOk 0x10000 0x1000 16 c := by
    intro c hc
    simp only [List.mem_cons, List.not_mem_nil, or_false] at hc
    rcases hc with rfl | rfl
    · intro _
      exact ⟨by decide, by decide, ⟨(by decide : (0x1000 : Addr) ≤ 0x1000), by decide⟩, by decide⟩
    · refine ⟨by decide, by decide, .inr ⟨rfl, by decide, .inl ⟨by decide, rfl⟩⟩, ?_⟩
      intro i hi _
      have hcases : i = 0 ∨ i = 1 := by
        simp only [List.length_cons, List.length_nil] at hi
        omega
      rcases hcases with rfl | rfl
      · exact ⟨⟨(by decide : (0x1000 : Addr) ≤ 0x1004), by decide⟩, by decide⟩
      · exact ⟨⟨(by decide : (0x1000 : Addr) ≤ 0x1006), by decide⟩, by decide⟩
  obtain ⟨m₁, m₂, hrun, hcall, htags⟩ := tag_integrity hinit (by decide) _ hok
    [.storeTagged 0x1000 (List.replicate 16 7) [1]] _ [] rfl
  exact ⟨m, m₁, m₂, hinit, hrun, hcall, htags⟩

/-- With unit stride, only the first mask entry is looked at: the second of two tagged granules
    is overwritten, and its tag survives. -/
theorem storeVector_keeps_tag :
    (((TaggedFlatDemandMemory.init 0x10000 0x1000 1 0 16).bind fun m =>
        m.run [.storeTagged 0x1000 (List.replicate 32 7) [1, 1],
          .storeVector [0x1000] [false, true] 16 (List.replicate 32 9)]).map fun m =>
      m.tag 0x101) = some 1 ∧
    WritesGranule 16
      (TaggedCall.storeVector [0x1000] [false, true] 16 (List.replicate 32 9)).writes 0x101 :=
  ⟨by decide, (0x1010, 9), by decide, by decide⟩

end MpactSim.Memory
