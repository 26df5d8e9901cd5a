import MpactSim.Memory.BoundsCheck
import MpactSim.Memory.TaggedFlat

namespace MpactSim.Memory

open Lib

/-!
# Tags for all data

The tag memory of a `TaggedFlatDemandMemory` starts at the quotient of the base address and the
granule, and has as many tags as the size of the memory has whole granules.

* `tagUses`             — the tags that an access reads or writes;
* `TaggedAccess.Covered` — the data has tags up to its end;
* `tags_covered_iff`    — the tags that are used are in the tag memory exactly then.
-/

/-! ### The tags of an access -/

/-- A store, or a load with tags. -/
inductive TaggedAccess where
  | store (c : TaggedCall)
  | loadTagged (address : Addr) (db : Option Bytes) (tags : Bytes)

namespace TaggedFlatDemandMemory

/-- The first tag that `ClearTags` clears, and their number. -/
def cleared (m : TaggedFlatDemandMemory) (address : Addr) (size : Nat) : Addr × Nat :=
  let lo := address >>> m.shift
  let hi := (address + BitVec.ofNat 64 size - 1) >>> m.shift
  (lo, ((hi - lo + 1).setWidth 32).toInt.toNat)

/-- The tags that an access reads or writes: where they start, and their number. -/
def tagUses (m : TaggedFlatDemandMemory) : TaggedAccess → List (Addr × Nat)
  | .store (.store address db) => [m.cleared address db.length]
  | .store (.storeVector addresses masks _ db) =>
    ((List.range addresses.length).filter fun i => masks.getD i false).map fun i =>
      m.cleared (addresses.getD i 0) (db.length / addresses.length)
  | .store (.storeTagged address db tags) =>
    if checkRequest m.granule m.shift address (some db) tags then
      [(address >>> m.shift, tags.length)]
    else []
  | .loadTagged address db tags =>
    if checkRequest m.granule m.shift address db tags then [(address >>> m.shift, tags.length)]
    else []

end TaggedFlatDemandMemory

/-! ### The specification -/

/-- All bytes of an access are in the memory, which nothing wraps around. -/
def BytesInMemory (memorySize base : Addr) (unit : Nat) (address : Addr) (size : Nat) : Prop :=
  ∀ j < size, base.toNat ≤ address.toNat + j / unit ∧
    address.toNat + j / unit < base.toNat + memorySize.toNat ∧ address.toNat + j / unit < 2 ^ 64

/-- The data of an access is in the memory; for a load of tags alone it is that of their
    granules. -/
def TaggedAccess.DataInMemory (memorySize base : Addr) (unit granule : Nat) : TaggedAccess → Prop
  | .store (.store address db) => BytesInMemory memorySize base unit address db.length
  | .store (.storeVector addresses masks elSize _) =>
    ∀ i < masks.length, masks.getD i false = true →
      BytesInMemory memorySize base unit (elementAddress addresses elSize i) elSize
  | .store (.storeTagged address db _) => BytesInMemory memorySize base unit address db.length
  | .loadTagged address _ tags =>
    BytesInMemory memorySize base unit address (granule * tags.length)

/-- A store stores something, from a buffer for all elements.  There are no more addresses than
    elements. -/
def TaggedAccess.Sized : TaggedAccess → Prop
  | .store (.store _ db) => 0 < db.length ∧ db.length < 2 ^ 31
  | .store (.storeVector addresses masks elSize db) =>
    0 < elSize ∧ addresses.length ≤ masks.length ∧ elSize * masks.length ≤ db.length ∧
      db.length < 2 ^ 31
  | _ => True

/-- The end of the data up to which there are tags. -/
def taggedEnd (memorySize base : Addr) (granule : Nat) : Nat :=
  granule * (base.toNat / granule + memorySize.toNat / granule)

/-- The data whose tags are used ends where there are tags. -/
def TaggedAccess.Covered (memorySize base : Addr) (granule : Nat) : TaggedAccess → Prop
  | .store (.store address db) =>
    address.toNat + db.length ≤ taggedEnd memorySize base granule
  | .store (.storeVector addresses masks _ db) =>
    ∀ i < addresses.length, masks.getD i false = true →
      (addresses.getD i 0).toNat + db.length / addresses.length ≤
        taggedEnd memorySize base granule
  | .store (.storeTagged address db tags) =>
    checkRequest granule (Nat.log2 granule) address (some db) tags = true →
      db = [] ∨ address.toNat + db.length ≤ taggedEnd memorySize base granule
  | .loadTagged address db tags =>
    checkRequest granule (Nat.log2 granule) address db tags = true →
      tags = [] ∨ address.toNat + granule * tags.length ≤ taggedEnd memorySize base granule

namespace TaggedFlatDemandMemory

/-! ### The tag memory -/

/-- What the constructor makes and no store changes. -/
structure Made (memorySize base : Addr) (granule : Nat) (m : TaggedFlatDemandMemory) : Prop where
  granule_eq : m.granule = granule
  shift_eq : m.shift = Nat.log2 granule
  pow_eq : 2 ^ Nat.log2 granule = granule
  tagShift : m.tagMemory.shift = 0
  tagBase : m.tagMemory.base = base >>> Nat.log2 granule
  tagMax : m.tagMemory.max = base >>> Nat.log2 granule + memorySize >>> Nat.log2 granule

variable {memorySize base address : Addr} {unit granule size : Nat} {fill : UInt8}
  {m m' : TaggedFlatDemandMemory}

theorem made_init (h : init memorySize base unit fill granule = some m) :
    Made memorySize base granule m := by
  unfold init at h
  split at h
  · rename_i hpow
    obtain ⟨dataMemory, -, h⟩ := Option.bind_eq_some_iff.mp h
    obtain ⟨tagMemory, htags, h⟩ := Option.bind_eq_some_iff.mp h
    cases h
    obtain ⟨hbase, hmax⟩ := FlatDemandMemory.bounds_init htags
    cases htags
    obtain ⟨k, rfl⟩ := Nat.ne_zero_and_sub_one_eq_zero_iff_isPowerOfTwo.mp hpow
    exact ⟨rfl, rfl, by rw [Nat.log2_two_pow], rfl, hbase, hmax⟩
  · cases h

theorem Made.of_sameShape (h : Made memorySize base granule m) {dataMemory tagMemory :
    FlatDemandMemory} (hshape : m.tagMemory.SameShape tagMemory) :
    Made memorySize base granule { m with dataMemory := dataMemory, tagMemory := tagMemory } :=
  ⟨h.granule_eq, h.shift_eq, h.pow_eq, hshape.shift.trans h.tagShift,
    hshape.base.trans h.tagBase, hshape.max.trans h.tagMax⟩

theorem store_sameShape {t t' : FlatDemandMemory} {db db' : Bytes}
    (h : t.store address db = some (t', db')) : t.SameShape t' :=
  @FlatDemandMemory.call_sameShape t t' (.store address db) db' h

theorem store_checked {t t' : FlatDemandMemory} (hshift : t.shift = 0) {db db' : Bytes}
    (h : t.store address db = some (t', db')) : t.outOfBounds address db.length = false := by
  unfold FlatDemandMemory.store at h
  dsimp only at h
  rw [hshift, Nat.shiftRight_zero] at h
  split at h
  · cases h
  · rename_i hcheck
    simpa using hcheck

theorem clearTags_keeps (hmade : Made memorySize base granule m)
    (h : m.clearTags address size = some m') :
    Made memorySize base granule m' ∧
      m.tagMemory.outOfBounds (m.cleared address size).1 (m.cleared address size).2 = false ∧
      m.tagMemory.SameShape m'.tagMemory := by
  obtain ⟨⟨tagMemory, db⟩, hstore, h⟩ := Option.bind_eq_some_iff.mp h
  cases h
  have hshape := store_sameShape hstore
  refine ⟨hmade.of_sameShape hshape, ?_, hshape⟩
  have hchecked := store_checked hmade.tagShift hstore
  rw [List.length_replicate] at hchecked
  exact hchecked

theorem clearElements_keeps {addresses : List Addr} {masks : List Bool} {storeSize n : Nat}
    (hmade : Made memorySize base granule m)
    (h : (List.range n).foldlM (clearElement addresses masks storeSize) m = some m') :
    Made memorySize base granule m' ∧ m.tagMemory.SameShape m'.tagMemory ∧
      ∀ i < n, masks.getD i false = true →
        m.tagMemory.outOfBounds (m.cleared (addresses.getD i 0) storeSize).1
          (m.cleared (addresses.getD i 0) storeSize).2 = false := by
  induction n generalizing m' with
  | zero =>
    cases h
    exact ⟨hmade, .refl _, fun i hi => absurd hi (Nat.not_lt_zero i)⟩
  | succ n ih =>
    rw [List.range_succ, List.foldlM_append] at h
    obtain ⟨mid, hmid, h⟩ := Option.bind_eq_some_iff.mp h
    obtain ⟨hmade', hshape, hchecked⟩ := ih hmid
    have hlast : clearElement addresses masks storeSize mid n = some m' := by
      simpa using h
    unfold clearElement at hlast
    have hsame : ∀ a size, mid.cleared a size = m.cleared a size := by
      intro a size
      unfold cleared
      rw [hmade'.shift_eq, hmade.shift_eq]
    have hbounds : ∀ a size, mid.tagMemory.outOfBounds a size = m.tagMemory.outOfBounds a size := by
      intro a size
      unfold FlatDemandMemory.outOfBounds
      rw [hshape.base, hshape.max]
    split at hlast
    · rename_i hmask
      obtain ⟨hmade'', hcheck, hshape'⟩ := clearTags_keeps hmade' hlast
      refine ⟨hmade'', hshape.trans hshape', fun i hi hi' => ?_⟩
      rcases Nat.lt_succ_iff_lt_or_eq.mp hi with hi | rfl
      · exact hchecked i hi hi'
      · rwa [hsame, hbounds] at hcheck
    · rename_i hmask
      cases hlast
      refine ⟨hmade', hshape, fun i hi hi' => ?_⟩
      rcases Nat.lt_succ_iff_lt_or_eq.mp hi with hi | rfl
      · exact hchecked i hi hi'
      · rw [List.getD_eq_getElem?_getD, hmask] at hi'
        cases hi'
    · cases hlast

/-- **Step lemma.** A store uses only tags that the check of the tag memory lets pass. -/
theorem call_keeps (hmade : Made memorySize base granule m) {c : TaggedCall}
    (h : m.call c = some m') :
    Made memorySize base granule m' ∧
      ∀ use ∈ m.tagUses (.store c), m.tagMemory.outOfBounds use.1 use.2 = false := by
  cases c with
  | store address db =>
    obtain ⟨⟨dataMemory, data⟩, -, h⟩ := Option.bind_eq_some_iff.mp h
    obtain ⟨hmade', hcheck, -⟩ :=
      clearTags_keeps (hmade.of_sameShape (.refl m.tagMemory) : Made memorySize base granule
        { m with dataMemory := dataMemory }) h
    refine ⟨hmade', fun use huse => ?_⟩
    obtain rfl := List.mem_singleton.mp huse
    exact hcheck
  | storeVector addresses masks elSize db =>
    have h : m.storeVector addresses masks elSize db = some m' := h
    unfold storeVector at h
    split at h
    · rename_i hzero
      cases h
      refine ⟨hmade, fun use huse => ?_⟩
      simp [tagUses, hzero] at huse
    · obtain ⟨⟨dataMemory, data⟩, -, h⟩ := Option.bind_eq_some_iff.mp h
      obtain ⟨hmade', -, hchecked⟩ :=
        clearElements_keeps (hmade.of_sameShape (.refl m.tagMemory) : Made memorySize base granule
          { m with dataMemory := dataMemory }) h
      refine ⟨hmade', fun use huse => ?_⟩
      obtain ⟨i, hi, rfl⟩ := List.mem_map.mp huse
      obtain ⟨hi, hmask⟩ := List.mem_filter.mp hi
      exact hchecked i (List.mem_range.mp hi) hmask
  | storeTagged address db tags =>
    have h : m.storeTagged address db tags = some m' := h
    unfold storeTagged at h
    split at h
    · rename_i hcheck
      obtain ⟨⟨dataMemory, data⟩, -, h⟩ := Option.bind_eq_some_iff.mp h
      obtain ⟨⟨tagMemory, tags'⟩, hstore, h⟩ := Option.bind_eq_some_iff.mp h
      cases h
      refine ⟨hmade.of_sameShape (store_sameShape hstore), fun use huse => ?_⟩
      rw [tagUses, if_pos hcheck] at huse
      obtain rfl := List.mem_singleton.mp huse
      exact store_checked hmade.tagShift hstore
    · rename_i hcheck
      cases h
      refine ⟨hmade, fun use huse => ?_⟩
      rw [tagUses, if_neg hcheck] at huse
      cases huse

/-- **Run lemma.** -/
theorem run_keeps (hmade : Made memorySize base granule m) {calls : List TaggedCall}
    (h : m.run calls = some m') : Made memorySize base granule m' :=
  foldlM_invariant (Made memorySize base granule)
    (fun _ _ _ _ hmade hcall => (call_keeps hmade hcall).1) h hmade

/-! ### Where tags are -/

/-- The tags of `size` bytes from an address on: all that have a byte. -/
theorem cleared_eq (hmade : Made memorySize base granule m) (hgranule : granule < 2 ^ 32)
    (hsize : size < 2 ^ 31) :
    (m.cleared address size).1.toNat = address.toNat / granule ∧
      (m.cleared address size).2 =
        (address.toNat + size + granule - 1) / granule - address.toNat / granule := by
  have hpos : 0 < granule := hmade.pow_eq ▸ Nat.two_pow_pos _
  have hshift : ∀ a : Addr, (a >>> m.shift).toNat = a.toNat / granule := by
    intro a
    rw [BitVec.toNat_ushiftRight, Nat.shiftRight_eq_div_pow, hmade.shift_eq, hmade.pow_eq]
  refine ⟨hshift address, ?_⟩
  -- There are `D` granules in the address space, a multiple of 2^32.
  have hlog : Nat.log2 granule < 32 := by
    rw [Nat.log2_lt hpos.ne']
    exact hgranule
  obtain ⟨D, hD, E, hE⟩ : ∃ D, granule * D = 2 ^ 64 ∧ ∃ E, D = 2 ^ 32 * E := by
    refine ⟨2 ^ (64 - Nat.log2 granule), ?_, 2 ^ (32 - Nat.log2 granule), ?_⟩
    · nth_rewrite 1 [← hmade.pow_eq]
      rw [← Nat.pow_add]
      congr 1
      omega
    · rw [← Nat.pow_add]
      congr 1
      omega
  have hDpos : 0 < D := Nat.pos_of_ne_zero (by rintro rfl; simp at hD)
  have hlt := address.isLt
  have hlo := hshift address
  have hhi : ((address + BitVec.ofNat 64 size - 1) >>> m.shift).toNat =
      ((address.toNat + size + granule - 1) / granule + D - 1) % D := by
    have hsum : (address + BitVec.ofNat 64 size - 1).toNat =
        (address.toNat + size + granule * D - 1) % (granule * D) := by
      rw [BitVec.toNat_sub, BitVec.toNat_add, BitVec.toNat_ofNat, hD]
      show (2 ^ 64 - 1 + _) % 2 ^ 64 = _
      omega
    have hdiv : (address.toNat + size + granule * D - 1) / granule =
        (address.toNat + size + granule - 1) / granule + D - 1 := by
      have hadd : address.toNat + size + granule * D - 1 + granule =
          address.toNat + size + granule - 1 + granule * D := by omega
      have hdiv := Nat.add_mul_div_left (address.toNat + size + granule - 1) D hpos
      rw [← hadd, Nat.add_div_right _ hpos] at hdiv
      generalize (address.toNat + size + granule - 1) / granule = last at *
      generalize (address.toNat + size + granule * D - 1) / granule = last' at *
      omega
    rw [hshift, hsum, Nat.mod_mul_right_div_self, hdiv]
  have hle : address.toNat / granule ≤ (address.toNat + size + granule - 1) / granule :=
    Nat.div_le_div_right (by omega)
  have hcount : (address.toNat + size + granule - 1) / granule <
      address.toNat / granule + 2 ^ 31 := by
    have hmod := Nat.mod_lt address.toNat hpos
    have hdiv := Nat.div_add_mod address.toNat granule
    rw [Nat.div_lt_iff_lt_mul hpos, Nat.add_mul, Nat.mul_comm (address.toNat / granule)]
    omega
  have hq : address.toNat / granule < 2 ^ 64 :=
    Nat.lt_of_le_of_lt (Nat.div_le_self _ _) hlt
  unfold cleared
  dsimp only
  generalize address >>> m.shift = lo at *
  generalize (address + BitVec.ofNat 64 size - 1) >>> m.shift = hi at *
  generalize (address.toNat + size + granule - 1) / granule = last at *
  rw [← hlo] at hle hcount hq ⊢
  -- Multiples of `D` do not show in 32 bits.
  have hwidth : ((hi - lo + 1).setWidth 32).toNat = last - lo.toNat := by
    have hmod := Nat.div_add_mod (last + D - 1) D
    rw [← hhi, hE, Nat.mul_assoc] at hmod
    rw [BitVec.toNat_setWidth, BitVec.toNat_add, BitVec.toNat_sub]
    show ((2 ^ 64 - lo.toNat + hi.toNat) % 2 ^ 64 + 1) % 2 ^ 64 % 2 ^ 32 = _
    omega
  rw [BitVec.toInt_eq_toNat_of_lt (by omega), hwidth]
  exact Int.toNat_natCast _

/-- Tags in the tag memory. -/
def InTags (memorySize base : Addr) (granule : Nat) (use : Addr × Nat) : Prop :=
  UnitsInMemory (memorySize >>> Nat.log2 granule) (base >>> Nat.log2 granule) use.1 use.2

theorem Made.toNat_shift (hmade : Made memorySize base granule m) (a : Addr) :
    (a >>> Nat.log2 granule).toNat = a.toNat / granule := by
  rw [BitVec.toNat_ushiftRight, Nat.shiftRight_eq_div_pow, hmade.pow_eq]

theorem cleared_inTags_iff (hmade : Made memorySize base granule m) (hgranule : granule < 2 ^ 32)
    (hpos : 0 < size) (hsize : size < 2 ^ 31) (hbase : base.toNat ≤ address.toNat) :
    InTags memorySize base granule (m.cleared address size) ↔
      address.toNat + size ≤ taggedEnd memorySize base granule := by
  have hg : 0 < granule := hmade.pow_eq ▸ Nat.two_pow_pos _
  obtain ⟨hfirst, hcount⟩ := @cleared_eq memorySize base address granule size m hmade hgranule hsize
  have hlast : address.toNat / granule + 1 ≤ (address.toNat + size + granule - 1) / granule := by
    rw [← Nat.add_div_right _ hg]
    exact Nat.div_le_div_right (by omega)
  have hlo : base.toNat / granule ≤ address.toNat / granule := Nat.div_le_div_right hbase
  rw [InTags, unitsInMemory_iff (by omega), hfirst, hcount, hmade.toNat_shift, hmade.toNat_shift,
    and_iff_right hlo, Nat.add_sub_cancel' (by omega), ← Nat.lt_succ_iff,
    Nat.div_lt_iff_lt_mul hg, taggedEnd, Nat.succ_mul, Nat.mul_comm granule]
  omega

theorem tagged_inTags_iff (hmade : Made memorySize base granule m)
    (haligned : address.toNat % granule = 0) {tags : Bytes}
    (hbase : tags ≠ [] → base.toNat ≤ address.toNat) :
    InTags memorySize base granule (address >>> m.shift, tags.length) ↔
      tags = [] ∨ address.toNat + granule * tags.length ≤ taggedEnd memorySize base granule := by
  by_cases hnil : tags = []
  · subst hnil
    exact iff_of_true (fun i hi => absurd hi (Nat.not_lt_zero i)) (.inl rfl)
  have hg : 0 < granule := hmade.pow_eq ▸ Nat.two_pow_pos _
  have hlo : base.toNat / granule ≤ address.toNat / granule := Nat.div_le_div_right (hbase hnil)
  rw [InTags, unitsInMemory_iff (List.length_pos_iff.mpr hnil), hmade.shift_eq, hmade.toNat_shift,
    hmade.toNat_shift, hmade.toNat_shift, and_iff_right hlo, or_iff_right hnil, taggedEnd]
  nth_rewrite 2 [← Nat.mul_div_cancel' (Nat.dvd_of_mod_eq_zero haligned)]
  rw [← Nat.mul_add]
  exact (Nat.mul_le_mul_left_iff hg).symm

theorem base_le_of_bytesInMemory (h : BytesInMemory memorySize base unit address size)
    (hpos : 0 < size) : base.toNat ≤ address.toNat := by
  have := (h 0 hpos).1
  rwa [Nat.zero_div] at this

end TaggedFlatDemandMemory

open TaggedFlatDemandMemory in
/-- **Tags.** In every state of a memory, the tags that an access to data in the memory uses are
    in the tag memory exactly if the data ends where there are tags. -/
theorem tags_covered_iff {memorySize base : Addr} {unit granule : Nat} {fill : UInt8}
    {m₀ m : TaggedFlatDemandMemory} {calls : List TaggedCall}
    (hinit : TaggedFlatDemandMemory.init memorySize base unit fill granule = some m₀)
    (hgranule : granule < 2 ^ 32) (hrun : m₀.run calls = some m) {access : TaggedAccess}
    (hsized : access.Sized) (hdata : access.DataInMemory memorySize base unit granule) :
    (∀ use ∈ m.tagUses access, InTags memorySize base granule use) ↔
      access.Covered memorySize base granule := by
  have hmade := run_keeps (made_init hinit) hrun
  have hg : 0 < granule := hmade.pow_eq ▸ Nat.two_pow_pos _
  match access, hsized, hdata with
  | .store (.store address db), hsized, hdata =>
    obtain ⟨hpos, hsize⟩ := hsized
    rw [tagUses, List.forall_mem_singleton,
      cleared_inTags_iff hmade hgranule hpos hsize (base_le_of_bytesInMemory hdata hpos)]
    rfl
  | .store (.storeVector addresses masks elSize db), hsized, hdata =>
    obtain ⟨hpos, hmasks, hlen, hsize⟩ := hsized
    have hpart : 0 < addresses.length → 0 < db.length / addresses.length := by
      intro haddresses
      have hle : elSize * addresses.length ≤ db.length :=
        (Nat.mul_le_mul_left elSize hmasks).trans hlen
      exact Nat.lt_of_lt_of_le hpos ((Nat.le_div_iff_mul_le haddresses).mpr hle)
    have huse : ∀ i < addresses.length, masks.getD i false = true →
        (InTags memorySize base granule
            (m.cleared (addresses.getD i 0) (db.length / addresses.length)) ↔
          (addresses.getD i 0).toNat + db.length / addresses.length ≤
            taggedEnd memorySize base granule) := by
      intro i hi hmask
      have hin := hdata i (Nat.lt_of_lt_of_le hi hmasks) hmask
      rw [elementAddress_of_lt hi] at hin
      exact cleared_inTags_iff hmade hgranule (hpart (Nat.zero_lt_of_lt hi))
        (Nat.lt_of_le_of_lt (Nat.div_le_self _ _) hsize) (base_le_of_bytesInMemory hin hpos)
    rw [tagUses, List.forall_mem_map]
    simp only [List.mem_filter, List.mem_range, and_imp]
    exact forall_congr' fun i => forall_congr' fun hi => forall_congr' fun hmask => huse i hi hmask
  | .store (.storeTagged address db tags), _, hdata =>
    rw [tagUses, TaggedAccess.Covered, hmade.granule_eq, ← hmade.shift_eq]
    split
    · rename_i hcheck
      obtain ⟨haligned, hlen⟩ := aligned_of_checkRequest (hmade.shift_eq ▸ hmade.pow_eq) hcheck
      have hlen := hlen db rfl
      have hnil : db = [] ↔ tags = [] := by
        rw [← List.length_eq_zero_iff, ← List.length_eq_zero_iff, hlen, Nat.mul_eq_zero,
          or_iff_right hg.ne']
      rw [List.forall_mem_singleton, tagged_inTags_iff hmade haligned, forall_prop_of_true hcheck,
        hnil, hlen]
      intro htags
      refine base_le_of_bytesInMemory hdata (List.length_pos_iff.mpr ?_)
      exact fun h => htags (hnil.mp h)
    · rename_i hcheck
      exact iff_of_true (fun _ h => (nomatch h)) fun h => absurd h hcheck
  | .loadTagged address db tags, _, hdata =>
    rw [tagUses, TaggedAccess.Covered, hmade.granule_eq, ← hmade.shift_eq]
    split
    · rename_i hcheck
      obtain ⟨haligned, -⟩ := aligned_of_checkRequest (hmade.shift_eq ▸ hmade.pow_eq) hcheck
      rw [List.forall_mem_singleton, tagged_inTags_iff hmade haligned, forall_prop_of_true hcheck]
      intro htags
      exact base_le_of_bytesInMemory hdata
        (Nat.mul_pos hg (List.length_pos_iff.mpr htags))
    · rename_i hcheck
      exact iff_of_true (fun _ h => (nomatch h)) fun h => absurd h hcheck

/-- A tagged load of the second granule of a memory of two. -/
theorem tags_covered_secondGranule :
    ∃ m, TaggedFlatDemandMemory.init 0x20 0x10 1 0 0x10 = some m ∧
      ∀ use ∈ m.tagUses (.loadTagged 0x20 (some (List.replicate 16 0)) [0]),
        TaggedFlatDemandMemory.InTags 0x20 0x10 0x10 use := by
  obtain ⟨m, hinit⟩ : ∃ m, TaggedFlatDemandMemory.init 0x20 0x10 1 0 0x10 = some m := ⟨_, rfl⟩
  have hrun : m.run [] = some m := rfl
  have hdata : (TaggedAccess.loadTagged 0x20 (some (List.replicate 16 0)) [0]).DataInMemory
      0x20 0x10 1 0x10 := by
    intro j hj
    have hj : j < 16 := hj
    show 0x10 ≤ 0x20 + j / 1 ∧ 0x20 + j / 1 < 0x10 + 0x20 ∧ 0x20 + j / 1 < 2 ^ 64
    omega
  have hsized : (TaggedAccess.loadTagged 0x20 (some (List.replicate 16 0)) [0]).Sized := trivial
  refine ⟨m, hinit, (tags_covered_iff hinit (by decide) hrun hsized hdata).mpr ?_⟩
  exact fun _ => .inr (by decide)

/-- A memory of one granule that starts in the middle of one: the tag of the second half is not in
    the tag memory. -/
theorem not_tags_covered_unaligned :
    ∃ m, TaggedFlatDemandMemory.init 0x10 8 1 0 0x10 = some m ∧
      (TaggedAccess.store (.store 0x10 [1, 2])).DataInMemory 0x10 8 1 0x10 ∧
      ¬ ∀ use ∈ m.tagUses (.store (.store 0x10 [1, 2])),
        TaggedFlatDemandMemory.InTags 0x10 8 0x10 use := by
  refine ⟨_, rfl, fun j hj => ?_, fun h => ?_⟩
  · have hj : j < 2 := hj
    show 8 ≤ 0x10 + j / 1 ∧ 0x10 + j / 1 < 8 + 0x10 ∧ 0x10 + j / 1 < 2 ^ 64
    omega
  · have huse := h (1, 1) (by decide)
    exact absurd (huse 0 (by decide)).2 (by decide)

end MpactSim.Memory
