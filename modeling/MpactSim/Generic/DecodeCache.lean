import Mathlib.Data.Nat.Bitwise
import Mathlib.Data.Nat.Size
import MpactSim.Generic.DelayLine
import MpactSim.Lib.DirectMapped

namespace MpactSim.Generic

open Lib

/-!
# The decode cache

`DecodeCache` keeps decoded instructions in a direct-mapped array, which it indexes with shifted
and masked address bits.

* `DecodeCache`          — what the constructor works out from the properties;
* `DecodeCache.State`    — the array, and the references that the cache holds;
* `index_eq`             — the slot of an address, in arithmetic;
* `invalidateLoop_sound` — what a range invalidation that ends has taken out;
* `invalidateLoop_ends`  — when it ends.
-/

universe u

instance lawfulBEqOption {ι : Type u} [DecidableEq ι] : LawfulBEq (Option ι) := inferInstance

/-! ### The source -/

/-- `DecodeCacheProperties`. -/
structure DecodeCacheProperties where
  numEntries : BitVec 32
  minimumPcIncrement : BitVec 32

/-- The members that the constructor sets. -/
structure DecodeCache where
  numEntries : ℕ
  addressShift : ℕ
  addressInc : ℕ
  addressMask : BitVec 64
  deriving DecidableEq

namespace DecodeCache

/-- `DecodeCache::Create`. -/
def create (props : DecodeCacheProperties) : Option DecodeCache :=
  let numEntries := bitCeil props.numEntries.toNat
  let increment := props.minimumPcIncrement.toNat
  let addressShift := Nat.size increment - 1
  -- The number of entries is an `int`, and there is no array with a negative number of them.
  if 2 ^ 31 ≤ numEntries then none
  -- A shift by -1 has no value, and no power of two is zero.
  else if increment = 0 ∨ 2 ^ addressShift ≠ increment then none
  else some
    { numEntries := numEntries
      addressShift := addressShift
      addressInc := increment
      -- The mask is worked out as an `int`, and then made a `uint64_t`.
      addressMask := (BitVec.ofNat 32 (numEntries - 1) <<< addressShift).signExtend 64 }

/-- The array, the references that the cache holds, and how often it has called the decoder. -/
@[ext]
structure State (ι : Type u) where
  instructionCache : List (Option ι)
  refs : ι → ℤ
  decoded : ℕ

variable {ι : Type u} [DecidableEq ι] (c : DecodeCache) (address : ι → BitVec 64)
  (decode : ℕ → BitVec 64 → Option ι)

/-- The slot of an address. -/
def index (a : BitVec 64) : ℕ := ((a &&& c.addressMask) >>> c.addressShift).toNat

/-- The state that the constructor leaves. -/
def initial : State ι := ⟨List.replicate c.numEntries none, fun _ => 0, 0⟩

/-- A reference to an instruction is given up. -/
def decRef (refs : ι → ℤ) (i : ι) : ι → ℤ := Function.update refs i (refs i - 1)

/-- The reference that comes with an instruction from the decoder is kept. -/
def keepRef (refs : ι → ℤ) (i : ι) : ι → ℤ := Function.update refs i (refs i + 1)

/-- `DecodeCache::GetDecodedInstruction`.  There is no result if the slot is outside the array. -/
def getDecodedInstruction (s : State ι) (a : BitVec 64) : Option (State ι × Option ι) :=
  s.instructionCache[c.index a]?.map fun inst =>
    if inst.any (address · == a) then (s, inst)
    else
      match decode s.decoded a with
      | none => ({ s with decoded := s.decoded + 1 }, none)
      | some newInst =>
        let refs := inst.elim s.refs (decRef s.refs)
        (⟨s.instructionCache.set (c.index a) (some newInst), keepRef refs newInst, s.decoded + 1⟩,
          some newInst)

/-- `DecodeCache::Invalidate`.  There is no result if the slot is outside the array. -/
def invalidate (s : State ι) (a : BitVec 64) : Option (State ι) :=
  s.instructionCache[c.index a]?.map fun inst =>
    match inst with
    | none => s
    | some i =>
      if address i = a then ⟨s.instructionCache.set (c.index a) none, decRef s.refs i, s.decoded⟩
      else s

/-- The loop of `DecodeCache::InvalidateRange`.  There is no result if it looks outside the array,
    or has not ended within the given rounds. -/
def invalidateLoop : ℕ → BitVec 64 → BitVec 64 → State ι → Option (State ι)
  | 0, _, _, _ => none
  | fuel + 1, loc, endAddress, s =>
    if loc < endAddress then
      (c.invalidate address s loc).bind
        (invalidateLoop fuel (loc + BitVec.ofNat 64 c.addressInc) endAddress)
    else some s

/-- `DecodeCache::InvalidateRange`, with as many rounds as the range has addresses. -/
def invalidateRange (s : State ι) (startAddress endAddress : BitVec 64) : Option (State ι) :=
  c.invalidateLoop address (endAddress.toNat - startAddress.toNat + 1) startAddress endAddress s

/-- `DecodeCache::InvalidateAll`. -/
def invalidateAll (s : State ι) : State ι :=
  ⟨s.instructionCache.map fun _ => none,
    s.instructionCache.foldl (fun refs inst => inst.elim refs (decRef refs)) s.refs, s.decoded⟩

/-! ### The layout -/

/-- What `create` accepts: `2 ^ k` entries, and an increment of `2 ^ shift`. -/
def Accepts (c : DecodeCache) (k : ℕ) : Prop :=
  k ≤ 30 ∧ c.addressShift ≤ 31 ∧ c.numEntries = 2 ^ k ∧ c.addressInc = 2 ^ c.addressShift ∧
    c.addressMask = (BitVec.ofNat 32 (2 ^ k - 1) <<< c.addressShift).signExtend 64

variable {c} {k : ℕ}

theorem accepts_of_create {props : DecodeCacheProperties} (h : create props = some c) :
    ∃ k, c.Accepts k := by
  obtain ⟨k, hk⟩ : ∃ k, bitCeil props.numEntries.toNat = 2 ^ k := ⟨_, rfl⟩
  simp only [create, hk] at h
  by_cases hmany : 2 ^ 31 ≤ 2 ^ k
  · rw [if_pos hmany] at h
    cases h
  · rw [if_neg hmany] at h
    split at h
    · cases h
    · rename_i hinc
      cases h
      obtain ⟨hpos, hpow⟩ := not_or.mp hinc
      rw [not_not] at hpow
      have hsize : Nat.size props.minimumPcIncrement.toNat ≤ 32 :=
        Nat.size_le.mpr props.minimumPcIncrement.isLt
      have hlt : k < 31 := (Nat.pow_lt_pow_iff_right (by omega)).mp (not_le.mp hmany)
      exact ⟨k, by omega, by show _ - 1 ≤ 31; omega, rfl, hpow.symm, rfl⟩

theorem Accepts.getLsbD_addressMask (h : c.Accepts k) {b : ℕ} (hb : b < 64) :
    c.addressMask.getLsbD b =
      decide (c.addressShift ≤ b ∧ (b < 32 → b < c.addressShift + k) ∧
        (32 ≤ b → 31 < c.addressShift + k)) := by
  obtain ⟨hk, hs, -, -, hmask⟩ := h
  rw [hmask, BitVec.getLsbD_signExtend, BitVec.msb_eq_getLsbD_last]
  simp only [BitVec.getLsbD_shiftLeft, BitVec.getLsbD_ofNat, Nat.testBit_two_pow_sub_one]
  rw [Bool.eq_iff_iff]
  by_cases hlow : b < 32
  · simp [hb, hlow]
    omega
  · simp [hb, hlow]
    omega

/-- The slot of an address is the address by increments, and wraps around at the number of entries
    if the mask is not negative. -/
theorem Accepts.index_eq (h : c.Accepts k) (a : BitVec 64) :
    c.index a = if c.addressShift + k ≤ 31 then a.toNat / 2 ^ c.addressShift % 2 ^ k
      else a.toNat / 2 ^ c.addressShift := by
  have hbit (b : ℕ) : (c.index a).testBit b =
      (a.getLsbD (b + c.addressShift) && c.addressMask.getLsbD (b + c.addressShift)) := by
    rw [index, BitVec.testBit_toNat, BitVec.getLsbD_ushiftRight, BitVec.getLsbD_and, Nat.add_comm]
  apply Nat.eq_of_testBit_eq
  intro b
  rw [hbit]
  by_cases hb : b + c.addressShift < 64
  · rw [h.getLsbD_addressMask hb, ← BitVec.testBit_toNat]
    have hk := h.1
    split
    · rw [Nat.testBit_mod_two_pow, Nat.testBit_div_two_pow, Bool.and_comm]
      congr 1
      rw [decide_eq_decide]
      omega
    · rw [Nat.testBit_div_two_pow]
      have : c.addressShift ≤ b + c.addressShift ∧ (b + c.addressShift < 32 →
          b + c.addressShift < c.addressShift + k) ∧
          (32 ≤ b + c.addressShift → 31 < c.addressShift + k) := by omega
      rw [decide_eq_true this, Bool.and_true]
  · rw [BitVec.getLsbD_of_ge _ _ (not_lt.mp hb), Bool.false_and]
    have hhigh : (a.toNat / 2 ^ c.addressShift).testBit b = false := by
      rw [Nat.testBit_div_two_pow, BitVec.testBit_toNat, BitVec.getLsbD_of_ge _ _ (not_lt.mp hb)]
    split
    · rw [Nat.testBit_mod_two_pow, hhigh, Bool.and_false]
    · exact hhigh.symm

/-- An address that has a slot: all have one if the entries cover less than `2 ^ 31` bytes. -/
def Reaches (c : DecodeCache) (a : BitVec 64) : Prop :=
  c.numEntries * c.addressInc ≤ 2 ^ 31 ∨ a.toNat < c.numEntries * c.addressInc

theorem Accepts.index_lt_iff (h : c.Accepts k) (a : BitVec 64) :
    c.index a < c.numEntries ↔ c.Reaches a := by
  have hindex := h.index_eq a
  obtain ⟨hk, hs, hentries, hinc, -⟩ := h
  rw [Reaches, hentries, hinc, ← Nat.pow_add, hindex, Nat.pow_le_pow_iff_right (by omega)]
  split
  · rename_i hfits
    exact iff_of_true (Nat.mod_lt _ (Nat.two_pow_pos k)) (.inl (by omega))
  · rename_i hfits
    rw [Nat.div_lt_iff_lt_mul (Nat.two_pow_pos _), ← Nat.pow_add]
    constructor
    · exact .inr
    · rintro (hle | hlt)
      · omega
      · exact hlt

/-! ### The references -/

section Held

variable (c) {address} {decode} {s s' : State ι} {i : ι} {a : BitVec 64} {p : BitVec 64 → Bool}

/-- Every instruction is in the slot of its address, and the cache holds one reference to each. -/
structure Held (address : ι → BitVec 64) (s : State ι) : Prop where
  length : s.instructionCache.length = c.numEntries
  placed : Placed address c.index s.instructionCache
  refs : ∀ i, s.refs i = if some i ∈ s.instructionCache then 1 else 0

/-- The state without the instructions whose addresses satisfy `p`. -/
def State.without (address : ι → BitVec 64) (p : BitVec 64 → Bool) (s : State ι) : State ι :=
  ⟨clear address p s.instructionCache,
    fun i => if some i ∈ clear address p s.instructionCache then 1 else 0, s.decoded⟩

variable {c}

theorem held_initial : c.Held address c.initial := by
  apply Held.mk List.length_replicate (placed_replicate_none _)
  intro i
  rw [if_neg]
  · rfl
  · intro hi
    exact Option.some_ne_none i (List.eq_of_mem_replicate hi)

namespace Held

theorem eq_of_mem (h : c.Held address s) {j : ι} (hi : some i ∈ s.instructionCache)
    (hj : some j ∈ s.instructionCache) (heq : address i = address j) : i = j := by
  have hslot := h.placed.mem_iff.mp hi
  rw [heq, h.placed.mem_iff.mp hj] at hslot
  exact (Option.some.inj (Option.some.inj hslot)).symm

theorem without (h : c.Held address s) : c.Held address (s.without address p) :=
  ⟨length_clear.trans h.length, h.placed.clear, fun _ => rfl⟩

theorem without_eq_self (h : c.Held address s)
    (hp : ∀ i, some i ∈ s.instructionCache → p (address i) = false) :
    s.without address p = s := by
  have hslots : clear address p s.instructionCache = s.instructionCache := clear_eq_self hp
  refine State.ext hslots (funext fun i => ?_) rfl
  rw [h.refs i, State.without, hslots]

theorem decRef_eq (h : c.Held address s) (hi : some i ∈ s.instructionCache) (j : ι) :
    decRef s.refs i j =
      (s.without address fun x => decide (x = address i)).refs j := by
  have hmem : some j ∈ clear address (fun x => decide (x = address i)) s.instructionCache ↔
      some j ∈ s.instructionCache ∧ j ≠ i := by
    rw [mem_clear, decide_eq_false_iff_not, and_congr_right_iff]
    intro hj
    exact not_congr ⟨fun heq => h.eq_of_mem hj hi heq, congrArg address⟩
  simp only [decRef, State.without, hmem, Function.update_apply]
  split
  · rename_i heq
    subst heq
    simp [h.refs j, hi]
  · rename_i hne
    simp [h.refs j, hne]

end Held

/-! ### Invalidations -/

/-- **Invalidate**: an address that has a slot is taken out. -/
theorem invalidate_eq (h : c.Held address s) (ha : c.index a < c.numEntries) :
    c.invalidate address s a = some (s.without address fun x => decide (x = a)) := by
  have hlen : c.index a < s.instructionCache.length := h.length ▸ ha
  have hslot := List.getElem?_eq_getElem hlen
  rw [invalidate, hslot, Option.map_some]
  congr 1
  generalize s.instructionCache[c.index a] = inst at hslot
  -- Only the slot of the address can hold an instruction with it.
  have honly (j : ι) (hj : some j ∈ s.instructionCache) (heq : address j = a) :
      inst = some j := by
    have hj' := h.placed.mem_iff.mp hj
    rw [heq, hslot] at hj'
    exact Option.some.inj hj'
  cases inst with
  | none =>
    apply (h.without_eq_self _).symm
    intro j hj
    apply decide_eq_false
    intro heq
    exact absurd (honly j hj heq) (Option.some_ne_none j).symm
  | some i =>
    show (if address i = a then _ else _) = _
    split
    · rename_i heq
      subst heq
      exact State.ext (h.placed.set_none hslot)
        (funext (h.decRef_eq (List.mem_of_getElem? hslot))) rfl
    · rename_i hne
      apply (h.without_eq_self _).symm
      intro j hj
      apply decide_eq_false
      intro heq
      apply hne
      rw [Option.some.inj (honly j hj heq)]
      exact heq

theorem invalidate_eq_none (h : c.Held address s) (ha : ¬c.index a < c.numEntries) :
    c.invalidate address s a = none := by
  rw [invalidate, List.getElem?_eq_none (by rw [h.length]; omega), Option.map_none]

theorem without_without {q : BitVec 64 → Bool} :
    (s.without address p).without address q = s.without address fun x => p x || q x := by
  have hslots : clear address q (clear address p s.instructionCache) =
      clear address (fun x => p x || q x) s.instructionCache := clear_clear
  refine State.ext hslots (funext fun i => ?_) rfl
  simp only [State.without, hslots]

theorem foldl_decRef (slots : List (Option ι)) (refs : ι → ℤ) (i : ι) :
    slots.foldl (fun refs inst => inst.elim refs (decRef refs)) refs i =
      refs i - slots.count (some i) := by
  induction slots generalizing refs with
  | nil => simp
  | cons inst slots ih =>
    rw [List.foldl_cons, ih, List.count_cons]
    cases inst with
    | none => simp
    | some j =>
      by_cases hj : j = i
      · subst hj
        simp [decRef]
        ring
      · simp [decRef, Function.update_of_ne (Ne.symm hj), hj]

/-- **InvalidateAll**: everything is taken out. -/
theorem invalidateAll_eq (h : c.Held address s) :
    invalidateAll s = s.without address fun _ => true := by
  refine State.ext ?_ (funext fun i => ?_) rfl
  · apply List.map_congr_left
    intro o _
    cases o with
    | none => rfl
    | some i => rfl
  · have hnone : some i ∉ clear address (fun _ => true) s.instructionCache := by
      simp [mem_clear]
    show (List.foldl _ _ _ : ι → ℤ) i =
      if some i ∈ clear address (fun _ => true) s.instructionCache then 1 else 0
    rw [foldl_decRef, h.refs i, h.placed.count_eq, if_neg hnone]
    split
    · rfl
    · rfl

/-! ### Ranges -/

/-- An address that the loop over a range comes to. -/
def visits (c : DecodeCache) (startAddress endAddress x : BitVec 64) : Bool :=
  decide (startAddress ≤ x ∧ x < endAddress ∧
    x.toNat % c.addressInc = startAddress.toNat % c.addressInc)

/-- The last address that the loop over a range comes to is not the last of all. -/
def Stops (c : DecodeCache) (startAddress endAddress : BitVec 64) : Prop :=
  endAddress.toNat + c.addressInc ≤ 2 ^ 64 + startAddress.toNat % c.addressInc

variable {loc endAddress : BitVec 64} {fuel : ℕ}

theorem Accepts.addressInc_pos (hc : c.Accepts k) : 0 < c.addressInc := by
  rw [hc.2.2.2.1]
  exact Nat.two_pow_pos _

theorem Accepts.addressInc_dvd (hc : c.Accepts k) : c.addressInc ∣ 2 ^ 64 := by
  rw [hc.2.2.2.1]
  exact Nat.pow_dvd_pow 2 (hc.2.1.trans (by omega))

theorem toNat_add_addressInc (c : DecodeCache) (loc : BitVec 64) :
    (loc + BitVec.ofNat 64 c.addressInc).toNat = (loc.toNat + c.addressInc) % 2 ^ 64 := by
  rw [BitVec.toNat_add, BitVec.toNat_ofNat, Nat.add_mod_mod]

theorem Accepts.mod_add (hc : c.Accepts k) (loc : BitVec 64) :
    (loc + BitVec.ofNat 64 c.addressInc).toNat % c.addressInc = loc.toNat % c.addressInc := by
  rw [toNat_add_addressInc, Nat.mod_mod_of_dvd _ hc.addressInc_dvd, Nat.add_mod_right]

theorem Stops.add_lt (hstops : c.Stops loc endAddress) (hc : c.Accepts k) (hlt : loc < endAddress) :
    loc.toNat + c.addressInc < 2 ^ 64 := by
  have hpos := hc.addressInc_pos
  obtain ⟨m, hm⟩ := hc.addressInc_dvd
  rw [BitVec.lt_def] at hlt
  unfold Stops at hstops
  have hdiv := Nat.div_add_mod loc.toNat c.addressInc
  have hmod := Nat.mod_lt loc.toNat hpos
  rw [hm] at hstops ⊢
  -- Both addresses are counted in increments.
  have hrounds : c.addressInc * (loc.toNat / c.addressInc + 1) < c.addressInc * m := by
    rw [Nat.mul_add]
    omega
  have hle := Nat.mul_le_mul_left c.addressInc (Nat.lt_of_mul_lt_mul_left hrounds)
  rw [Nat.succ_eq_add_one, Nat.mul_add, Nat.mul_add] at hle
  omega

theorem Stops.visits_eq (hstops : c.Stops loc endAddress) (hc : c.Accepts k)
    (hlt : loc < endAddress) (x : BitVec 64) :
    (decide (x = loc) || c.visits (loc + BitVec.ofNat 64 c.addressInc) endAddress x) =
      c.visits loc endAddress x := by
  have hsum := c.toNat_add_addressInc loc
  rw [Nat.mod_eq_of_lt (hstops.add_lt hc hlt)] at hsum
  rw [Bool.eq_iff_iff, Bool.or_eq_true]
  simp only [visits, decide_eq_true_eq, BitVec.le_def, hsum, Nat.add_mod_right]
  constructor
  · rintro (rfl | ⟨hle, hend, hmod⟩)
    · exact ⟨le_rfl, hlt, rfl⟩
    · exact ⟨by omega, hend, hmod⟩
  · rintro ⟨hle, hend, hmod⟩
    by_cases heq : x = loc
    · exact .inl heq
    · refine .inr ⟨?_, hend, hmod⟩
      -- Addresses with the same rest are at least an increment apart.
      have hdvd : c.addressInc ∣ x.toNat - loc.toNat := Nat.dvd_of_mod_eq_zero (Nat.sub_mod_eq_zero_of_mod_eq hmod)
      have hne : x.toNat ≠ loc.toNat := mt BitVec.eq_of_toNat_eq heq
      have := Nat.le_of_dvd (by omega) hdvd
      omega

/-- A loop that comes to the last address of all goes around for ever. -/
theorem invalidateLoop_wraps (hc : c.Accepts k) (hwraps : ¬c.Stops loc endAddress) :
    c.invalidateLoop address fuel loc endAddress s = none := by
  induction fuel generalizing loc s with
  | zero => rfl
  | succ fuel ih =>
    have hlt : loc < endAddress := by
      obtain ⟨m, hm⟩ := hc.addressInc_dvd
      have hdiv := Nat.div_add_mod loc.toNat c.addressInc
      rw [BitVec.lt_def]
      unfold Stops at hwraps
      have hbound : c.addressInc * (loc.toNat / c.addressInc) + c.addressInc ≤ 2 ^ 64 := by
        have hloc : c.addressInc * (loc.toNat / c.addressInc) < c.addressInc * m := by
          rw [← hm]
          omega
        have hle := Nat.mul_le_mul_left c.addressInc (Nat.lt_of_mul_lt_mul_left hloc)
        rw [hm]
        rwa [Nat.succ_eq_add_one, Nat.mul_add, Nat.mul_one] at hle
      omega
    rw [invalidateLoop, if_pos hlt, Option.bind_eq_none_iff]
    intro s₁ _
    apply ih
    unfold Stops
    rw [hc.mod_add]
    exact hwraps

/-- **Range invalidation.** A loop that ends has come to addresses with slots, and has taken them
    out. -/
theorem invalidateLoop_sound (hc : c.Accepts k) (h : c.Held address s)
    (hrun : c.invalidateLoop address fuel loc endAddress s = some s') :
    (∀ x, c.visits loc endAddress x = true → c.index x < c.numEntries) ∧
      s' = s.without address (c.visits loc endAddress) := by
  have hstops : c.Stops loc endAddress := by
    by_contra hwraps
    rw [invalidateLoop_wraps hc hwraps] at hrun
    cases hrun
  -- Induction on the rounds: the first one takes its address out.
  induction fuel generalizing loc s with
  | zero => cases hrun
  | succ fuel ih =>
    rw [invalidateLoop] at hrun
    split at hrun
    · rename_i hlt
      obtain ⟨s₁, hfirst, hrest⟩ := Option.bind_eq_some_iff.mp hrun
      have hloc : c.index loc < c.numEntries := by
        by_contra hout
        rw [invalidate_eq_none h hout] at hfirst
        cases hfirst
      rw [invalidate_eq h hloc] at hfirst
      obtain rfl := Option.some.inj hfirst
      have hstops' : c.Stops (loc + BitVec.ofNat 64 c.addressInc) endAddress := by
        unfold Stops
        rw [hc.mod_add]
        exact hstops
      obtain ⟨hinside, rfl⟩ := ih h.without hrest hstops'
      have hvisits := funext (hstops.visits_eq hc hlt)
      constructor
      · intro x hx
        rw [← hvisits, Bool.or_eq_true, decide_eq_true_eq] at hx
        rcases hx with rfl | hx
        · exact hloc
        · exact hinside x hx
      · rw [without_without, hvisits]
    · rename_i hlt
      cases hrun
      have hnone (x : BitVec 64) : c.visits loc endAddress x = false := by
        apply decide_eq_false
        rintro ⟨hle, hend, -⟩
        rw [BitVec.lt_def] at hlt hend
        rw [BitVec.le_def] at hle
        omega
      refine ⟨fun x hx => ?_, (h.without_eq_self fun i _ => hnone _).symm⟩
      rw [hnone] at hx
      cases hx

theorem invalidateLoop_ends (hc : c.Accepts k) (h : c.Held address s)
    (hstops : c.Stops loc endAddress)
    (hinside : ∀ x, c.visits loc endAddress x = true → c.index x < c.numEntries)
    (hfuel : endAddress.toNat - loc.toNat < fuel) :
    c.invalidateLoop address fuel loc endAddress s =
      some (s.without address (c.visits loc endAddress)) := by
  suffices hends : ∃ s', c.invalidateLoop address fuel loc endAddress s = some s' by
    obtain ⟨s', hs'⟩ := hends
    rw [hs', (invalidateLoop_sound hc h hs').2]
  induction fuel generalizing loc s with
  | zero => omega
  | succ fuel ih =>
    rw [invalidateLoop]
    split
    · rename_i hlt
      have hvisits := hstops.visits_eq hc hlt
      have hloc : c.index loc < c.numEntries := by
        apply hinside
        rw [← hvisits]
        simp
      have hsum := c.toNat_add_addressInc loc
      rw [Nat.mod_eq_of_lt (hstops.add_lt hc hlt)] at hsum
      have hpos := hc.addressInc_pos
      rw [invalidate_eq h hloc, Option.bind_some]
      apply ih h.without
      · unfold Stops
        rw [hc.mod_add]
        exact hstops
      · intro x hx
        apply hinside
        rw [← hvisits, hx, Bool.or_true]
      · rw [BitVec.lt_def] at hlt
        omega
    · exact ⟨s, rfl⟩

end Held

end DecodeCache

end MpactSim.Generic
