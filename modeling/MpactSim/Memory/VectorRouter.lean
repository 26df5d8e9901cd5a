import MpactSim.Memory.Router

namespace MpactSim.Memory

open Lib

/-!
# Routing vector accesses

A vector access is not split.  The router looks up its unmasked elements one after the other and
forwards the access to the target that they have in common.  The loop ends at the first element
without a target, with the target of the elements before it, which then gets the whole access.

Only elements that have an address are looked up, that is the first one alone if the stride is
fixed; a plain default target is taken without a look at the tagged ones; and a tagged store wants
one byte more than it writes.  `vectorRouted_iff` says when the access is routed well in spite of
this.
-/

universe u

variable {μ τ ω ι : Type u}

/-! ### The source -/

/-- What the body of a loop finds for one element, which starts at `address`. -/
def elementTarget (map : RangeMap Addr ι) (default : Option ι) (address last : Addr) : Option ι :=
  match RangeMap.find? map ⟨address, last⟩ with
  | none => default
  | some it => if it.1.lo > address ∨ it.1.hi < last then none else some it.2

/-- The loop over the elements, with the target found so far. -/
def findTarget [DecidableEq ι] (masks : List Bool) (target : Nat → Option ι) :
    List Nat → Option ι → Except String (Option ι)
  | [], memory => .ok memory
  | i :: rest, memory =>
    if masks.getD i false then
      match target i with
      | none => .ok memory
      | some tmp =>
        match memory with
        | none => findTarget masks target rest (some tmp)
        | some m =>
          if tmp ≠ m then .error "Multiple targets found for address vector load"
          else findTarget masks target rest (some m)
    else findTarget masks target rest memory

namespace SingleInitiatorRouter

section Access

variable (r : SingleInitiatorRouter μ τ ω) (addresses : List Addr) (masks : List Bool)
  (elSize : Nat)

/-- The plain target of an element. -/
def plainTarget (i : Nat) : Option μ :=
  let address := addresses.getD i 0
  elementTarget r.memoryTargets r.defaultMemoryTarget address
    (address + BitVec.ofNat 64 elSize - 1)

/-- The tagged target of an element that is loaded. -/
def taggedLoadTarget (i : Nat) : Option τ :=
  let address := addresses.getD i 0
  elementTarget r.taggedTargets r.defaultTaggedTarget address
    (address + BitVec.ofNat 64 elSize - 1)

/-- The tagged target of an element that is stored; the range has one byte more. -/
def taggedStoreTarget (i : Nat) : Option τ :=
  let address := addresses.getD i 0
  elementTarget r.taggedTargets r.defaultTaggedTarget address (address + BitVec.ofNat 64 elSize)

variable [DecidableEq μ] [DecidableEq τ]

/-- The body of a vector `Load` or `Store`: where the access goes, or the error that is logged. -/
def vector (tagged : Nat → Option τ) (text : String) : Except String (μ ⊕ τ) := do
  let count := List.range addresses.length
  match ← findTarget masks (r.plainTarget addresses elSize) count none with
  | some memory => pure (.inl memory)
  | none =>
    match ← findTarget masks tagged count none with
    | some memory => pure (.inr memory)
    | none => .error text

/-- Where a vector `Load` goes. -/
def loadVector : Except String (μ ⊕ τ) :=
  r.vector addresses masks elSize (r.taggedLoadTarget addresses elSize)
    "No target found for vector load"

/-- Where a vector `Store` goes. -/
def storeVector : Except String (μ ⊕ τ) :=
  r.vector addresses masks elSize (r.taggedStoreTarget addresses elSize)
    "No target found for vector store"

end Access

end SingleInitiatorRouter

/-! ### The specification -/

/-- All bytes from an address on are in the range. -/
def HasBytes (range : AddressRange) (address : Addr) (size : Nat) : Prop :=
  ∀ k < size, range.lo ≤ address + BitVec.ofNat 64 k ∧ address + BitVec.ofNat 64 k ≤ range.hi

/-- Some of these bytes is in the range. -/
def TouchesBytes (range : AddressRange) (address : Addr) (size : Nat) : Prop :=
  ∃ k < size, range.lo ≤ address + BitVec.ofNat 64 k ∧ address + BitVec.ofNat 64 k ≤ range.hi

instance (range : AddressRange) (address : Addr) (size : Nat) :
    Decidable (HasBytes range address size) :=
  inferInstanceAs (Decidable (∀ k < size, _))

instance (range : AddressRange) (address : Addr) (size : Nat) :
    Decidable (TouchesBytes range address size) :=
  inferInstanceAs (Decidable (∃ k < size, _))

namespace SingleInitiatorRouter

variable (r : SingleInitiatorRouter μ τ ω) (addresses : List Addr) (masks : List Bool)
  (elSize : Nat)

/-- No range of the router has one of the bytes. -/
def Unclaimed (address : Addr) (size : Nat) : Prop :=
  (∀ e ∈ r.memoryTargets, ¬TouchesBytes e.1 address size) ∧
    ∀ e ∈ r.taggedTargets, ¬TouchesBytes e.1 address size

/-- The bytes belong to a target: they are in one of its ranges, or it is a default target and they
    are in no range. -/
def Owns (address : Addr) (size : Nat) : μ ⊕ τ → Prop
  | .inl m => (∃ e ∈ r.memoryTargets, e.2 = m ∧ HasBytes e.1 address size) ∨
      r.defaultMemoryTarget = some m ∧ r.Unclaimed address size
  | .inr t => (∃ e ∈ r.taggedTargets, e.2 = t ∧ HasBytes e.1 address size) ∨
      r.defaultTaggedTarget = some t ∧ r.Unclaimed address size

/-- All unmasked elements belong to a target. -/
def OwnsElements (target : μ ⊕ τ) : Prop :=
  ∀ i < masks.length, masks.getD i false = true →
    r.Owns (elementAddress addresses elSize i) elSize target

/-- A vector access is forwarded only to a target that its elements belong to, and a load and a
    store go to the same target. -/
structure VectorRouted [DecidableEq μ] [DecidableEq τ] : Prop where
  load : ∀ target, r.loadVector addresses masks elSize = .ok target →
    r.OwnsElements addresses masks elSize target
  store : ∀ target, r.storeVector addresses masks elSize = .ok target →
    r.OwnsElements addresses masks elSize target
  alike : (r.loadVector addresses masks elSize).toOption =
    (r.storeVector addresses masks elSize).toOption

end SingleInitiatorRouter

/-- Two elements have different targets, and all elements up to them have one. -/
def Conflict (target : Nat → Option ι) (elements : List Nat) : Prop :=
  ∃ seen, seen <+: elements ∧ (∀ i ∈ seen, (target i).isSome) ∧
    ∃ i ∈ seen, ∃ j ∈ seen, target i ≠ target j

/-- The unmasked elements that have an address. -/
def lookedUp (addresses : List Addr) (masks : List Bool) : List Nat :=
  (List.range addresses.length).filter fun i => masks.getD i false

/-- When a vector access is routed well.  Without an element that is looked up it goes nowhere. -/
def SingleInitiatorRouter.VectorOk (r : SingleInitiatorRouter μ τ ω) (addresses : List Addr)
    (masks : List Bool) (elSize : Nat) : Prop :=
  let plain := r.plainTarget addresses elSize
  let load := r.taggedLoadTarget addresses elSize
  let store := r.taggedStoreTarget addresses elSize
  let elements := lookedUp addresses masks
  ∀ first ∈ elements.head?,
    match plain first with
    | some m => Conflict plain elements ∨ r.OwnsElements addresses masks elSize (.inl m)
    | none =>
      (∀ t, load first = some t →
        Conflict load elements ∨ r.OwnsElements addresses masks elSize (.inr t)) ∧
      (∀ t, store first = some t →
        Conflict store elements ∨ r.OwnsElements addresses masks elSize (.inr t)) ∧
      ((load first).isSome →
        Conflict load elements ∨ (store first).isSome ∧ ¬Conflict store elements)

/-! ### The loop -/

section Loop

variable [DecidableEq ι] {masks : List Bool} {target : Nat → Option ι}

theorem findTarget_filter (elements : List Nat) (memory : Option ι) :
    findTarget masks target (elements.filter fun i => masks.getD i false) memory =
      findTarget masks target elements memory := by
  induction elements generalizing memory with
  | nil => rfl
  | cons i rest ih =>
    by_cases hmask : masks.getD i false = true
    · rw [List.filter_cons, if_pos hmask]
      unfold findTarget
      rw [if_pos hmask, if_pos hmask]
      simp only [ih]
    · rw [List.filter_cons, if_neg hmask, ih]
      conv_rhs => unfold findTarget
      rw [if_neg hmask]

variable {elements : List Nat} (hmasks : ∀ i ∈ elements, masks.getD i false = true)

/-- An element has another target than `m`, and all elements up to it have one. -/
def Differs (target : Nat → Option ι) (m : ι) (elements : List Nat) : Prop :=
  ∃ seen, seen <+: elements ∧ (∀ i ∈ seen, (target i).isSome) ∧ ∃ i ∈ seen, target i ≠ some m

omit [DecidableEq ι] in
theorem differs_cons_iff {i : Nat} {m : ι} (hi : target i = some m) :
    Differs target m (i :: elements) ↔ Differs target m elements := by
  constructor
  · rintro ⟨seen, hseen, hsome, j, hj, hne⟩
    cases seen with
    | nil => cases hj
    | cons a seen =>
      obtain ⟨rfl, hrest⟩ := List.cons_prefix_cons.mp hseen
      refine ⟨seen, hrest, fun k hk => hsome k (List.mem_cons_of_mem _ hk), j, ?_, hne⟩
      rcases List.mem_cons.mp hj with rfl | hj
      · exact absurd hi hne
      · exact hj
  · rintro ⟨seen, hseen, hsome, j, hj, hne⟩
    refine ⟨i :: seen, List.cons_prefix_cons.mpr ⟨rfl, hseen⟩, ?_, j,
      List.mem_cons_of_mem _ hj, hne⟩
    intro k hk
    rcases List.mem_cons.mp hk with rfl | hk
    · rw [hi]
      rfl
    · exact hsome k hk

omit [DecidableEq ι] in
theorem conflict_cons_iff {first : Nat} {m : ι} (hfirst : target first = some m) :
    Conflict target (first :: elements) ↔ Differs target m elements := by
  rw [← differs_cons_iff hfirst]
  constructor
  · rintro ⟨seen, hseen, hsome, i, hi, j, hj, hne⟩
    refine ⟨seen, hseen, hsome, ?_⟩
    by_cases him : target i = some m
    · exact ⟨j, hj, fun hjm => hne (him.trans hjm.symm)⟩
    · exact ⟨i, hi, him⟩
  · rintro ⟨seen, hseen, hsome, i, hi, hne⟩
    refine ⟨seen, hseen, hsome, i, hi, first, ?_, fun h => hne (h.trans hfirst)⟩
    cases seen with
    | nil => cases hi
    | cons a seen =>
      rw [(List.cons_prefix_cons.mp hseen).1]
      exact List.mem_cons_self

include hmasks in
theorem findTarget_some {first : Nat} {m : ι} (hfirst : target first = some m) :
    (Conflict target (first :: elements) → ∃ text,
      findTarget masks target elements (some m) = .error text) ∧
    (¬Conflict target (first :: elements) →
      findTarget masks target elements (some m) = .ok (some m)) := by
  rw [conflict_cons_iff hfirst]
  induction elements with
  | nil =>
    refine ⟨?_, fun _ => rfl⟩
    rintro ⟨seen, hseen, -, i, hi, -⟩
    rw [List.prefix_nil.mp hseen] at hi
    cases hi
  | cons i rest ih =>
    have ih := ih fun j hj => hmasks j (List.mem_cons_of_mem _ hj)
    unfold findTarget
    rw [if_pos (hmasks i List.mem_cons_self)]
    cases hi : target i with
    | none =>
      -- The loop ends here, and so does what it has seen.
      refine ⟨?_, fun _ => rfl⟩
      rintro ⟨seen, hseen, hsome, j, hj, -⟩
      cases seen with
      | nil => cases hj
      | cons a seen =>
        obtain ⟨rfl, -⟩ := List.cons_prefix_cons.mp hseen
        have := hsome a List.mem_cons_self
        rw [hi] at this
        cases this
    | some tmp =>
      dsimp only
      by_cases hsame : tmp = m
      · subst hsame
        rw [if_neg (not_not.mpr rfl)]
        rw [differs_cons_iff hi]
        exact ih
      · rw [if_pos hsame]
        refine ⟨fun _ => ⟨_, rfl⟩, fun h => absurd ?_ h⟩
        refine ⟨[i], List.cons_prefix_cons.mpr ⟨rfl, List.nil_prefix⟩, ?_, i,
          List.mem_singleton_self i, ?_⟩
        · intro j hj
          rw [List.mem_singleton.mp hj, hi]
          rfl
        · rw [hi]
          exact fun h => hsame (Option.some.inj h)

/-- **Loop rule.** What the loop finds is the target of the first element that is looked up, if
    there is no conflict. -/
theorem findTarget_lookedUp (addresses : List Addr) (masks : List Bool) (target : Nat → Option ι) :
    match (lookedUp addresses masks).head? with
    | none => findTarget masks target (List.range addresses.length) none = .ok none
    | some first =>
      match target first with
      | none => findTarget masks target (List.range addresses.length) none = .ok none
      | some m =>
        (Conflict target (lookedUp addresses masks) → ∃ text,
          findTarget masks target (List.range addresses.length) none = .error text) ∧
        (¬Conflict target (lookedUp addresses masks) →
          findTarget masks target (List.range addresses.length) none = .ok (some m)) := by
  have hfilter : findTarget masks target (List.range addresses.length) none =
      findTarget masks target (lookedUp addresses masks) none := (findTarget_filter ..).symm
  rw [hfilter]
  have hmasks : ∀ i ∈ lookedUp addresses masks, masks.getD i false = true :=
    fun i hi => (List.mem_filter.mp hi).2
  generalize lookedUp addresses masks = elements at hmasks
  cases elements with
  | nil => rfl
  | cons first rest =>
    have hrest : ∀ i ∈ rest, masks.getD i false = true :=
      fun i hi => hmasks i (List.mem_cons_of_mem _ hi)
    dsimp only [List.head?_cons]
    unfold findTarget
    rw [if_pos (hmasks first List.mem_cons_self)]
    cases hfirst : target first with
    | none => rfl
    | some m => exact findTarget_some hrest hfirst

end Loop

/-! ### Elements and their targets -/

theorem HasBytes.bounds {range : AddressRange} {address : Addr} {size : Nat} (hpos : 0 < size)
    (h : HasBytes range address size) :
    range.lo ≤ address ∧ address ≤ range.hi ∧
      range.lo ≤ address + BitVec.ofNat 64 size - 1 ∧
      address + BitVec.ofNat 64 size - 1 ≤ range.hi := by
  obtain ⟨n, rfl⟩ : ∃ n, size = n + 1 := ⟨size - 1, by omega⟩
  have hlast : address + BitVec.ofNat 64 (n + 1) - 1 = address + BitVec.ofNat 64 n := by
    rw [BitVec.ofNat_add, ← BitVec.add_assoc]
    exact BitVec.add_sub_cancel _ _
  have hfirst := h 0 hpos
  have hfirst' : address + BitVec.ofNat 64 0 = address := BitVec.add_zero _
  rw [hfirst'] at hfirst
  rw [hlast]
  exact ⟨hfirst.1, hfirst.2, (h n (by omega)).1, (h n (by omega)).2⟩

/-- A range that overlaps the range of an access has a byte of it, also if the access wraps
    around. -/
theorem touchesBytes_of_overlaps {range : AddressRange} {address : Addr} {size : Nat}
    (hpos : 0 < size) (hrange : range.lo ≤ range.hi) (h : range.Overlaps (accessRange address size)) :
    TouchesBytes range address size := by
  have hlo : range.lo ≤ (accessRange address size).hi := h.1
  have hhi : address ≤ range.hi := h.2
  rw [BitVec.le_def, accessRange_hi address hpos] at hlo
  rw [BitVec.le_def] at hhi
  have ha := address.isLt
  by_cases hstart : range.lo ≤ address
  · refine ⟨0, hpos, ?_⟩
    have hzero : address + BitVec.ofNat 64 0 = address := BitVec.add_zero _
    rw [hzero]
    exact ⟨hstart, hhi⟩
  · -- The access starts before the range and reaches its first byte.
    rw [BitVec.le_def, not_le] at hstart
    have hlt := range.lo.isLt
    have hsum : address + BitVec.ofNat 64 (range.lo.toNat - address.toNat) = range.lo := by
      apply BitVec.eq_of_toNat_eq
      rw [BitVec.toNat_add, BitVec.toNat_ofNat, Nat.add_mod_mod, Nat.mod_eq_of_lt (by omega)]
      omega
    refine ⟨range.lo.toNat - address.toNat, ?_, ?_⟩
    · have hle := Nat.mod_le (address.toNat + (size - 1)) (2 ^ 64)
      omega
    · rw [hsum]
      exact ⟨le_refl _, hrange⟩

theorem elementTarget_of_owned {map : RangeMap Addr ι} {default : Option ι} {address : Addr}
    {size : Nat} {m : ι} (hmap : RangeMap.Sorted map) (hpos : 0 < size)
    (h : (∃ e ∈ map, e.2 = m ∧ HasBytes e.1 address size) ∨
      default = some m ∧ ∀ e ∈ map, ¬TouchesBytes e.1 address size) :
    elementTarget map default address (address + BitVec.ofNat 64 size - 1) = some m := by
  unfold elementTarget
  rcases h with ⟨e, he, hm, hbytes⟩ | ⟨hdefault, hfree⟩
  · obtain ⟨hlo, hhi, hlast, hlast'⟩ := hbytes.bounds hpos
    rw [RangeMap.find?_eq_some_of_mem hmap he hlo hhi hlast]
    dsimp only
    rw [if_neg (not_or.mpr ⟨not_lt.mpr hlo, not_lt.mpr hlast'⟩), hm]
  · have hnone : RangeMap.find? map (accessRange address size) = none := by
      rw [RangeMap.find?_eq_none_iff hmap]
      intro e he hoverlap
      exact hfree e he (touchesBytes_of_overlaps hpos (hmap.wellFormed e he) hoverlap)
    unfold accessRange at hnone
    rw [hnone]
    exact hdefault

namespace SingleInitiatorRouter

section Elements

variable {r : SingleInitiatorRouter μ τ ω} {addresses : List Addr} {masks : List Bool}
  {elSize : Nat}

theorem taggedLoadTarget_of_owned (hr : r.Sorted) (hpos : 0 < elSize) {t : τ}
    (h : r.OwnsElements addresses masks elSize (.inr t)) {i : Nat}
    (hi : i ∈ lookedUp addresses masks) : r.taggedLoadTarget addresses elSize i = some t := by
  obtain ⟨hlt, hmask⟩ := List.mem_filter.mp hi
  rw [List.mem_range] at hlt
  have howns := h i (lt_length_of_unmasked hmask) hmask
  rw [elementAddress_of_lt hlt] at howns
  exact elementTarget_of_owned hr.tagged hpos (howns.imp_right fun h => ⟨h.1, h.2.2⟩)

theorem not_conflict_of_owned (hr : r.Sorted) (hpos : 0 < elSize) {t : τ}
    (h : r.OwnsElements addresses masks elSize (.inr t)) :
    ¬Conflict (r.taggedLoadTarget addresses elSize) (lookedUp addresses masks) := by
  rintro ⟨seen, hseen, -, i, hi, j, hj, hne⟩
  rw [taggedLoadTarget_of_owned hr hpos h (hseen.subset hi),
    taggedLoadTarget_of_owned hr hpos h (hseen.subset hj)] at hne
  exact hne rfl

variable [DecidableEq μ] [DecidableEq τ]

theorem vector_eq_ok_iff (r : SingleInitiatorRouter μ τ ω) (addresses : List Addr)
    (masks : List Bool) (elSize : Nat) (tagged : Nat → Option τ) (text : String) (target : μ ⊕ τ) :
    r.vector addresses masks elSize tagged text = .ok target ↔
      ∃ first ∈ (lookedUp addresses masks).head?,
        match target with
        | .inl m => r.plainTarget addresses elSize first = some m ∧
            ¬Conflict (r.plainTarget addresses elSize) (lookedUp addresses masks)
        | .inr t => r.plainTarget addresses elSize first = none ∧ tagged first = some t ∧
            ¬Conflict tagged (lookedUp addresses masks) := by
  have hplain := findTarget_lookedUp addresses masks (r.plainTarget addresses elSize)
  have htagged := findTarget_lookedUp addresses masks tagged
  unfold vector
  cases hfirst : (lookedUp addresses masks).head? with
  | none =>
    rw [hfirst] at hplain htagged
    dsimp only at hplain htagged ⊢
    rw [hplain]
    simp [bind, Except.bind, htagged]
  | some first =>
    rw [hfirst] at hplain htagged
    dsimp only at hplain htagged ⊢
    cases hm : r.plainTarget addresses elSize first with
    | some m =>
      rw [hm] at hplain
      dsimp only at hplain
      by_cases hconflict : Conflict (r.plainTarget addresses elSize) (lookedUp addresses masks)
      · obtain ⟨text', herror⟩ := hplain.1 hconflict
        rw [herror]
        cases target <;> simp [bind, Except.bind, hm, hconflict]
      · rw [hplain.2 hconflict]
        cases target <;> simp [bind, Except.bind, pure, Except.pure, hm, hconflict]
    | none =>
      rw [hm] at hplain
      dsimp only at hplain
      rw [hplain]
      cases ht : tagged first with
      | none =>
        rw [ht] at htagged
        dsimp only at htagged
        cases target <;> simp [bind, Except.bind, htagged, hm, ht]
      | some t =>
        rw [ht] at htagged
        dsimp only at htagged
        by_cases hconflict : Conflict tagged (lookedUp addresses masks)
        · obtain ⟨text', herror⟩ := htagged.1 hconflict
          cases target <;> simp [bind, Except.bind, herror, hm, hconflict]
        · cases target <;>
            simp [bind, Except.bind, pure, Except.pure, htagged.2 hconflict, hm, ht, hconflict]

omit [DecidableEq μ] [DecidableEq τ] in
theorem vectorOk_iff : r.VectorOk addresses masks elSize ↔
    ∀ first ∈ (lookedUp addresses masks).head?,
      (∀ m, r.plainTarget addresses elSize first = some m →
        Conflict (r.plainTarget addresses elSize) (lookedUp addresses masks) ∨
          r.OwnsElements addresses masks elSize (.inl m)) ∧
      (r.plainTarget addresses elSize first = none →
        (∀ t, r.taggedLoadTarget addresses elSize first = some t →
          Conflict (r.taggedLoadTarget addresses elSize) (lookedUp addresses masks) ∨
            r.OwnsElements addresses masks elSize (.inr t)) ∧
        (∀ t, r.taggedStoreTarget addresses elSize first = some t →
          Conflict (r.taggedStoreTarget addresses elSize) (lookedUp addresses masks) ∨
            r.OwnsElements addresses masks elSize (.inr t)) ∧
        ((r.taggedLoadTarget addresses elSize first).isSome →
          Conflict (r.taggedLoadTarget addresses elSize) (lookedUp addresses masks) ∨
            (r.taggedStoreTarget addresses elSize first).isSome ∧
              ¬Conflict (r.taggedStoreTarget addresses elSize) (lookedUp addresses masks))) := by
  unfold VectorOk
  refine forall₂_congr fun first _ => ?_
  cases hm : r.plainTarget addresses elSize first with
  | some m => simp
  | none => simp

theorem vector_owned_iff (r : SingleInitiatorRouter μ τ ω) (addresses : List Addr)
    (masks : List Bool) (elSize : Nat) (tagged : Nat → Option τ) (text : String) :
    (∀ target, r.vector addresses masks elSize tagged text = .ok target →
        r.OwnsElements addresses masks elSize target) ↔
      ∀ first ∈ (lookedUp addresses masks).head?,
        (∀ m, r.plainTarget addresses elSize first = some m →
          Conflict (r.plainTarget addresses elSize) (lookedUp addresses masks) ∨
            r.OwnsElements addresses masks elSize (.inl m)) ∧
        (r.plainTarget addresses elSize first = none → ∀ t, tagged first = some t →
          Conflict tagged (lookedUp addresses masks) ∨
            r.OwnsElements addresses masks elSize (.inr t)) := by
  constructor
  · intro h first hfirst
    constructor
    · intro m hm
      rw [or_iff_not_imp_left]
      intro hconflict
      exact h _ ((vector_eq_ok_iff r addresses masks elSize tagged text (.inl m)).mpr
        ⟨first, hfirst, hm, hconflict⟩)
    · intro hm t ht
      rw [or_iff_not_imp_left]
      intro hconflict
      exact h _ ((vector_eq_ok_iff r addresses masks elSize tagged text (.inr t)).mpr
        ⟨first, hfirst, hm, ht, hconflict⟩)
  · intro h target hok
    obtain ⟨first, hfirst, hcase⟩ :=
      (vector_eq_ok_iff r addresses masks elSize tagged text target).mp hok
    cases target with
    | inl m => exact ((h first hfirst).1 m hcase.1).resolve_left hcase.2
    | inr t => exact ((h first hfirst).2 hcase.1 t hcase.2.1).resolve_left hcase.2.2

/-- When loads go where stores do, if these go to owners only: no load is forwarded unless a store
    is. -/
theorem alike_iff (hr : r.Sorted) (hpos : 0 < elSize)
    (hstore : ∀ target, r.storeVector addresses masks elSize = .ok target →
      r.OwnsElements addresses masks elSize target) :
    (r.loadVector addresses masks elSize).toOption =
        (r.storeVector addresses masks elSize).toOption ↔
      ∀ first ∈ (lookedUp addresses masks).head?, r.plainTarget addresses elSize first = none →
        (r.taggedLoadTarget addresses elSize first).isSome →
          Conflict (r.taggedLoadTarget addresses elSize) (lookedUp addresses masks) ∨
            (r.taggedStoreTarget addresses elSize first).isSome ∧
              ¬Conflict (r.taggedStoreTarget addresses elSize) (lookedUp addresses masks) := by
  have hsome : ∀ {x : Except String (μ ⊕ τ)} {target}, x.toOption = some target ↔ x = .ok target := by
    intro x target
    cases x <;> simp [Except.toOption]
  have hloadIff := vector_eq_ok_iff r addresses masks elSize (r.taggedLoadTarget addresses elSize)
    "No target found for vector load"
  have hstoreIff := vector_eq_ok_iff r addresses masks elSize
    (r.taggedStoreTarget addresses elSize) "No target found for vector store"
  constructor
  · intro halike first hfirst hm hisSome
    obtain ⟨t, ht⟩ := Option.isSome_iff_exists.mp hisSome
    rw [or_iff_not_imp_left]
    intro hconflict
    have hok : (r.loadVector addresses masks elSize).toOption = some (.inr t) :=
      hsome.mpr ((hloadIff (.inr t)).mpr ⟨first, hfirst, hm, ht, hconflict⟩)
    rw [halike, hsome] at hok
    obtain ⟨first', hfirst', -, ht', hconflict'⟩ := (hstoreIff (.inr t)).mp hok
    obtain rfl : first = first' := Option.some.inj (hfirst.symm.trans hfirst')
    exact ⟨by rw [ht']; rfl, hconflict'⟩
  · intro h
    apply Option.ext
    intro target
    rw [hsome, hsome]
    constructor
    · intro hok
      obtain ⟨first, hfirst, hcase⟩ := (hloadIff target).mp hok
      refine (hstoreIff target).mpr ⟨first, hfirst, ?_⟩
      cases target with
      | inl m => exact hcase
      | inr t =>
        obtain ⟨hm, ht, hconflict⟩ := hcase
        obtain ⟨hisSome, hconflict'⟩ := (h first hfirst hm (by rw [ht]; rfl)).resolve_left hconflict
        obtain ⟨t', ht'⟩ := Option.isSome_iff_exists.mp hisSome
        -- The store goes to an owner, which is the one that is found for the load.
        have howned := hstore _ ((hstoreIff (.inr t')).mpr ⟨first, hfirst, hm, ht', hconflict'⟩)
        have hfound := taggedLoadTarget_of_owned hr hpos howned (List.mem_of_mem_head? hfirst)
        rw [ht] at hfound
        cases hfound
        exact ⟨hm, ht', hconflict'⟩
    · intro hok
      have howned := hstore target hok
      obtain ⟨first, hfirst, hcase⟩ := (hstoreIff target).mp hok
      refine (hloadIff target).mpr ⟨first, hfirst, ?_⟩
      cases target with
      | inl m => exact hcase
      | inr t =>
        exact ⟨hcase.1, taggedLoadTarget_of_owned hr hpos howned (List.mem_of_mem_head? hfirst),
          not_conflict_of_owned hr hpos howned⟩

end Elements

end SingleInitiatorRouter

/-- **Vector routing.** For a router built by any calls a vector access is forwarded only to a
    target that owns all its unmasked elements, and a load and a store go to the same target,
    exactly if

    * the target found for the first element owns all elements, or two elements have different
      targets before the first that has none; and
    * unless this is a plain target, the store finds a target for the first element and no
      conflict if the load does. -/
theorem vectorRouted_iff [DecidableEq μ] [DecidableEq τ] (calls : List (RouterCall μ τ ω))
    (addresses : List Addr) (masks : List Bool) (elSize : Nat) (hpos : 0 < elSize) :
    let r := run (settle SingleInitiatorRouter.call) SingleInitiatorRouter.init calls
    r.VectorRouted addresses masks elSize ↔ r.VectorOk addresses masks elSize := by
  intro r
  have hr : r.Sorted := SingleInitiatorRouter.sorted_run calls
  have hload := r.vector_owned_iff addresses masks elSize (r.taggedLoadTarget addresses elSize)
    "No target found for vector load"
  have hstore := r.vector_owned_iff addresses masks elSize (r.taggedStoreTarget addresses elSize)
    "No target found for vector store"
  rw [SingleInitiatorRouter.vectorOk_iff]
  constructor
  · intro h first hfirst
    have halike := (SingleInitiatorRouter.alike_iff hr hpos h.store).mp h.alike first hfirst
    obtain ⟨hplain, hloads⟩ := hload.mp h.load first hfirst
    obtain ⟨-, hstores⟩ := hstore.mp h.store first hfirst
    exact ⟨hplain, fun hm => ⟨hloads hm, hstores hm, halike hm⟩⟩
  · intro h
    have hloads := hload.mpr fun first hfirst =>
      ⟨(h first hfirst).1, fun hm => ((h first hfirst).2 hm).1⟩
    have hstores := hstore.mpr fun first hfirst =>
      ⟨(h first hfirst).1, fun hm => ((h first hfirst).2 hm).2.1⟩
    have halike := (SingleInitiatorRouter.alike_iff hr hpos hstores).mpr fun first hfirst hm =>
      ((h first hfirst).2 hm).2.2
    exact ⟨hloads, hstores, halike⟩

/-- Two elements of four bytes in one plain target. -/
theorem vectorRouted_one_target :
    (run (settle SingleInitiatorRouter.call) SingleInitiatorRouter.init
      ([.addMemory 'm' 0x1000 0x1fff] : List (RouterCall Char Char Char))).VectorRouted
      [0x1000, 0x1100] [true, true] 4 := by
  refine (vectorRouted_iff [.addMemory 'm' 0x1000 0x1fff] [0x1000, 0x1100] [true, true] 4
    (by decide)).mpr ?_
  intro first hfirst
  obtain rfl : 0 = first := Option.some.inj hfirst
  refine .inr fun i hi _ => .inl ⟨_, List.mem_singleton_self _, rfl, ?_⟩
  match i, hi with
  | 0, _ => decide
  | 1, _ => decide

/-- A gather load with one element in the target and one behind it is forwarded as a whole, and so
    is a unit-stride load that leaves the target.  A store of the last bytes of a tagged target goes
    nowhere, but a load goes there. -/
theorem vectorRouted_defects :
    let r := run (settle SingleInitiatorRouter.call) SingleInitiatorRouter.init
      ([.addMemory 'm' 0x1000 0x1fff, .addTagged 't' 0x4000 0x4fff] :
        List (RouterCall Char Char Char))
    r.loadVector [0x1000, 0x8000] [true, true] 4 = .ok (.inl 'm') ∧
      r.loadVector [0x1ffc] [true, true] 4 = .ok (.inl 'm') ∧
      ¬r.VectorRouted [0x1000, 0x8000] [true, true] 4 ∧
      ¬r.VectorRouted [0x1ffc] [true, true] 4 ∧
      r.loadVector [0x4ffc] [true] 4 = .ok (.inr 't') ∧
      r.storeVector [0x4ffc] [true] 4 = .error "No target found for vector store" ∧
      ¬r.VectorRouted [0x4ffc] [true] 4 := by
  intro r
  have hgather : r.loadVector [0x1000, 0x8000] [true, true] 4 = .ok (.inl 'm') := by decide
  have hstride : r.loadVector [0x1ffc] [true, true] 4 = .ok (.inl 'm') := by decide
  have hload : r.loadVector [0x4ffc] [true] 4 = .ok (.inr 't') := by decide
  have hstore : r.storeVector [0x4ffc] [true] 4 = .error "No target found for vector store" := by
    decide
  -- The plain target has no byte of the second element.
  have hother : ∀ address : Addr, ¬HasBytes ⟨0x1000, 0x1fff⟩ address 4 →
      ¬r.Owns address 4 (.inl 'm') := by
    rintro address hbytes (⟨e, he, -, hhas⟩ | ⟨hdefault, -⟩)
    · rw [List.mem_singleton.mp (he : e ∈ [((⟨0x1000, 0x1fff⟩ : AddressRange), 'm')])] at hhas
      exact hbytes hhas
    · cases hdefault
  refine ⟨hgather, hstride, fun h => ?_, fun h => ?_, hload, hstore, fun h => ?_⟩
  · exact hother 0x8000 (by decide) (h.load _ hgather 1 (by decide) rfl)
  · exact hother 0x2000 (by decide) (h.load _ hstride 1 (by decide) rfl)
  · have halike := h.alike
    rw [hload, hstore] at halike
    cases halike

end MpactSim.Memory
