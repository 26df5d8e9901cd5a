import MpactSim.Lib.Monad
import MpactSim.Lib.Run
import MpactSim.Memory.Interface

namespace MpactSim.Memory

open Lib

/-!
# Watchpoints

A `MemoryWatcher` stands before a memory and calls the callbacks of the watch ranges that an
access overlaps.  `TaggedMemoryWatcher` has the same functions for accesses without tags.
A callback is named here by the entry of the map it is in.

* `watch_complete`        — scalar accesses call exactly the callbacks they should, and the
  ranges stay disjoint, whatever is set and cleared;
* `watchElements_eq_iff`  — vector accesses do if and only if there is an address for every
  unmasked element, as a watcher has no unit-stride form.
-/

universe u

variable {γ : Type u}

/-! ### The source -/

/-- `ld_watch_actions_` or `st_watch_actions_`: a multimap from ranges to callbacks. -/
abbrev WatchActions (γ : Type u) := RangeMap Addr γ

namespace WatchActions

/-- `SetLoadWatchCallback` and `SetStoreWatchCallback` for the actions of their kind; the text
    for a range that is not well formed is the same in both. -/
def set (actions : WatchActions γ) (kind : String) (range : AddressRange) (callback : γ) :
    Except String (WatchActions γ) :=
  if range.lo > range.hi then
    .error ("Illegal store watch range: start " ++ hexText range.lo ++ " > end " ++
      hexText range.hi)
  else if (RangeMap.find? actions range).isSome then
    .error (kind ++ " watch range [" ++ hexText range.lo ++ ", " ++ hexText range.hi ++
      "] overlaps with an existing watch range")
  else .ok (RangeMap.insert actions (range, callback))

/-- `ClearLoadWatchCallback` and `ClearStoreWatchCallback`. -/
def clear (actions : WatchActions γ) (kind : String) (address : Addr) :
    Except String (WatchActions γ) :=
  if (RangeMap.find? actions ⟨address, address⟩).isSome then
    .ok (RangeMap.eraseFound actions ⟨address, address⟩)
  else .error ("Clear" ++ kind ++ "WatchCallback: Error: No range found that contains: " ++
    hexText address)

/-- The entries whose callbacks a scalar access calls, in order. -/
def watch (actions : WatchActions γ) (address : Addr) (size : Nat) : List (AddressRange × γ) :=
  if actions.isEmpty then [] else RangeMap.equalRange actions (accessRange address size)

/-- The entries whose callbacks a vector access calls, in order, for each entry of the mask;
    `none` if an address is read beyond its span. -/
def watchElements (actions : WatchActions γ) (addresses : List Addr) (masks : List Bool)
    (elSize : Nat) : Option (List (List (AddressRange × γ))) :=
  if actions.isEmpty then some (masks.map fun _ => [])
  else
    (List.range masks.length).mapM fun i =>
      if masks.getD i false then
        addresses[i]?.map fun address => RangeMap.equalRange actions (accessRange address elSize)
      else some []

end WatchActions

/-- `MemoryWatcher`. -/
structure MemoryWatcher (γ : Type u) where
  ld : WatchActions γ
  st : WatchActions γ

namespace MemoryWatcher

/-- `SetStoreWatchCallback`. -/
def setStoreWatchCallback (w : MemoryWatcher γ) (range : AddressRange) (callback : γ) :
    Except String (MemoryWatcher γ) := do
  let st ← w.st.set "Store" range callback
  pure { w with st := st }

/-- `ClearStoreWatchCallback`. -/
def clearStoreWatchCallback (w : MemoryWatcher γ) (address : Addr) :
    Except String (MemoryWatcher γ) := do
  let st ← w.st.clear "Store" address
  pure { w with st := st }

/-- `SetLoadWatchCallback`. -/
def setLoadWatchCallback (w : MemoryWatcher γ) (range : AddressRange) (callback : γ) :
    Except String (MemoryWatcher γ) := do
  let ld ← w.ld.set "Load" range callback
  pure { w with ld := ld }

/-- `ClearLoadWatchCallback`. -/
def clearLoadWatchCallback (w : MemoryWatcher γ) (address : Addr) :
    Except String (MemoryWatcher γ) := do
  let ld ← w.ld.clear "Load" address
  pure { w with ld := ld }

/-- The callbacks of a scalar `Load`. -/
def load (w : MemoryWatcher γ) (address : Addr) (size : Nat) : List (AddressRange × γ) :=
  w.ld.watch address size

/-- The callbacks of a scalar `Store`. -/
def store (w : MemoryWatcher γ) (address : Addr) (size : Nat) : List (AddressRange × γ) :=
  w.st.watch address size

/-- The callbacks of a vector `Load`. -/
def loadVector (w : MemoryWatcher γ) (addresses : List Addr) (masks : List Bool) (elSize : Nat) :
    Option (List (List (AddressRange × γ))) :=
  w.ld.watchElements addresses masks elSize

/-- The callbacks of a vector `Store`. -/
def storeVector (w : MemoryWatcher γ) (addresses : List Addr) (masks : List Bool) (elSize : Nat) :
    Option (List (List (AddressRange × γ))) :=
  w.st.watchElements addresses masks elSize

end MemoryWatcher

/-- `TaggedMemoryWatcher`: a watcher before a memory with tags. -/
abbrev TaggedMemoryWatcher (γ : Type u) := MemoryWatcher γ

namespace TaggedMemoryWatcher

/-- The callbacks of a vector `Load`. -/
def loadVector (w : TaggedMemoryWatcher γ) (addresses : List Addr) (masks : List Bool)
    (elSize : Nat) : Option (List (List (AddressRange × γ))) :=
  w.ld.watchElements addresses masks elSize

/-- The callbacks of a vector `Store`. -/
def storeVector (w : TaggedMemoryWatcher γ) (addresses : List Addr) (masks : List Bool)
    (elSize : Nat) : Option (List (List (AddressRange × γ))) :=
  w.st.watchElements addresses masks elSize

end TaggedMemoryWatcher

/-- A call on a watcher. -/
inductive WatcherCall (γ : Type u) where
  | setStore (range : AddressRange) (callback : γ)
  | clearStore (address : Addr)
  | setLoad (range : AddressRange) (callback : γ)
  | clearLoad (address : Addr)
  | load (address : Addr) (size : Nat)
  | store (address : Addr) (size : Nat)

namespace MemoryWatcher

/-- A watcher before any range is set. -/
def init : MemoryWatcher γ := ⟨[], []⟩

/-- A call; accesses change nothing in the watcher. -/
def call (w : MemoryWatcher γ) : WatcherCall γ → Except String (MemoryWatcher γ)
  | .setStore range callback => w.setStoreWatchCallback range callback
  | .clearStore address => w.clearStoreWatchCallback address
  | .setLoad range callback => w.setLoadWatchCallback range callback
  | .clearLoad address => w.clearLoadWatchCallback address
  | .load _ _ => .ok w
  | .store _ _ => .ok w

end MemoryWatcher

/-! ### The specification -/

/-- Some byte of an access of `size` bytes is in the range. -/
def touches (range : AddressRange) (address : Addr) (size : Nat) : Bool :=
  (List.range size).any fun j =>
    range.lo ≤ address + BitVec.ofNat 64 j ∧ address + BitVec.ofNat 64 j ≤ range.hi

/-- The ranges that the bytes of an access are in. -/
def touched (actions : WatchActions γ) (address : Addr) (size : Nat) : List (AddressRange × γ) :=
  actions.filter fun e => touches e.1 address size

/-- For each unmasked element, the ranges that the bytes are in which a memory accesses for it. -/
def touchedElements (actions : WatchActions γ) (addresses : List Addr) (masks : List Bool)
    (elSize : Nat) : List (List (AddressRange × γ)) :=
  (List.range masks.length).map fun i =>
    if masks.getD i false then touched actions (elementAddress addresses elSize i) elSize else []

/-! ### Scalar accesses -/

variable {range : AddressRange} {address : Addr} {size : Nat} {actions : WatchActions γ}

theorem touches_iff :
    touches range address size = true ↔
      ∃ j < size, range.lo.toNat ≤ (address.toNat + j) % 2 ^ 64 ∧
        (address.toNat + j) % 2 ^ 64 ≤ range.hi.toNat := by
  have hbyte : ∀ j, (address + BitVec.ofNat 64 j).toNat = (address.toNat + j) % 2 ^ 64 := by
    intro j
    rw [BitVec.toNat_add, BitVec.toNat_ofNat, Nat.add_mod_mod]
  rw [touches, List.any_eq_true]
  simp only [List.mem_range, decide_eq_true_eq, BitVec.le_def, hbyte]

/-- An access that does not wrap touches the ranges that overlap its first to last byte. -/
theorem touches_eq_overlaps (hrange : range.lo ≤ range.hi) (hpos : 1 ≤ size)
    (hwrap : address.toNat + size ≤ 2 ^ 64) :
    touches range address size = decide (range.Overlaps (accessRange address size)) := by
  rw [Bool.eq_iff_iff, decide_eq_true_eq, touches_iff]
  have hle : range.lo.toNat ≤ range.hi.toNat := hrange
  have hhi := accessRange_hi address hpos
  rw [Nat.mod_eq_of_lt (by omega)] at hhi
  show _ ↔ range.lo.toNat ≤ (accessRange address size).hi.toNat ∧
    address.toNat ≤ range.hi.toNat
  rw [hhi]
  constructor
  · rintro ⟨j, hj, hlo, hhi⟩
    rw [Nat.mod_eq_of_lt (by omega)] at hlo hhi
    omega
  · rintro ⟨hlo, hhi⟩
    -- The first byte of the access or of the range is in both.
    rcases Nat.le_total range.lo.toNat address.toNat with hfirst | hfirst
    · refine ⟨0, by omega, ?_⟩
      rw [Nat.mod_eq_of_lt (by omega)]
      omega
    · refine ⟨range.lo.toNat - address.toNat, by omega, ?_⟩
      rw [Nat.mod_eq_of_lt (by omega)]
      omega

theorem watch_eq_equalRange (actions : WatchActions γ) (address : Addr) (size : Nat) :
    actions.watch address size = RangeMap.equalRange actions (accessRange address size) := by
  unfold WatchActions.watch
  cases actions with
  | nil => rfl
  | cons e rest => rfl

theorem watch_eq_touched (h : RangeMap.Sorted actions) (hpos : 1 ≤ size)
    (hwrap : address.toNat + size ≤ 2 ^ 64) :
    actions.watch address size = touched actions address size := by
  rw [watch_eq_equalRange, RangeMap.equalRange_eq_filter h]
  apply List.filter_congr
  intro e he
  exact (touches_eq_overlaps (h.wellFormed e he) hpos hwrap).symm

/-! ### Setting and clearing -/

theorem set_eq_error (h : RangeMap.Sorted actions) (kind : String) (callback : γ)
    (hoverlap : ∃ e ∈ actions, e.1.Overlaps range) :
    ∃ text, actions.set kind range callback = .error text := by
  obtain ⟨e, he, hover⟩ := hoverlap
  have hfound : (RangeMap.find? actions range).isSome = true := by
    rw [← Option.ne_none_iff_isSome]
    intro hnone
    exact (RangeMap.find?_eq_none_iff h range).mp hnone e he hover
  unfold WatchActions.set
  rw [if_pos hfound]
  split
  · exact ⟨_, rfl⟩
  · exact ⟨_, rfl⟩

theorem sorted_set {actions' : WatchActions γ} (h : RangeMap.Sorted actions) {kind : String}
    {callback : γ} (hset : actions.set kind range callback = .ok actions') :
    RangeMap.Sorted actions' := by
  unfold WatchActions.set at hset
  rw [ite_error_eq_ok, ite_error_eq_ok] at hset
  obtain ⟨hwf, hnone, hok⟩ := hset
  cases hok
  rw [Bool.not_eq_true, Option.isSome_eq_false_iff, Option.isNone_iff_eq_none] at hnone
  exact h.insert (not_lt.mp hwf) ((RangeMap.find?_eq_none_iff h range).mp hnone)

theorem sorted_clear {actions' : WatchActions γ} (h : RangeMap.Sorted actions) {kind : String}
    (hclear : actions.clear kind address = .ok actions') : RangeMap.Sorted actions' := by
  unfold WatchActions.clear at hclear
  split at hclear
  · cases hclear
    exact h.eraseFound _
  · cases hclear

/-- The ranges of each kind are disjoint. -/
structure MemoryWatcher.Sorted (w : MemoryWatcher γ) : Prop where
  ld : RangeMap.Sorted w.ld
  st : RangeMap.Sorted w.st

/-- **Step lemma.** -/
theorem MemoryWatcher.Sorted.call {w w' : MemoryWatcher γ} (h : w.Sorted) {c : WatcherCall γ}
    (hcall : w.call c = .ok w') : w'.Sorted := by
  cases c with
  | setStore range callback =>
    obtain ⟨st, hset, hok⟩ := bind_eq_ok.mp hcall
    cases hok
    exact ⟨h.ld, sorted_set h.st hset⟩
  | clearStore address =>
    obtain ⟨st, hclear, hok⟩ := bind_eq_ok.mp hcall
    cases hok
    exact ⟨h.ld, sorted_clear h.st hclear⟩
  | setLoad range callback =>
    obtain ⟨ld, hset, hok⟩ := bind_eq_ok.mp hcall
    cases hok
    exact ⟨sorted_set h.ld hset, h.st⟩
  | clearLoad address =>
    obtain ⟨ld, hclear, hok⟩ := bind_eq_ok.mp hcall
    cases hok
    exact ⟨sorted_clear h.ld hclear, h.st⟩
  | load address size =>
    cases hcall
    exact h
  | store address size =>
    cases hcall
    exact h

/-- **Run lemma.** -/
theorem sorted_run (calls : List (WatcherCall γ)) :
    (run (settle MemoryWatcher.call) MemoryWatcher.init calls).Sorted :=
  settle_invariant MemoryWatcher.Sorted (fun _ _ _ hw hcall => hw.call hcall)
    ⟨RangeMap.sorted_nil, RangeMap.sorted_nil⟩ calls

theorem settle_error {w : MemoryWatcher γ} {c : WatcherCall γ} {text : String}
    (h : w.call c = .error text) : settle MemoryWatcher.call w c = w := by
  rw [settle, h]
  rfl

/-- The elements of which a watcher computes the bytes that a memory accesses.  The bytes of one
    that wraps are in two parts, and each range has to be in both of them or in none; an
    element without bytes must not have a range around its address. -/
def ElementOk (actions : WatchActions γ) (address : Addr) (elSize : Nat) : Prop :=
  if elSize = 0 then ∀ e ∈ actions, ¬ (e.1.lo ≤ address - 1 ∧ address ≤ e.1.hi)
  else if address.toNat + elSize ≤ 2 ^ 64 then True
  else ∀ e ∈ actions, (e.1.lo ≤ (accessRange address elSize).hi ↔ address ≤ e.1.hi)

/-- The vector accesses that a watcher follows. -/
def VectorOk (actions : WatchActions γ) (addresses : List Addr) (masks : List Bool)
    (elSize : Nat) : Prop :=
  actions = [] ∨ ∀ i < masks.length, masks.getD i false = true →
    i < addresses.length ∧ ElementOk actions (addresses.getD i 0) elSize

/-- A wrapping access touches the ranges that reach its first byte or start before its last. -/
theorem touches_wrapped (hrange : range.lo ≤ range.hi) (hwrap : 2 ^ 64 < address.toNat + size)
    (hsize : size ≤ 2 ^ 64) :
    touches range address size = true ↔
      range.lo ≤ (accessRange address size).hi ∨ address ≤ range.hi := by
  have hle : range.lo.toNat ≤ range.hi.toNat := hrange
  have haddr := address.isLt
  have hlast := range.hi.isLt
  have hhi := accessRange_hi address (by omega : 1 ≤ size)
  have hmod : (address.toNat + (size - 1)) % 2 ^ 64 = address.toNat + size - 1 - 2 ^ 64 := by
    rw [Nat.mod_eq_sub_mod (by omega), Nat.mod_eq_of_lt (by omega)]
    omega
  rw [hmod] at hhi
  rw [touches_iff, BitVec.le_def, BitVec.le_def, hhi]
  constructor
  · rintro ⟨j, hj, hlo, hhi⟩
    by_cases hpart : address.toNat + j < 2 ^ 64
    · rw [Nat.mod_eq_of_lt hpart] at hlo hhi
      omega
    · rw [Nat.mod_eq_sub_mod (by omega), Nat.mod_eq_of_lt (by omega)] at hlo hhi
      omega
  · rintro (hlo | hhi)
    · refine ⟨range.lo.toNat + 2 ^ 64 - address.toNat, by omega, ?_⟩
      have hsum : address.toNat + (range.lo.toNat + 2 ^ 64 - address.toNat) =
          range.lo.toNat + 2 ^ 64 := by omega
      rw [hsum, Nat.add_mod_right, Nat.mod_eq_of_lt (by omega)]
      omega
    · rcases Nat.le_total range.lo.toNat address.toNat with hfirst | hfirst
      · refine ⟨0, by omega, ?_⟩
        rw [Nat.mod_eq_of_lt (by omega)]
        omega
      · refine ⟨range.lo.toNat - address.toNat, by omega, ?_⟩
        rw [Nat.mod_eq_of_lt (by omega)]
        omega

theorem filter_eq_filter_iff {α : Type*} {p q : α → Bool} {l : List α} :
    l.filter p = l.filter q ↔ ∀ a ∈ l, p a = q a := by
  constructor
  · intro h a ha
    have hmem : a ∈ l.filter p ↔ a ∈ l.filter q := by rw [h]
    rw [List.mem_filter, List.mem_filter] at hmem
    rw [Bool.eq_iff_iff]
    simpa [ha] using hmem
  · exact List.filter_congr

/-- For one element, the ranges equivalent to its key are those it touches. -/
theorem equalRange_eq_touched_iff (h : RangeMap.Sorted actions) {elSize : Nat}
    (hsize : elSize < 2 ^ 31) :
    RangeMap.equalRange actions (accessRange address elSize) = touched actions address elSize ↔
      ElementOk actions address elSize := by
  rw [RangeMap.equalRange_eq_filter h, touched, filter_eq_filter_iff]
  unfold ElementOk
  by_cases hzero : elSize = 0
  · rw [if_pos hzero]
    subst hzero
    refine forall₂_congr fun e _ => ?_
    have hkey : (accessRange address 0).hi = address - 1 := by
      show address + BitVec.ofNat 64 0 - 1 = address - 1
      rw [BitVec.ofNat_eq_ofNat, BitVec.add_zero]
    have hnone : touches e.1 address 0 = false := rfl
    rw [hnone, decide_eq_false_iff_not]
    show ¬ (e.1.lo ≤ (accessRange address 0).hi ∧ _) ↔ _
    rw [hkey]
    exact Iff.rfl
  · rw [if_neg hzero]
    by_cases hwrap : address.toNat + elSize ≤ 2 ^ 64
    · rw [if_pos hwrap, iff_true]
      intro e he
      exact (touches_eq_overlaps (h.wellFormed e he) (by omega) hwrap).symm
    · rw [if_neg hwrap]
      refine forall₂_congr fun e he => ?_
      rw [Bool.eq_iff_iff, decide_eq_true_eq,
        touches_wrapped (h.wellFormed e he) (by omega) (by omega)]
      show (e.1.lo ≤ _ ∧ address ≤ e.1.hi ↔ _) ↔ _
      tauto

theorem mapM_eq_some_map_iff {α β : Type*} {f : α → Option β} {g : α → β} {l : List α} :
    l.mapM f = some (l.map g) ↔ ∀ a ∈ l, f a = some (g a) := by
  induction l with
  | nil => simp
  | cons a rest ih =>
    rw [List.mapM_cons, List.map_cons, List.forall_mem_cons, ← ih]
    cases ha : f a with
    | none => simp
    | some b =>
      cases hrest : rest.mapM f with
      | none => simp
      | some results => simp

/-- A vector access calls exactly the right callbacks if and only if `VectorOk` holds. -/
theorem watchElements_eq_iff (h : RangeMap.Sorted actions) (addresses : List Addr)
    (masks : List Bool) {elSize : Nat} (hsize : elSize < 2 ^ 31) :
    actions.watchElements addresses masks elSize =
        some (touchedElements actions addresses masks elSize) ↔
      VectorOk actions addresses masks elSize := by
  unfold WatchActions.watchElements touchedElements VectorOk
  by_cases hnil : actions = []
  · subst hnil
    refine iff_of_true ?_ (.inl rfl)
    rw [if_pos List.isEmpty_nil, Option.some_inj]
    apply List.ext_getElem
    · simp
    · intro i hi hi'
      simp [touched]
  · have hempty : actions.isEmpty = false := by
      rw [← Bool.not_eq_true, List.isEmpty_iff]
      exact hnil
    rw [hempty, if_neg Bool.false_ne_true, mapM_eq_some_map_iff, or_iff_right hnil]
    refine forall_congr' fun i => ?_
    rw [List.mem_range]
    refine imp_congr_right fun _ => ?_
    by_cases hmask : masks.getD i false = true
    · rw [if_pos hmask, if_pos hmask, imp_iff_right hmask]
      by_cases hi : i < addresses.length
      · rw [List.getElem?_eq_getElem hi, Option.map_some, Option.some_inj,
          elementAddress_of_lt hi, List.getD_eq_getElem _ _ hi, equalRange_eq_touched_iff h hsize,
          and_iff_right hi]
      · -- An address is read beyond the span.
        rw [List.getElem?_eq_none (not_lt.mp hi)]
        exact iff_of_false (by simp) fun hok => hi hok.1
    · rw [if_neg hmask, if_neg hmask]
      exact iff_of_true rfl fun h => absurd h hmask

/-- **Vector watchpoints.** Whatever ranges are set, the vector loads and stores of both watchers
    read no address beyond its span and call, for each unmasked element, the callbacks of
    exactly the ranges that the bytes are in which the memory accesses, if and only if
    `VectorOk` holds of the access. -/
theorem vector_watch_complete_iff (calls : List (WatcherCall γ)) (addresses : List Addr)
    (masks : List Bool) (elSize : Nat) (hsize : elSize < 2 ^ 31) :
    let w := run (settle MemoryWatcher.call) MemoryWatcher.init calls
    (w.loadVector addresses masks elSize = some (touchedElements w.ld addresses masks elSize) ↔
      VectorOk w.ld addresses masks elSize) ∧
    (w.storeVector addresses masks elSize = some (touchedElements w.st addresses masks elSize) ↔
      VectorOk w.st addresses masks elSize) ∧
    (TaggedMemoryWatcher.loadVector w addresses masks elSize =
        some (touchedElements w.ld addresses masks elSize) ↔
      VectorOk w.ld addresses masks elSize) ∧
    (TaggedMemoryWatcher.storeVector w addresses masks elSize =
        some (touchedElements w.st addresses masks elSize) ↔
      VectorOk w.st addresses masks elSize) := by
  intro w
  have hw : w.Sorted := sorted_run calls
  have hld := watchElements_eq_iff hw.ld addresses masks hsize
  have hst := watchElements_eq_iff hw.st addresses masks hsize
  exact ⟨hld, hst, hld, hst⟩

/-- Two indexed elements, the first of which is watched. -/
theorem vector_watch_complete_iff_indexed :
    (run (settle MemoryWatcher.call) MemoryWatcher.init
        [.setLoad ⟨0x10, 0x1f⟩ 'a']).loadVector [0x1c, 0x40] [true, true] 4 =
      some (touchedElements (run (settle MemoryWatcher.call) MemoryWatcher.init
        [.setLoad ⟨0x10, 0x1f⟩ 'a']).ld [0x1c, 0x40] [true, true] 4) ∧
    VectorOk (run (settle MemoryWatcher.call) MemoryWatcher.init
      [.setLoad ⟨0x10, 0x1f⟩ 'a']).ld [0x1c, 0x40] [true, true] 4 := by
  have hload : (run (settle MemoryWatcher.call) MemoryWatcher.init
      [.setLoad ⟨0x10, 0x1f⟩ 'a']).loadVector [0x1c, 0x40] [true, true] 4 =
      some (touchedElements (run (settle MemoryWatcher.call) MemoryWatcher.init
        [.setLoad ⟨0x10, 0x1f⟩ 'a']).ld [0x1c, 0x40] [true, true] 4) := by decide
  exact ⟨hload, (vector_watch_complete_iff [.setLoad ⟨0x10, 0x1f⟩ 'a'] [0x1c, 0x40] [true, true] 4
    (by decide)).1.mp hload⟩

/-- For two elements with unit stride, the address of the second is read beyond the span. -/
theorem loadVector_unit_stride :
    (run (settle MemoryWatcher.call) MemoryWatcher.init
        [.setLoad ⟨0x10, 0x1f⟩ 'a']).loadVector [0x10] [true, true] 4 = none ∧
      touchedElements (run (settle MemoryWatcher.call) MemoryWatcher.init
        [.setLoad ⟨0x10, 0x1f⟩ 'a']).ld [0x10] [true, true] 4 =
        [[(⟨0x10, 0x1f⟩, 'a')], [(⟨0x10, 0x1f⟩, 'a')]] := by
  decide

end MpactSim.Memory
