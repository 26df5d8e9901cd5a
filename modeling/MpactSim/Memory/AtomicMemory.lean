import MpactSim.Memory.Interface
import MpactSim.Lib.Run

namespace MpactSim.Memory

open Lib

/-!
# Atomic memory

`AtomicMemory` adds load-linked, store-conditional, swap and read-modify-write
operations to a memory.  A load-linked puts the 8-byte granule of its address into a tag
set; a store-conditional succeeds if the granule of its address is in the set.

* `serve` is one call of the interface, with everything it stores.
* `Request.footprint` and `Request.dropped` say which bytes a call writes and which
  granules it takes out of the tag set.
* A call is `Faithful` if it drops every reservation whose granule it writes.  In runs
  of faithful calls load-linked and store-conditional are atomic
  (`storeConditional_atomic`); stores across a granule boundary, unit-stride vector
  stores, swaps and read-modify-write operations need not be faithful.
-/

/-! ### The source -/

/-- The operations of `AtomicMemoryOpInterface`. -/
inductive Operation where
  | loadLinked | storeConditional | atomicSwap
  | atomicAdd | atomicSub | atomicAnd | atomicOr | atomicXor
  | atomicMax | atomicMaxu | atomicMin | atomicMinu
  deriving DecidableEq, Repr

/-- The status of a call. -/
inductive Status where
  | ok
  | internalError (message : String)
  deriving DecidableEq, Repr

/-- The memory behind the interface and the tag set. -/
structure State where
  mem : Mem
  llTagSet : Finset Addr

/-- A call of the interface. -/
inductive Request where
  | load (address : Addr) (db : Bytes)
  | loadVector (addresses : List Addr) (mask : List Bool) (elSize : Nat) (db : Bytes)
  | store (address : Addr) (db : Bytes)
  | storeVector (addresses : List Addr) (mask : List Bool) (elSize : Nat) (db : Bytes)
  | performMemoryOp (address : Addr) (op : Operation) (db : Bytes)
  deriving DecidableEq, Repr

/-- What a call leaves behind: the tag set, the bytes it stored, the status it returned
    and the data buffer of the caller. -/
structure Outcome where
  llTagSet : Finset Addr
  writes : List (Addr × UInt8)
  status : Status
  db : Bytes

/-- The granule of an address, `address >> kTagShift`. -/
def granule (address : Addr) : Addr := address >>> 3

/-- The sizes that have a buffer (`GetDb`) and can hold a result (`WriteDb`). -/
def isLegalSize (size : Nat) : Bool := size = 1 ∨ size = 2 ∨ size = 4 ∨ size = 8

/-- The message for other sizes. -/
def illegalSize (size : Nat) : Status := .internalError s!"Illegal element size ({size})"

/-- The number in a data buffer. -/
def ofBytes : Bytes → Nat
  | [] => 0
  | b :: rest => b.toNat + 256 * ofBytes rest

/-- A data buffer of the given size that holds a number. -/
def toBytes : Nat → Nat → Bytes
  | 0, _ => []
  | size + 1, n => UInt8.ofNat (n % 256) :: toBytes size (n / 256)

/-- `PerformOp` at the unsigned type of `size` bytes. -/
def performOp (op : Operation) (size : Nat) (lhs rhs : Bytes) : Bytes :=
  let a := BitVec.ofNat (8 * size) (ofBytes lhs)
  let b := BitVec.ofNat (8 * size) (ofBytes rhs)
  let result := match op with
    | .atomicAdd => a + b
    | .atomicSub => a - b
    | .atomicAnd => a &&& b
    | .atomicOr => a ||| b
    | .atomicXor => a ^^^ b
    | .atomicMax => if a.slt b then b else a
    | .atomicMaxu => if a.ult b then b else a
    | .atomicMin => if b.slt a then b else a
    | .atomicMinu => if b.ult a then b else a
    | _ => b
  toBytes size result.toNat

/-- The store-conditional of `PerformMemoryOp`.  The store comes first; the size is only
    looked at when the result is written. -/
def storeConditional (s : State) (address : Addr) (db : Bytes) : Outcome :=
  let tag := granule address
  let success : Bool := tag ∈ s.llTagSet
  let tags := if success then s.llTagSet.erase tag else s.llTagSet
  let writes := if success then byteWrites address db else []
  if isLegalSize db.length then ⟨tags, writes, .ok, toBytes db.length (if success then 0 else 1)⟩
  else ⟨tags, writes, illegalSize db.length, db⟩

/-- Swap and the read-modify-write operations of `PerformMemoryOp`. -/
def readModifyWrite (s : State) (address : Addr) (op : Operation) (db : Bytes) : Outcome :=
  if isLegalSize db.length then
    let old := s.mem.load address db.length
    let new := if op = .atomicSwap then db else performOp op db.length old db
    ⟨s.llTagSet, byteWrites address new, .ok, old⟩
  else ⟨s.llTagSet, [], illegalSize db.length, db⟩

/-- `PerformMemoryOp`. -/
def performMemoryOp (s : State) (address : Addr) (op : Operation) (db : Bytes) : Outcome :=
  if op = .loadLinked then
    ⟨insert (granule address) s.llTagSet, [], .ok, s.mem.load address db.length⟩
  else if op = .storeConditional then storeConditional s address db
  else readModifyWrite s address op db

/-- One call of the interface. -/
def serve (s : State) : Request → Outcome
  | .load address db => ⟨s.llTagSet, [], .ok, s.mem.load address db.length⟩
  | .loadVector addresses mask elSize db =>
    ⟨s.llTagSet, [], .ok, s.mem.loadVector addresses mask elSize db⟩
  | .store address db =>
    ⟨s.llTagSet.erase (granule address), byteWrites address db, .ok, db⟩
  | .storeVector addresses mask elSize db =>
    ⟨addresses.foldl (fun tags a => tags.erase (granule a)) s.llTagSet,
      vectorWrites addresses mask elSize db, .ok, db⟩
  | .performMemoryOp address op db => performMemoryOp s address op db

/-- The state after a call. -/
def step (s : State) (r : Request) : State :=
  ⟨s.mem.apply (serve s r).writes, (serve s r).llTagSet⟩

/-! ### What a call writes and what it drops -/

namespace Request

/-- The addresses a call writes, from the call and the tag set before it. -/
def footprint (s : State) : Request → List Addr
  | .load .. => []
  | .loadVector .. => []
  | .store address db => (byteWrites address db).map Prod.fst
  | .storeVector addresses mask elSize db =>
    (vectorWrites addresses mask elSize db).map Prod.fst
  | .performMemoryOp address op db =>
    if op = .loadLinked then []
    else if op = .storeConditional then
      if granule address ∈ s.llTagSet then (byteWrites address db).map Prod.fst else []
    else if isLegalSize db.length then (byteWrites address db).map Prod.fst else []

/-- The granules whose reservation a call drops. -/
def dropped : Request → List Addr
  | .store address _ => [granule address]
  | .storeVector addresses .. => addresses.map granule
  | .performMemoryOp address op _ => if op = .storeConditional then [granule address] else []
  | _ => []

end Request

theorem length_toBytes (size n : Nat) : (toBytes size n).length = size := by
  induction size generalizing n with
  | zero => rfl
  | succ size ih => rw [toBytes, List.length_cons, ih]

theorem length_performOp (op : Operation) (size : Nat) (lhs rhs : Bytes) :
    (performOp op size lhs rhs).length = size := length_toBytes _ _

theorem map_fst_byteWrites (address : Addr) (db : Bytes) :
    (byteWrites address db).map Prod.fst
      = (List.range db.length).map fun i => address + BitVec.ofNat 64 i := by
  rw [byteWrites, List.mapIdx_eq_zipIdx_map, List.map_map]
  apply List.ext_getElem
  · simp
  · intro i h1 h2
    simp

variable {g : Addr} {s : State} {r : Request}

private theorem mem_foldl_erase {addresses : List Addr} {tags : Finset Addr} :
    g ∈ addresses.foldl (fun tags a => tags.erase (granule a)) tags ↔
      g ∈ tags ∧ g ∉ addresses.map granule := by
  induction addresses generalizing tags with
  | nil => simp
  | cons a rest ih =>
    rw [List.foldl_cons, ih, Finset.mem_erase, List.map_cons, List.mem_cons, not_or]
    tauto

/-- **Tags.** A granule is tagged after a call exactly if the call is a load-linked to
    it, or it was tagged and the call does not drop it. -/
theorem mem_step_llTagSet :
    g ∈ (step s r).llTagSet ↔
      (∃ address db, r = .performMemoryOp address .loadLinked db ∧ granule address = g) ∨
      (g ∈ s.llTagSet ∧ g ∉ r.dropped) := by
  cases r with
  | load address db => simp [step, serve, Request.dropped]
  | loadVector addresses mask elSize db => simp [step, serve, Request.dropped]
  | store address db =>
    simp [step, serve, Request.dropped, and_comm]
  | storeVector addresses mask elSize db =>
    simp only [step, serve, Request.dropped, mem_foldl_erase, reduceCtorEq, false_and,
      exists_false, false_or]
  | performMemoryOp address op db =>
    simp only [step, serve, performMemoryOp, Request.dropped]
    by_cases hll : op = .loadLinked
    · subst hll
      simp [eq_comm]
    · by_cases hsc : op = .storeConditional
      · subst hsc
        by_cases htag : granule address ∈ s.llTagSet
        · have : (storeConditional s address db).llTagSet = s.llTagSet.erase (granule address) := by
            simp only [storeConditional, htag, decide_true, if_true]
            split <;> rfl
          simp [this, and_comm]
        · have : (storeConditional s address db).llTagSet = s.llTagSet := by
            simp only [storeConditional, htag, decide_false, Bool.false_eq_true, if_false]
            split <;> rfl
          simp only [if_neg hll, if_true, this]
          constructor
          · intro hg
            refine Or.inr ⟨hg, ?_⟩
            rw [List.mem_singleton]
            rintro rfl
            exact htag hg
          · rintro (⟨_, _, hreq, -⟩ | ⟨hg, -⟩)
            · cases hreq
            · exact hg
      · have : (readModifyWrite s address op db).llTagSet = s.llTagSet := by
          unfold readModifyWrite
          split <;> rfl
        simp [hll, hsc, this]

/-! ### Atomicity -/

/-- The call is a load-linked to the granule. -/
def IsLoadLinked (g : Addr) (_ : State) (r : Request) : Prop :=
  ∃ address db, r = .performMemoryOp address .loadLinked db ∧ granule address = g

/-- The call writes no byte of the granule. -/
def KeepsGranule (g : Addr) (s : State) (r : Request) : Prop :=
  ∀ a ∈ r.footprint s, granule a ≠ g

/-- A store-conditional that would store has a size for its result. -/
def Request.resultFits (s : State) : Request → Bool
  | .performMemoryOp address .storeConditional db =>
    isLegalSize db.length ∨ granule address ∉ s.llTagSet
  | _ => true

/-- The call drops the reservation of every granule it writes, unless there is none, and
    does not store before it finds that its size is illegal. -/
def Faithful (s : State) (r : Request) : Prop :=
  (∀ a ∈ r.footprint s, granule a ∈ r.dropped ∨ granule a ∉ s.llTagSet) ∧ r.resultFits s = true

-- The quantifier ranges over a list; instance search would enumerate all addresses.
instance (s : State) (r : Request) : Decidable (Faithful s r) :=
  have : Decidable (∀ a ∈ r.footprint s, granule a ∈ r.dropped ∨ granule a ∉ s.llTagSet) :=
    List.decidableBAll _ _
  inferInstanceAs (Decidable (_ ∧ _))

/-- A store-conditional reports success: status and result are both zero. -/
def ReportsSuccess (out : Outcome) : Prop := out.status = .ok ∧ ofBytes out.db = 0

/-- The call drops the reservation of every granule it writes, unless there is none. -/
def DropsWritten (s : State) (r : Request) : Prop :=
  ∀ a ∈ r.footprint s, granule a ∈ r.dropped ∨ granule a ∉ s.llTagSet

theorem keeps_of_dropsWritten (hok : DropsWritten s r) (hg : g ∈ (step s r).llTagSet) :
    IsLoadLinked g s r ∨ (g ∈ s.llTagSet ∧ KeepsGranule g s r) := by
  rcases mem_step_llTagSet.mp hg with hll | ⟨hold, hkept⟩
  · exact Or.inl hll
  · refine Or.inr ⟨hold, fun a ha heq => ?_⟩
    rcases hok a ha with hdrop | hfree
    · exact hkept (heq ▸ hdrop)
    · exact hfree (heq ▸ hold)

theorem faithful_step (hok : Faithful s r) (hg : g ∈ (step s r).llTagSet) :
    IsLoadLinked g s r ∨ (g ∈ s.llTagSet ∧ KeepsGranule g s r) :=
  keeps_of_dropsWritten hok.1 hg

theorem isLegalSize_pos {size : Nat} (h : isLegalSize size = true) : 0 < size := by
  simp only [isLegalSize, decide_eq_true_eq] at h
  omega

theorem ofBytes_toBytes_result {size : Nat} (h : 0 < size) :
    ofBytes (toBytes size 0) = 0 ∧ ofBytes (toBytes size 1) = 1 := by
  have hzero : ∀ n, ofBytes (toBytes n 0) = 0 := by
    intro n
    induction n with
    | zero => rfl
    | succ n ih => simp [toBytes, ofBytes, ih]
  obtain ⟨n, rfl⟩ := Nat.exists_eq_succ_of_ne_zero h.ne'
  refine ⟨hzero _, ?_⟩
  simp [toBytes, ofBytes, hzero]

theorem storeConditional_spec {address : Addr} {db : Bytes}
    (hsize : isLegalSize db.length = true ∨ granule address ∉ s.llTagSet) :
    (ReportsSuccess (storeConditional s address db) →
      granule address ∈ s.llTagSet ∧ (storeConditional s address db).writes = byteWrites address db) ∧
    (¬ ReportsSuccess (storeConditional s address db) →
      (storeConditional s address db).writes = []) := by
  by_cases htag : granule address ∈ s.llTagSet
  · have hlegal := hsize.resolve_right (not_not.mpr htag)
    have hsuccess : ReportsSuccess (storeConditional s address db) := by
      simp only [ReportsSuccess, storeConditional, htag, decide_true, if_true, hlegal, true_and]
      exact (ofBytes_toBytes_result (isLegalSize_pos hlegal)).1
    refine ⟨fun _ => ⟨htag, ?_⟩, fun h => absurd hsuccess h⟩
    simp only [storeConditional, htag, decide_true, if_true, hlegal]
  · have hwrites : (storeConditional s address db).writes = [] := by
      simp only [storeConditional, htag, decide_false, Bool.false_eq_true, if_false]
      split <;> rfl
    refine ⟨fun h => ?_, fun _ => hwrites⟩
    exfalso
    obtain ⟨hstatus, hresult⟩ := h
    simp only [storeConditional, htag, decide_false, Bool.false_eq_true, if_false] at hstatus hresult
    split at hresult
    · next hlegal =>
      rw [(ofBytes_toBytes_result (isLegalSize_pos hlegal)).2] at hresult
      cases hresult
    · next hlegal =>
      rw [if_neg hlegal] at hstatus
      cases hstatus

/-- **Atomicity.** In every run of faithful calls from an empty tag set, a
    store-conditional that reports success stores its buffer, and its granule was
    reserved by a load-linked since which no call has written a byte of it; one that
    reports failure leaves memory as it was. -/
theorem storeConditional_atomic (mem : Mem) (reqs : List Request) (address : Addr) (db : Bytes)
    (hok : Along step Faithful ⟨mem, ∅⟩ (reqs ++ [.performMemoryOp address .storeConditional db])) :
    let s := run step ⟨mem, ∅⟩ reqs
    let out := serve s (.performMemoryOp address .storeConditional db)
    let s' := step s (.performMemoryOp address .storeConditional db)
    (ReportsSuccess out → s'.mem = s.mem.apply (byteWrites address db) ∧
      Since step (IsLoadLinked (granule address)) (KeepsGranule (granule address)) ⟨mem, ∅⟩ reqs) ∧
    (¬ ReportsSuccess out → s'.mem = s.mem) := by
  intro s out s'
  obtain ⟨hreqs, hlast⟩ := along_snoc.mp hok
  have hfits : isLegalSize db.length = true ∨ granule address ∉ s.llTagSet := by
    simpa [Request.resultFits] using hlast.2
  have hspec := storeConditional_spec hfits
  have hserve : out = storeConditional s address db := rfl
  have hmem : s'.mem = s.mem.apply out.writes := rfl
  rw [hmem, hserve]
  refine ⟨fun h => ?_, fun h => ?_⟩
  · obtain ⟨htag, hwrites⟩ := hspec.1 h
    refine ⟨by rw [hwrites], ?_⟩
    exact since_of_step (fun s => granule address ∈ s.llTagSet) (by simp)
      (fun _ _ => faithful_step) hreqs htag
  · rw [hspec.2 h]
    rfl

/-- The state of a new memory filled with zeros. -/
def zeroState : State := ⟨fun _ => 0, ∅⟩

/-- A load-linked to address 0. -/
def linkZero : Request := .performMemoryOp 0 .loadLinked [0, 0, 0, 0]

/-- An atomic addition of one at address 0. -/
def addZero : Request := .performMemoryOp 0 .atomicAdd [1, 0, 0, 0]

/-- A store-conditional to address 0. -/
def condZero : Request := .performMemoryOp 0 .storeConditional [7, 0, 0, 0]

/-- A store-conditional right after the load-linked. -/
theorem condZero_atomic :
    ReportsSuccess (serve (run step zeroState [linkZero]) condZero) ∧
      Since step (IsLoadLinked 0) (KeepsGranule 0) zeroState [linkZero] := by
  have hsuccess : ReportsSuccess (serve (run step zeroState [linkZero]) condZero) :=
    ⟨by decide, by decide⟩
  have hok : Along step Faithful zeroState ([linkZero] ++ [condZero]) :=
    ⟨by decide, by decide, trivial⟩
  exact ⟨hsuccess, ((storeConditional_atomic (fun _ => 0) [linkZero] 0 [7, 0, 0, 0] hok).1
    hsuccess).2⟩

/-- An atomic addition between the two leaves the reservation in place: the
    store-conditional succeeds although the granule has been written. -/
theorem condZero_after_addZero :
    ReportsSuccess (serve (run step zeroState [linkZero, addZero]) condZero) ∧
      ¬ Since step (IsLoadLinked 0) (KeepsGranule 0) zeroState [linkZero, addZero] := by
  refine ⟨⟨by decide, by decide⟩, not_since_snoc [linkZero] ?_ ?_⟩
  · rintro s ⟨address, db, hop, -⟩
    cases hop
  · intro s hkeep
    have hwrites : (0 : Addr) ∈ (byteWrites 0 [1, 0, 0, 0]).map Prod.fst := by decide
    exact hkeep 0 hwrites (by decide)

end MpactSim.Memory
