import MpactSim.Lib.Refinement
import MpactSim.Memory.AtomicMemory
import MpactSim.Memory.TaggedFlat

namespace MpactSim.Memory

open Lib

/-!
# Atomic memory with tags

`AtomicTaggedMemory` adds the operations of `AtomicMemory` to a memory with tags.  The memory
behind it is any `TaggedMemoryInterface`.

* `AtomicTaggedMemory.serve`  — one call of the wrapper;
* `AtomicTaggedMemory.direct` — its loads and stores are made on the memory itself;
* `atomicTagged_transparent`  — the two are the same, and store-conditionals are sound, in runs in
  which a store with tags does what one of the data alone does, and each call drops the
  reservations of the granules it writes.
-/

/-! ### The source -/

/-- `TaggedMemoryInterface`, with the state of the memory behind it.  A load returns the buffers
    after it; a call that is out of bounds may have no result. -/
structure TaggedMemoryInterface (σ : Type) where
  load : σ → Addr → Bytes → Option (Bytes × σ)
  loadVector : σ → List Addr → List Bool → Nat → Bytes → Option (Bytes × σ)
  loadTagged : σ → Addr → Option Bytes → Bytes → Option ((Option Bytes × Bytes) × σ)
  store : σ → Addr → Bytes → Option σ
  storeVector : σ → List Addr → List Bool → Nat → Bytes → Option σ
  storeTagged : σ → Addr → Bytes → Bytes → Option σ

/-- `AtomicTaggedMemory`: the memory, the tag set, and the data buffers `db1_` to `db8_` by their
    sizes. -/
structure AtomicTaggedMemory (σ : Type) where
  taggedMemory : σ
  llTagSet : Finset Addr
  buffers : Nat → Bytes

/-- A call of the interface. -/
inductive TaggedRequest where
  | load (address : Addr) (db : Bytes)
  | loadVector (addresses : List Addr) (mask : List Bool) (elSize : Nat) (db : Bytes)
  | loadTagged (address : Addr) (db : Option Bytes) (tagDb : Bytes)
  | store (address : Addr) (db : Bytes)
  | storeVector (addresses : List Addr) (mask : List Bool) (elSize : Nat) (db : Bytes)
  | storeTagged (address : Addr) (db tagDb : Bytes)
  | performMemoryOp (address : Addr) (op : Operation) (db : Bytes)

/-- What a call leaves to its caller: the status, and the buffers for data and tags. -/
structure Reply where
  status : Status := .ok
  db : Option Bytes
  tagDb : Bytes := []

namespace AtomicTaggedMemory

variable {σ : Type} (mem : TaggedMemoryInterface σ)

/-- `WriteDb` -/
def writeDb (db : Bytes) (value : Nat) : Reply :=
  if isLegalSize db.length then { db := some (toBytes db.length value) }
  else { status := illegalSize db.length, db := some db }

/-- The store-conditional of `PerformMemoryOp`. -/
def storeConditional (s : AtomicTaggedMemory σ) (address : Addr) (db : Bytes) :
    Option (Reply × AtomicTaggedMemory σ) :=
  if granule address ∈ s.llTagSet then do
    let taggedMemory ← mem.store s.taggedMemory address db
    pure (writeDb db 0, { s with taggedMemory, llTagSet := s.llTagSet.erase (granule address) })
  else some (writeDb db 1, s)

/-- Swap and the read-modify-write operations of `PerformMemoryOp`.  The new value is left in the
    buffer of `GetDb`. -/
def readModifyWrite (s : AtomicTaggedMemory σ) (address : Addr) (op : Operation) (db : Bytes) :
    Option (Reply × AtomicTaggedMemory σ) :=
  if isLegalSize db.length then do
    let (old, taggedMemory) ← mem.load s.taggedMemory address (s.buffers db.length)
    let new := if op = .atomicSwap then db else performOp op db.length old db
    let taggedMemory ← mem.store taggedMemory address new
    pure ({ db := some old },
      { s with taggedMemory, buffers := Function.update s.buffers db.length new })
  else some ({ status := illegalSize db.length, db := some db }, s)

/-- `PerformMemoryOp` -/
def performMemoryOp (s : AtomicTaggedMemory σ) (address : Addr) (op : Operation) (db : Bytes) :
    Option (Reply × AtomicTaggedMemory σ) :=
  if op = .loadLinked then do
    let (db, taggedMemory) ← mem.load s.taggedMemory address db
    pure ({ db := some db }, { s with taggedMemory, llTagSet := insert (granule address) s.llTagSet })
  else if op = .storeConditional then storeConditional mem s address db
  else readModifyWrite mem s address op db

/-- One call of the interface. -/
def serve (s : AtomicTaggedMemory σ) : TaggedRequest → Option (Reply × AtomicTaggedMemory σ)
  | .load address db => do
    let (db, taggedMemory) ← mem.load s.taggedMemory address db
    pure ({ db := some db }, { s with taggedMemory })
  | .loadVector addresses mask elSize db => do
    let (db, taggedMemory) ← mem.loadVector s.taggedMemory addresses mask elSize db
    pure ({ db := some db }, { s with taggedMemory })
  | .loadTagged address db tagDb => do
    let ((db, tagDb), taggedMemory) ← mem.loadTagged s.taggedMemory address db tagDb
    pure ({ db, tagDb }, { s with taggedMemory })
  | .store address db => do
    let taggedMemory ← mem.store s.taggedMemory address db
    pure ({ db := some db },
      { s with taggedMemory, llTagSet := s.llTagSet.erase (granule address) })
  | .storeVector addresses mask elSize db => do
    let taggedMemory ← mem.storeVector s.taggedMemory addresses mask elSize db
    pure ({ db := some db }, { s with
      taggedMemory
      llTagSet := addresses.foldl (fun tags a => tags.erase (granule a)) s.llTagSet })
  -- The tags are not passed on.
  | .storeTagged address db tagDb => do
    let taggedMemory ← mem.store s.taggedMemory address db
    pure ({ db := some db, tagDb },
      { s with taggedMemory, llTagSet := s.llTagSet.erase (granule address) })
  | .performMemoryOp address op db => performMemoryOp mem s address op db

/-! ### The specification -/

/-- A load or store, made on the memory itself. -/
def forward (memory : σ) : TaggedRequest → Option (Reply × σ)
  | .load address db => (mem.load memory address db).map fun (db, m) => ({ db := some db }, m)
  | .loadVector addresses mask elSize db =>
    (mem.loadVector memory addresses mask elSize db).map fun (db, m) => ({ db := some db }, m)
  | .loadTagged address db tagDb =>
    (mem.loadTagged memory address db tagDb).map fun ((db, tagDb), m) => ({ db, tagDb }, m)
  | .store address db => (mem.store memory address db).map fun m => ({ db := some db }, m)
  | .storeVector addresses mask elSize db =>
    (mem.storeVector memory addresses mask elSize db).map fun m => ({ db := some db }, m)
  | .storeTagged address db tagDb =>
    (mem.storeTagged memory address db tagDb).map fun m => ({ db := some db, tagDb }, m)
  | .performMemoryOp _ _ db => some ({ db := some db }, memory)

end AtomicTaggedMemory

/-- A store-conditional reports success. -/
def Reply.Succeeds (reply : Reply) : Prop :=
  reply.status = .ok ∧ ∃ db, reply.db = some db ∧ ofBytes db = 0

/-- The call without its tags.  It stores to the same addresses, and drops the same reservations. -/
def TaggedRequest.plain : TaggedRequest → Request
  | .load address db => .load address db
  | .loadVector addresses mask elSize db => .loadVector addresses mask elSize db
  | .loadTagged address db _ => .load address (db.getD [])
  | .store address db | .storeTagged address db _ => .store address db
  | .storeVector addresses mask elSize db => .storeVector addresses mask elSize db
  | .performMemoryOp address op db => .performMemoryOp address op db

namespace AtomicTaggedMemory

variable {σ : Type} (mem : TaggedMemoryInterface σ)

/-- The tag set of a wrapper, for a memory that does not matter. -/
def tagState (s : AtomicTaggedMemory σ) : State := ⟨fun _ => 0, s.llTagSet⟩

/-- A call whose loads and stores are made on the memory itself.  The memory operations are those of
    the wrapper, which keeps track of the reservations. -/
def direct (s : AtomicTaggedMemory σ) (r : TaggedRequest) : Option (Reply × AtomicTaggedMemory σ) :=
  match r with
  | .performMemoryOp address op db => performMemoryOp mem s address op db
  | r => do
    let (reply, taggedMemory) ← forward mem s.taggedMemory r
    pure (reply, { s with taggedMemory, llTagSet := (step s.tagState r.plain).llTagSet })

/-- A load-linked to the granule is among the calls, and none of those after it stores to the
    granule.  What a call stores to depends on the tag set alone. -/
def LinkedSince (g : Addr) (calls : List TaggedRequest) : Prop :=
  Since step (IsLoadLinked g) (KeepsGranule g) ⟨fun _ => 0, ∅⟩ (calls.map TaggedRequest.plain)

/-- A store with tags does to the memory what one of its data alone does. -/
def KeepsTags (s : AtomicTaggedMemory σ) (r : TaggedRequest) : Prop :=
  ∀ address db tagDb, r = .storeTagged address db tagDb →
    mem.store s.taggedMemory address db = mem.storeTagged s.taggedMemory address db tagDb

/-- The call drops the reservation of every granule that it stores to, unless there is none. -/
def DropsStored (s : AtomicTaggedMemory σ) (r : TaggedRequest) : Prop :=
  DropsWritten s.tagState r.plain

/-! ### One call -/

variable {mem} {s s' : AtomicTaggedMemory σ} {r : TaggedRequest} {reply : Reply}

/-- **Step lemma.** The wrapper makes the loads and stores of a call on the memory itself. -/
theorem serve_eq_direct (h : KeepsTags mem s r) : serve mem s r = direct mem s r := by
  cases r with
  | load address db =>
    simp only [serve, direct, forward]
    cases mem.load s.taggedMemory address db <;> rfl
  | loadVector addresses mask elSize db =>
    simp only [serve, direct, forward]
    cases mem.loadVector s.taggedMemory addresses mask elSize db <;> rfl
  | loadTagged address db tagDb =>
    simp only [serve, direct, forward]
    cases mem.loadTagged s.taggedMemory address db tagDb <;> rfl
  | store address db =>
    simp only [serve, direct, forward]
    cases mem.store s.taggedMemory address db <;> rfl
  | storeVector addresses mask elSize db =>
    simp only [serve, direct, forward]
    cases mem.storeVector s.taggedMemory addresses mask elSize db <;> rfl
  | storeTagged address db tagDb =>
    simp only [serve, direct, forward, h address db tagDb rfl]
    cases mem.storeTagged s.taggedMemory address db tagDb <;> rfl
  | performMemoryOp address op db => rfl

theorem serve_llTagSet (h : serve mem s r = some (reply, s')) :
    s'.llTagSet = (step s.tagState r.plain).llTagSet := by
  cases r with
  | load address db | loadVector addresses mask elSize db | loadTagged address db tagDb
  | store address db | storeVector addresses mask elSize db | storeTagged address db tagDb =>
    obtain ⟨result, -, hs'⟩ := Option.bind_eq_some_iff.mp h
    cases hs'
    rfl
  | performMemoryOp address op db =>
    rw [serve, performMemoryOp] at h
    rw [TaggedRequest.plain, step, Memory.serve, Memory.performMemoryOp]
    split at h
    · rename_i hop
      obtain ⟨result, -, hs'⟩ := Option.bind_eq_some_iff.mp h
      cases hs'
      rw [if_pos hop]
      rfl
    · rename_i hop
      rw [if_neg hop]
      split at h
      · rename_i hsc
        rw [if_pos hsc, Memory.storeConditional]
        rw [storeConditional] at h
        split at h
        · rename_i htag
          obtain ⟨result, -, hs'⟩ := Option.bind_eq_some_iff.mp h
          cases hs'
          have htag' : granule address ∈ s.tagState.llTagSet := htag
          simp only [htag', decide_true, if_true]
          split <;> rfl
        · rename_i htag
          cases h
          have htag' : granule address ∉ s.tagState.llTagSet := htag
          simp only [htag', decide_false, Bool.false_eq_true, if_false]
          split <;> rfl
      · rename_i hsc
        rw [if_neg hsc, Memory.readModifyWrite]
        rw [readModifyWrite] at h
        split at h
        · rename_i hsize
          obtain ⟨loaded, -, h⟩ := Option.bind_eq_some_iff.mp h
          obtain ⟨stored, -, hs'⟩ := Option.bind_eq_some_iff.mp h
          cases hs'
          rw [if_pos hsize]
          rfl
        · rename_i hsize
          cases h
          rw [if_neg hsize]
          rfl

theorem step_llTagSet_congr {t t' : State} (h : t.llTagSet = t'.llTagSet) (r : Request) :
    (step t r).llTagSet = (step t' r).llTagSet := by
  ext g
  rw [mem_step_llTagSet, mem_step_llTagSet, h]

theorem dropsWritten_congr {t t' : State} (h : t.llTagSet = t'.llTagSet) {r : Request} :
    DropsWritten t r ↔ DropsWritten t' r := by
  have hfootprint : r.footprint t = r.footprint t' := by
    cases r <;> simp only [Request.footprint, h]
  rw [DropsWritten, DropsWritten, hfootprint, h]

/-- **Run lemma.** The tag set of a run is that of the calls without their tags. -/
theorem tags_run {calls : List TaggedRequest} {replies : List Reply}
    (hrun : runM (serve mem) s calls = some (replies, s')) (hok : AlongM (serve mem) DropsStored s calls) :
    s'.llTagSet = (run step s.tagState (calls.map TaggedRequest.plain)).llTagSet ∧
      Along step DropsWritten s.tagState (calls.map TaggedRequest.plain) := by
  refine along_of_alongM TaggedRequest.plain
    (fun (s : AtomicTaggedMemory σ) (t : State) => s.llTagSet = t.llTagSet) ?_ ?_ rfl hrun hok
  · exact fun s t r h hdrops => (dropsWritten_congr (t := s.tagState) h).mp hdrops
  · intro s t r reply s' h hserve
    rw [serve_llTagSet hserve]
    exact step_llTagSet_congr (t := s.tagState) h _

theorem mem_of_succeeds {address : Addr} {db : Bytes}
    (h : serve mem s (.performMemoryOp address .storeConditional db) = some (reply, s'))
    (hsuccess : reply.Succeeds) : granule address ∈ s.llTagSet := by
  by_contra htag
  have hreply : some (writeDb db 1, s) = some (reply, s') := by
    rw [← h, serve, performMemoryOp, if_neg (by decide), if_pos rfl, storeConditional, if_neg htag]
  cases hreply
  obtain ⟨hstatus, db', hdb, hzero⟩ := hsuccess
  rw [writeDb] at hstatus hdb
  split at hdb
  · rename_i hsize
    cases hdb
    rw [(ofBytes_toBytes_result (isLegalSize_pos hsize)).2] at hzero
    cases hzero
  · rename_i hsize
    rw [if_neg hsize] at hstatus
    cases hstatus

theorem dropsStored_storeConditional {address : Addr} {db : Bytes}
    (h : ∀ a ∈ (byteWrites address db).map Prod.fst, granule a = granule address) :
    DropsStored s (.performMemoryOp address .storeConditional db) := by
  intro a ha
  have hmem : a ∈ (byteWrites address db).map Prod.fst := by
    simp only [TaggedRequest.plain, Request.footprint, reduceCtorEq, if_false, if_true] at ha
    split at ha
    · exact ha
    · cases ha
  left
  rw [h a hmem]
  exact List.mem_singleton_self _

/-! ### The flat memory with tags -/

/-- `TaggedFlatDemandMemory`.  A tagged load adds blocks that hold what is read anyway. -/
def flatTagged : TaggedMemoryInterface TaggedFlatDemandMemory where
  load m address db :=
    (m.dataMemory.load address db).map fun (dataMemory, db) => (db, { m with dataMemory })
  loadVector m addresses mask elSize db :=
    (m.dataMemory.vector addresses mask elSize db true).map fun (dataMemory, db) =>
      (db, { m with dataMemory })
  loadTagged m address db tagDb := (m.loadTagged address db tagDb).map fun buffers => (buffers, m)
  store := TaggedFlatDemandMemory.store
  storeVector := TaggedFlatDemandMemory.storeVector
  storeTagged := TaggedFlatDemandMemory.storeTagged

/-- In the flat memory, a store with tags that are all zero is one of its data alone. -/
theorem flatTagged_keepsTags {memorySize base : Addr} {granule : Nat} {m : TaggedFlatDemandMemory}
    (hm : m.Ready memorySize base granule) {address : Addr} {db tagDb : Bytes}
    (hcheck : checkRequest m.granule m.shift address (some db) tagDb = true) (hpos : 0 < db.length)
    (hsize : db.length < 2 ^ 31) (hwrap : address.toNat + db.length ≤ 2 ^ 64)
    (hzero : ∀ t ∈ tagDb, t = 0) :
    flatTagged.store m address db = flatTagged.storeTagged m address db tagDb := by
  obtain ⟨halign, hlen⟩ := TaggedFlatDemandMemory.of_checkRequest hm hcheck
  have hgranule := hm.granule_pos
  have hlast : (address + BitVec.ofNat 64 db.length - 1).toNat = address.toNat + db.length - 1 := by
    have hhi := accessRange_hi address hpos
    rw [Nat.mod_eq_of_lt (by omega)] at hhi
    rw [Nat.add_sub_assoc hpos]
    exact hhi
  have hlo := hm.toNat_shift address
  have hhi := hm.toNat_shift (address + BitVec.ofNat 64 db.length - 1)
  rw [hlast] at hhi
  -- The access covers whole granules, one for each of its tags.
  obtain ⟨q, hq⟩ := Nat.dvd_of_mod_eq_zero halign
  obtain ⟨n, hn⟩ : ∃ n, tagDb.length = n + 1 := by
    refine ⟨tagDb.length - 1, (Nat.succ_pred_eq_of_ne_zero fun hnone => ?_).symm⟩
    rw [hnone, Nat.mul_zero] at hlen
    omega
  have hquot : (address.toNat + db.length - 1) / granule = q + n := by
    have hsum : address.toNat + db.length - 1 = granule * (q + n) + (granule - 1) := by
      rw [hq, hlen, hn, Nat.mul_succ, Nat.mul_add]
      omega
    rw [hsum, Nat.mul_add_div hgranule, Nat.div_eq_of_lt (by omega), Nat.add_zero]
  have hfirst : address.toNat / granule = q := by rw [hq, Nat.mul_div_cancel_left q hgranule]
  have hle : n + 1 ≤ db.length := by
    rw [hlen, hn]
    exact Nat.le_mul_of_pos_left _ hgranule
  rw [hquot] at hhi
  rw [hfirst] at hlo
  have hnum := TaggedFlatDemandMemory.numTags_eq (address >>> m.shift)
    ((address + BitVec.ofNat 64 db.length - 1) >>> m.shift) (by omega) (by omega)
  have hcount : q + n - q + 1 = tagDb.length := by omega
  rw [hlo, hhi, hcount] at hnum
  have htags : List.replicate tagDb.length 0 = tagDb := (List.eq_replicate_iff.mpr ⟨rfl, hzero⟩).symm
  show m.store address db = m.storeTagged address db tagDb
  rw [TaggedFlatDemandMemory.store, TaggedFlatDemandMemory.storeTagged, if_pos hcheck]
  cases m.dataMemory.store address db with
  | none => rfl
  | some stored =>
    simp only [Option.bind_eq_bind, Option.bind_some, TaggedFlatDemandMemory.clearTags]
    rw [hnum, htags]

/-- **Transparency and reservations.** If every store with tags of a run does to the memory what one
    of its data alone does, and every call drops the reservations of the granules it stores to, then
    all calls reply as if their loads and stores were made on the memory itself, and a
    store-conditional succeeds only if nothing was stored to its granule since a load-linked. -/
theorem atomicTagged_transparent {σ : Type} (mem : TaggedMemoryInterface σ) (memory : σ)
    (buffers : Nat → Bytes) (calls : List TaggedRequest)
    (hok : AlongM (serve mem) (fun s r => KeepsTags mem s r ∧ DropsStored s r) ⟨memory, ∅, buffers⟩
      calls) :
    runM (serve mem) ⟨memory, ∅, buffers⟩ calls = runM (direct mem) ⟨memory, ∅, buffers⟩ calls ∧
    ∀ before address db after,
      calls = before ++ .performMemoryOp address .storeConditional db :: after →
      ∀ replies s reply s', runM (serve mem) ⟨memory, ∅, buffers⟩ before = some (replies, s) →
        serve mem s (.performMemoryOp address .storeConditional db) = some (reply, s') →
        reply.Succeeds → LinkedSince (granule address) before := by
  refine ⟨runM_congr (hok.imp fun s r h => serve_eq_direct h.1), ?_⟩
  rintro before address db after rfl replies s reply s' hrun hserve hsuccess
  obtain ⟨htags, hdrops⟩ := tags_run hrun (hok.of_append.imp fun s r h => h.2)
  have hmem := mem_of_succeeds hserve hsuccess
  rw [htags] at hmem
  exact since_of_step (fun t => granule address ∈ t.llTagSet) (Finset.notMem_empty _)
    (fun t r => keeps_of_dropsWritten) hdrops hmem

/-- A store with a tag of zero, a load-linked and a store-conditional. -/
def untaggedCalls : List TaggedRequest :=
  [.storeTagged 0x1000 (List.replicate 16 7) [0], .performMemoryOp 0x1000 .loadLinked [0, 0, 0, 0],
    .performMemoryOp 0x1000 .storeConditional [1, 0, 0, 0]]

theorem atomicTagged_transparent_untaggedCalls :
    ∃ m, TaggedFlatDemandMemory.init 0x10000 0x1000 1 0 16 = some m ∧
      runM (serve flatTagged) ⟨m, ∅, fun _ => []⟩ untaggedCalls
        = runM (direct flatTagged) ⟨m, ∅, fun _ => []⟩ untaggedCalls ∧
      ∀ before address db after,
        untaggedCalls = before ++ .performMemoryOp address .storeConditional db :: after →
        ∀ replies s reply s',
          runM (serve flatTagged) ⟨m, ∅, fun _ => []⟩ before = some (replies, s) →
          serve flatTagged s (.performMemoryOp address .storeConditional db) = some (reply, s') →
          reply.Succeeds → LinkedSince (granule address) before := by
  obtain ⟨m, hinit⟩ : ∃ m, TaggedFlatDemandMemory.init 0x10000 0x1000 1 0 16 = some m :=
    ⟨_, rfl⟩
  have hready := TaggedFlatDemandMemory.ready_init hinit (by decide)
  refine ⟨m, hinit, atomicTagged_transparent flatTagged m (fun _ => []) untaggedCalls
    ⟨⟨?_, ?_⟩, fun _ s _ => ⟨⟨nofun, ?_⟩, fun _ s _ => ⟨⟨nofun, ?_⟩, fun _ _ _ => trivial⟩⟩⟩⟩
  · rintro address db tagDb hcall
    cases hcall
    refine flatTagged_keepsTags hready ?_ (by simp) (by simp) (by decide) (by simp)
    rw [hready.granule_eq, hready.shift_eq]
    decide
  · exact fun a _ => .inr (Finset.notMem_empty _)
  · exact fun a ha => absurd ha List.not_mem_nil
  · refine dropsStored_storeConditional fun a ha => ?_
    have hcases : a = 0x1000 ∨ a = 0x1001 ∨ a = 0x1002 ∨ a = 0x1003 := by
      simpa [byteWrites] using ha
    rcases hcases with rfl | rfl | rfl | rfl <;> decide

/-- A store with a tag, and a load of it. -/
def taggedCalls : List TaggedRequest :=
  [.storeTagged 0x1000 (List.replicate 16 7) [1], .loadTagged 0x1000 (some (List.replicate 16 0)) [9]]

/-- A load-linked, and an addition to its granule. -/
def addedCalls : List TaggedRequest :=
  [.performMemoryOp 0x1000 .loadLinked [0, 0, 0, 0], .performMemoryOp 0x1000 .atomicAdd [1, 0, 0, 0]]

/-- The tag that is loaded is not the one that was stored, and a store-conditional succeeds after an
    addition to its granule. -/
theorem taggedCalls_not_transparent :
    ∃ m, TaggedFlatDemandMemory.init 0x10000 0x1000 1 0 16 = some m ∧
      ((runM (serve flatTagged) ⟨m, ∅, fun _ => []⟩ taggedCalls).map fun run =>
        run.1.map Reply.tagDb) = some [[1], [0]] ∧
      ((runM (direct flatTagged) ⟨m, ∅, fun _ => []⟩ taggedCalls).map fun run =>
        run.1.map Reply.tagDb) = some [[1], [1]] ∧
      ((runM (serve flatTagged) ⟨m, ∅, fun n => List.replicate n 0⟩
        (addedCalls ++ [.performMemoryOp 0x1000 .storeConditional [7, 0, 0, 0]])).map fun run =>
          run.1.map fun reply => (reply.status, reply.db)) =
        some [(.ok, some [0, 0, 0, 0]), (.ok, some [0, 0, 0, 0]), (.ok, some [0, 0, 0, 0])] ∧
      ¬LinkedSince (granule 0x1000) addedCalls := by
  refine ⟨_, rfl, by decide, by decide, by decide,
    not_since_snoc [Request.performMemoryOp 0x1000 .loadLinked [0, 0, 0, 0]] ?_ ?_⟩
  · rintro s ⟨address, db, hop, -⟩
    cases hop
  · intro s hkeep
    have hwrites : (0x1000 : Addr) ∈ (byteWrites 0x1000 [1, 0, 0, 0]).map Prod.fst := by decide
    exact hkeep 0x1000 hwrites rfl

end AtomicTaggedMemory

end MpactSim.Memory
