import MpactSim.Lib.Run

namespace MpactSim.Generic

open Lib

/-!
# The pool of data buffers

A `DataBufferFactory` keeps the buffers whose reference count has come down to zero on
free lists by size: an array of lists for sizes up to `kShortSize`, a map for the others.
`Clear` deletes what is on the lists.  Buffers are numbered in the order in which they are
made, and a deleted one keeps its number; their contents are left out.

* `Disciplined` — no buffer on a free list is live, and none is there twice;
* `Allocates` — what is returned is neither live nor deleted and has the size asked for;
* `disciplined_iff` — which runs keep this: `Clear` empties copies of the lists of the map,
  which go on holding the deleted buffers.
-/

/-! ### The source -/

/-- `DataBufferFactory::kShortSize`. -/
def kShortSize : Nat := 4096

/-- A `DataBuffer` with the counts of its `ReferenceCount`. -/
structure DataBuffer where
  size : Nat
  incCount : Nat
  decCount : Nat
  deleted : Bool
  deriving DecidableEq, Repr

/-- A buffer that is referenced. -/
def DataBuffer.isLive (db : DataBuffer) : Bool := !db.deleted && db.incCount ≠ db.decCount

/-- `DataBufferFactory` and every buffer it has made.  The back of a free list is its head;
    `sizes` are the keys of the map `free_list_`. -/
structure DataBufferFactory where
  buffers : List DataBuffer
  shortFreeList : Nat → List Nat
  sizes : List Nat
  freeList : Nat → List Nat

inductive BufferCall where
  | allocate (size : Nat)
  | makeCopyOf (src : Nat)
  | incRef (b : Nat)
  | decRef (b : Nat)
  | clear
  deriving DecidableEq, Repr

namespace DataBufferFactory

/-- A new factory. -/
def init : DataBufferFactory := ⟨[], fun _ => [], [], fun _ => []⟩

/-- Change a buffer. -/
def modify (s : DataBufferFactory) (b : Nat) (f : DataBuffer → DataBuffer) : DataBufferFactory :=
  { s with buffers := s.buffers.modify b f }

/-- `IncRef` and `ResetCounts` on a buffer from a free list; undefined if it is deleted. -/
def reuse (s : DataBufferFactory) (b : Nat) : Option (DataBufferFactory × Nat) :=
  match s.buffers[b]? with
  | none => none
  | some db =>
    if db.deleted then none
    else some (s.modify b fun db => { db with incCount := 1, decCount := 0 }, b)

/-- A new buffer. -/
def newBuffer (s : DataBufferFactory) (size : Nat) : DataBufferFactory × Nat :=
  ({ s with buffers := s.buffers ++ [⟨size, 1, 0, false⟩] }, s.buffers.length)

/-- `Allocate`. -/
def allocate (s : DataBufferFactory) (size : Nat) : Option (DataBufferFactory × Nat) :=
  if size ≤ kShortSize then
    match s.shortFreeList size with
    | b :: rest => reuse { s with shortFreeList := Function.update s.shortFreeList size rest } b
    | [] => some (s.newBuffer size)
  else
    match s.freeList size with
    | b :: rest => reuse { s with freeList := Function.update s.freeList size rest } b
    | [] => some (s.newBuffer size)

/-- `Recycle`. -/
def recycle (s : DataBufferFactory) (b size : Nat) : DataBufferFactory :=
  if size ≤ kShortSize then
    { s with shortFreeList := Function.update s.shortFreeList size (b :: s.shortFreeList size) }
  else if size ∈ s.sizes then
    { s with freeList := Function.update s.freeList size (b :: s.freeList size) }
  else
    { s with sizes := size :: s.sizes, freeList := Function.update s.freeList size [b] }

/-- `DecRef`, which recycles a buffer with its last reference. -/
def decRef (s : DataBufferFactory) (b : Nat) (db : DataBuffer) : DataBufferFactory :=
  let s := s.modify b fun db => { db with decCount := db.decCount + 1 }
  if db.incCount = db.decCount + 1 then s.recycle b db.size else s

/-- `delete`; undefined on a deleted buffer. -/
def delete (s : DataBufferFactory) (b : Nat) : Option DataBufferFactory :=
  match s.buffers[b]? with
  | none => none
  | some db => if db.deleted then none else some (s.modify b fun db => { db with deleted := true })

/-- `Clear`.  The loop over the map clears a copy of each list. -/
def clear (s : DataBufferFactory) : Option DataBufferFactory := do
  let s ← ((List.range (kShortSize + 1)).flatMap s.shortFreeList).foldlM delete s
  let s := { s with shortFreeList := fun _ => [] }
  (s.sizes.flatMap s.freeList).foldlM delete s

/-- A call and the buffer it returns; `none` where the behaviour is undefined.  A client can
    name only a buffer that it references. -/
def call (s : DataBufferFactory) : BufferCall → Option (DataBufferFactory × Option Nat)
  | .allocate size => (s.allocate size).map fun r => (r.1, some r.2)
  | .makeCopyOf src =>
    match s.buffers[src]? with
    | some db => if db.isLive then (s.allocate db.size).map fun r => (r.1, some r.2)
      else some (s, none)
    | none => some (s, none)
  | .incRef b =>
    match s.buffers[b]? with
    | some db => if db.isLive then
        some (s.modify b fun db => { db with incCount := db.incCount + 1 }, none)
      else some (s, none)
    | none => some (s, none)
  | .decRef b =>
    match s.buffers[b]? with
    | some db => if db.isLive then some (s.decRef b db, none) else some (s, none)
    | none => some (s, none)
  | .clear => s.clear.map fun s => (s, none)

/-- A call in a run. -/
def step (s : Option DataBufferFactory) (c : BufferCall) : Option DataBufferFactory :=
  s.bind fun s => (s.call c).map Prod.fst

/-! ### The specification -/

/-- A live buffer. -/
def Live (s : DataBufferFactory) (b : Nat) : Prop := ∃ db, s.buffers[b]? = some db ∧ db.isLive

/-- A deleted buffer. -/
def Deleted (s : DataBufferFactory) (b : Nat) : Prop :=
  ∃ db, s.buffers[b]? = some db ∧ db.deleted = true

/-- What is on the free lists. -/
def freeBuffers (s : DataBufferFactory) : List Nat :=
  (List.range (kShortSize + 1)).flatMap s.shortFreeList ++ s.sizes.flatMap s.freeList

/-- No free buffer is live, and none is on the lists twice. -/
def Disciplined (s : DataBufferFactory) : Prop :=
  (∀ b ∈ s.freeBuffers, ¬ s.Live b) ∧ s.freeBuffers.Nodup

/-- The size that a call asks for. -/
def requestedSize (s : DataBufferFactory) : BufferCall → Option Nat
  | .allocate size => some size
  | .makeCopyOf src => (s.buffers[src]?).bind fun db => if db.isLive then some db.size else none
  | _ => none

/-- The buffer that is returned was neither live nor deleted, and has the size asked for. -/
def Allocates (s : Option DataBufferFactory) (c : BufferCall) : Prop :=
  ∃ s₀ s₁ result, s = some s₀ ∧ s₀.call c = some (s₁, result) ∧
    ∀ size, s₀.requestedSize c = some size →
      ∃ b, result = some b ∧ ¬ s₀.Live b ∧ ¬ s₀.Deleted b ∧
        ∃ db, s₁.buffers[b]? = some db ∧ db.size = size ∧ db.isLive

/-- The calls that meet no deleted buffer on a free list. -/
def MeetsNoDeleted : Option DataBufferFactory → BufferCall → Prop
  | none, _ => False
  | some s, .clear => ∀ size ∈ s.sizes, ∀ b ∈ s.freeList size, ¬ s.Deleted b
  | some s, c => ∀ size ∈ s.requestedSize c, kShortSize < size →
      ∀ b ∈ (s.freeList size).head?, ¬ s.Deleted b

/-! ### Lists by size -/

variable {s : DataBufferFactory}

/-- The free list for a size, and the factory with another one. -/
def filed (s : DataBufferFactory) (size : Nat) : List Nat :=
  if size ≤ kShortSize then s.shortFreeList size else s.freeList size

def refile (s : DataBufferFactory) (size : Nat) (bs : List Nat) : DataBufferFactory :=
  if size ≤ kShortSize then { s with shortFreeList := Function.update s.shortFreeList size bs }
  else { s with
    sizes := if size ∈ s.sizes then s.sizes else size :: s.sizes
    freeList := Function.update s.freeList size bs }

@[simp]
theorem refile_buffers (s : DataBufferFactory) (size : Nat) (bs : List Nat) :
    (s.refile size bs).buffers = s.buffers := by
  unfold refile
  split <;> rfl

theorem filed_refile (s : DataBufferFactory) (size : Nat) (bs : List Nat) (size' : Nat) :
    (s.refile size bs).filed size' = if size' = size then bs else s.filed size' := by
  unfold refile filed
  by_cases heq : size' = size
  · subst heq
    by_cases hle : size' ≤ kShortSize <;> simp [hle]
  · by_cases hle : size ≤ kShortSize <;> simp [hle, heq]

theorem recycle_eq (s : DataBufferFactory) (b size : Nat) (hnil : size ∉ s.sizes → s.freeList size = []) :
    s.recycle b size = s.refile size (b :: s.filed size) := by
  unfold recycle refile filed
  by_cases hle : size ≤ kShortSize
  · simp [hle]
  · by_cases hmem : size ∈ s.sizes
    · simp [hle, hmem]
    · simp [hle, hmem, hnil hmem]

/-- What is on the free lists: buffers of the list's size without a reference, of which only
    large ones can be deleted. -/
structure WellFiled (s : DataBufferFactory) : Prop where
  free : ∀ size, ∀ b ∈ s.filed size, ∃ db, s.buffers[b]? = some db ∧ db.size = size ∧
    db.incCount = db.decCount ∧ (size ≤ kShortSize → db.deleted = false)
  nodup : ∀ size, (s.filed size).Nodup
  nodup_sizes : s.sizes.Nodup
  sizes : ∀ size, s.freeList size ≠ [] → size ∈ s.sizes ∧ kShortSize < size

variable {b size : Nat} {bs : List Nat} {s' : DataBufferFactory}

theorem WellFiled.mem_freeBuffers (hs : s.WellFiled) :
    b ∈ s.freeBuffers ↔ ∃ size, b ∈ s.filed size := by
  unfold freeBuffers filed
  simp only [List.mem_append, List.mem_flatMap, List.mem_range]
  constructor
  · rintro (⟨size, hsize, hb⟩ | ⟨size, -, hb⟩)
    · exact ⟨size, by rwa [if_pos (by omega)]⟩
    · have hlarge := (hs.sizes size (List.ne_nil_of_mem hb)).2
      exact ⟨size, by rwa [if_neg (by omega)]⟩
  · rintro ⟨size, hb⟩
    by_cases hle : size ≤ kShortSize
    · rw [if_pos hle] at hb
      exact .inl ⟨size, by omega, hb⟩
    · rw [if_neg hle] at hb
      exact .inr ⟨size, (hs.sizes size (List.ne_nil_of_mem hb)).1, hb⟩

theorem WellFiled.size_unique (hs : s.WellFiled) {size' : Nat} (h : b ∈ s.filed size)
    (h' : b ∈ s.filed size') : size = size' := by
  obtain ⟨db, hdb, rfl, -⟩ := hs.free size b h
  obtain ⟨db', hdb', rfl, -⟩ := hs.free size' b h'
  rw [hdb] at hdb'
  cases hdb'
  rfl

theorem nodup_flatMap_of_unique {l : List Nat} {f : Nat → List Nat} (hl : l.Nodup)
    (hf : ∀ i ∈ l, (f i).Nodup) (hunique : ∀ i ∈ l, ∀ j ∈ l, ∀ b, b ∈ f i → b ∈ f j → i = j) :
    (l.flatMap f).Nodup := by
  refine List.nodup_flatMap.mpr ⟨hf, hl.imp_of_mem fun {i j} hi hj hne => ?_⟩
  intro b hbi hbj
  exact hne (hunique i hi j hj b hbi hbj)

theorem WellFiled.disciplined (hs : s.WellFiled) : s.Disciplined := by
  have hshort : ∀ size ≤ kShortSize, s.filed size = s.shortFreeList size := fun size h => if_pos h
  have hlarge : ∀ size, s.freeList size ≠ [] → s.filed size = s.freeList size := fun size h =>
    if_neg (by have := (hs.sizes size h).2; omega)
  constructor
  · rintro b hb ⟨db, hdb, hlive⟩
    obtain ⟨size, hmem⟩ := hs.mem_freeBuffers.mp hb
    obtain ⟨db', hdb', -, hcount, -⟩ := hs.free size b hmem
    rw [hdb] at hdb'
    cases hdb'
    simp [DataBuffer.isLive, hcount] at hlive
  · have hmem : ∀ {size b}, b ∈ s.freeList size → b ∈ s.filed size := fun {size b} hb => by
      rwa [hlarge size (List.ne_nil_of_mem hb)]
    unfold freeBuffers
    rw [List.nodup_append]
    refine ⟨?_, ?_, ?_⟩
    · refine nodup_flatMap_of_unique List.nodup_range (fun size h => ?_) fun size h size' h' b hb hb' => ?_
      · rw [List.mem_range] at h
        rw [← hshort size (by omega)]
        exact hs.nodup size
      · rw [List.mem_range] at h h'
        rw [← hshort size (by omega)] at hb
        rw [← hshort size' (by omega)] at hb'
        exact hs.size_unique hb hb'
    · refine nodup_flatMap_of_unique hs.nodup_sizes (fun size _ => ?_) fun size _ size' _ b hb hb' =>
        hs.size_unique (hmem hb) (hmem hb')
      by_cases hnil : s.freeList size = []
      · rw [hnil]
        exact .nil
      · rw [← hlarge size hnil]
        exact hs.nodup size
    · rintro b hb b' hb' rfl
      simp only [List.mem_flatMap, List.mem_range] at hb hb'
      obtain ⟨size, hsize, hb⟩ := hb
      obtain ⟨size', -, hb'⟩ := hb'
      rw [← hshort size (by omega)] at hb
      have hsame := hs.size_unique hb (hmem hb')
      have := (hs.sizes size' (List.ne_nil_of_mem hb')).2
      omega

/-! ### Steps -/

theorem buffers_modify (s : DataBufferFactory) (b : Nat) (f : DataBuffer → DataBuffer) (b' : Nat) :
    (s.modify b f).buffers[b']? = if b = b' then s.buffers[b']?.map f else s.buffers[b']? := by
  unfold modify
  rw [List.getElem?_modify]
  split <;> cases s.buffers[b']? <;> rfl

theorem WellFiled.modify (hs : s.WellFiled) (hb : ∀ size, b ∉ s.filed size)
    (f : DataBuffer → DataBuffer) : (s.modify b f).WellFiled  where
  free size b' hb' := by
    have hne : b ≠ b' := fun h => hb size (h ▸ hb')
    rw [buffers_modify, if_neg hne]
    exact hs.free size b' hb'
  nodup := hs.nodup
  nodup_sizes := hs.nodup_sizes
  sizes := hs.sizes

theorem WellFiled.refile (hs : s.WellFiled) (hnodup : bs.Nodup)
    (hfree : ∀ b ∈ bs, ∃ db, s.buffers[b]? = some db ∧ db.size = size ∧
      db.incCount = db.decCount ∧ (size ≤ kShortSize → db.deleted = false)) :
    (s.refile size bs).WellFiled where
  free size' b hb := by
    rw [filed_refile] at hb
    rw [refile_buffers]
    by_cases heq : size' = size
    · subst heq
      rw [if_pos rfl] at hb
      exact hfree b hb
    · rw [if_neg heq] at hb
      exact hs.free size' b hb
  nodup size' := by
    rw [filed_refile]
    split
    · exact hnodup
    · exact hs.nodup size'
  nodup_sizes := by
    unfold DataBufferFactory.refile
    split
    · exact hs.nodup_sizes
    · dsimp only
      split
      · exact hs.nodup_sizes
      · exact List.nodup_cons.mpr ⟨‹_›, hs.nodup_sizes⟩
  sizes size' h := by
    unfold DataBufferFactory.refile at h ⊢
    split at h
    · rename_i hle
      rw [if_pos hle]
      exact hs.sizes size' h
    · rename_i hle
      rw [if_neg hle]
      dsimp only at h ⊢
      by_cases heq : size' = size
      · subst heq
        refine ⟨?_, by omega⟩
        split
        · assumption
        · exact List.mem_cons_self
      · rw [Function.update_of_ne heq] at h
        obtain ⟨hmem, hlarge⟩ := hs.sizes size' h
        refine ⟨?_, hlarge⟩
        split
        · exact hmem
        · exact List.mem_cons_of_mem _ hmem

theorem WellFiled.not_filed_of_live (hs : s.WellFiled) (hb : s.Live b) (size : Nat) :
    b ∉ s.filed size := by
  intro hmem
  obtain ⟨db, hdb, hlive⟩ := hb
  obtain ⟨db', hdb', -, hcount, -⟩ := hs.free size b hmem
  rw [hdb] at hdb'
  cases hdb'
  simp [DataBuffer.isLive, hcount] at hlive

theorem allocate_eq (hs : s.WellFiled) (size : Nat) :
    s.allocate size = match s.filed size with
      | b :: rest => (s.refile size rest).reuse b
      | [] => some (s.newBuffer size) := by
  unfold allocate filed DataBufferFactory.refile
  by_cases hle : size ≤ kShortSize
  · simp only [if_pos hle]
  · simp only [if_neg hle]
    cases hlist : s.freeList size with
    | nil => rfl
    | cons b rest =>
      have hmem := (hs.sizes size (by rw [hlist]; simp)).1
      simp only [if_pos hmem]

theorem WellFiled.newBuffer (hs : s.WellFiled) (size : Nat) : (s.newBuffer size).1.WellFiled where
  free size' b hb := by
    obtain ⟨db, hdb, hrest⟩ := hs.free size' b hb
    refine ⟨db, ?_, hrest⟩
    have hlt : b < s.buffers.length := (List.getElem?_eq_some_iff.mp hdb).1
    change (s.buffers ++ _)[b]? = some db
    rw [List.getElem?_append_left hlt]
    exact hdb
  nodup := hs.nodup
  nodup_sizes := hs.nodup_sizes
  sizes := hs.sizes

theorem reuse_eq_some {r : DataBufferFactory × Nat} :
    s.reuse b = some r ↔ (∃ db, s.buffers[b]? = some db ∧ db.deleted = false) ∧
      r = (s.modify b fun db => { db with incCount := 1, decCount := 0 }, b) := by
  unfold reuse
  cases s.buffers[b]? with
  | none => simp
  | some db =>
    by_cases hdeleted : db.deleted = true
    · simp [hdeleted]
    · have hfalse : db.deleted = false := by simpa using hdeleted
      simp only [hfalse, Bool.false_eq_true, if_false, Option.some.injEq]
      exact ⟨fun h => ⟨⟨db, rfl, hfalse⟩, h.symm⟩, fun h => h.2.symm⟩

theorem WellFiled.allocate (hs : s.WellFiled) (h : s.allocate size = some (s', b)) :
    s'.WellFiled ∧ ¬ s.Live b ∧ ¬ s.Deleted b ∧
      ∃ db, s'.buffers[b]? = some db ∧ db.size = size ∧ db.isLive := by
  rw [allocate_eq hs] at h
  cases hlist : s.filed size with
  | nil =>
    rw [hlist] at h
    cases h
    -- The number of a new buffer is that of no other.
    have hnone : s.buffers[s.buffers.length]? = none := List.getElem?_eq_none le_rfl
    refine ⟨hs.newBuffer size, ?_, ?_, ⟨size, 1, 0, false⟩, ?_, rfl, rfl⟩
    · rintro ⟨db, hdb, -⟩
      rw [hnone] at hdb
      cases hdb
    · rintro ⟨db, hdb, -⟩
      rw [hnone] at hdb
      cases hdb
    · exact List.getElem?_concat_length
  | cons b₀ rest =>
    rw [hlist] at h
    obtain ⟨⟨db, hdb, hdeleted⟩, hr⟩ := reuse_eq_some.mp h
    cases hr
    rw [refile_buffers] at hdb
    have hfiled : b ∈ s.filed size := by
      rw [hlist]
      exact List.mem_cons_self
    have hnodup : (b :: rest).Nodup := hlist ▸ hs.nodup size
    have hrest : (s.refile size rest).WellFiled := by
      refine hs.refile hnodup.of_cons fun b' hb' => hs.free size b' ?_
      rw [hlist]
      exact List.mem_cons_of_mem _ hb'
    refine ⟨hrest.modify ?_ _, fun hlive => hs.not_filed_of_live hlive size hfiled, ?_, ?_⟩
    · -- It was on the list for its size once.
      intro size' hmem
      rw [filed_refile] at hmem
      split at hmem
      · exact (List.nodup_cons.mp hnodup).1 hmem
      · exact absurd (hs.size_unique hmem hfiled) ‹_›
    · rintro ⟨db', hdb', hdeleted'⟩
      rw [hdb] at hdb'
      cases hdb'
      rw [hdeleted] at hdeleted'
      cases hdeleted'
    · obtain ⟨db', hdb', hsize, -⟩ := hs.free size b hfiled
      rw [hdb] at hdb'
      cases hdb'
      refine ⟨{ db with incCount := 1, decCount := 0 }, ?_, hsize, ?_⟩
      · rw [buffers_modify, if_pos rfl, refile_buffers, hdb]
        rfl
      · simp [DataBuffer.isLive, hdeleted]

/-- An allocation is defined if the buffer it takes from a list is not deleted. -/
theorem WellFiled.allocate_defined (hs : s.WellFiled) (size : Nat) :
    (∃ r, s.allocate size = some r) ↔
      (kShortSize < size → ∀ b ∈ (s.freeList size).head?, ¬ s.Deleted b) := by
  have hfiled : (∃ r, s.allocate size = some r) ↔ ∀ b ∈ (s.filed size).head?, ¬ s.Deleted b := by
    rw [allocate_eq hs]
    cases hlist : s.filed size with
    | nil => simp
    | cons b rest =>
      obtain ⟨db, hdb, -⟩ := hs.free size b (by rw [hlist]; exact List.mem_cons_self)
      simp [reuse_eq_some, Deleted, hdb]
  rw [hfiled]
  by_cases hle : size ≤ kShortSize
  · -- A buffer on a short list is not deleted.
    refine iff_of_true (fun b hb hdeleted => ?_) fun hlt => absurd hle (by omega)
    obtain ⟨db, hdb, -, -, hshort⟩ := hs.free size b (List.mem_of_mem_head? hb)
    obtain ⟨db', hdb', hdeleted⟩ := hdeleted
    rw [hdb] at hdb'
    cases hdb'
    rw [hshort hle] at hdeleted
    cases hdeleted
  · have heq : s.filed size = s.freeList size := if_neg hle
    rw [heq]
    exact ⟨fun h _ => h, fun h => h (by omega)⟩

/-! ### Deletion -/

theorem delete_eq_some :
    s.delete b = some s' ↔ (∃ db, s.buffers[b]? = some db ∧ db.deleted = false) ∧
      s' = s.modify b fun db => { db with deleted := true } := by
  unfold delete
  cases s.buffers[b]? with
  | none => simp
  | some db =>
    by_cases hdeleted : db.deleted = true
    · simp [hdeleted]
    · have hfalse : db.deleted = false := by simpa using hdeleted
      simp only [hfalse, Bool.false_eq_true, if_false, Option.some.injEq]
      exact ⟨fun h => ⟨⟨db, rfl, hfalse⟩, h.symm⟩, fun h => h.2.symm⟩

/-- Buffers that have been deleted, with the same lists. -/
structure DeletesAll (s : DataBufferFactory) (bs : List Nat) (s' : DataBufferFactory) : Prop where
  shortFreeList : s'.shortFreeList = s.shortFreeList
  sizes : s'.sizes = s.sizes
  freeList : s'.freeList = s.freeList
  buffers : ∀ b, s'.buffers[b]? =
    if b ∈ bs then s.buffers[b]?.map fun db => { db with deleted := true } else s.buffers[b]?

/-- Different buffers can be deleted one after the other if none of them is deleted. -/
theorem deleteAll_defined (hnodup : bs.Nodup) (hbs : ∀ b ∈ bs, ∃ db, s.buffers[b]? = some db) :
    (∃ s', bs.foldlM delete s = some s') ↔ ∀ b ∈ bs, ¬ s.Deleted b := by
  induction bs generalizing s with
  | nil => simp
  | cons b rest ih =>
    rw [List.nodup_cons] at hnodup
    obtain ⟨db, hdb⟩ := hbs b List.mem_cons_self
    rw [List.foldlM_cons, List.forall_mem_cons]
    by_cases hdeleted : db.deleted = true
    · have hnone : s.delete b = none := by simp [delete, hdb, hdeleted]
      rw [hnone]
      exact iff_of_false (by simp) fun h => h.1 ⟨db, hdb, hdeleted⟩
    · have hdelete := delete_eq_some.mpr ⟨⟨db, hdb, by simpa using hdeleted⟩, rfl⟩
      have hother : ∀ b' ∈ rest, (s.modify b fun db => { db with deleted := true }).buffers[b']? =
          s.buffers[b']? := by
        intro b' hb'
        rw [buffers_modify, if_neg]
        rintro rfl
        exact hnodup.1 hb'
      have hdeleted' : ¬ s.Deleted b := by
        rintro ⟨db', hdb', h⟩
        rw [hdb] at hdb'
        cases hdb'
        exact hdeleted h
      rw [hdelete, Option.bind_eq_bind, Option.bind_some, ih hnodup.2, iff_true_intro hdeleted',
        true_and]
      · refine forall₂_congr fun b' hb' => ?_
        rw [Deleted, Deleted, hother b' hb']
      · intro b' hb'
        rw [hother b' hb']
        exact hbs b' (List.mem_cons_of_mem _ hb')

theorem deletesAll (h : bs.foldlM delete s = some s') : s.DeletesAll bs s' := by
  induction bs generalizing s with
  | nil =>
    cases h
    exact ⟨rfl, rfl, rfl, fun b => by simp⟩
  | cons b rest ih =>
    rw [List.foldlM_cons, Option.bind_eq_bind, Option.bind_eq_some_iff] at h
    obtain ⟨t, hdelete, h⟩ := h
    obtain ⟨-, rfl⟩ := delete_eq_some.mp hdelete
    obtain ⟨hshort, hsizes, hfree, hbuffers⟩ := ih h
    refine ⟨hshort, hsizes, hfree, fun b' => ?_⟩
    rw [hbuffers, buffers_modify]
    by_cases hb : b = b'
    · subst hb
      cases s.buffers[b]? <;> simp
    · have hb' : b' ≠ b := Ne.symm hb
      simp [hb, hb']

theorem DeletesAll.wellFiled (h : s.DeletesAll bs s') (hs : s.WellFiled)
    (hbs : ∀ size ≤ kShortSize, ∀ b ∈ s.filed size, b ∉ bs) : s'.WellFiled := by
  have hfiled : s'.filed = s.filed := by
    funext size
    rw [filed, filed, h.shortFreeList, h.freeList]
  refine ⟨fun size b hb => ?_, fun size => ?_, ?_, fun size hne => ?_⟩
  · rw [hfiled] at hb
    obtain ⟨db, hdb, hsize, hcount, hdeleted⟩ := hs.free size b hb
    rw [h.buffers, hdb]
    by_cases hmem : b ∈ bs
    · rw [if_pos hmem]
      refine ⟨_, rfl, hsize, hcount, fun hle => absurd hmem (hbs size hle b hb)⟩
    · rw [if_neg hmem]
      exact ⟨db, rfl, hsize, hcount, hdeleted⟩
  · rw [hfiled]
    exact hs.nodup size
  · rw [h.sizes]
    exact hs.nodup_sizes
  · rw [h.sizes]
    rw [h.freeList] at hne
    exact hs.sizes size hne

theorem WellFiled.clear_iff (hs : s.WellFiled) :
    ((∃ s', s.clear = some s') ↔ ∀ size ∈ s.sizes, ∀ b ∈ s.freeList size, ¬ s.Deleted b) ∧
      ∀ s', s.clear = some s' → s'.WellFiled := by
  obtain ⟨-, hnodup⟩ := hs.disciplined
  rw [freeBuffers, List.nodup_append] at hnodup
  obtain ⟨hshortNodup, hlargeNodup, hdisjoint⟩ := hnodup
  set shorts := (List.range (kShortSize + 1)).flatMap s.shortFreeList with hshorts
  set larges := s.sizes.flatMap s.freeList with hlarges
  have hfiled : ∀ b, b ∈ shorts ++ larges → ∃ size, b ∈ s.filed size := fun b hb =>
    hs.mem_freeBuffers.mp hb
  have hexist : ∀ b, b ∈ shorts ++ larges → ∃ db, s.buffers[b]? = some db := fun b hb => by
    obtain ⟨size, hmem⟩ := hfiled b hb
    obtain ⟨db, hdb, -⟩ := hs.free size b hmem
    exact ⟨db, hdb⟩
  -- The short lists hold no deleted buffer.
  have hshortAlive : ∀ b ∈ shorts, ¬ s.Deleted b := by
    rintro b hb ⟨db, hdb, hdeleted⟩
    simp only [hshorts, List.mem_flatMap, List.mem_range] at hb
    obtain ⟨size, hsize, hb⟩ := hb
    have hle : size ≤ kShortSize := by omega
    obtain ⟨db', hdb', -, -, hshort⟩ := hs.free size b (by rwa [filed, if_pos hle])
    rw [hdb] at hdb'
    cases hdb'
    rw [hshort hle] at hdeleted
    cases hdeleted
  obtain ⟨t, ht⟩ := (deleteAll_defined hshortNodup fun b hb =>
    hexist b (List.mem_append_left _ hb)).mpr hshortAlive
  have hdel := deletesAll ht
  set t' : DataBufferFactory := { t with shortFreeList := fun _ => [] } with ht'
  have hclear : s.clear = larges.foldlM delete t' := by
    rw [clear, ht, Option.bind_eq_bind, Option.bind_some, ← ht', ht', hdel.sizes, hdel.freeList]
  have hbuffers : ∀ b ∈ larges, t'.buffers[b]? = s.buffers[b]? := fun b hb => by
    have hnot : b ∉ shorts := fun h => hdisjoint b h b hb rfl
    have := hdel.buffers b
    rwa [if_neg hnot] at this
  have hdefined : (∃ s', s.clear = some s') ↔
      ∀ size ∈ s.sizes, ∀ b ∈ s.freeList size, ¬ s.Deleted b := by
    rw [hclear, deleteAll_defined hlargeNodup fun b hb => ?_]
    · simp only [hlarges, List.mem_flatMap, forall_exists_index, and_imp]
      constructor
      · intro h size hsize b hb
        have := h b size hsize hb
        rwa [Deleted, hbuffers b (List.mem_flatMap.mpr ⟨size, hsize, hb⟩)] at this
      · intro h b size hsize hb
        rw [Deleted, hbuffers b (List.mem_flatMap.mpr ⟨size, hsize, hb⟩)]
        exact h size hsize b hb
    · rw [hbuffers b hb]
      exact hexist b (List.mem_append_right _ hb)
  refine ⟨hdefined, fun s' hs' => ?_⟩
  rw [hclear] at hs'
  have hlists : ∀ size, t'.filed size = if size ≤ kShortSize then [] else s.filed size := by
    intro size
    unfold filed
    split
    · rfl
    · exact congrFun hdel.freeList size
  have hwell : t'.WellFiled := by
    refine ⟨fun size b hb => ?_, fun size => ?_, ?_, fun size hne => ?_⟩
    · rw [hlists] at hb
      split at hb
      · cases hb
      · rename_i hle
        have hmem : b ∈ s.freeList size := by rwa [filed, if_neg hle] at hb
        have hsize := (hs.sizes size (List.ne_nil_of_mem hmem)).1
        rw [hbuffers b (List.mem_flatMap.mpr ⟨size, hsize, hmem⟩)]
        exact hs.free size b hb
    · rw [hlists]
      split
      · exact .nil
      · exact hs.nodup size
    · exact hdel.sizes ▸ hs.nodup_sizes
    · change t.freeList size ≠ [] at hne
      rw [hdel.freeList] at hne
      exact hdel.sizes ▸ hs.sizes size hne
  refine (deletesAll hs').wellFiled hwell fun size hle b hb => ?_
  rw [hlists, if_pos hle] at hb
  cases hb

/-! ### Runs -/

theorem WellFiled.decRef (hs : s.WellFiled) {db : DataBuffer} (hdb : s.buffers[b]? = some db)
    (hlive : db.isLive) : (s.decRef b db).WellFiled := by
  have hfree : ∀ size, b ∉ s.filed size := hs.not_filed_of_live ⟨db, hdb, hlive⟩
  have hcounted := hs.modify hfree fun db => { db with decCount := db.decCount + 1 }
  unfold DataBufferFactory.decRef
  dsimp only
  split
  · -- The last reference: the buffer is put on the list for its size.
    rename_i hcount
    rw [recycle_eq _ _ _ fun hnot => ?_]
    · refine hcounted.refile ?_ ?_
      · exact List.nodup_cons.mpr ⟨hfree _, hs.nodup _⟩
      · intro b' hb'
        rcases List.mem_cons.mp hb' with rfl | hb'
        · refine ⟨{ db with decCount := db.decCount + 1 }, ?_, rfl, hcount, fun _ => ?_⟩
          · rw [buffers_modify, if_pos rfl, hdb]
            rfl
          · have := hlive
            simp only [DataBuffer.isLive, Bool.and_eq_true, Bool.not_eq_true'] at this
            exact this.1
        · exact hcounted.free _ b' hb'
    · by_contra hne
      exact hnot (hcounted.sizes _ hne).1
  · exact hcounted

theorem WellFiled.call (hs : s.WellFiled) {c : BufferCall} {result : Option Nat}
    (h : s.call c = some (s', result)) : s'.WellFiled := by
  cases c with
  | allocate size =>
    rw [DataBufferFactory.call, Option.map_eq_some_iff] at h
    obtain ⟨⟨s₁, b⟩, hr, heq⟩ := h
    cases heq
    exact (hs.allocate hr).1
  | makeCopyOf src =>
    simp only [DataBufferFactory.call] at h
    split at h
    · split at h
      · obtain ⟨⟨s₁, b⟩, hr, heq⟩ := Option.map_eq_some_iff.mp h
        cases heq
        exact (hs.allocate hr).1
      · cases h
        exact hs
    · cases h
      exact hs
  | incRef b =>
    simp only [DataBufferFactory.call] at h
    split at h
    · rename_i db hdb
      split at h
      · rename_i hlive
        cases h
        exact hs.modify (hs.not_filed_of_live ⟨db, hdb, hlive⟩) _
      · cases h
        exact hs
    · cases h
      exact hs
  | decRef b =>
    simp only [DataBufferFactory.call] at h
    split at h
    · rename_i db hdb
      split at h
      · rename_i hlive
        cases h
        exact hs.decRef hdb hlive
      · cases h
        exact hs
    · cases h
      exact hs
  | clear =>
    rw [DataBufferFactory.call, Option.map_eq_some_iff] at h
    obtain ⟨s₁, hr, heq⟩ := h
    cases heq
    exact hs.clear_iff.2 s' hr

/-- A call on lists that are filed is defined, and allocates as it should, exactly if it meets
    no deleted buffer. -/
theorem WellFiled.allocates_iff (hs : s.WellFiled) (c : BufferCall) :
    Allocates (some s) c ↔ MeetsNoDeleted (some s) c := by
  have halloc : ∀ size, (∃ r, s.allocate size = some r) ↔
      ∃ s₁ b, s.allocate size = some (s₁, b) ∧ ¬ s.Live b ∧ ¬ s.Deleted b ∧
        ∃ db, s₁.buffers[b]? = some db ∧ db.size = size ∧ db.isLive := by
    intro size
    constructor
    · rintro ⟨⟨s₁, b⟩, hr⟩
      exact ⟨s₁, b, hr, (hs.allocate hr).2⟩
    · rintro ⟨s₁, b, hr, -⟩
      exact ⟨_, hr⟩
  -- A call that allocates a buffer of some size.
  have hsized : ∀ size, s.requestedSize c = some size →
      s.call c = ((s.allocate size).map fun r => (r.1, some r.2)) →
      (Allocates (some s) c ↔ (kShortSize < size → ∀ b ∈ (s.freeList size).head?, ¬ s.Deleted b)) := by
    intro size hsize hcall
    rw [← hs.allocate_defined size, halloc size]
    constructor
    · rintro ⟨_, s₁, result, h, hr, hb⟩
      cases h
      obtain ⟨b, rfl, hspec⟩ := hb size hsize
      rw [hcall, Option.map_eq_some_iff] at hr
      obtain ⟨⟨s₂, b₂⟩, hr, heq⟩ := hr
      obtain ⟨rfl, hsame⟩ := Prod.mk.inj heq
      cases hsame
      exact ⟨s₂, b₂, hr, hspec⟩
    · rintro ⟨s₁, b, hr, hb⟩
      refine ⟨s, s₁, some b, rfl, by rw [hcall, hr]; rfl, fun size' hsize' => ⟨b, rfl, ?_⟩⟩
      rw [hsize] at hsize'
      cases hsize'
      exact hb
  -- A call that allocates nothing.
  have hnone : s.requestedSize c = none → (Allocates (some s) c ↔ ∃ r, s.call c = some r) := by
    intro hsize
    constructor
    · rintro ⟨_, s₁, result, h, hr, -⟩
      cases h
      exact ⟨_, hr⟩
    · rintro ⟨⟨s₁, result⟩, hr⟩
      refine ⟨s, s₁, result, rfl, hr, fun size' hsize' => ?_⟩
      rw [hsize] at hsize'
      cases hsize'
  cases c with
  | allocate size =>
    rw [hsized size rfl rfl]
    simp [MeetsNoDeleted, requestedSize]
  | makeCopyOf src =>
    by_cases hlive : ∃ db, s.buffers[src]? = some db ∧ db.isLive
    · obtain ⟨db, hdb, hlive⟩ := hlive
      have hsize : s.requestedSize (.makeCopyOf src) = some db.size := by
        simp [requestedSize, hdb, hlive]
      rw [hsized db.size hsize (by simp [DataBufferFactory.call, hdb, hlive])]
      simp [MeetsNoDeleted, hsize]
    · have hsize : s.requestedSize (.makeCopyOf src) = none := by
        rw [requestedSize, Option.bind_eq_none_iff]
        intro db hdb
        exact if_neg fun h => hlive ⟨db, hdb, h⟩
      rw [hnone hsize]
      refine iff_of_true ?_ (by simp [MeetsNoDeleted, hsize])
      rw [DataBufferFactory.call]
      split
      · split
        · exact absurd ⟨_, ‹_›, ‹_›⟩ hlive
        · exact ⟨_, rfl⟩
      · exact ⟨_, rfl⟩
  | incRef b =>
    rw [hnone rfl]
    refine iff_of_true ?_ (by simp [MeetsNoDeleted, requestedSize])
    rw [DataBufferFactory.call]
    split
    · split <;> exact ⟨_, rfl⟩
    · exact ⟨_, rfl⟩
  | decRef b =>
    rw [hnone rfl]
    refine iff_of_true ?_ (by simp [MeetsNoDeleted, requestedSize])
    rw [DataBufferFactory.call]
    split
    · split <;> exact ⟨_, rfl⟩
    · exact ⟨_, rfl⟩
  | clear =>
    rw [hnone rfl, MeetsNoDeleted, ← hs.clear_iff.1, DataBufferFactory.call]
    simp

theorem wellFiled_init : init.WellFiled where
  free size b hb := by simp [filed, init] at hb
  nodup size := by simp [filed, init]
  nodup_sizes := .nil
  sizes size h := by simp [init] at h

/-- **Pool discipline.** In a run of any calls no buffer is ever live and free or free twice,
    and each call is defined and allocates as it should, exactly if each call meets no
    deleted buffer on a list. -/
theorem disciplined_iff (calls : List BufferCall) :
    ((∀ before after, calls = before ++ after →
        ∃ s, run step (some init) before = some s ∧ s.Disciplined) ∧
      Along step Allocates (some init) calls) ↔
      Along step MeetsNoDeleted (some init) calls := by
  let P : Option DataBufferFactory → Prop := fun s => ∃ s₀, s = some s₀ ∧ s₀.WellFiled
  have hinit : P (some init) := ⟨init, rfl, wellFiled_init⟩
  have hkeep : ∀ s c, P s → Allocates s c → P (step s c) := by
    rintro _ c ⟨s, rfl, hs⟩ ⟨_, s₁, result, h, hr, -⟩
    cases h
    exact ⟨s₁, by rw [step, Option.bind_some, hr]; rfl, hs.call hr⟩
  have hiff : Along step Allocates (some init) calls ↔ Along step MeetsNoDeleted (some init) calls := by
    refine along_iff_along P ?_ hkeep hinit
    rintro _ c ⟨s, rfl, hs⟩
    exact hs.allocates_iff c
  rw [← hiff]
  refine ⟨fun h => h.2, fun h => ⟨?_, h⟩⟩
  rintro before after rfl
  obtain ⟨s, hrun, hs⟩ := run_invariant P hkeep hinit (along_append.mp h).1
  exact ⟨s, hrun, hs.disciplined⟩

/-- The second allocation of 5000 bytes takes the buffer that `Clear` has deleted. -/
theorem allocate_takes_deleted :
    let s := run step (some init) [.allocate 5000, .decRef 0, .clear]
    s.map (fun s => (s.freeList 5000, s.buffers.map (·.deleted))) = some ([0], [true]) ∧
      ¬ Allocates s (.allocate 5000) := by
  intro s
  refine ⟨by decide +kernel, ?_⟩
  rintro ⟨s₀, s₁, result, hs₀, hcall, -⟩
  have hnone : step s (.allocate 5000) = none := by
    rw [← Option.isNone_iff_eq_none]
    decide +kernel
  rw [hs₀, step, Option.bind_some, hcall] at hnone
  cases hnone

end DataBufferFactory

end MpactSim.Generic
