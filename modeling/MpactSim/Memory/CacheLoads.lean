import Mathlib.Tactic

namespace MpactSim.Memory

/-!
# Loads through a cache

A load wraps the instruction and the context of its caller in an instruction and a context of
the cache, which the memory behind it executes, at once or later.  The caller's instruction is
executed from there, at once or after the latency of the buffer.

* `load`      — the three forms of `Cache::Load`, on the reference counts and the latencies;
* `resume`    — what waits in a delay line, or in the memory, is executed;
* `Balanced`  — the load completes without a null dereference, and leaves the counts and the
  latencies as they were, apart from what the instruction did;
* `Paired`    — the loads for which this holds, which `balanced_iff` shows.
-/

/-! ### The source -/

/-- What has a reference count: the objects of the caller, the instruction of the cache and the
    context that a load makes. -/
inductive Counted (α : Type) where
  | given (o : α)
  | cacheInst
  | cacheContext
  deriving DecidableEq

/-- `CacheContext`.  A pointer that may be null is an `Option`. -/
structure CacheContext (α : Type) where
  context : Option α
  db : Option α
  inst : Option α
  latency : ℤ

/-- What is executed later: `cache_inst_` with a context, by the memory, or the instruction of the
    caller, by the delay line to which `LoadChild` adds it. -/
inductive Waiting (α : Type) where
  | loadChild (c : CacheContext α)
  | writeBack (latency : ℤ) (inst : α) (context : Option α)

/-- The reference counts, the latencies of the data buffers, what waits, and the instructions
    that have been executed with their contexts. -/
structure LoadState (α : Type) where
  refs : Counted α → ℤ
  latency : α → ℤ
  waiting : List (Waiting α)
  executed : List (α × Option α)

/-- The instructions of the callers: whether `state()` is not null, and what the semantic function
    does to the counts and the latencies. -/
structure Instructions (α : Type) where
  hasState : α → Bool
  refs : α → Option α → Counted α → ℤ
  latency : α → Option α → α → ℤ

/-- The form of a load.  A tagged load has a buffer for the tags, with a latency. -/
inductive LoadForm where
  | plain
  | vector
  | tagged (tags : ℤ)
  deriving DecidableEq

/-- What a memory does with an instruction and its context when it has read the data: execute the
    instruction, add it to the delay line of the instruction's state, execute it later by its own
    means, or nothing, as for a request that it refuses. -/
inductive Finish where
  | execute
  | schedule
  | postpone
  | refuse
  deriving DecidableEq

/-- The memory behind the cache, by the form of the load and the latency of its buffer. -/
abbrev Behind := LoadForm → Option ℤ → Finish

/-- `memory_` and `tagged_memory_`. -/
structure Memories where
  memory : Option Behind
  taggedMemory : Option Behind

/-- The buffer, the instruction and the context of a load. -/
structure LoadRequest (α : Type) where
  form : LoadForm
  db : Option α
  inst : Option α
  context : Option α

/-- The object of a pointer that is tested before it is used. -/
def objects {α : Type} (p : Option α) : List (Counted α) := p.toList.map .given

variable {α : Type} [DecidableEq α]

namespace LoadState

/-- `IncRef` on each of some objects. -/
def incRefs (os : List (Counted α)) (s : LoadState α) : LoadState α :=
  os.foldl (fun s o => { s with refs := s.refs + Pi.single o 1 }) s

/-- `DecRef`, which asserts that there is a reference. -/
def decRef (s : LoadState α) (o : Counted α) : Option (LoadState α) :=
  if 0 < s.refs o then some { s with refs := s.refs - Pi.single o 1 } else none

/-- `DecRef` on each of some objects. -/
def decRefs (os : List (Counted α)) (s : LoadState α) : Option (LoadState α) :=
  os.foldlM decRef s

/-- `set_latency` -/
def setLatency (db : α) (latency : ℤ) (s : LoadState α) : LoadState α :=
  { s with latency := Function.update s.latency db latency }

/-- Add to what waits. -/
def wait (w : Waiting α) (s : LoadState α) : LoadState α := { s with waiting := s.waiting ++ [w] }

end LoadState

variable (instrs : Instructions α)

/-- `Execute` -/
def execute (inst : α) (context : Option α) (s : LoadState α) : LoadState α :=
  { s with
    refs := s.refs + instrs.refs inst context
    latency := s.latency + instrs.latency inst context
    executed := s.executed ++ [(inst, context)] }

/-- The instruction of the caller is executed, and the references to it and to its context are
    released. -/
def writeBack (inst : α) (context : Option α) (s : LoadState α) : Option (LoadState α) :=
  (execute instrs inst context s).decRefs (objects context ++ [.given inst])

/-- `LoadChild`.  `db->latency()` is the argument of `Add`, also for a null buffer. -/
def loadChild (c : CacheContext α) (s : LoadState α) : Option (LoadState α) := do
  let s ← match c.inst with
    | none => some s
    | some ogInst =>
      if 0 < c.latency then do
        let s := match c.db with
          | some db => s.setLatency db c.latency
          | none => s
        guard (instrs.hasState ogInst)
        let db ← c.db
        some (s.wait (.writeBack (s.latency db) ogInst c.context))
      else writeBack instrs ogInst c.context s
  s.decRefs (objects c.db)

/-- The call of `Load` of the memory behind with `cache_inst_`, whose state is null. -/
def loadBehind (finish : Finish) (c : CacheContext α) (s : LoadState α) : Option (LoadState α) :=
  match finish with
  | .execute => loadChild instrs c s
  | .schedule => none
  | .postpone => some ((s.incRefs [.cacheInst, .cacheContext]).wait (.loadChild c))
  | .refuse => some s

/-- What the plain and the vector load do when there is a memory behind the cache. -/
def forward (behind : Behind) (r : LoadRequest α) (s : LoadState α) : Option (LoadState α) := do
  let db ← r.db
  let c : CacheContext α := ⟨r.context, some db, r.inst, s.latency db⟩
  let s := s.incRefs (.cacheContext :: (objects r.context ++ objects r.inst ++ [.given db]))
  let s := s.setLatency db 0
  let s ← loadBehind instrs (behind r.form (some (s.latency db))) c s
  s.decRef .cacheContext

/-- The tagged load, when there is a memory behind the cache.  Without an instruction the memory
    only reads. -/
def forwardTagged (behind : Behind) (tags : ℤ) (r : LoadRequest α) (s : LoadState α) :
    Option (LoadState α) :=
  match r.inst with
  | none => some s
  | some inst => do
    let latency := match r.db with
      | some db => s.latency db
      | none => tags
    let c : CacheContext α := ⟨r.context, r.db, some inst, latency⟩
    let s := s.incRefs (.cacheContext :: (objects r.context ++ [.given inst]))
    let s := match r.db with
      | some db => (s.setLatency db 0).incRefs [.given db]
      | none => s
    let s ← loadBehind instrs (behind r.form (r.db.map s.latency)) c s
    s.decRef .cacheContext

/-- `Cache::Load`.  The plain load asks for the size of its buffer. -/
def load (memories : Memories) (r : LoadRequest α) (s : LoadState α) : Option (LoadState α) :=
  match r.form with
  | .plain => do
    let _ ← r.db
    match memories.memory with
    | none => some s
    | some behind => forward instrs behind r s
  | .vector =>
    match memories.memory with
    | none => some s
    | some behind => forward instrs behind r s
  | .tagged tags =>
    match memories.taggedMemory with
    | none => some s
    | some behind => forwardTagged instrs behind tags r s

/-- Something that waited is executed, and the references to it are released. -/
def runWaiting (w : Waiting α) (s : LoadState α) : Option (LoadState α) :=
  match w with
  | .loadChild c => (loadChild instrs c s).bind (·.decRefs [.cacheContext, .cacheInst])
  | .writeBack _ inst context => writeBack instrs inst context s

/-- The first that waits is executed, if there is one. -/
def resume (s : LoadState α) : Option (LoadState α) :=
  match s.waiting with
  | [] => some s
  | w :: rest => runWaiting instrs w { s with waiting := rest }

/-- A number of steps. -/
def resumes : Nat → LoadState α → Option (LoadState α)
  | 0, s => some s
  | n + 1, s => (resume instrs s).bind (resumes n)

/-! ### Memories -/

/-- `FlatMemory` and `FlatDemandMemory`. -/
def flatDemandMemory : Behind := fun _ latency =>
  if 0 < latency.getD 0 then .schedule else .execute

/-- `TaggedFlatDemandMemory`, which has a `FlatDemandMemory` for untagged loads. -/
def taggedFlatDemandMemory : Behind
  | .tagged tags, latency => if latency.getD tags = 0 then .execute else .schedule
  | form, latency => flatDemandMemory form latency

/-! ### The specification -/

/-- What the executed instructions did to the counts. -/
def didRefs (executed : List (α × Option α)) : Counted α → ℤ :=
  (executed.map fun e => instrs.refs e.1 e.2).sum

/-- What the executed instructions did to the latencies. -/
def didLatency (executed : List (α × Option α)) : α → ℤ :=
  (executed.map fun e => instrs.latency e.1 e.2).sum

/-- Nothing waits any more after some steps. -/
def Completes (s : Option (LoadState α)) (done : LoadState α) : Prop :=
  ∃ n, s.bind (resumes instrs n) = some done ∧ done.waiting = []

/-- What a load does completes, and leaves the counts and the latencies as they were, apart from
    what the instructions did. -/
def Restores (s' : Option (LoadState α)) (s : LoadState α) : Prop :=
  ∃ done, Completes instrs s' done ∧
    done.refs = s.refs + didRefs instrs done.executed ∧
    done.latency = s.latency + didLatency instrs done.executed

/-- The load completes, without a null dereference, and restores the counts and the latencies. -/
def Balanced (memories : Memories) (r : LoadRequest α) (s : LoadState α) : Prop :=
  Restores instrs (load instrs memories r s) s

/-- The memory executes the instruction that it is given, without its state. -/
def Finish.Runs (finish : Finish) : Prop := finish = .execute ∨ finish = .postpone

/-- A tagged load. -/
def LoadForm.IsTagged (form : LoadForm) : Prop := ∃ tags, form = .tagged tags

/-- The memory that a load is forwarded to. -/
def Memories.behind (memories : Memories) : LoadForm → Option Behind
  | .plain => memories.memory
  | .vector => memories.memory
  | .tagged _ => memories.taggedMemory

/-- The loads that are balanced, of those that are forwarded: the ones with a buffer and an
    instruction, if the latency is not negative and the state is there for a positive one; those
    without an instruction, if they are tagged or there is no context and no latency; and the tagged
    ones without a buffer, if there is no instruction or no latency.  The memory has to execute
    what it is given. -/
def ForwardPaired (behind : Behind) (r : LoadRequest α) (latency : α → ℤ) : Prop :=
  match r.db, r.inst with
  | some db, some inst =>
    (behind r.form (some 0)).Runs ∧ 0 ≤ latency db ∧ (0 < latency db → instrs.hasState inst)
  | some db, none =>
    r.form.IsTagged ∨ (behind r.form (some 0)).Runs ∧ r.context = none ∧ latency db = 0
  | none, some _ => ∃ tags, r.form = .tagged tags ∧ tags ≤ 0 ∧ (behind r.form none).Runs
  | none, none => r.form.IsTagged

/-- The loads that are balanced.  One that is not forwarded may be without a buffer, except for a
    plain one. -/
def Paired (memories : Memories) (r : LoadRequest α) (latency : α → ℤ) : Prop :=
  match memories.behind r.form with
  | none => r.form = .plain → r.db ≠ none
  | some behind => ForwardPaired instrs behind r latency

/-! ### Counts -/

/-- How often an object is in a list. -/
def count (os : List (Counted α)) : Counted α → ℤ := (os.map fun o => Pi.single o 1).sum

section Count

variable {os os' : List (Counted α)} {o : Counted α} {s : LoadState α}

@[simp] theorem count_nil : count ([] : List (Counted α)) = 0 := rfl

@[simp] theorem count_cons : count (o :: os) = Pi.single o 1 + count os := by
  simp only [count, List.map_cons, List.sum_cons]

@[simp] theorem count_append : count (os ++ os') = count os + count os' := by
  simp only [count, List.map_append, List.sum_append]

theorem count_nonneg (os : List (Counted α)) : 0 ≤ count os := by
  induction os with
  | nil => exact le_rfl
  | cons o os ih =>
    rw [count_cons]
    exact add_nonneg (Pi.single_nonneg.mpr zero_le_one) ih

theorem incRefs_eq (os : List (Counted α)) (s : LoadState α) :
    s.incRefs os = { s with refs := s.refs + count os } := by
  induction os generalizing s with
  | nil => rw [count_nil, add_zero]; rfl
  | cons o os ih =>
    rw [count_cons, ← add_assoc]
    exact ih { s with refs := s.refs + Pi.single o 1 }

theorem decRef_eq (h : Pi.single o 1 ≤ s.refs) :
    s.decRef o = some { s with refs := s.refs - Pi.single o 1 } := by
  have hone : (1 : ℤ) ≤ s.refs o := by simpa only [Pi.single_eq_same] using h o
  have hpos : 0 < s.refs o := by omega
  exact if_pos hpos

theorem decRefs_eq (h : count os ≤ s.refs) :
    s.decRefs os = some { s with refs := s.refs - count os } := by
  induction os generalizing s with
  | nil => rw [count_nil, sub_zero]; rfl
  | cons o os ih =>
    rw [count_cons] at h ⊢
    have hfirst : Pi.single o 1 ≤ s.refs := le_trans (le_add_of_nonneg_right (count_nonneg os)) h
    have hrest : count os ≤ s.refs - Pi.single o 1 := le_sub_iff_add_le'.mpr h
    rw [← sub_sub]
    show (s.decRef o).bind (LoadState.decRefs os) = _
    rw [decRef_eq hfirst]
    exact ih hrest

end Count

/-! ### Steps -/

section Steps

variable {instrs} {c : CacheContext α} {s done done' : LoadState α} {x : Option (LoadState α)}

theorem resumes_of_waiting (h : s.waiting = []) (n : Nat) : resumes instrs n s = some s := by
  induction n with
  | zero => rfl
  | succ n ih =>
    have hresume : resume instrs s = some s := by
      unfold resume
      rw [h]
    rw [resumes, hresume]
    exact ih

theorem completes_done (h : s.waiting = []) : Completes instrs (some s) s := ⟨0, rfl, h⟩

theorem completes_waiting {w : Waiting α} {rest : List (Waiting α)} (hwaiting : s.waiting = w :: rest)
    (h : Completes instrs (runWaiting instrs w { s with waiting := rest }) done) :
    Completes instrs (some s) done := by
  obtain ⟨n, hn, hdone⟩ := h
  refine ⟨n + 1, ?_, hdone⟩
  show (resume instrs s).bind (resumes instrs n) = some done
  unfold resume
  rw [hwaiting]
  exact hn

theorem not_completes_none : ¬Completes instrs none done := by
  rintro ⟨n, hn, -⟩
  cases hn

theorem resumes_add (n k : Nat) (s : LoadState α) :
    resumes instrs (n + k) s = (resumes instrs n s).bind (resumes instrs k) := by
  induction n generalizing s with
  | zero => rw [Nat.zero_add]; rfl
  | succ n ih =>
    rw [Nat.succ_add, resumes, resumes, Option.bind_assoc]
    exact congrArg _ (funext ih)

theorem Completes.unique (h : Completes instrs x done) (h' : Completes instrs x done') :
    done = done' := by
  cases x with
  | none => exact absurd h not_completes_none
  | some s =>
    obtain ⟨n, hn, hdone⟩ := h
    obtain ⟨k, hk, hdone'⟩ := h'
    have hnk : resumes instrs (n + k) s = some done := by
      rw [resumes_add, show resumes instrs n s = some done from hn]
      exact resumes_of_waiting hdone k
    have hkn : resumes instrs (k + n) s = some done' := by
      rw [resumes_add, show resumes instrs k s = some done' from hk]
      exact resumes_of_waiting hdone' n
    rw [Nat.add_comm k n, hnk] at hkn
    exact Option.some.inj hkn

end Steps

/-! ### `LoadChild` -/

namespace CacheContext

/-- `LoadChild` uses a null pointer: the buffer, or the state of the instruction. -/
def UsesNull (c : CacheContext α) : Prop :=
  ∃ inst, c.inst = some inst ∧ 0 < c.latency ∧ (c.db = none ∨ instrs.hasState inst = false)

/-- The objects to which `LoadChild` and what it makes wait release a reference. -/
def held (c : CacheContext α) : List (Counted α) :=
  (match c.inst with
    | some inst => objects c.context ++ [.given inst]
    | none => []) ++ objects c.db

/-- The instruction that is executed. -/
def executes (c : CacheContext α) : List (α × Option α) :=
  match c.inst with
  | some inst => [(inst, c.context)]
  | none => []

/-- The latency of the buffer is set again. -/
def restore (c : CacheContext α) (latency : α → ℤ) : α → ℤ :=
  match c.inst, c.db with
  | some _, some db => if 0 < c.latency then Function.update latency db c.latency else latency
  | _, _ => latency

/-- The state after all that a context stands for, and after the release of other references. -/
def finish (c : CacheContext α) (os : List (Counted α)) (s : LoadState α) : LoadState α where
  refs := s.refs + didRefs instrs c.executes - count (c.held ++ os)
  latency := c.restore s.latency + didLatency instrs c.executes
  waiting := []
  executed := s.executed ++ c.executes

end CacheContext

section LoadChild

variable {instrs} {c : CacheContext α} {s : LoadState α} {inst : α} {context : Option α}

theorem decRefs_append (os os' : List (Counted α)) (s : LoadState α) :
    s.decRefs (os ++ os') = (s.decRefs os).bind (·.decRefs os') :=
  List.foldlM_append

omit [DecidableEq α] in
@[simp] theorem didRefs_nil : didRefs instrs [] = 0 := rfl

omit [DecidableEq α] in
@[simp] theorem didRefs_singleton : didRefs instrs [(inst, context)] = instrs.refs inst context := by
  simp only [didRefs, List.map_cons, List.map_nil, List.sum_cons, List.sum_nil, add_zero]

omit [DecidableEq α] in
@[simp] theorem didLatency_nil : didLatency instrs [] = 0 := rfl

omit [DecidableEq α] in
@[simp] theorem didLatency_singleton :
    didLatency instrs [(inst, context)] = instrs.latency inst context := by
  simp only [didLatency, List.map_cons, List.map_nil, List.sum_cons, List.sum_nil, add_zero]

theorem writeBack_completes (hwaiting : s.waiting = [])
    (h : count (objects context ++ [.given inst]) ≤ s.refs + instrs.refs inst context) :
    Completes instrs (writeBack instrs inst context s) { execute instrs inst context s with
      refs := s.refs + instrs.refs inst context - count (objects context ++ [.given inst]) } := by
  have hrun : writeBack instrs inst context s = _ := decRefs_eq (s := execute instrs inst context s) h
  rw [hrun]
  exact completes_done hwaiting

theorem loadChild_null (h : c.UsesNull instrs) : loadChild instrs c s = none := by
  obtain ⟨context, db, inst, latency⟩ := c
  obtain ⟨inst, rfl, hlatency, hnull⟩ := h
  dsimp only at hlatency hnull
  unfold loadChild
  rcases hnull with rfl | hstate
  · simp [hlatency]
  · simp [hlatency, hstate]

theorem CacheContext.restore_of_not_pos {latency : α → ℤ} (h : ¬0 < c.latency) :
    c.restore latency = latency := by
  unfold CacheContext.restore
  split
  · exact if_neg h
  · rfl

/-- `LoadChild`, and the release of other references behind it. -/
theorem loadChild_completes (os : List (Counted α)) (hnull : ¬c.UsesNull instrs)
    (hrefs : count (c.held ++ os) ≤ s.refs)
    (hdid : count (c.held ++ os) ≤ s.refs + didRefs instrs c.executes) (hwaiting : s.waiting = []) :
    Completes instrs ((loadChild instrs c s).bind (·.decRefs os)) (c.finish instrs os s) := by
  obtain ⟨context, db, inst, latency⟩ := c
  cases inst with
  | none =>
    have hrun : (loadChild instrs ⟨context, db, none, latency⟩ s).bind (·.decRefs os)
        = s.decRefs (objects db ++ os) := (decRefs_append _ _ s).symm
    have hfinish : CacheContext.finish instrs ⟨context, db, none, latency⟩ os s
        = { s with refs := s.refs - count (objects db ++ os) } := by
      simp [CacheContext.finish, CacheContext.executes, CacheContext.held, CacheContext.restore,
        hwaiting]
    have hheld : count (objects db ++ os) ≤ s.refs := hrefs
    rw [hrun, hfinish, decRefs_eq hheld]
    exact completes_done hwaiting
  | some inst =>
    have hexecutes : didRefs instrs (CacheContext.executes ⟨context, db, some inst, latency⟩)
        = instrs.refs inst context := didRefs_singleton
    rw [hexecutes] at hdid
    by_cases hlatency : 0 < latency
    · obtain ⟨db, rfl⟩ : ∃ db', db = some db' := by
        cases db with
        | none => exact absurd ⟨inst, rfl, hlatency, .inl rfl⟩ hnull
        | some db => exact ⟨db, rfl⟩
      have hstate : instrs.hasState inst = true := by
        cases hstate : instrs.hasState inst with
        | true => rfl
        | false => exact absurd ⟨inst, rfl, hlatency, .inr hstate⟩ hnull
      have hexpand : count (CacheContext.held ⟨context, some db, some inst, latency⟩ ++ os)
          = count (objects context ++ [.given inst]) + count (objects (some db) ++ os) := by
        simp only [CacheContext.held, List.append_assoc, count_append]
        abel
      rw [hexpand] at hrefs hdid
      -- The buffer is released now, and the instruction waits.
      let t := (s.setLatency db latency).wait (.writeBack latency inst context)
      have hrun : (loadChild instrs ⟨context, some db, some inst, latency⟩ s).bind (·.decRefs os)
          = t.decRefs (objects (some db) ++ os) := by
        rw [decRefs_append]
        simp [loadChild, hlatency, hstate, LoadState.setLatency, t]
      have hbuffer : count (objects (some db) ++ os) ≤ t.refs :=
        le_trans (le_add_of_nonneg_left (count_nonneg _)) hrefs
      have hwaits : t.waiting = [.writeBack latency inst context] := by
        show s.waiting ++ [_] = _
        rw [hwaiting]
        rfl
      rw [hrun, decRefs_eq hbuffer]
      refine completes_waiting hwaits ?_
      have hrest : count (objects context ++ [.given inst])
          ≤ t.refs - count (objects (some db) ++ os) + instrs.refs inst context := by
        rw [sub_add_eq_add_sub]
        exact le_sub_iff_add_le.mpr hdid
      let u : LoadState α := { t with
        refs := t.refs - count (objects (some db) ++ os), waiting := [] }
      have hfinish : CacheContext.finish instrs ⟨context, some db, some inst, latency⟩ os s
          = { execute instrs inst context u with
              refs := u.refs + instrs.refs inst context
                - count (objects context ++ [.given inst]) } := by
        rw [CacheContext.finish, hexpand, hexecutes]
        simp only [LoadState.mk.injEq]
        refine ⟨?_, ?_, rfl, rfl⟩
        · show _ = s.refs - _ + _ - _
          abel
        · show CacheContext.restore _ _ + _ = _
          simp [CacheContext.executes, CacheContext.restore, hlatency, execute, u, t, LoadState.wait,
            LoadState.setLatency]
      rw [hfinish]
      exact writeBack_completes (s := u) rfl hrest
    · have hrun : (loadChild instrs ⟨context, db, some inst, latency⟩ s).bind (·.decRefs os)
          = (execute instrs inst context s).decRefs
              (objects context ++ [.given inst] ++ objects db ++ os) := by
        rw [decRefs_append, decRefs_append]
        simp only [loadChild, hlatency, if_false]
        rfl
      have hfinish : CacheContext.finish instrs ⟨context, db, some inst, latency⟩ os s
          = { execute instrs inst context s with
              refs := (execute instrs inst context s).refs
                - count (objects context ++ [.given inst] ++ objects db ++ os) } := by
        rw [CacheContext.finish, hexecutes, CacheContext.restore_of_not_pos hlatency]
        simp [CacheContext.executes, CacheContext.held, execute, hwaiting]
      have hheld : count (objects context ++ [.given inst] ++ objects db ++ os)
          ≤ (execute instrs inst context s).refs := hdid
      rw [hrun, hfinish, decRefs_eq hheld]
      exact completes_done hwaiting

end LoadChild

/-! ### The memory behind -/

namespace CacheContext

/-- The state in which a context is handed to the memory behind. -/
def handed (c : CacheContext α) (s : LoadState α) : LoadState α :=
  { s with
    refs := s.refs + count (.cacheContext :: (objects c.context ++ objects c.inst ++ objects c.db))
    latency := match c.db with
      | some db => Function.update s.latency db 0
      | none => s.latency }

/-- The references that are acquired, and not released: without an instruction `LoadChild` does not
    touch the context. -/
def leaked (c : CacheContext α) : Counted α → ℤ :=
  match c.inst with
  | some _ => 0
  | none => count (objects c.context)

end CacheContext

section Behind

variable {instrs} {c : CacheContext α} {s done : LoadState α} {finish : Finish} {o : Counted α}

theorem count_held :
    count (objects c.context ++ objects c.inst ++ objects c.db) = count c.held + c.leaked := by
  obtain ⟨context, db, inst, latency⟩ := c
  cases inst with
  | none =>
    simp only [CacheContext.held, CacheContext.leaked, objects, Option.toList_none, List.map_nil,
      List.append_nil, List.nil_append, count_append]
    exact add_comm _ _
  | some inst => exact (add_zero _).symm

theorem leaked_nonneg : 0 ≤ c.leaked := by
  unfold CacheContext.leaked
  split
  · exact le_rfl
  · exact count_nonneg _

theorem decRefs_singleton : s.decRefs [o] = s.decRef o := by
  simp [LoadState.decRefs]

/-- The memory executes the instruction of the cache, at once or later. -/
theorem loadBehind_completes (hfinish : finish.Runs) (hnull : ¬c.UsesNull instrs)
    (hrefs : count (c.held ++ [.cacheContext]) ≤ s.refs)
    (hdid : count (c.held ++ [.cacheContext]) ≤ s.refs + didRefs instrs c.executes)
    (hwaiting : s.waiting = []) :
    Completes instrs ((loadBehind instrs finish c s).bind (·.decRef .cacheContext))
      (c.finish instrs [.cacheContext] s) := by
  rcases hfinish with rfl | rfl
  · have hchild := loadChild_completes [.cacheContext] hnull hrefs hdid hwaiting
    simp only [decRefs_singleton] at hchild
    exact hchild
  · -- The memory holds references of its own, which it releases behind `LoadChild`.
    let t : LoadState α := { s with refs := s.refs + Pi.single .cacheInst 1, waiting := [.loadChild c] }
    have hpost : (loadBehind instrs .postpone c s).bind (·.decRef .cacheContext) = some t := by
      have hpos : Pi.single .cacheContext 1 ≤ s.refs + count [.cacheInst, .cacheContext] := by
        rw [count_append] at hrefs
        have hsingle : count [.cacheContext] ≤ s.refs :=
          le_trans (le_add_of_nonneg_left (count_nonneg c.held)) hrefs
        rw [count_cons, count_nil, add_zero] at hsingle
        exact le_trans hsingle (le_add_of_nonneg_right (count_nonneg _))
      simp only [loadBehind, incRefs_eq, LoadState.wait, Option.bind_some]
      rw [decRef_eq hpos]
      simp only [t, hwaiting, List.nil_append, count_cons, count_nil, add_zero, ← add_assoc,
        add_sub_cancel_right]
    rw [hpost]
    refine completes_waiting (s := t) rfl ?_
    let u : LoadState α := { t with waiting := [] }
    have hexpand : count (c.held ++ [.cacheContext, .cacheInst])
        = count (c.held ++ [.cacheContext]) + Pi.single .cacheInst 1 := by
      simp only [count_append, count_cons, count_nil, add_zero, add_assoc]
    have hfinish : c.finish instrs [.cacheContext] s
        = c.finish instrs [.cacheContext, .cacheInst] u := by
      simp only [CacheContext.finish, hexpand, LoadState.mk.injEq, and_true, u, t]
      abel
    rw [hfinish]
    refine loadChild_completes (s := u) [.cacheContext, .cacheInst] hnull ?_ ?_ rfl
    · rw [hexpand]
      exact add_le_add_left hrefs _
    · rw [hexpand]
      show _ ≤ s.refs + Pi.single .cacheInst 1 + _
      rw [add_right_comm]
      exact add_le_add_left hdid _

theorem loadBehind_null (hfinish : finish.Runs) (hnull : c.UsesNull instrs)
    (hwaiting : s.waiting = []) :
    ¬Completes instrs ((loadBehind instrs finish c s).bind (·.decRef .cacheContext)) done := by
  rcases hfinish with rfl | rfl
  · have hrun : (loadBehind instrs .execute c s).bind (·.decRef .cacheContext) = none := by
      show (loadChild instrs c s).bind _ = none
      rw [loadChild_null hnull]
      rfl
    rw [hrun]
    exact not_completes_none
  · rintro ⟨n, hn, hdone⟩
    obtain ⟨t, ht, hsteps⟩ := Option.bind_eq_some_iff.mp hn
    have hwaits : t.waiting = [.loadChild c] := by
      simp only [loadBehind, incRefs_eq, LoadState.wait, Option.bind_some, LoadState.decRef] at ht
      split at ht
      · cases ht
        show s.waiting ++ _ = _
        rw [hwaiting]
        rfl
      · cases ht
    cases n with
    | zero =>
      cases hsteps
      rw [hwaits] at hdone
      cases hdone
    | succ n =>
      have hresume : resume instrs t = none := by
        unfold resume
        rw [hwaits]
        show (loadChild instrs c _).bind _ = none
        rw [loadChild_null hnull]
        rfl
      rw [resumes, hresume] at hsteps
      cases hsteps

theorem Completes.restores_iff {x : Option (LoadState α)} (h : Completes instrs x done) :
    Restores instrs x s ↔ done.refs = s.refs + didRefs instrs done.executed ∧
      done.latency = s.latency + didLatency instrs done.executed := by
  constructor
  · rintro ⟨done', h', hrestored⟩
    rw [h.unique h']
    exact hrestored
  · exact fun hrestored => ⟨done, h, hrestored⟩

theorem not_restores_none : ¬Restores instrs none s := by
  rintro ⟨done, h, -⟩
  exact not_completes_none h

theorem one_le_count {os : List (Counted α)} (h : o ∈ os) : 1 ≤ count os o := by
  induction os with
  | nil => cases h
  | cons o' os ih =>
    have hnonneg : ∀ os' : List (Counted α), 0 ≤ count os' o := fun os' => count_nonneg os' o
    rw [count_cons, Pi.add_apply]
    rcases List.mem_cons.mp h with rfl | hmem
    · rw [Pi.single_eq_same]
      exact le_add_of_nonneg_right (hnonneg os)
    · have hsingle : (0 : ℤ) ≤ (Pi.single o' 1 : Counted α → ℤ) o := by
        simpa only [count_cons, count_nil, add_zero] using hnonneg [o']
      exact le_trans (ih hmem) (le_add_of_nonneg_left hsingle)

theorem count_ne_zero (hsome : c.db ≠ none ∨ c.inst ≠ none) :
    count (objects c.context ++ objects c.inst ++ objects c.db) ≠ 0 := by
  obtain ⟨o, ho⟩ : ∃ o : Counted α, o ∈ objects c.context ++ objects c.inst ++ objects c.db := by
    rcases hsome with hdb | hinst
    · obtain ⟨db, hdb⟩ := Option.ne_none_iff_exists'.mp hdb
      exact ⟨.given db, by simp [objects, hdb]⟩
    · obtain ⟨inst, hinst⟩ := Option.ne_none_iff_exists'.mp hinst
      exact ⟨.given inst, by simp [objects, hinst]⟩
  intro hzero
  have hone := one_le_count ho
  rw [hzero, Pi.zero_apply] at hone
  omega

/-- **Handing over.** -/
theorem handed_restores_iff (hsome : c.db ≠ none ∨ c.inst ≠ none) (hrefs : 0 ≤ s.refs)
    (hdid : 0 ≤ s.refs + didRefs instrs c.executes) (hwaiting : s.waiting = [])
    (hexecuted : s.executed = []) :
    Restores instrs ((loadBehind instrs finish c (c.handed s)).bind (·.decRef .cacheContext)) s ↔
      finish.Runs ∧ ¬c.UsesNull instrs ∧ c.leaked = 0 ∧
        c.restore (c.handed s).latency = s.latency := by
  have hhanded : (c.handed s).refs = s.refs + c.leaked + count (c.held ++ [.cacheContext]) := by
    show s.refs + count (.cacheContext :: _) = _
    rw [count_cons, count_held, count_append, count_cons, count_nil]
    abel
  have hbefore : count (c.held ++ [.cacheContext]) ≤ (c.handed s).refs := by
    rw [hhanded]
    exact le_add_of_nonneg_left (add_nonneg hrefs leaked_nonneg)
  have hafter : count (c.held ++ [.cacheContext])
      ≤ (c.handed s).refs + didRefs instrs c.executes := by
    rw [hhanded]
    have hsum : s.refs + c.leaked + count (c.held ++ [.cacheContext]) + didRefs instrs c.executes
        = (s.refs + didRefs instrs c.executes) + c.leaked + count (c.held ++ [.cacheContext]) := by
      abel
    rw [hsum]
    exact le_add_of_nonneg_left (add_nonneg hdid leaked_nonneg)
  by_cases hruns : finish.Runs
  · by_cases hnull : c.UsesNull instrs
    · refine ⟨fun h => ?_, fun h => absurd hnull h.2.1⟩
      obtain ⟨done, hdone, -⟩ := h
      exact absurd hdone (loadBehind_null hruns hnull hwaiting)
    · have hcompletes := loadBehind_completes hruns hnull hbefore hafter hwaiting
      rw [hcompletes.restores_iff]
      have hlog : (c.finish instrs [.cacheContext] (c.handed s)).executed = c.executes := by
        show s.executed ++ c.executes = _
        rw [hexecuted]
        rfl
      rw [hlog]
      have hleft : (c.finish instrs [.cacheContext] (c.handed s)).refs
          = s.refs + didRefs instrs c.executes + c.leaked := by
        show (c.handed s).refs + didRefs instrs c.executes - _ = _
        rw [hhanded]
        abel
      have hlatency : (c.finish instrs [.cacheContext] (c.handed s)).latency
          = c.restore (c.handed s).latency + didLatency instrs c.executes := rfl
      rw [hleft, hlatency, add_eq_left, add_left_inj]
      exact ⟨fun h => ⟨hruns, hnull, h⟩, fun h => h.2.2⟩
  · refine ⟨fun h => ?_, fun h => absurd h.1 hruns⟩
    cases finish with
    | execute => exact absurd (.inl rfl) hruns
    | postpone => exact absurd (.inr rfl) hruns
    | schedule => exact absurd h not_restores_none
    | refuse =>
      -- The references stay acquired.
      have hcontext : Pi.single .cacheContext 1 ≤ (c.handed s).refs := by
        rw [count_append, count_cons, count_nil, add_zero] at hbefore
        exact le_trans (le_add_of_nonneg_left (count_nonneg _)) hbefore
      have hrun : (loadBehind instrs .refuse c (c.handed s)).bind (·.decRef .cacheContext) = _ :=
        decRef_eq hcontext
      rw [hrun] at h
      let t : LoadState α := { c.handed s with
        refs := (c.handed s).refs - Pi.single .cacheContext 1 }
      have hdone : Completes instrs (some t) t := completes_done hwaiting
      have hkept : (c.handed s).refs - Pi.single .cacheContext 1
          = s.refs + didRefs instrs s.executed := (hdone.restores_iff.mp h).1
      have hleft : (c.handed s).refs - Pi.single .cacheContext 1
          = s.refs + count (objects c.context ++ objects c.inst ++ objects c.db) := by
        simp only [CacheContext.handed, count_cons]
        abel
      rw [hleft, hexecuted, didRefs_nil, add_zero, add_eq_left] at hkept
      exact absurd hkept (count_ne_zero hsome)

end Behind

/-! ### The forms of a load -/

section Forms

variable {instrs} {behind : Behind} {r : LoadRequest α} {s : LoadState α} {db inst : α} {tags : ℤ}

theorem forward_none (hdb : r.db = none) : forward instrs behind r s = none := by
  unfold forward
  rw [hdb]
  rfl

theorem forward_some (hdb : r.db = some db) :
    forward instrs behind r s =
      (loadBehind instrs (behind r.form (some 0)) ⟨r.context, some db, r.inst, s.latency db⟩
        (CacheContext.handed ⟨r.context, some db, r.inst, s.latency db⟩ s)).bind
          (·.decRef .cacheContext) := by
  unfold forward
  rw [hdb]
  simp [incRefs_eq, LoadState.setLatency, CacheContext.handed, objects]

theorem forwardTagged_none (hinst : r.inst = none) :
    forwardTagged instrs behind tags r s = some s := by
  unfold forwardTagged
  rw [hinst]

theorem forwardTagged_some (hinst : r.inst = some inst) :
    forwardTagged instrs behind tags r s =
      (loadBehind instrs (behind r.form (r.db.map fun _ => 0))
        ⟨r.context, r.db, some inst, (r.db.map s.latency).getD tags⟩
        (CacheContext.handed ⟨r.context, r.db, some inst, (r.db.map s.latency).getD tags⟩ s)).bind
          (·.decRef .cacheContext) := by
  unfold forwardTagged
  rw [hinst]
  cases hdb : r.db with
  | none => simp [incRefs_eq, CacheContext.handed, objects]
  | some db => simp [incRefs_eq, LoadState.setLatency, CacheContext.handed, objects, add_assoc]

end Forms

/-! ### The exact condition -/

section Exact

variable {instrs} {finish : Finish} {s : LoadState α} {db inst : α} {context : Option α} {tags : ℤ}

theorem update_zero_eq_self_iff {latency : α → ℤ} :
    Function.update latency db 0 = latency ↔ latency db = 0 := by
  rw [Function.update_eq_self_iff]
  exact eq_comm

theorem restores_iff_of_both (hrefs : 0 ≤ s.refs) (hdid : 0 ≤ s.refs + instrs.refs inst context)
    (hwaiting : s.waiting = []) (hexecuted : s.executed = []) :
    Restores instrs ((loadBehind instrs finish ⟨context, some db, some inst, s.latency db⟩
        (CacheContext.handed ⟨context, some db, some inst, s.latency db⟩ s)).bind
          (·.decRef .cacheContext)) s ↔
      finish.Runs ∧ 0 ≤ s.latency db ∧ (0 < s.latency db → instrs.hasState inst) := by
  have hdid' : 0 ≤ s.refs + didRefs instrs [(inst, context)] := by
    rw [didRefs_singleton]
    exact hdid
  rw [handed_restores_iff (.inl (Option.some_ne_none db)) hrefs hdid' hwaiting hexecuted]
  refine and_congr_right fun _ => ?_
  by_cases hpos : 0 < s.latency db
  · have hrestore : CacheContext.restore ⟨context, some db, some inst, s.latency db⟩
        (Function.update s.latency db 0) = s.latency := by
      simp only [CacheContext.restore, hpos, if_true, Function.update_idem, Function.update_eq_self]
    constructor
    · rintro ⟨hnull, -, -⟩
      refine ⟨hpos.le, fun _ => ?_⟩
      by_contra hstate
      exact hnull ⟨inst, rfl, hpos, .inr (Bool.eq_false_iff.mpr hstate)⟩
    · rintro ⟨-, hstate⟩
      refine ⟨?_, rfl, hrestore⟩
      rintro ⟨inst', hinst, -, hdb | hnone⟩
      · cases hdb
      · cases hinst
        rw [hstate hpos] at hnone
        cases hnone
  · have hrestore : CacheContext.restore ⟨context, some db, some inst, s.latency db⟩
        (Function.update s.latency db 0) = Function.update s.latency db 0 :=
      CacheContext.restore_of_not_pos hpos
    show _ ∧ _ ∧ CacheContext.restore _ (Function.update s.latency db 0) = _ ↔ _
    rw [hrestore, update_zero_eq_self_iff]
    constructor
    · rintro ⟨-, -, hzero⟩
      exact ⟨hzero.ge, fun hpos' => absurd hpos' hpos⟩
    · rintro ⟨hnonneg, -⟩
      refine ⟨?_, rfl, le_antisymm (not_lt.mp hpos) hnonneg⟩
      rintro ⟨-, -, hpos', -⟩
      exact hpos hpos'

theorem restores_iff_of_db (hrefs : 0 ≤ s.refs) (hwaiting : s.waiting = [])
    (hexecuted : s.executed = []) :
    Restores instrs ((loadBehind instrs finish ⟨context, some db, none, s.latency db⟩
        (CacheContext.handed ⟨context, some db, none, s.latency db⟩ s)).bind
          (·.decRef .cacheContext)) s ↔
      finish.Runs ∧ context = none ∧ s.latency db = 0 := by
  have hdid : 0 ≤ s.refs + didRefs instrs
      (CacheContext.executes ⟨context, some db, none, s.latency db⟩) := by
    rw [show didRefs instrs _ = 0 from rfl, add_zero]
    exact hrefs
  rw [handed_restores_iff (.inl (Option.some_ne_none db)) hrefs hdid hwaiting hexecuted]
  refine and_congr_right fun _ => ?_
  have hnull : ¬CacheContext.UsesNull instrs ⟨context, some db, none, s.latency db⟩ := by
    rintro ⟨inst, hinst, -⟩
    cases hinst
  have hleaked : CacheContext.leaked ⟨context, some db, none, s.latency db⟩ = 0 ↔ context = none := by
    cases context with
    | none => exact ⟨fun _ => rfl, fun _ => rfl⟩
    | some o =>
      refine ⟨fun h => ?_, fun h => by cases h⟩
      have hone := one_le_count (List.mem_singleton.mpr (rfl : Counted.given o = .given o))
      rw [show count [Counted.given o] = 0 from h, Pi.zero_apply] at hone
      omega
  show _ ∧ _ ∧ Function.update s.latency db 0 = s.latency ↔ _
  rw [hleaked, update_zero_eq_self_iff]
  exact ⟨fun h => h.2, fun h => ⟨hnull, h⟩⟩

theorem restores_iff_of_inst (hrefs : 0 ≤ s.refs) (hdid : 0 ≤ s.refs + instrs.refs inst context)
    (hwaiting : s.waiting = []) (hexecuted : s.executed = []) :
    Restores instrs ((loadBehind instrs finish ⟨context, none, some inst, tags⟩
        (CacheContext.handed ⟨context, none, some inst, tags⟩ s)).bind (·.decRef .cacheContext)) s ↔
      finish.Runs ∧ tags ≤ 0 := by
  have hdid' : 0 ≤ s.refs + didRefs instrs [(inst, context)] := by
    rw [didRefs_singleton]
    exact hdid
  rw [handed_restores_iff (.inr (Option.some_ne_none inst)) hrefs hdid' hwaiting hexecuted]
  refine and_congr_right fun _ => ?_
  constructor
  · rintro ⟨hnull, -, -⟩
    exact not_lt.mp fun hpos => hnull ⟨inst, rfl, hpos, .inl rfl⟩
  · intro htags
    refine ⟨?_, rfl, rfl⟩
    rintro ⟨-, -, hpos, -⟩
    exact absurd hpos (not_lt.mpr htags)

theorem restores_self (hwaiting : s.waiting = []) (hexecuted : s.executed = []) :
    Restores instrs (some s) s := by
  refine ⟨s, completes_done hwaiting, ?_, ?_⟩
  · rw [hexecuted, didRefs_nil, add_zero]
  · rw [hexecuted, didLatency_nil, add_zero]

section Forwarded

variable {behind : Behind} {r : LoadRequest α}

theorem forward_restores_iff (hform : ¬r.form.IsTagged) (hrefs : 0 ≤ s.refs)
    (hinst : ∀ inst, r.inst = some inst → 0 ≤ s.refs + instrs.refs inst r.context)
    (hwaiting : s.waiting = []) (hexecuted : s.executed = []) :
    Restores instrs (forward instrs behind r s) s ↔ ForwardPaired instrs behind r s.latency := by
  obtain ⟨form, db, inst, context⟩ := r
  cases db with
  | none =>
    rw [forward_none rfl]
    refine ⟨fun h => absurd h not_restores_none, fun h => ?_⟩
    cases inst with
    | none => exact absurd h hform
    | some inst =>
      obtain ⟨tags, htags, -⟩ := h
      exact absurd ⟨tags, htags⟩ hform
  | some db =>
    rw [forward_some rfl]
    cases inst with
    | none =>
      rw [restores_iff_of_db hrefs hwaiting hexecuted]
      exact ⟨.inr, fun h => h.resolve_left hform⟩
    | some inst => exact restores_iff_of_both hrefs (hinst inst rfl) hwaiting hexecuted

theorem forwardTagged_restores_iff (hform : r.form = .tagged tags) (hrefs : 0 ≤ s.refs)
    (hinst : ∀ inst, r.inst = some inst → 0 ≤ s.refs + instrs.refs inst r.context)
    (hwaiting : s.waiting = []) (hexecuted : s.executed = []) :
    Restores instrs (forwardTagged instrs behind tags r s) s ↔
      ForwardPaired instrs behind r s.latency := by
  obtain ⟨form, db, inst, context⟩ := r
  cases inst with
  | none =>
    rw [forwardTagged_none rfl]
    refine ⟨fun _ => ?_, fun _ => restores_self hwaiting hexecuted⟩
    cases db with
    | none => exact ⟨tags, hform⟩
    | some db => exact .inl ⟨tags, hform⟩
  | some inst =>
    rw [forwardTagged_some rfl]
    cases db with
    | none =>
      refine (restores_iff_of_inst hrefs (hinst inst rfl) hwaiting hexecuted).trans ⟨?_, ?_⟩
      · exact fun ⟨hruns, hle⟩ => ⟨tags, hform, hle, hruns⟩
      · rintro ⟨tags', hform', hle, hruns⟩
        cases hform.symm.trans hform'
        exact ⟨hruns, hle⟩
    | some db => exact restores_iff_of_both hrefs (hinst inst rfl) hwaiting hexecuted

end Forwarded

end Exact

/-- **Loads through a cache.** A load gives back what it acquires, sets the latency again and uses
    no null pointer exactly if it is one of the paired ones. -/
theorem balanced_iff_paired (memories : Memories) (r : LoadRequest α) (refs : Counted α → ℤ)
    (latency : α → ℤ) (hrefs : 0 ≤ refs)
    (hinst : ∀ inst, r.inst = some inst → 0 ≤ refs + instrs.refs inst r.context) :
    Balanced instrs memories r ⟨refs, latency, [], []⟩ ↔ Paired instrs memories r latency := by
  have hself : Restores instrs (some ⟨refs, latency, [], []⟩) ⟨refs, latency, [], []⟩ :=
    restores_self rfl rfl
  unfold Balanced load Paired Memories.behind
  cases hform : r.form with
  | plain =>
    have huntagged : ¬r.form.IsTagged := by
      rintro ⟨tags, htags⟩
      cases hform.symm.trans htags
    cases hmemory : memories.memory with
    | none =>
      cases hdb : r.db with
      | none => exact ⟨fun h => absurd h not_restores_none, fun h => absurd rfl (h rfl)⟩
      | some db => exact ⟨fun _ _ => Option.some_ne_none db, fun _ => hself⟩
    | some behind =>
      have hforward : Restores instrs (forward instrs behind r ⟨refs, latency, [], []⟩)
          ⟨refs, latency, [], []⟩ ↔ ForwardPaired instrs behind r latency :=
        forward_restores_iff huntagged hrefs hinst rfl rfl
      refine Iff.trans ?_ hforward
      cases hdb : r.db with
      | none =>
        rw [forward_none hdb]
        rfl
      | some db => rfl
  | vector =>
    have huntagged : ¬r.form.IsTagged := by
      rintro ⟨tags, htags⟩
      cases hform.symm.trans htags
    cases hmemory : memories.memory with
    | none =>
      refine ⟨fun _ h => ?_, fun _ => hself⟩
      cases h
    | some behind => exact forward_restores_iff huntagged hrefs hinst rfl rfl
  | tagged tags =>
    cases hmemory : memories.taggedMemory with
    | none =>
      refine ⟨fun _ h => ?_, fun _ => hself⟩
      cases h
    | some behind => exact forwardTagged_restores_iff hform hrefs hinst rfl rfl

/-! ### Examples -/

/-- An instruction that releases a reference to the buffer it has loaded, the buffer 0. -/
def releasing : Instructions ℕ where
  hasState _ := true
  refs _ _ := -Pi.single (.given 0) 1
  latency _ _ := 0

/-- A memory of each kind behind the cache. -/
def flatMemories : Memories := ⟨some taggedFlatDemandMemory, some taggedFlatDemandMemory⟩

/-- A load with a buffer, an instruction and a context, and a latency of three cycles. -/
theorem balanced_delayedLoad :
    Balanced releasing flatMemories ⟨.plain, some 0, some 1, some 2⟩
      ⟨fun _ => 1, fun _ => 3, [], []⟩ := by
  refine (balanced_iff_paired releasing flatMemories ⟨.plain, some 0, some 1, some 2⟩ (fun _ => 1)
    (fun _ => 3) (fun _ => zero_le_one) ?_).mpr ⟨.inl rfl, by decide, fun _ => rfl⟩
  intro inst _ o
  show (0 : ℤ) ≤ 1 + -(Pi.single (.given 0) 1 : Counted ℕ → ℤ) o
  rw [Pi.single_apply]
  split <;> decide

/-- Without an instruction the reference to the context is kept, and the latency is lost. -/
theorem load_unbalanced :
    ∃ done, Completes releasing (load releasing flatMemories ⟨.plain, some 0, none, some 2⟩
        ⟨fun _ => 1, fun _ => 3, [], []⟩) done ∧
      done.refs (.given 2) = 2 ∧ done.latency 0 = 0 ∧
      ¬Balanced releasing flatMemories ⟨.plain, some 0, none, some 2⟩
        ⟨fun _ => 1, fun _ => 3, [], []⟩ := by
  refine ⟨_, ⟨0, rfl, rfl⟩, rfl, rfl, ?_⟩
  rintro ⟨done, hdone, -, hlatency⟩
  have hsame := hdone.unique (completes_done rfl)
  rw [hsame] at hlatency
  have hzero : (0 : ℤ) = 3 := congrFun hlatency 0
  exact absurd hzero (by decide)

end MpactSim.Memory
