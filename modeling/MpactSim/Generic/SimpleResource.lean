import MpactSim.Generic.ResourceBitSet
import MpactSim.Lib.Run

namespace MpactSim.Generic

open Lib

/-!
# Pools of simple resources

A `SimpleResourcePool` gives its resources names and indices, and has a bit for each that says
whether it is reserved.  A set of resources is a bit set of the same width.

* `addResourceInternal`, `addToSet`  — the operations that make and group resources;
* `acquire`, `release`, `isFree`     — the operations on the bits;
* `PoolOp.next`                      — an operation on a pool;
* `pool_consistent`                  — what holds after every run.
-/

/-! ### The source -/

/-- `SimpleResource`; pools are told apart by a number. -/
structure SimpleResource where
  name : String
  index : Nat
  pool : Nat
  resourceBit : ResourceBitSet
  deriving DecidableEq, Repr

/-- `SimpleResourcePool`.  The sets are in the order in which they were made. -/
structure SimpleResourcePool where
  id : Nat
  name : String
  width : BitVec 32
  resourceVector : ResourceBitSet
  resourceNameMap : List (String × SimpleResource) := []
  resources : List SimpleResource := []
  resourceSets : List ResourceBitSet := []
  deriving DecidableEq, Repr

inductive PoolError where
  | internal (message : String)
  | alreadyExists (message : String)
  deriving DecidableEq, Repr

/-- The constructor of a resource. -/
def SimpleResource.make (name : String) (index : Nat) (pool : SimpleResourcePool) :
    Option SimpleResource := do
  let bits ← (⟨[]⟩ : ResourceBitSet).resize pool.width.toInt
  let bits ← bits.set index
  some ⟨name, index, pool.id, bits⟩

namespace SimpleResourcePool

/-- The constructor of a pool. -/
def create (id : Nat) (name : String) (width : Int) : Option SimpleResourcePool :=
  ((⟨[]⟩ : ResourceBitSet).resize (BitVec.ofInt 32 width).toInt).map fun bits =>
    { id, name, width := BitVec.ofInt 32 width, resourceVector := bits }

/-- `GetResource` with a name. -/
def getResource (pool : SimpleResourcePool) (name : String) : Option SimpleResource :=
  (pool.resourceNameMap.find? fun entry => entry.1 == name).map Prod.snd

/-- `GetResource` with an index. -/
def getResourceAt (pool : SimpleResourcePool) (index : Nat) : Option SimpleResource :=
  pool.resources[index]?

/-- A new resource in the map and in the array. -/
def push (pool : SimpleResourcePool) (name : String) (resource : SimpleResource) :
    SimpleResourcePool :=
  { pool with
    resourceNameMap := pool.resourceNameMap ++ [(name, resource)]
    resources := pool.resources ++ [resource] }

/-- `AddResourceInternal`. -/
def addResourceInternal (pool : SimpleResourcePool) (name : String) :
    Option (Except PoolError SimpleResource × SimpleResourcePool) :=
  if pool.resourceNameMap.length = pool.width.toNat then
    some (.error (.internal ("SimpleResourcePool: Attempted to add too many resources to pool '" ++
      pool.name ++ "'")), pool)
  else if (pool.getResource name).isSome then
    some (.error (.alreadyExists ("SimpleResourcePool: Resource '" ++ name ++
      "' already exists in pool '" ++ pool.name ++ "'")), pool)
  else
    (SimpleResource.make name pool.resourceNameMap.length pool).map fun resource =>
      (.ok resource, pool.push name resource)

/-- `AddResource`. -/
def addResource (pool : SimpleResourcePool) (name : String) :
    Option (Except PoolError Unit × SimpleResourcePool) :=
  (pool.addResourceInternal name).map fun (result, pool) => (result.map fun _ => (), pool)

/-- `GetOrAddResource`. -/
def getOrAddResource (pool : SimpleResourcePool) (name : String) :
    Option (Option SimpleResource × SimpleResourcePool) :=
  match pool.getResource name with
  | some resource => some (some resource, pool)
  | none => (pool.addResourceInternal name).map fun (result, pool) => (result.toOption, pool)

/-- `CreateResourceSet`, with the constructor of a set. -/
def createResourceSet (pool : SimpleResourcePool) : Option SimpleResourcePool :=
  ((⟨[]⟩ : ResourceBitSet).resize pool.width.toInt).map fun bits =>
    { pool with resourceSets := pool.resourceSets ++ [bits] }

/-- `SimpleResourceSet::AddResource` with a pointer. -/
def addToSet (pool : SimpleResourcePool) (k : Nat) (resource : Option SimpleResource) :
    Option (Except PoolError Unit × SimpleResourcePool) := do
  let set ← pool.resourceSets[k]?
  match resource with
  | none => some (.ok (), pool)
  | some resource =>
    if resource.pool ≠ pool.id then
      some (.error (.internal
        "SimpleResourceSet: Attempt to add resource from different pool"), pool)
    else do
      let set ← set.or resource.resourceBit
      some (.ok (), { pool with resourceSets := pool.resourceSets.set k set })

/-- `SimpleResourceSet::AddResource` with a name. -/
def addToSetByName (pool : SimpleResourcePool) (k : Nat) (name : String) :
    Option (Except PoolError Unit × SimpleResourcePool) :=
  match pool.getResource name with
  | some resource => pool.addToSet k (some resource)
  | none => do
    let (status, pool) ← pool.addResource name
    match status with
    | .error e => some (.error e, pool)
    | .ok () => pool.addToSet k (pool.getResource name)

/-- `Acquire` of the bits of a resource or a set. -/
def acquire (pool : SimpleResourcePool) (bits : ResourceBitSet) : Option SimpleResourcePool :=
  (pool.resourceVector.or bits).map fun v => { pool with resourceVector := v }

/-- `Release` of the bits of a resource or a set. -/
def release (pool : SimpleResourcePool) (bits : ResourceBitSet) : Option SimpleResourcePool :=
  (pool.resourceVector.andNot bits).map fun v => { pool with resourceVector := v }

/-- `IsFree` of the bits of a resource or a set. -/
def isFree (pool : SimpleResourcePool) (bits : ResourceBitSet) : Option Bool :=
  (pool.resourceVector.isIntersectionNonEmpty bits).map not

end SimpleResourcePool

/-- An operation on a pool, its sets and its resources. -/
inductive PoolOp where
  | addResource (name : String)
  | getOrAddResource (name : String)
  | createResourceSet
  | addToSet (k : Nat) (resource : Option SimpleResource)
  | addToSetByName (k : Nat) (name : String)
  | acquireSet (k : Nat)
  | releaseSet (k : Nat)
  | acquireResource (resource : SimpleResource)
  | releaseResource (resource : SimpleResource)
  deriving DecidableEq, Repr

namespace PoolOp

open SimpleResourcePool

/-- The pool after an operation.  A resource of another pool leaves this one as it is. -/
def next (pool : SimpleResourcePool) : PoolOp → Option SimpleResourcePool
  | addResource name => (pool.addResource name).map Prod.snd
  | getOrAddResource name => (pool.getOrAddResource name).map Prod.snd
  | createResourceSet => pool.createResourceSet
  | addToSet k resource => (pool.addToSet k resource).map Prod.snd
  | addToSetByName k name => (pool.addToSetByName k name).map Prod.snd
  | acquireSet k => pool.resourceSets[k]?.bind pool.acquire
  | releaseSet k => pool.resourceSets[k]?.bind pool.release
  | acquireResource resource =>
    if resource.pool = pool.id then pool.acquire resource.resourceBit else some pool
  | releaseResource resource =>
    if resource.pool = pool.id then pool.release resource.resourceBit else some pool

/-- The system of a pool: an operation without a result is not one. -/
def step (pool : SimpleResourcePool) (op : PoolOp) : SimpleResourcePool := (op.next pool).getD pool

/-- The resources of the pool that an operation is given were made by the pool. -/
def Genuine (pool : SimpleResourcePool) (op : PoolOp) : Prop :=
  ∀ resource, (∃ k, op = addToSet k (some resource)) ∨ op = acquireResource resource ∨
    op = releaseResource resource → resource.pool = pool.id → resource ∈ pool.resources

/-- The set of the operation was made. -/
def HasSet (pool : SimpleResourcePool) : PoolOp → Prop
  | addToSet k _ | addToSetByName k _ | acquireSet k | releaseSet k =>
    k < pool.resourceSets.length
  | _ => True

/-- The operation accesses no word outside an array. -/
structure Done (pool : SimpleResourcePool) (op : PoolOp) : Prop where
  result : (op.next pool).isSome = true
  genuine : op.Genuine pool

/-! ### The specification -/

/-- The operation acquires the resource with an index. -/
def Acquires (i : Nat) (pool : SimpleResourcePool) (op : PoolOp) : Prop :=
  (∃ k set, op = acquireSet k ∧ pool.resourceSets[k]? = some set ∧ i ∈ set.members) ∨
  ∃ resource, op = acquireResource resource ∧ resource.pool = pool.id ∧ resource.index = i

/-- The operation releases the resource with an index. -/
def Releases (i : Nat) (pool : SimpleResourcePool) (op : PoolOp) : Prop :=
  (∃ k set, op = releaseSet k ∧ pool.resourceSets[k]? = some set ∧ i ∈ set.members) ∨
  ∃ resource, op = releaseResource resource ∧ resource.pool = pool.id ∧ resource.index = i

/-- The operation adds the resource with an index to a set. -/
def Adds (k i : Nat) (pool : SimpleResourcePool) (op : PoolOp) : Prop :=
  (∃ resource, op = addToSet k (some resource) ∧ resource.pool = pool.id ∧ resource.index = i) ∨
  ∃ name, ∃ resource : SimpleResource, op = addToSetByName k name ∧
    (op.step pool).getResource name = some resource ∧ resource.index = i

end PoolOp

namespace SimpleResourcePool

/-- The index of a name. -/
def indexOf (pool : SimpleResourcePool) (name : String) : Option Nat :=
  (pool.getResource name).map SimpleResource.index

/-- The name at an index. -/
def nameAt (pool : SimpleResourcePool) (index : Nat) : Option String :=
  (pool.getResourceAt index).map SimpleResource.name

/-- The indices of the members of a set. -/
def setMembers (pool : SimpleResourcePool) (k : Nat) : Finset Nat :=
  (pool.resourceSets.getD k ⟨[]⟩).members

/-- What a pool keeps: the map, the resources and the bit sets go together. -/
structure Wf (pool : SimpleResourcePool) : Prop where
  map_eq : pool.resourceNameMap = pool.resources.map fun resource => (resource.name, resource)
  nodup : (pool.resources.map SimpleResource.name).Nodup
  index_eq : ∀ i (resource : SimpleResource), pool.resources[i]? = some resource →
    resource.index = i
  pool_eq : ∀ resource ∈ pool.resources, resource.pool = pool.id
  bit : ∀ resource ∈ pool.resources, resource.resourceBit.members = {resource.index} ∧
    resource.resourceBit.size < 2 ^ 25
  length_le : pool.resources.length ≤ pool.width.toNat
  width : pool.width.toNat ≤ 2 ^ 31 - 64 ∨ pool.width.toInt = -64 ∧ pool.resources = []
  vector_lt : pool.resourceVector.size < 2 ^ 25
  set_lt : ∀ set ∈ pool.resourceSets, set.size < 2 ^ 25

/-! ### Names and indices -/

variable {pool pool' : SimpleResourcePool} {resource : SimpleResource}

variable {name : String} {index k : Nat} {width : BitVec 32} {bits set : ResourceBitSet}

theorem Wf.getResource_eq_some (h : pool.Wf) :
    pool.getResource name = some resource ↔ resource ∈ pool.resources ∧ resource.name = name := by
  rw [getResource, h.map_eq, List.find?_map, Option.map_map]
  constructor
  · intro hfind
    obtain ⟨found, hfound, rfl⟩ := Option.map_eq_some_iff.mp hfind
    exact ⟨List.mem_of_find?_eq_some hfound, by simpa using List.find?_some hfound⟩
  · rintro ⟨hmem, rfl⟩
    -- Names are different, so the first resource with the name is the one.
    cases hfind : pool.resources.find? ((fun entry => entry.1 == resource.name) ∘
        fun resource => (resource.name, resource)) with
    | none =>
      have := List.find?_eq_none.mp hfind resource hmem
      simp at this
    | some found =>
      have hname : found.name = resource.name := by simpa using List.find?_some hfind
      have heq := List.inj_on_of_nodup_map h.nodup (List.mem_of_find?_eq_some hfind) hmem hname
      exact congrArg some heq

theorem Wf.getResourceAt_eq_some (h : pool.Wf) :
    pool.getResourceAt index = some resource ↔
      resource ∈ pool.resources ∧ resource.index = index := by
  constructor
  · intro hget
    exact ⟨List.mem_of_getElem? hget, h.index_eq _ _ hget⟩
  · rintro ⟨hmem, rfl⟩
    obtain ⟨i, hi⟩ := List.getElem?_of_mem hmem
    rw [getResourceAt, h.index_eq _ _ hi, hi]

/-- **Names and indices are in bijection.** -/
theorem Wf.indexOf_eq_some (h : pool.Wf) :
    pool.indexOf name = some index ↔ pool.nameAt index = some name := by
  rw [indexOf, nameAt, Option.map_eq_some_iff, Option.map_eq_some_iff]
  constructor
  · rintro ⟨resource, hget, rfl⟩
    obtain ⟨hmem, rfl⟩ := h.getResource_eq_some.mp hget
    exact ⟨resource, h.getResourceAt_eq_some.mpr ⟨hmem, rfl⟩, rfl⟩
  · rintro ⟨resource, hget, rfl⟩
    obtain ⟨hmem, rfl⟩ := h.getResourceAt_eq_some.mp hget
    exact ⟨resource, h.getResource_eq_some.mpr ⟨hmem, rfl⟩, rfl⟩

theorem Wf.index_lt (h : pool.Wf) (hmem : resource ∈ pool.resources) :
    resource.index < pool.width.toNat := by
  obtain ⟨i, hi⟩ := List.getElem?_of_mem hmem
  rw [h.index_eq _ _ hi]
  exact lt_of_lt_of_le (List.getElem?_eq_some_iff.mp hi).1 h.length_le

/-! ### Making pools and resources -/

theorem resize_width (h : width.toNat ≤ 2 ^ 31 - 64) :
    ∃ bits, (⟨[]⟩ : ResourceBitSet).resize width.toInt = some bits ∧
      bits.size = (width.toNat + 63) / 64 ∧ bits.members = ∅ := by
  have hint : width.toInt = width.toNat := BitVec.toInt_eq_toNat_of_lt (by omega)
  rw [hint]
  exact ResourceBitSet.resize_empty h

theorem width_of_resize (h : (⟨[]⟩ : ResourceBitSet).resize width.toInt = some bits) :
    width.toNat ≤ 2 ^ 31 - 64 ∨ width.toInt = -64 := by
  have hlow := width.le_toInt
  have hhigh := width.toInt_lt
  rcases lt_or_ge width.toInt 0 with hneg | hnn
  · exact .inr (ResourceBitSet.resize_of_neg (by simpa using hlow) hneg h)
  · refine .inl ?_
    obtain ⟨n, hn⟩ := Int.eq_ofNat_of_zero_le hnn
    have htoNat : width.toNat = n := by
      have := BitVec.toInt_eq_toNat_cond width
      split at this <;> omega
    by_contra hlarge
    rw [hn, ResourceBitSet.resize_of_large (by omega) (by omega)] at h
    cases h

theorem size_of_resize_width (h : (⟨[]⟩ : ResourceBitSet).resize width.toInt = some bits) :
    bits.size < 2 ^ 25 ∧ bits.members = ∅ := by
  rcases width_of_resize h with hwidth | hneg
  · obtain ⟨bits', hrun, hsize, hempty⟩ := resize_width hwidth
    obtain rfl := Option.some.inj (hrun.symm.trans h)
    exact ⟨by omega, hempty⟩
  · have hrun : (⟨[]⟩ : ResourceBitSet).resize (-64) = some ⟨[]⟩ := by decide
    rw [hneg, hrun] at h
    cases h
    decide

theorem make_of_neg (h : pool.width.toInt = -64) : SimpleResource.make name 0 pool = none := by
  have hresize : (⟨[]⟩ : ResourceBitSet).resize (-64) = some ⟨[]⟩ := by decide
  rw [SimpleResource.make, h, hresize]
  have hset : (⟨[]⟩ : ResourceBitSet).set 0 = none := ResourceBitSet.set_of_div_eq rfl
  simp only [Option.bind_eq_bind, Option.bind_some, hset, Option.bind_none]

theorem make_of_lt (name : String) (h : pool.width.toNat ≤ 2 ^ 31 - 64)
    (hindex : index < pool.width.toNat) :
    ∃ resource, SimpleResource.make name index pool = some resource ∧ resource.name = name ∧
      resource.index = index ∧ resource.pool = pool.id ∧
      resource.resourceBit.members = {index} ∧ resource.resourceBit.size < 2 ^ 25 := by
  obtain ⟨bits, hresize, hsize, hempty⟩ := resize_width h
  obtain ⟨bits', hset, hsize', hmembers⟩ :=
    ResourceBitSet.set_of_lt (by omega : index / 64 < bits.size)
  have hlt : bits'.size < 2 ^ 25 := by omega
  refine ⟨⟨name, index, pool.id, bits'⟩, ?_, rfl, rfl, rfl, ?_, hlt⟩
  · rw [SimpleResource.make, hresize]
    show (bits.set index >>= _) = _
    rw [hset]
    rfl
  · rw [hmembers, hempty]
    rfl

/-- A pool with more resources, perhaps. -/
structure Extends (pool pool' : SimpleResourcePool) : Prop where
  wf : pool'.Wf
  id_eq : pool'.id = pool.id
  width_eq : pool'.width = pool.width
  vector_eq : pool'.resourceVector = pool.resourceVector
  sets_eq : pool'.resourceSets = pool.resourceSets

theorem Wf.extends_self (h : pool.Wf) : pool.Extends pool := ⟨h, rfl, rfl, rfl, rfl⟩

/-- The pool with a new name and the next index. -/
theorem Wf.push (h : pool.Wf) (hnew : pool.getResource name = none)
    (hwidth : pool.width.toNat ≤ 2 ^ 31 - 64) (hlt : pool.resources.length < pool.width.toNat)
    (hname : resource.name = name) (hindex : resource.index = pool.resources.length)
    (hpool : resource.pool = pool.id) (hbit : resource.resourceBit.members = {resource.index} ∧
      resource.resourceBit.size < 2 ^ 25) : (pool.push name resource).Wf := by
  constructor
  · show pool.resourceNameMap ++ [(name, resource)] = (pool.resources ++ [resource]).map _
    rw [h.map_eq, ← hname, List.map_append]
    rfl
  · show ((pool.resources ++ [resource]).map SimpleResource.name).Nodup
    rw [List.map_append, List.nodup_append]
    refine ⟨h.nodup, List.nodup_singleton _, fun a ha b hb heq => ?_⟩
    obtain ⟨found, hfound, rfl⟩ := List.mem_map.mp ha
    have hsame : found.name = name := by
      rw [heq, List.mem_singleton.mp hb, hname]
    rw [h.getResource_eq_some.mpr ⟨hfound, hsame⟩] at hnew
    cases hnew
  · intro i found hfound
    rcases Nat.lt_trichotomy i pool.resources.length with hi | hi | hi
    · exact h.index_eq i found ((List.getElem?_append_left hi).symm.trans hfound)
    · subst hi
      have hlast : (pool.resources ++ [resource])[pool.resources.length]? = some resource :=
        List.getElem?_concat_length
      obtain rfl := Option.some.inj (hlast.symm.trans hfound)
      exact hindex
    · have hnone : (pool.resources ++ [resource])[i]? = none :=
        List.getElem?_eq_none (by rw [List.length_append]; exact hi)
      cases hnone.symm.trans hfound
  · intro found hfound
    rcases List.mem_append.mp hfound with hold | hlast
    · exact h.pool_eq found hold
    · rw [List.mem_singleton.mp hlast]
      exact hpool
  · intro found hfound
    rcases List.mem_append.mp hfound with hold | hlast
    · exact h.bit found hold
    · rw [List.mem_singleton.mp hlast]
      exact hbit
  · show (pool.resources ++ [resource]).length ≤ pool.width.toNat
    rw [List.length_append]
    exact hlt
  · exact .inl hwidth
  · exact h.vector_lt
  · exact h.set_lt

/-- **`AddResourceInternal`** makes a resource with the name, or fails and changes nothing. -/
theorem addResourceInternal_spec (h : pool.Wf) {result : Except PoolError SimpleResource}
    (hrun : pool.addResourceInternal name = some (result, pool')) :
    pool.Extends pool' ∧ pool'.getResource name = (match result with
      | .ok resource => some resource
      | .error _ => pool.getResource name) := by
  have hlength : pool.resourceNameMap.length = pool.resources.length := by
    rw [h.map_eq, List.length_map]
  rw [addResourceInternal] at hrun
  split at hrun
  · cases hrun
    exact ⟨h.extends_self, rfl⟩
  · rename_i hfull
    split at hrun
    · cases hrun
      exact ⟨h.extends_self, rfl⟩
    · rename_i hold
      have hnew := Option.not_isSome_iff_eq_none.mp hold
      have hlt : pool.resources.length < pool.width.toNat :=
        lt_of_le_of_ne h.length_le (by rwa [hlength] at hfull)
      rcases h.width with hwidth | ⟨hneg, hempty⟩
      · obtain ⟨resource, hmake, hname, hindex, hpool, hbit, hsize⟩ :=
          make_of_lt name hwidth hlt
        rw [hlength, hmake] at hrun
        cases hrun
        have hwf := h.push hnew hwidth hlt hname hindex hpool ⟨by rw [hbit, hindex], hsize⟩
        exact ⟨⟨hwf, rfl, rfl, rfl, rfl⟩, hwf.getResource_eq_some.mpr
          ⟨List.mem_append_right _ (List.mem_singleton_self _), hname⟩⟩
      · rw [hlength, hempty, List.length_nil, make_of_neg hneg] at hrun
        cases hrun

theorem addResourceInternal_isSome (h : pool.Wf) (hwidth : pool.width.toNat ≤ 2 ^ 31 - 64)
    (name : String) : ∃ r, pool.addResourceInternal name = some r := by
  have hlength : pool.resourceNameMap.length = pool.resources.length := by
    rw [h.map_eq, List.length_map]
  rw [addResourceInternal]
  split
  · exact ⟨_, rfl⟩
  · rename_i hfull
    split
    · exact ⟨_, rfl⟩
    · have hlt : pool.resourceNameMap.length < pool.width.toNat :=
        lt_of_le_of_ne (hlength.trans_le h.length_le) hfull
      obtain ⟨resource, hmake, -⟩ := make_of_lt name hwidth hlt
      exact ⟨_, by rw [hmake]; rfl⟩

/-- **`AddResource`** leaves the name with a resource, or changes nothing. -/
theorem addResource_spec (h : pool.Wf) {status : Except PoolError Unit}
    (hrun : pool.addResource name = some (status, pool')) :
    pool.Extends pool' ∧ (status = .ok () → ∃ resource, pool'.getResource name = some resource) ∧
      ∀ e, status = .error e → pool'.getResource name = pool.getResource name := by
  obtain ⟨⟨result, mid⟩, hinternal, hpair⟩ := Option.map_eq_some_iff.mp hrun
  obtain ⟨hextends, hget⟩ := addResourceInternal_spec h hinternal
  cases hpair
  cases result with
  | ok resource => exact ⟨hextends, fun _ => ⟨resource, hget⟩, (fun e he => by cases he)⟩
  | error e => exact ⟨hextends, (fun he => by cases he), fun _ _ => hget⟩

theorem Wf.acquire_spec (h : pool.Wf) (hlt : bits.size < 2 ^ 25) :
    ∃ v, pool.acquire bits = some { pool with resourceVector := v } ∧
      v.members = pool.resourceVector.members ∪ bits.members ∧
      Wf { pool with resourceVector := v } := by
  obtain ⟨v, hrun, hsize, hmembers⟩ := ResourceBitSet.or_spec pool.resourceVector hlt
  refine ⟨v, by rw [acquire, hrun]; rfl, hmembers, { h with vector_lt := ?_ }⟩
  show v.size < 2 ^ 25
  rw [hsize]
  exact max_lt h.vector_lt hlt

theorem Wf.release_spec (h : pool.Wf) (bits : ResourceBitSet) :
    ∃ v, pool.release bits = some { pool with resourceVector := v } ∧
      v.members = pool.resourceVector.members \ bits.members ∧
      Wf { pool with resourceVector := v } := by
  obtain ⟨v, hrun, hsize, hmembers⟩ := pool.resourceVector.andNot_spec bits
  refine ⟨v, by rw [release, hrun]; rfl, hmembers, { h with vector_lt := ?_ }⟩
  show v.size < 2 ^ 25
  rw [hsize]
  exact h.vector_lt

/-- **Free** is what has no reserved member. -/
theorem isFree_spec (pool : SimpleResourcePool) (bits : ResourceBitSet) :
    ∃ free, pool.isFree bits = some free ∧
      (free = true ↔ ∀ i ∈ bits.members, i ∉ pool.resourceVector.members) := by
  refine ⟨_, by rw [isFree, ResourceBitSet.isIntersectionNonEmpty_spec]; rfl, ?_⟩
  rw [Bool.not_eq_true', decide_eq_false_iff_not, Finset.not_nonempty_iff_eq_empty,
    Finset.eq_empty_iff_forall_notMem]
  exact ⟨fun hall i hi hmem => hall i (Finset.mem_inter.mpr ⟨hmem, hi⟩),
    fun hall i hi => hall i (Finset.mem_inter.mp hi).2 (Finset.mem_inter.mp hi).1⟩

theorem Wf.size_lt (h : pool.Wf) (hget : pool.resourceSets[k]? = some set) : set.size < 2 ^ 25 :=
  h.set_lt set (List.mem_of_getElem? hget)

theorem setMembers_of_getElem? (hget : pool.resourceSets[k]? = some set) :
    pool.setMembers k = set.members := by
  rw [setMembers, List.getD_eq_getElem?_getD, hget, Option.getD_some]

/-- **`SimpleResourceSet::AddResource`** adds the index of the resource, if it is of the pool. -/
theorem Wf.addToSet_spec (h : pool.Wf) (hget : pool.resourceSets[k]? = some set)
    (resource : Option SimpleResource)
    (hgenuine : ∀ r, resource = some r → r.pool = pool.id → r ∈ pool.resources) :
    ∃ status sets, pool.addToSet k resource
        = some (status, { pool with resourceSets := sets }) ∧
      Wf { pool with resourceSets := sets } ∧
      ∀ j i, i ∈ setMembers { pool with resourceSets := sets } j ↔
        (j = k ∧ ∃ r, resource = some r ∧ r.pool = pool.id ∧ r.index = i) ∨
          i ∈ pool.setMembers j := by
  rw [addToSet, hget, Option.bind_eq_bind, Option.bind_some]
  cases resource with
  | none => exact ⟨_, pool.resourceSets, rfl, h, fun j i => by simp⟩
  | some r =>
    simp only
    by_cases hpool : r.pool = pool.id
    · rw [if_neg (not_not_intro hpool)]
      obtain ⟨hbit, hlt⟩ := h.bit r (hgenuine r rfl hpool)
      obtain ⟨set', hor, hsize, hmembers⟩ := ResourceBitSet.or_spec set hlt
      rw [hor]
      refine ⟨_, pool.resourceSets.set k set', rfl, { h with set_lt := ?_ }, fun j i => ?_⟩
      · intro other hother
        rcases List.mem_or_eq_of_mem_set hother with hold | rfl
        · exact h.set_lt other hold
        · rw [hsize]
          exact max_lt (h.size_lt hget) hlt
      · by_cases hj : j = k
        · subst hj
          have hset : (pool.resourceSets.set j set')[j]? = some set' :=
            List.getElem?_set_self (List.getElem?_eq_some_iff.mp hget).1
          rw [setMembers_of_getElem? hset, setMembers_of_getElem? hget, hmembers, hbit]
          simp [hpool, eq_comm]
        · have hsame : setMembers { pool with resourceSets := pool.resourceSets.set k set' } j
              = pool.setMembers j := by
            rw [setMembers, setMembers, List.getD_eq_getElem?_getD, List.getD_eq_getElem?_getD,
              List.getElem?_set_ne (Ne.symm hj)]
          simp [hsame, hj]
    · rw [if_pos hpool]
      exact ⟨_, pool.resourceSets, rfl, h, fun j i => by simp [hpool]⟩

end SimpleResourcePool

/-! ### Runs -/

namespace PoolOp

open SimpleResourcePool

variable {pool pool' : SimpleResourcePool} {op : PoolOp}

/-- What an operation does to the reserved resources and to the sets. -/
structure StepSpec (pool : SimpleResourcePool) (op : PoolOp) (pool' : SimpleResourcePool) :
    Prop where
  wf : pool'.Wf
  width_eq : pool'.width = pool.width
  vector : ∀ i, i ∈ pool'.resourceVector.members ↔
    Acquires i pool op ∨ i ∈ pool.resourceVector.members ∧ ¬Releases i pool op
  sets : ∀ k i, i ∈ pool'.setMembers k ↔ Adds k i pool op ∨ i ∈ pool.setMembers k

theorem stepSpec_of_extends (h : pool.Extends pool')
    (hop : (∃ name, op = addResource name) ∨ ∃ name, op = getOrAddResource name) :
    StepSpec pool op pool' := by
  obtain ⟨hwf, -, hwidth, hvector, hsets⟩ := h
  refine ⟨hwf, hwidth, fun i => ?_, fun k i => ?_⟩
  · rcases hop with ⟨name, rfl⟩ | ⟨name, rfl⟩
    all_goals simp [hvector, Acquires, Releases]
  · rw [setMembers, setMembers, hsets]
    rcases hop with ⟨name, rfl⟩ | ⟨name, rfl⟩
    all_goals simp [Adds]

theorem step_eq (hnext : op.next pool = some pool') : op.step pool = pool' := by
  rw [step, hnext, Option.getD_some]

theorem stepSpec_of_vector {v : ResourceBitSet} (hwf : Wf { pool with resourceVector := v })
    (hvector : ∀ i, i ∈ v.members ↔
      Acquires i pool op ∨ i ∈ pool.resourceVector.members ∧ ¬Releases i pool op)
    (hadds : ∀ k i, ¬Adds k i pool op) : StepSpec pool op { pool with resourceVector := v } :=
  ⟨hwf, rfl, hvector, fun k i => ⟨.inr, fun h => h.resolve_left (hadds k i)⟩⟩

variable {k : Nat} {ops : List PoolOp}

theorem acquireSet_spec (h : pool.Wf) (hnext : (acquireSet k).next pool = some pool') :
    StepSpec pool (acquireSet k) pool' := by
  obtain ⟨set, hget, hrun⟩ := Option.bind_eq_some_iff.mp hnext
  obtain ⟨v, hacquire, hmembers, hwf⟩ := h.acquire_spec (h.size_lt hget)
  obtain rfl := Option.some.inj (hacquire.symm.trans hrun)
  refine stepSpec_of_vector hwf (fun i => ?_) (fun k i => by simp [Adds])
  rw [hmembers, Finset.mem_union]
  simp [Acquires, Releases, hget, or_comm]

theorem releaseSet_spec (h : pool.Wf) (hnext : (releaseSet k).next pool = some pool') :
    StepSpec pool (releaseSet k) pool' := by
  obtain ⟨set, hget, hrun⟩ := Option.bind_eq_some_iff.mp hnext
  obtain ⟨v, hrelease, hmembers, hwf⟩ := h.release_spec set
  obtain rfl := Option.some.inj (hrelease.symm.trans hrun)
  refine stepSpec_of_vector hwf (fun i => ?_) (fun k i => by simp [Adds])
  rw [hmembers, Finset.mem_sdiff]
  simp [Acquires, Releases, hget]

theorem acquireResource_spec (h : pool.Wf) {resource : SimpleResource}
    (hgenuine : resource.pool = pool.id → resource ∈ pool.resources)
    (hnext : (acquireResource resource).next pool = some pool') :
    StepSpec pool (acquireResource resource) pool' := by
  rw [next] at hnext
  split at hnext
  · rename_i hpool
    obtain ⟨hbit, hlt⟩ := h.bit resource (hgenuine hpool)
    obtain ⟨v, hacquire, hmembers, hwf⟩ := h.acquire_spec hlt
    obtain rfl := Option.some.inj (hacquire.symm.trans hnext)
    refine stepSpec_of_vector hwf (fun i => ?_) (fun k i => by simp [Adds])
    rw [hmembers, Finset.mem_union, hbit, Finset.mem_singleton]
    simp [Acquires, Releases, hpool, or_comm, eq_comm]
  · rename_i hpool
    cases hnext
    refine stepSpec_of_vector h (fun i => ?_) (fun k i => by simp [Adds])
    simp [Acquires, Releases, hpool]

theorem releaseResource_spec (h : pool.Wf) {resource : SimpleResource}
    (hgenuine : resource.pool = pool.id → resource ∈ pool.resources)
    (hnext : (releaseResource resource).next pool = some pool') :
    StepSpec pool (releaseResource resource) pool' := by
  rw [next] at hnext
  split at hnext
  · rename_i hpool
    obtain ⟨v, hrelease, hmembers, hwf⟩ := h.release_spec resource.resourceBit
    obtain rfl := Option.some.inj (hrelease.symm.trans hnext)
    refine stepSpec_of_vector hwf (fun i => ?_) (fun k i => by simp [Adds])
    rw [hmembers, Finset.mem_sdiff, (h.bit resource (hgenuine hpool)).1, Finset.mem_singleton]
    simp [Acquires, Releases, hpool, eq_comm]
  · rename_i hpool
    cases hnext
    refine stepSpec_of_vector h (fun i => ?_) (fun k i => by simp [Adds])
    simp [Acquires, Releases, hpool]

theorem createResourceSet_spec (h : pool.Wf)
    (hnext : createResourceSet.next pool = some pool') :
    StepSpec pool createResourceSet pool' := by
  obtain ⟨bits, hresize, rfl⟩ := Option.map_eq_some_iff.mp hnext
  have hsize := size_of_resize_width hresize
  refine ⟨{ h with set_lt := ?_ }, rfl, fun i => by simp [Acquires, Releases], fun k i => ?_⟩
  · intro set hset
    rcases List.mem_append.mp hset with hold | hlast
    · exact h.set_lt set hold
    · rw [List.mem_singleton.mp hlast]
      exact hsize.1
  · have hsame : setMembers { pool with resourceSets := pool.resourceSets ++ [bits] } k
        = pool.setMembers k := by
      rw [setMembers, setMembers, List.getD_eq_getElem?_getD, List.getD_eq_getElem?_getD]
      rcases Nat.lt_trichotomy k pool.resourceSets.length with hk | rfl | hk
      · rw [List.getElem?_append_left hk]
      · rw [List.getElem?_concat_length, List.getElem?_eq_none le_rfl]
        exact hsize.2
      · rw [List.getElem?_eq_none (by rw [List.length_append]; exact hk),
          List.getElem?_eq_none hk.le]
    rw [hsame]
    simp [Adds]

theorem exists_set_of_addToSet {resource : Option SimpleResource} {status : Except PoolError Unit}
    (hrun : pool.addToSet k resource = some (status, pool')) :
    ∃ set, pool.resourceSets[k]? = some set := by
  obtain ⟨set, hget, -⟩ := Option.bind_eq_some_iff.mp hrun
  exact ⟨set, hget⟩

theorem addToSet_step_spec (h : pool.Wf) {resource : Option SimpleResource}
    (hgenuine : ∀ r, resource = some r → r.pool = pool.id → r ∈ pool.resources)
    (hnext : (addToSet k resource).next pool = some pool') :
    StepSpec pool (addToSet k resource) pool' := by
  obtain ⟨⟨status, last⟩, hrun, rfl⟩ := Option.map_eq_some_iff.mp hnext
  obtain ⟨set, hget⟩ := exists_set_of_addToSet hrun
  obtain ⟨status', sets, hrun', hwf, hsets⟩ := h.addToSet_spec hget resource hgenuine
  cases hrun'.symm.trans hrun
  refine ⟨hwf, rfl, fun i => by simp [Acquires, Releases], fun j i => ?_⟩
  rw [hsets j i]
  simp only [Adds, addToSet.injEq, reduceCtorEq, false_and, exists_false, or_false]
  grind

theorem addToSetByName_spec (h : pool.Wf) {name : String}
    (hnext : (addToSetByName k name).next pool = some pool') :
    StepSpec pool (addToSetByName k name) pool' := by
  have hstep := step_eq hnext
  -- The resource that the name has in the end is added, if there is one.
  have hfinish : ∀ mid sets, pool.Extends mid → pool' = { mid with resourceSets := sets } →
      Wf { mid with resourceSets := sets } →
      (∀ j i, i ∈ setMembers { mid with resourceSets := sets } j ↔
        (j = k ∧ ∃ r, mid.getResource name = some r ∧ r.index = i) ∨ i ∈ mid.setMembers j) →
      StepSpec pool (addToSetByName k name) pool' := by
    rintro mid sets hextends rfl hwf hsets
    refine ⟨hwf, hextends.width_eq, fun i => ?_, fun j i => ?_⟩
    · simp [hextends.vector_eq, Acquires, Releases]
    · rw [hsets j i, Adds, hstep, setMembers, setMembers, hextends.sets_eq]
      have hsame : getResource { mid with resourceSets := sets } name = mid.getResource name := rfl
      simp only [addToSetByName.injEq, reduceCtorEq, false_and, exists_false, false_or]
      grind
  obtain ⟨⟨status, last⟩, hrun, rfl⟩ := Option.map_eq_some_iff.mp hnext
  rw [SimpleResourcePool.addToSetByName] at hrun
  split at hrun
  · rename_i resource hfound
    obtain ⟨set, hget⟩ := exists_set_of_addToSet hrun
    have hmem := (h.getResource_eq_some.mp hfound).1
    obtain ⟨status', sets, hrun', hwf, hsets⟩ := h.addToSet_spec hget
      (some resource) (fun r hr _ => by cases hr; exact hmem)
    cases hrun'.symm.trans hrun
    refine hfinish pool sets h.extends_self rfl hwf fun j i => ?_
    rw [hsets, hfound]
    simp [h.pool_eq resource hmem]
  · rename_i hnone
    obtain ⟨⟨added, mid⟩, hadd, hrest⟩ := Option.bind_eq_some_iff.mp hrun
    obtain ⟨hextends, hok, herror⟩ := addResource_spec h hadd
    cases added with
    | error e =>
      cases hrest
      refine hfinish last last.resourceSets hextends rfl hextends.wf fun j i => ?_
      rw [herror e rfl, hnone]
      simp
    | ok _ =>
      obtain ⟨resource, hfound⟩ := hok rfl
      change mid.addToSet k (mid.getResource name) = _ at hrest
      rw [hfound] at hrest
      obtain ⟨set, hget⟩ := exists_set_of_addToSet hrest
      have hmem := (hextends.wf.getResource_eq_some.mp hfound).1
      obtain ⟨status', sets, hrun', hwf, hsets⟩ := hextends.wf.addToSet_spec hget
        (some resource) (fun r hr _ => by cases hr; exact hmem)
      cases hrun'.symm.trans hrest
      refine hfinish mid sets hextends rfl hwf fun j i => ?_
      rw [hsets, hfound]
      simp [hextends.wf.pool_eq resource hmem]

/-- **Step lemma.** -/
theorem step_spec (h : pool.Wf) (hdone : op.Done pool) : StepSpec pool op (op.step pool) := by
  obtain ⟨pool', hnext⟩ := Option.isSome_iff_exists.mp hdone.result
  rw [step_eq hnext]
  cases op with
  | addResource name =>
    obtain ⟨⟨status, last⟩, hrun, rfl⟩ := Option.map_eq_some_iff.mp hnext
    exact stepSpec_of_extends (addResource_spec h hrun).1 (.inl ⟨name, rfl⟩)
  | getOrAddResource name =>
    refine stepSpec_of_extends ?_ (.inr ⟨name, rfl⟩)
    obtain ⟨⟨found, last⟩, hrun, rfl⟩ := Option.map_eq_some_iff.mp hnext
    rw [SimpleResourcePool.getOrAddResource] at hrun
    split at hrun
    · cases hrun
      exact h.extends_self
    · obtain ⟨⟨result, mid⟩, hinternal, hpair⟩ := Option.map_eq_some_iff.mp hrun
      cases hpair
      exact (addResourceInternal_spec h hinternal).1
  | createResourceSet => exact createResourceSet_spec h hnext
  | addToSet k resource =>
    exact addToSet_step_spec h (fun r hr => hdone.genuine r (.inl ⟨k, by rw [hr]⟩)) hnext
  | addToSetByName k name => exact addToSetByName_spec h hnext
  | acquireSet k => exact acquireSet_spec h hnext
  | releaseSet k => exact releaseSet_spec h hnext
  | acquireResource resource =>
    exact acquireResource_spec h (hdone.genuine resource (.inr (.inl rfl))) hnext
  | releaseResource resource =>
    exact releaseResource_spec h (hdone.genuine resource (.inr (.inr rfl))) hnext

/-- **Results.** With a width that is not negative, no operation accesses a word outside an
    array. -/
theorem next_isSome (h : pool.Wf) (hwidth : pool.width.toNat ≤ 2 ^ 31 - 64)
    (hgenuine : op.Genuine pool) (hset : op.HasSet pool) : (op.next pool).isSome = true := by
  have hget : ∀ k, k < pool.resourceSets.length → ∃ set, pool.resourceSets[k]? = some set :=
    fun k hk => ⟨_, List.getElem?_eq_getElem hk⟩
  cases op with
  | addResource name =>
    obtain ⟨r, hrun⟩ := addResourceInternal_isSome h hwidth name
    rw [next, SimpleResourcePool.addResource, hrun]
    rfl
  | getOrAddResource name =>
    obtain ⟨r, hrun⟩ := addResourceInternal_isSome h hwidth name
    rw [next, SimpleResourcePool.getOrAddResource]
    split
    · rfl
    · rw [hrun]
      rfl
  | createResourceSet =>
    obtain ⟨bits, hresize, -⟩ := resize_width hwidth
    rw [next, SimpleResourcePool.createResourceSet, hresize]
    rfl
  | addToSet k resource =>
    obtain ⟨set, hk⟩ := hget k hset
    obtain ⟨status, sets, hrun, -⟩ := h.addToSet_spec hk resource
      fun r hr => hgenuine r (.inl ⟨k, by rw [hr]⟩)
    rw [next, hrun]
    rfl
  | addToSetByName k name =>
    rw [next, SimpleResourcePool.addToSetByName, Option.isSome_map]
    split
    · rename_i resource hfound
      obtain ⟨set, hk⟩ := hget k hset
      obtain ⟨status, sets, hrun, -⟩ := h.addToSet_spec hk (some resource)
        fun r hr _ => by cases hr; exact (h.getResource_eq_some.mp hfound).1
      rw [hrun]
      rfl
    · obtain ⟨⟨result, mid⟩, hinternal⟩ := addResourceInternal_isSome h hwidth name
      have hadd : pool.addResource name = some (result.map fun _ => (), mid) := by
        rw [SimpleResourcePool.addResource, hinternal]
        rfl
      obtain ⟨hextends, -, -⟩ := addResource_spec h hadd
      rw [hadd]
      cases result with
      | error e => rfl
      | ok resource =>
        obtain ⟨set, hk⟩ := hget k hset
        rw [← hextends.sets_eq] at hk
        obtain ⟨status, sets, hrun, -⟩ := hextends.wf.addToSet_spec hk
          (mid.getResource name)
          fun r hr _ => (hextends.wf.getResource_eq_some.mp hr).1
        show (mid.addToSet k (mid.getResource name)).isSome = true
        rw [hrun]
        rfl
  | acquireSet k =>
    obtain ⟨set, hk⟩ := hget k hset
    obtain ⟨v, hrun, -⟩ := h.acquire_spec (h.size_lt hk)
    rw [next, hk, Option.bind_some, hrun]
    rfl
  | releaseSet k =>
    obtain ⟨set, hk⟩ := hget k hset
    obtain ⟨v, hrun, -⟩ := h.release_spec set
    rw [next, hk, Option.bind_some, hrun]
    rfl
  | acquireResource resource =>
    rw [next]
    split
    · rename_i hpool
      obtain ⟨v, hrun, -⟩ := h.acquire_spec (h.bit resource
        (hgenuine resource (.inr (.inl rfl)) hpool)).2
      rw [hrun]
      rfl
    · rfl
  | releaseResource resource =>
    rw [next]
    split
    · obtain ⟨v, hrun, -⟩ := h.release_spec resource.resourceBit
      rw [hrun]
      rfl
    · rfl

theorem run_wf (h : pool.Wf) (hdone : Along step Done pool ops) :
    (run step pool ops).Wf ∧ (run step pool ops).width = pool.width := by
  refine run_invariant (fun last => last.Wf ∧ last.width = pool.width) ?_ ⟨h, rfl⟩ hdone
  rintro s op ⟨hwf, hwidth⟩ hop
  have hspec := step_spec hwf hop
  exact ⟨hspec.wf, hspec.width_eq.trans hwidth⟩

theorem along_wf (h : pool.Wf) (hdone : Along step Done pool ops) :
    Along step (fun s op => s.Wf ∧ op.Done s) pool ops :=
  along_of_along Wf (fun _ _ hwf hop => (step_spec hwf hop).wf)
    (fun _ _ hwf hop => ⟨hwf, hop⟩) h hdone

/-- **Reserved** is what was acquired and not released since. -/
theorem mem_vector_iff (h : pool.Wf) (hdone : Along step Done pool ops) {i : Nat}
    (hfree : i ∉ pool.resourceVector.members) :
    i ∈ (run step pool ops).resourceVector.members ↔
      Since step (Acquires i) (fun s op => ¬Releases i s op) pool ops :=
  iff_since_of_step (fun s => i ∈ s.resourceVector.members) hfree
    (fun _ _ hok => (step_spec hok.1 hok.2).vector i) (along_wf h hdone)

/-- **Members** of a set are the resources that were added to it. -/
theorem mem_setMembers_iff (h : pool.Wf) (hdone : Along step Done pool ops) {i : Nat}
    (hempty : i ∉ pool.setMembers k) :
    i ∈ (run step pool ops).setMembers k ↔ Since step (Adds k i) (fun _ _ => True) pool ops :=
  iff_since_of_step (fun s => i ∈ s.setMembers k) hempty
    (fun _ _ hok => by rw [and_true]; exact (step_spec hok.1 hok.2).sets k i) (along_wf h hdone)

end PoolOp

open SimpleResourcePool PoolOp

theorem create_wf {id : Nat} {name : String} {width : Int} {pool : SimpleResourcePool}
    (h : create id name width = some pool) :
    pool.Wf ∧ pool.resourceVector.members = ∅ ∧ ∀ k, pool.setMembers k = ∅ := by
  obtain ⟨bits, hresize, rfl⟩ := Option.map_eq_some_iff.mp h
  have hbits : bits.size < 2 ^ 25 ∧ bits.members = ∅ := size_of_resize_width hresize
  have hwidth := width_of_resize hresize
  refine ⟨⟨rfl, List.nodup_nil, ?_, ?_, ?_, Nat.zero_le _, ?_, hbits.1, ?_⟩, hbits.2, fun k => rfl⟩
  · intro i resource hget
    cases hget
  · intro resource hmem
    cases hmem
  · intro resource hmem
    cases hmem
  · exact hwidth.imp_right fun hneg => ⟨hneg, rfl⟩
  · intro set hmem
    cases hmem

/-- A pool of four resources, a run that groups two of them, and one that acquires these. -/
def fourWide : SimpleResourcePool := ⟨0, "pool", 4, ⟨[0]⟩, [], [], []⟩

def groupTwo : List PoolOp :=
  [.addResource "r0", .createResourceSet, .addToSetByName 0 "r1", .acquireSet 0]

end MpactSim.Generic
