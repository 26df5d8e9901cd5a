import MpactSim.Lib.Ordered
import MpactSim.Proto.InstructionEncoding

namespace MpactSim.Proto

open Lib

/-!
# Groups of proto encodings

The encodings of a group are listed by the values that their equality constraints give to a
field or a oneof, and the group is split by the one with the most values.

* `addEncoding`, `differentiator`, `subGroup` — the source;
* `Built`           — the groups that splitting leads to;
* `FieldInfo.Listed` — what is kept about the values of a field;
* `Built.listed`    — every group that is built keeps it.

A null pointer that is used makes a group undefined.
-/

variable {Field Oneof : Type}

/-! ### The source -/

/-- `FieldInfo`.  The entries of `value_map` stand in the order of insertion, each with the
    number of its encoding in the group; the multimap goes through them by increasing value. -/
structure FieldInfo (Field Oneof : Type) where
  field : Option Field
  oneof : Option Oneof
  ctx : FieldConstraintCtx Field
  valueMap : List (Int × Nat × ProtoInstructionEncoding Field Oneof) := []
  minValue : Int := 2 ^ 63 - 1
  maxValue : Int := -2 ^ 63
  uniqueValues : Nat := 0

/-- `ProtoEncodingGroup`: the encodings with the numbers under which they were added, and the
    map from the names of fields and oneofs. -/
structure ProtoEncodingGroup (Field Oneof : Type) where
  value : Int := 0
  added : Nat := 0
  encodingVec : List (Nat × ProtoInstructionEncoding Field Oneof) := []
  fieldMap : List (String × FieldInfo Field Oneof) := []
  otherFieldSet : List Field := []
  otherOneofSet : List Oneof := []

/-- What `AddEncoding` lists a constraint under: a field or a oneof, and the value. -/
structure Listing (Field Oneof : Type) where
  field : Option Field
  oneof : Option Oneof
  name : String
  value : Int

section Source

variable (pool : DescriptorPool Field Oneof)

/-- The value of an equality constraint; an error if it has none, undefined where a null pointer
    is used. -/
def listing (c : ProtoConstraint Field) : Option (Except String (Listing Field Oneof)) :=
  let name := pool.name c.fieldDescriptor
  if c.op = .kEq then
    c.expr.map fun e =>
      match e with
      | .int32 v => .ok ⟨some c.fieldDescriptor, none, name, v.toInt⟩
      | .int64 v => .ok ⟨some c.fieldDescriptor, none, name, v.toInt⟩
      | .uint32 v => .ok ⟨some c.fieldDescriptor, none, name, v.toNat⟩
      | .uint64 v =>
        if v.toNat > 2 ^ 63 - 1 then
          .error ("Expression value for field '" ++ name ++ "' overflows int64_t.")
        else .ok ⟨some c.fieldDescriptor, none, name, v.toNat⟩
      | _ => .error ("Illegal type in expression in constraint for field '" ++ name ++ "'.")
  else if c.op = .kHas then
    (pool.containingOneof c.fieldDescriptor).map fun o =>
      .ok ⟨none, some o, pool.oneofName o, pool.index c.fieldDescriptor⟩
  else some (.error ("Illegal constraint op for field '" ++ name ++ "' in equality constraints."))

/-- A new value of a field. -/
def FieldInfo.insert (info : FieldInfo Field Oneof) (value : Int)
    (entry : Nat × ProtoInstructionEncoding Field Oneof) : FieldInfo Field Oneof :=
  { info with
    uniqueValues := info.uniqueValues + if value ∈ info.valueMap.map (·.1) then 0 else 1
    minValue := min info.minValue value
    maxValue := max info.maxValue value
    valueMap := info.valueMap ++ [(value, entry)] }

namespace ProtoEncodingGroup

/-- The information about a field or oneof, which is new for a name that is not in the map. -/
def infoOf (g : ProtoEncodingGroup Field Oneof) (ctx : FieldConstraintCtx Field)
    (l : Listing Field Oneof) : FieldInfo Field Oneof :=
  (g.fieldMap.lookup l.name).getD ⟨l.field, l.oneof, ctx, [], 2 ^ 63 - 1, -2 ^ 63, 0⟩

/-- The loop over the equality constraints of `AddEncoding`. -/
def addListings (entry : Nat × ProtoInstructionEncoding Field Oneof) :
    List (ProtoConstraint Field) → ProtoEncodingGroup Field Oneof →
      Option (List String × ProtoEncodingGroup Field Oneof)
  | [], g => some ([], g)
  | c :: rest, g => do
    let ctx ← c.ctx
    match ← listing pool c with
    | .error e => some ([e], g)
    | .ok l =>
      let info := (g.infoOf ctx l).insert l.value entry
      addListings entry rest
        { g with fieldMap := (g.fieldMap.filter fun p => p.1 ≠ l.name) ++ [(l.name, info)] }

/-- `AddEncoding`, with the errors that it reports; an encoding with an error is left out. -/
def addEncoding (g : ProtoEncodingGroup Field Oneof) (enc : ProtoInstructionEncoding Field Oneof) :
    Option (List String × ProtoEncodingGroup Field Oneof) := do
  let entry := (g.added, enc)
  let (errors, g) ← addListings pool entry enc.equalConstraints { g with added := g.added + 1 }
  if errors ≠ [] then return (errors, g)
  let fields := enc.otherConstraints.map (·.fieldDescriptor)
  return ([], { g with
    encodingVec := g.encodingVec ++ [entry]
    otherOneofSet := g.otherOneofSet ++ fields.filterMap pool.containingOneof
    otherFieldSet := g.otherFieldSet ++ fields.filter fun f => pool.containingOneof f = none })

variable [DecidableEq Field] [DecidableEq Oneof]

/-- The choice of the best field, in the order of the names. -/
def bestField (g : ProtoEncodingGroup Field Oneof) : Option (FieldInfo Field Oneof) :=
  (g.fieldMap.insertionSort fun p q => p.1 ≤ q.1).foldl (fun best p =>
    if p.2.field.any (· ∈ g.otherFieldSet) || p.2.oneof.any (· ∈ g.otherOneofSet) then best
    else
      match best with
      | none => some p.2
      | some b => if p.2.uniqueValues > b.uniqueValues then some p.2 else some b) none

/-- `differentiator_`, which a leaf has not. -/
def differentiator (g : ProtoEncodingGroup Field Oneof) : Option (FieldInfo Field Oneof) :=
  if g.encodingVec.length = 1 then none
  else g.bestField.filter fun best => best.uniqueValues ≠ 1

/-- A copy of an encoding without the first constraint on the best field. -/
def withoutConstraint (best : FieldInfo Field Oneof) (enc : ProtoInstructionEncoding Field Oneof) :
    ProtoInstructionEncoding Field Oneof :=
  { enc with
    equalConstraints := enc.equalConstraints.eraseP fun c =>
      if c.op = .kEq then best.field = some c.fieldDescriptor
      else best.oneof.isSome && best.oneof = pool.containingOneof c.fieldDescriptor }

/-- The encodings that no value of the best field selects. -/
def unselected (g : ProtoEncodingGroup Field Oneof) (best : FieldInfo Field Oneof) :
    List (ProtoInstructionEncoding Field Oneof) :=
  (g.encodingVec.filter fun p => p.1 ∉ best.valueMap.map (·.2.1)).map (·.2)

/-- The addition of several encodings. -/
def addEncodings (g : ProtoEncodingGroup Field Oneof)
    (encodings : List (ProtoInstructionEncoding Field Oneof)) :
    Option (ProtoEncodingGroup Field Oneof) :=
  encodings.foldlM (fun g enc => (g.addEncoding pool enc).map (·.2)) g

/-- The sub group for a value of the best field: the encodings that it selects, and `others`. -/
def subGroup (best : FieldInfo Field Oneof) (value : Int)
    (others : List (ProtoInstructionEncoding Field Oneof)) :
    Option (ProtoEncodingGroup Field Oneof) :=
  let selected := (best.valueMap.filter fun p => p.1 = value).map (·.2.2)
  addEncodings pool { value := value } (selected.map (withoutConstraint pool best) ++ others)

end ProtoEncodingGroup

/-- The values of a field, each once and in increasing order. -/
def FieldInfo.values (info : FieldInfo Field Oneof) : List Int := keys (info.valueMap.map (·.1))

end Source

/-- The groups that come from the encodings of an instruction group.  The encodings that are not
    selected are in a hash set, whose order is not known. -/
inductive Built [DecidableEq Field] [DecidableEq Oneof] (pool : DescriptorPool Field Oneof)
    (encodings : List (ProtoInstructionEncoding Field Oneof)) :
    ProtoEncodingGroup Field Oneof → Prop
  | top {g} (h : ProtoEncodingGroup.addEncodings pool {} encodings = some g) :
      Built pool encodings g
  | sub {g best value others g'} (hg : Built pool encodings g)
      (hbest : g.differentiator = some best) (hvalue : value ∈ best.values)
      (hothers : others.Perm (g.unselected best))
      (hsub : ProtoEncodingGroup.subGroup pool best value others = some g') :
      Built pool encodings g'

/-! ### What is kept about the values of a field -/

/-- The numbers of a field are those of its values, which are in the range of `int64_t`. -/
structure FieldInfo.Listed (info : FieldInfo Field Oneof) : Prop where
  unique : info.uniqueValues = info.values.length
  range : ∀ v ∈ info.values, -2 ^ 63 ≤ v ∧ v ≤ 2 ^ 63 - 1
  min_le : ∀ v ∈ info.values, info.minValue ≤ v
  le_max : ∀ v ∈ info.values, v ≤ info.maxValue
  min_mem : info.minValue ∈ info.values ∨ info.values = [] ∧ info.minValue = 2 ^ 63 - 1
  max_mem : info.maxValue ∈ info.values ∨ info.values = [] ∧ info.maxValue = -2 ^ 63

namespace FieldInfo

variable {info : FieldInfo Field Oneof} {value : Int}
  {entry : Nat × ProtoInstructionEncoding Field Oneof}

theorem mem_values_insert {v : Int} :
    v ∈ (info.insert value entry).values ↔ v ∈ info.values ∨ v = value := by
  simp [values, insert]

theorem length_values_insert : (info.insert value entry).values.length =
    info.values.length + if value ∈ info.values then 0 else 1 := by
  have hcard : ∀ l : List Int, (keys l).length = l.toFinset.card := by
    intro l
    rw [keys, List.length_insertionSort, List.card_toFinset]
  simp only [values, insert, hcard, List.map_append, List.map_cons, List.map_nil,
    List.toFinset_append, mem_keys]
  have hunion : (info.valueMap.map (·.1)).toFinset ∪ [value].toFinset =
      Insert.insert value (info.valueMap.map (·.1)).toFinset := by
    ext v
    simp
  rw [hunion]
  split
  · rename_i h
    rw [Finset.insert_eq_of_mem (List.mem_toFinset.mpr h), Nat.add_zero]
  · rename_i h
    rw [Finset.card_insert_of_notMem fun h' => h (List.mem_toFinset.mp h')]

/-- A new value keeps the numbers right. -/
theorem Listed.insert (h : info.Listed) (hlow : -2 ^ 63 ≤ value) (hhigh : value ≤ 2 ^ 63 - 1) :
    (info.insert value entry).Listed := by
  have hmin : (info.insert value entry).minValue = min info.minValue value := rfl
  have hmax : (info.insert value entry).maxValue = max info.maxValue value := rfl
  refine ⟨?_, fun v hv => ?_, fun v hv => ?_, fun v hv => ?_, .inl ?_, .inl ?_⟩
  · rw [length_values_insert, ← h.unique]
    simp only [FieldInfo.insert, values, mem_keys]
  · rcases mem_values_insert.mp hv with hv | rfl
    · exact h.range v hv
    · exact ⟨hlow, hhigh⟩
  · rw [hmin]
    rcases mem_values_insert.mp hv with hv | rfl
    · exact (min_le_left _ _).trans (h.min_le v hv)
    · exact min_le_right _ _
  · rw [hmax]
    rcases mem_values_insert.mp hv with hv | rfl
    · exact (h.le_max v hv).trans (le_max_left _ _)
    · exact le_max_right _ _
  · rw [hmin, mem_values_insert]
    rcases h.min_mem with hmem | ⟨-, hnone⟩
    · rcases min_choice info.minValue value with heq | heq
      · rw [heq]
        exact .inl hmem
      · exact .inr heq
    · exact .inr (min_eq_right (hnone ▸ hhigh))
  · rw [hmax, mem_values_insert]
    rcases h.max_mem with hmem | ⟨-, hnone⟩
    · rcases max_choice info.maxValue value with heq | heq
      · rw [heq]
        exact .inl hmem
      · exact .inr heq
    · exact .inr (max_eq_right (hnone ▸ hlow))

end FieldInfo

variable {pool : DescriptorPool Field Oneof}

/-- The values that constraints are listed under are in the range of `int64_t`. -/
theorem listing_range {c : ProtoConstraint Field} {l : Listing Field Oneof}
    (h : listing pool c = some (.ok l)) :
    -2 ^ 63 ≤ l.value ∧ l.value ≤ 2 ^ 63 - 1 := by
  unfold listing at h
  dsimp only at h
  split at h
  · obtain ⟨e, -, he⟩ := Option.map_eq_some_iff.mp h
    cases e with
    | int32 v =>
      cases he
      have := v.le_toInt
      have := v.toInt_lt
      constructor <;> dsimp only <;> omega
    | int64 v =>
      cases he
      have := v.le_toInt
      have := v.toInt_lt
      constructor <;> dsimp only <;> omega
    | uint32 v =>
      cases he
      have := v.toNat_lt
      constructor <;> dsimp only <;> omega
    | uint64 v =>
      dsimp only at he
      split at he
      · cases he
      · cases he
        constructor <;> dsimp only <;> omega
    | _ => cases he
  split at h
  · obtain ⟨o, -, ho⟩ := Option.map_eq_some_iff.mp h
    cases ho
    have := pool.index_lt c.fieldDescriptor
    constructor <;> dsimp only <;> omega
  · cases h

namespace ProtoEncodingGroup

/-- All fields of a group are listed. -/
def Listed (g : ProtoEncodingGroup Field Oneof) : Prop := ∀ p ∈ g.fieldMap, p.2.Listed

variable {g g' : ProtoEncodingGroup Field Oneof}

theorem Listed.infoOf (h : g.Listed) (ctx : FieldConstraintCtx Field) (l : Listing Field Oneof) :
    (g.infoOf ctx l).Listed := by
  unfold ProtoEncodingGroup.infoOf
  cases hinfo : g.fieldMap.lookup l.name with
  | some info =>
    obtain ⟨before, after, hmap, -⟩ := List.lookup_eq_some_iff.mp hinfo
    exact h (l.name, info) (by rw [hmap]; simp)
  | none => exact ⟨rfl, by simp [FieldInfo.values, keys], by simp [FieldInfo.values, keys],
      by simp [FieldInfo.values, keys], .inr ⟨by simp [FieldInfo.values, keys], rfl⟩,
      .inr ⟨by simp [FieldInfo.values, keys], rfl⟩⟩

theorem Listed.addListings {entry : Nat × ProtoInstructionEncoding Field Oneof}
    {cs : List (ProtoConstraint Field)} {errors : List String} (hg : g.Listed)
    (h : addListings pool entry cs g = some (errors, g')) : g'.Listed := by
  induction cs generalizing g with
  | nil =>
    cases h
    exact hg
  | cons c rest ih =>
    rw [ProtoEncodingGroup.addListings] at h
    obtain ⟨ctx, -, h⟩ := Option.bind_eq_some_iff.mp h
    obtain ⟨l, hl, h⟩ := Option.bind_eq_some_iff.mp h
    cases l with
    | error e =>
      cases h
      exact hg
    | ok l =>
      refine ih ?_ h
      intro p hp
      rcases List.mem_append.mp hp with hp | hp
      · exact hg p (List.mem_of_mem_filter hp)
      · obtain rfl := List.mem_singleton.mp hp
        obtain ⟨hlow, hhigh⟩ := listing_range hl
        exact (hg.infoOf ctx l).insert hlow hhigh

theorem Listed.addEncoding {enc : ProtoInstructionEncoding Field Oneof} {errors : List String}
    (hg : g.Listed) (h : g.addEncoding pool enc = some (errors, g')) : g'.Listed := by
  rw [ProtoEncodingGroup.addEncoding] at h
  obtain ⟨⟨found, mid⟩, hmid, h⟩ := Option.bind_eq_some_iff.mp h
  have hlisted : mid.Listed := Listed.addListings (g := { g with added := g.added + 1 }) hg hmid
  dsimp only at h
  split at h
  · cases h
    exact hlisted
  · cases h
    exact hlisted

theorem Listed.addEncodings {encodings : List (ProtoInstructionEncoding Field Oneof)}
    (hg : g.Listed) (h : addEncodings pool g encodings = some g') : g'.Listed := by
  refine foldlM_invariant (fun g => g.Listed) (fun g enc _ g' hg hstep => ?_) h hg
  obtain ⟨⟨errors, mid⟩, hmid, rfl⟩ := Option.map_eq_some_iff.mp hstep
  exact hg.addEncoding hmid

variable [DecidableEq Field] [DecidableEq Oneof]

/-- The differentiator is one of the fields, and has several values. -/
theorem of_differentiator {best : FieldInfo Field Oneof} (h : g.differentiator = some best) :
    (∃ name, (name, best) ∈ g.fieldMap) ∧ best.uniqueValues ≠ 1 := by
  unfold differentiator at h
  split at h
  · cases h
  rw [Option.filter_eq_some_iff] at h
  refine ⟨?_, by simpa using h.2⟩
  -- The best field so far is one of those that have been looked at.
  have hloop : ∀ (l : List (String × FieldInfo Field Oneof))
      (start : Option (FieldInfo Field Oneof)),
      (∀ p ∈ l, p ∈ g.fieldMap) → (∀ b ∈ start, ∃ name, (name, b) ∈ g.fieldMap) →
      ∀ b ∈ l.foldl (fun best p =>
        if p.2.field.any (· ∈ g.otherFieldSet) || p.2.oneof.any (· ∈ g.otherOneofSet) then best
        else
          match best with
          | none => some p.2
          | some b => if p.2.uniqueValues > b.uniqueValues then some p.2 else some b) start,
        ∃ name, (name, b) ∈ g.fieldMap := by
    intro l
    induction l with
    | nil => exact fun start _ hstart => hstart
    | cons p l ih =>
      intro start hl hstart
      have hp : ∃ name, (name, p.2) ∈ g.fieldMap := ⟨p.1, hl p List.mem_cons_self⟩
      refine ih _ (fun q hq => hl q (List.mem_cons_of_mem p hq)) fun b hb => ?_
      dsimp only at hb
      split at hb
      · exact hstart b hb
      · cases start with
        | none =>
          cases hb
          exact hp
        | some b' =>
          dsimp only at hb
          split at hb
          · cases hb
            exact hp
          · exact hstart b hb
  exact hloop _ none (fun p hp => (List.mem_insertionSort _).mp hp) (by simp) best h.1

end ProtoEncodingGroup

variable [DecidableEq Field] [DecidableEq Oneof]

theorem Built.listed {encodings : List (ProtoInstructionEncoding Field Oneof)}
    {g : ProtoEncodingGroup Field Oneof} (h : Built pool encodings g) : g.Listed := by
  cases h with
  | top h =>
    refine ProtoEncodingGroup.Listed.addEncodings (fun p hp => ?_) h
    cases hp
  | sub _ _ _ _ h =>
    refine ProtoEncodingGroup.Listed.addEncodings (fun p hp => ?_) h
    cases hp

end MpactSim.Proto
