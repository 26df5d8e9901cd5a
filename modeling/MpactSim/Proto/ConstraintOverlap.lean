import Mathlib.Data.String.Basic
import MpactSim.Lib.Lockstep
import MpactSim.Proto.Messages

namespace MpactSim.Proto

open Lib

/-!
# Overlap of the constraints of two encodings

The constraints of an encoding are turned into a value set for each field, sorted by the full
names of the fields.  Two encodings are compared by walking their lists together.

* `ofConstraint`, `doConstraintsOverlap` — the source;
* `satisfiable_iff_slots` — satisfiability looks at the fields outside oneofs and the oneofs one
  by one;
* `verdict`               — what the value sets of one field decide;
* `overlap_right_iff`     — for which lists the answer is right.
-/

variable {Field Oneof : Type}

/-! ### The source -/

/-- `MinValueExpr`. -/
def minValueExpr (e : ProtoValue) : Option ProtoValue :=
  match e.index with
  | .kInt32 => some (.int32 Int32.minValue)
  | .kInt64 => some (.int64 Int64.minValue)
  | .kBool => some (.bool false)
  | .kUint32 => some (.uint32 0)
  | .kUint64 => some (.uint64 0)
  | .kFloat => some (.float ⟨0xff800000#32, by decide⟩)
  | .kDouble => some (.double ⟨0xfff0000000000000#64, by decide⟩)
  | .kString => none

/-- `MaxValueExpr`. -/
def maxValueExpr (e : ProtoValue) : Option ProtoValue :=
  match e.index with
  | .kInt32 => some (.int32 Int32.maxValue)
  | .kInt64 => some (.int64 Int64.maxValue)
  | .kBool => some (.bool true)
  | .kUint32 => some (.uint32 4294967295)
  | .kUint64 => some (.uint64 18446744073709551615)
  | .kFloat => some (.float ⟨0x7f800000#32, by decide⟩)
  | .kDouble => some (.double ⟨0x7ff0000000000000#64, by decide⟩)
  | .kString => none

/-- The subranges of a comparison with the value of an expression. -/
def comparisonSubranges (op : ConstraintType) (e : ProtoValue) : List SubRange :=
  match op with
  | .kEq => [⟨some e, true, some e, true⟩]
  | .kNe => [⟨minValueExpr e, true, some e, false⟩, ⟨some e, false, maxValueExpr e, true⟩]
  | .kLt => [⟨minValueExpr e, true, some e, false⟩]
  | .kLe => [⟨minValueExpr e, true, some e, true⟩]
  | .kGt => [⟨some e, false, maxValueExpr e, true⟩]
  | .kGe => [⟨some e, true, maxValueExpr e, true⟩]
  | .kHas => []

namespace DescriptorPool

variable (pool : DescriptorPool Field Oneof)

/-- The place of a field among the members of its oneof, `-1` if it is none of them. -/
def oneofPlace (f : Field) (o : Oneof) : Int32 :=
  match (pool.field o).findIdx? fun g => pool.name g = pool.name f with
  | some i => Int32.ofNat i
  | none => -1

/-- The constructor of `ProtoConstraintValueSet` from a constraint; undefined for a comparison
    without an expression and for a field that is in no oneof. -/
def ofConstraint (c : ProtoConstraint Field) : Option ProtoConstraintValueSet :=
  if c.op = .kHas then
    (pool.containingOneof c.fieldDescriptor).map fun o =>
      let e := .int32 (pool.oneofPlace c.fieldDescriptor o)
      ⟨[⟨some e, true, some e, true⟩]⟩
  else c.expr.map fun e => ⟨comparisonSubranges c.op e⟩

/-- `DoConstraintsOverlap` of the value sets of two encodings, each with its field descriptor;
    undefined where an intersection is. -/
def doConstraintsOverlap :
    List (Field × ProtoConstraintValueSet) → List (Field × ProtoConstraintValueSet) → Option Bool
  | (f, a) :: lhs, (g, b) :: rhs =>
    if pool.fullName f ≠ pool.fullName g then some false
    else
      match a.intersectWith b with
      | none => none
      | some (.error _, _) => some true
      | some (.ok (), s) =>
        if s.subranges = [] then some false else doConstraintsOverlap lhs rhs
  | [], [] => some true
  | _ :: _, [] | [], _ :: _ => some false

end DescriptorPool

/-- Constraints of an encoding as they are compared: sorted by the full names of their fields,
    one for a field, each with a value set. -/
structure ConstraintList (pool : DescriptorPool Field Oneof) where
  constraints : List (ProtoConstraint Field)
  sorted : constraints.Pairwise fun c d =>
    pool.fullName c.fieldDescriptor < pool.fullName d.fieldDescriptor
  described : ∀ c ∈ constraints, (pool.ofConstraint c).isSome

namespace ConstraintList

variable {pool : DescriptorPool Field Oneof}

/-- The value sets of the constraints. -/
def sets (l : ConstraintList pool) : List (Field × ProtoConstraintValueSet) :=
  l.constraints.map fun c => (c.fieldDescriptor, (pool.ofConstraint c).getD ⟨[]⟩)

/-- The constraints under the full names of their fields. -/
def named (l : ConstraintList pool) : List (String × ProtoConstraint Field) :=
  l.constraints.map fun c => (pool.fullName c.fieldDescriptor, c)

end ConstraintList

/-- The constraint on the field of a name. -/
def DescriptorPool.constraintOn (pool : DescriptorPool Field Oneof)
    (cs : List (ProtoConstraint Field)) (name : String) : Option (ProtoConstraint Field) :=
  cs.find? fun c => pool.fullName c.fieldDescriptor = name

/-! ### The specification -/

section Specification

variable {pool : DescriptorPool Field Oneof}

/-- Some message satisfies all of the constraints. -/
def Satisfiable (pool : DescriptorPool Field Oneof) (cs : List (ProtoConstraint Field)) : Prop :=
  ∃ m : Message pool, ∀ c ∈ cs, c.Holds m

/-- The answer is there, and says whether some message satisfies the constraints of both. -/
def OverlapRight (lhs rhs : ConstraintList pool) : Prop :=
  ∃ b, pool.doConstraintsOverlap lhs.sets rhs.sets = some b ∧
    (b = true ↔ Satisfiable pool (lhs.constraints ++ rhs.constraints))

/-- A field that is in no oneof, or a oneof: the parts of a message that are independent. -/
def DescriptorPool.slot (pool : DescriptorPool Field Oneof) (f : Field) : Field ⊕ Oneof :=
  match pool.containingOneof f with
  | none => .inl f
  | some o => .inr o

/-- On every field outside oneofs and on every oneof the constraints can be satisfied. -/
def Compatible (pool : DescriptorPool Field Oneof) (cs : List (ProtoConstraint Field)) : Prop :=
  ∀ s, ∃ m : Message pool, ∀ c ∈ cs, pool.slot c.fieldDescriptor = s → c.Holds m

theorem holds_congr {m m' : Message pool} {c : ProtoConstraint Field}
    (h : m.field c.fieldDescriptor = m'.field c.fieldDescriptor) : c.Holds m ↔ c.Holds m' := by
  unfold ProtoConstraint.Holds Message.Has Message.get
  rw [h]

theorem satisfiable_iff_slots (cs : List (ProtoConstraint Field)) :
    Satisfiable pool cs ↔ Compatible pool cs := by
  constructor
  · rintro ⟨m, hm⟩ s
    exact ⟨m, fun c hc _ => hm c hc⟩
  · intro h
    choose m hm using h
    -- Every part is taken from the message for it.
    let whole : Message pool :=
      { field := fun f => (m (pool.slot f)).field f
        admitted := fun f v => (m (pool.slot f)).admitted f v
        oneof_unique := by
          intro f g o hf hg hf' hg'
          have hslot : pool.slot f = pool.slot g := by simp only [DescriptorPool.slot, hf, hg]
          rw [hslot] at hf'
          exact (m (pool.slot g)).oneof_unique f g o hf hg hf' hg' }
    refine ⟨whole, fun c hc => ?_⟩
    have hsame : whole.field c.fieldDescriptor =
        (m (pool.slot c.fieldDescriptor)).field c.fieldDescriptor := rfl
    exact (holds_congr hsame).mpr (hm _ c hc rfl)

/-- The type of the values that a constraint speaks of; a member of a oneof is told by its
    place. -/
def ProtoConstraint.type (c : ProtoConstraint Field) : ProtoValueIndex :=
  if c.op = .kHas then .kInt32 else (c.expr.map ProtoValue.index).getD .kInt32

/-- The subranges of a constraint. -/
def DescriptorPool.ranges (pool : DescriptorPool Field Oneof) (c : ProtoConstraint Field) :
    List SubRange :=
  ((pool.ofConstraint c).getD ⟨[]⟩).subranges

/-- Neither range ends before the other starts, and if the later minimum is the earlier maximum,
    that maximum is included, and the minimum of `L`, whichever is the later one. -/
def Touch (L R : SubRange) : Prop :=
  ∃ a ∈ L.min, ∃ b ∈ L.max, ∃ c ∈ R.min, ∃ d ∈ R.max, a.rank ≤ d.rank ∧ c.rank ≤ b.rank ∧
    (max a.rank c.rank = min b.rank d.rank → L.minIncluded = true ∧
      (b.rank ≤ d.rank → L.maxIncluded = true) ∧ (d.rank ≤ b.rank → R.maxIncluded = true))

/-- Only one of two encodings constrains the field, or both do with values of one type other than
    strings, and none of their ranges touch. -/
def Split (pool : DescriptorPool Field Oneof) (a b : Option (ProtoConstraint Field)) : Prop :=
  match a, b with
  | none, none => False
  | some c, some d => c.type = d.type ∧ c.type ≠ .kString ∧
      ∀ L ∈ pool.ranges c, ∀ R ∈ pool.ranges d, ¬ Touch L R
  | some _, none | none, some _ => True

/-- Both encodings constrain the field, with values of different types, or with strings. -/
def Stuck (a b : Option (ProtoConstraint Field)) : Prop :=
  ∃ c ∈ a, ∃ d ∈ b, c.type ≠ d.type ∨
    (c.type = .kString ∧ d.type = .kString ∧ c.op ≠ .kLt ∧ c.op ≠ .kLe)

/-- Both encodings constrain the field with strings, and the range of the first one has no
    minimum. -/
def Undefined (a b : Option (ProtoConstraint Field)) : Prop :=
  ∃ c ∈ a, ∃ d ∈ b, c.type = .kString ∧ d.type = .kString ∧ (c.op = .kLt ∨ c.op = .kLe)

/-- In the order of the full names, a field where the two are split comes before any where they
    are stuck. -/
def Parted (pool : DescriptorPool Field Oneof) (lhs rhs : List (ProtoConstraint Field)) : Prop :=
  ∃ name, Split pool (pool.constraintOn lhs name) (pool.constraintOn rhs name) ∧
    ∀ before < name,
      ¬ Stuck (pool.constraintOn lhs before) (pool.constraintOn rhs before) ∧
      ¬ Undefined (pool.constraintOn lhs before) (pool.constraintOn rhs before)

/-- There is no field where the two are split, but after one where they are stuck. -/
def Joined (pool : DescriptorPool Field Oneof) (lhs rhs : List (ProtoConstraint Field)) : Prop :=
  ∀ name, Split pool (pool.constraintOn lhs name) (pool.constraintOn rhs name) ∨
      Undefined (pool.constraintOn lhs name) (pool.constraintOn rhs name) →
    ∃ before < name, Stuck (pool.constraintOn lhs before) (pool.constraintOn rhs before)

end Specification

/-! ### The value sets of two constraints -/

variable {pool : DescriptorPool Field Oneof}

theorem minValueExpr_index {e : ProtoValue} (h : e.index ≠ .kString) :
    ∃ v, minValueExpr e = some v ∧ v.index = e.index := by
  cases e with
  | string s => exact absurd rfl h
  | _ => exact ⟨_, rfl, rfl⟩

theorem maxValueExpr_index {e : ProtoValue} (h : e.index ≠ .kString) :
    ∃ v, maxValueExpr e = some v ∧ v.index = e.index := by
  cases e with
  | string s => exact absurd rfl h
  | _ => exact ⟨_, rfl, rfl⟩

theorem comparisonSubranges_over {op : ConstraintType} {e : ProtoValue} (h : e.index ≠ .kString)
    {r : SubRange} (hr : r ∈ comparisonSubranges op e) : r.Over e.index := by
  obtain ⟨min, hmin, hmint⟩ := minValueExpr_index h
  obtain ⟨max, hmax, hmaxt⟩ := maxValueExpr_index h
  cases op <;> simp only [comparisonSubranges, List.mem_cons, List.not_mem_nil, or_false] at hr
  case kNe =>
    rcases hr with rfl | rfl
    · exact ⟨⟨min, hmin, hmint⟩, e, rfl, rfl⟩
    · exact ⟨⟨e, rfl, rfl⟩, max, hmax, hmaxt⟩
  case kEq => subst hr; exact ⟨⟨e, rfl, rfl⟩, e, rfl, rfl⟩
  case kLt => subst hr; exact ⟨⟨min, hmin, hmint⟩, e, rfl, rfl⟩
  case kLe => subst hr; exact ⟨⟨min, hmin, hmint⟩, e, rfl, rfl⟩
  case kGt => subst hr; exact ⟨⟨e, rfl, rfl⟩, max, hmax, hmaxt⟩
  case kGe => subst hr; exact ⟨⟨e, rfl, rfl⟩, max, hmax, hmaxt⟩

/-- A constraint with a value set is that of a member of a oneof, or a comparison with an
    expression. -/
theorem ofConstraint_cases {c : ProtoConstraint Field} (h : (pool.ofConstraint c).isSome) :
    ∃ op e, op ≠ .kHas ∧ pool.ranges c = comparisonSubranges op e ∧ c.type = e.index ∧
      (e.index = .kString → op = c.op) ∧
      (pool.ofConstraint c).getD ⟨[]⟩ = ⟨comparisonSubranges op e⟩ := by
  unfold DescriptorPool.ranges ProtoConstraint.type
  unfold DescriptorPool.ofConstraint at h ⊢
  split at h
  · rename_i hop
    rw [Option.isSome_map] at h
    obtain ⟨o, ho⟩ := Option.isSome_iff_exists.mp h
    refine ⟨.kEq, .int32 (pool.oneofPlace c.fieldDescriptor o), by simp, ?_, ?_, ?_, ?_⟩
    · simp only [hop, if_true, ho, Option.map_some, Option.getD_some, comparisonSubranges]
    · rw [if_pos hop]
      rfl
    · exact fun h => by cases h
    · simp only [hop, if_true, ho, Option.map_some, Option.getD_some, comparisonSubranges]
  · rename_i hop
    rw [Option.isSome_map] at h
    obtain ⟨e, he⟩ := Option.isSome_iff_exists.mp h
    refine ⟨c.op, e, hop, ?_, ?_, fun _ => rfl, ?_⟩
    · simp only [if_neg hop, he, Option.map_some, Option.getD_some]
    · simp only [if_neg hop, he, Option.map_some, Option.getD_some]
    · simp only [if_neg hop, he, Option.map_some, Option.getD_some]

theorem atMost_self (i : Bool) (a : Int) : AtMost i a a ↔ i = true := by
  unfold AtMost
  cases i <;> simp

theorem atMost_of_lt {a x : Int} (h : x < a) (i : Bool) : AtMost i a x := by
  unfold AtMost
  split
  · exact h.le
  · exact h

theorem intersectSubrange_touch {t : ProtoValueIndex} {L R : SubRange} (hL : L.Over t)
    (hR : R.Over t) :
    ∃ s, intersectSubrange t L R = some s ∧ ((s.min ≠ none ∧ s.max ≠ none) ↔ Touch L R) := by
  obtain ⟨a, b, hLmin, hLmax, ha, hb⟩ := hL.exists_ends
  obtain ⟨c, d, hRmin, hRmax, hc, hd⟩ := hR.exists_ends
  have htouch : Touch L R ↔ a.rank ≤ d.rank ∧ c.rank ≤ b.rank ∧
      (max a.rank c.rank = min b.rank d.rank → L.minIncluded = true ∧
        (b.rank ≤ d.rank → L.maxIncluded = true) ∧ (d.rank ≤ b.rank → R.maxIncluded = true)) := by
    simp only [Touch, hLmin, hLmax, hRmin, hRmax, Option.mem_def, Option.some.injEq,
      exists_eq_left']
  rw [htouch]
  obtain ⟨m, mi, hm, -, hmrank, -, -⟩ := laterMin_spec hLmin hRmin
  obtain ⟨M, Mi, hM, -, hMrank, hmax⟩ := earlierMax_spec hLmax hRmax
  -- The new maximum is included if both ranges include it.
  have hMi : Mi = true ↔ (b.rank ≤ d.rank → L.maxIncluded = true) ∧
      (d.rank ≤ b.rank → R.maxIncluded = true) := by
    have hat := hmax M.rank
    rw [atMost_self, hMrank] at hat
    rcases lt_trichotomy b.rank d.rank with h | h | h
    · rw [min_eq_left h.le, atMost_self, and_iff_left (atMost_of_lt h _)] at hat
      simp [← hat, h.le, not_le.mpr h]
    · rw [h, min_self, atMost_self, atMost_self] at hat
      simp [← hat, h]
    · rw [min_eq_right h.le, atMost_self, and_iff_right (atMost_of_lt h _)] at hat
      simp [← hat, h.le, not_le.mpr h]
  simp only [intersectSubrange, hLmin, hLmax, hRmin, hRmax, endValue, ProtoValue.getValueAs, ha,
    hb, hc, hd, reduceCtorEq, false_and, if_false, if_true]
  by_cases hapart : a.rank > d.rank ∨ b.rank < c.rank
  · refine ⟨.null, if_pos hapart, iff_of_false (fun h => h.1 rfl) ?_⟩
    omega
  rw [if_neg hapart, hm, hM]
  simp only [Option.bind_eq_bind, Option.bind_some]
  by_cases hnull : m.rank = M.rank ∧ ¬ (Mi && L.minIncluded) = true
  · refine ⟨.null, if_pos hnull, iff_of_false (fun h => h.1 rfl) ?_⟩
    rintro ⟨-, -, h⟩
    obtain ⟨hincluded, hmaxIncluded⟩ := h (by rw [← hmrank, ← hMrank, hnull.1])
    rw [hMi.mpr hmaxIncluded, hincluded] at hnull
    exact hnull.2 rfl
  · refine ⟨_, if_neg hnull, iff_of_true ⟨by simp, by simp⟩ ⟨by omega, by omega, fun h => ?_⟩⟩
    rw [← hmrank, ← hMrank] at h
    have hboth : (Mi && L.minIncluded) = true := not_not.mp fun hno => hnull ⟨h, hno⟩
    rw [Bool.and_eq_true] at hboth
    exact ⟨hboth.2, hMi.mp hboth.1⟩

section Comparison

variable {op op' : ConstraintType} (h : op ≠ .kHas) (h' : op' ≠ .kHas) {e e' : ProtoValue}
include h

theorem comparisonSubranges_ne_nil : comparisonSubranges op e ≠ [] := by
  cases op <;> simp [comparisonSubranges] at h ⊢

theorem firstType_comparison :
    ProtoConstraintValueSet.firstType (comparisonSubranges op e) = some e.index := by
  cases op <;> cases e <;> first | rfl | exact absurd rfl h

theorem lastMin_comparison :
    ∃ last, (comparisonSubranges op e).getLast? = some last ∧
      last.min = if op = .kLt ∨ op = .kLe then minValueExpr e else some e := by
  cases op <;> first | exact ⟨_, rfl, rfl⟩ | exact absurd rfl h

include h'

theorem intersectWith_types (htype : e.index ≠ e'.index) :
    ∃ m s, (⟨comparisonSubranges op e⟩ : ProtoConstraintValueSet).intersectWith
      ⟨comparisonSubranges op' e'⟩ = some (.error m, s) := by
  refine ⟨"ProtoConstraintValueSet::IntersectWith: type error", ⟨comparisonSubranges op e⟩, ?_⟩
  rw [ProtoConstraintValueSet.intersectWith,
    if_neg (not_or.mpr ⟨comparisonSubranges_ne_nil h, comparisonSubranges_ne_nil h'⟩),
    firstType_comparison h, firstType_comparison h']
  exact if_pos htype

theorem intersectWith_eq_intersect (htype : e.index = e'.index) :
    (⟨comparisonSubranges op e⟩ : ProtoConstraintValueSet).intersectWith
        ⟨comparisonSubranges op' e'⟩ =
      ProtoConstraintValueSet.intersectWith.intersect ⟨comparisonSubranges op e⟩
        ⟨comparisonSubranges op' e'⟩ := by
  rw [ProtoConstraintValueSet.intersectWith,
    if_neg (not_or.mpr ⟨comparisonSubranges_ne_nil h, comparisonSubranges_ne_nil h'⟩),
    firstType_comparison h, firstType_comparison h']
  exact if_neg (not_not.mpr htype)

theorem intersectWith_strings (htype : e.index = e'.index) (hstring : e.index = .kString) :
    if op = .kLt ∨ op = .kLe then
      (⟨comparisonSubranges op e⟩ : ProtoConstraintValueSet).intersectWith
        ⟨comparisonSubranges op' e'⟩ = none
    else ∃ m s, (⟨comparisonSubranges op e⟩ : ProtoConstraintValueSet).intersectWith
      ⟨comparisonSubranges op' e'⟩ = some (.error m, s) := by
  obtain ⟨last, hlast, hmin⟩ := lastMin_comparison h (e := e)
  rw [intersectWith_eq_intersect h h' htype, ProtoConstraintValueSet.intersectWith.intersect, hlast]
  have hnone : minValueExpr e = none := by
    unfold minValueExpr
    rw [hstring]
  split
  · rename_i hop
    rw [if_pos hop, hnone] at hmin
    rw [Option.bind_eq_bind, Option.bind_some, hmin]
    rfl
  · rename_i hop
    rw [if_neg hop] at hmin
    refine ⟨"Unsupported type in range", ⟨comparisonSubranges op e⟩, ?_⟩
    rw [Option.bind_eq_bind, Option.bind_some, hmin, Option.bind_eq_bind, Option.bind_some,
      if_pos hstring]
    rfl

theorem intersectWith_touch (htype : e.index = e'.index) (hstring : e.index ≠ .kString) :
    ∃ s, (⟨comparisonSubranges op e⟩ : ProtoConstraintValueSet).intersectWith
        ⟨comparisonSubranges op' e'⟩ = some (.ok (), s) ∧
      (s.subranges = [] ↔ ∀ L ∈ comparisonSubranges op e, ∀ R ∈ comparisonSubranges op' e',
        ¬ Touch L R) := by
  obtain ⟨last, hlast, hmin⟩ := lastMin_comparison h (e := e)
  obtain ⟨min, hlastMin, hindex⟩ : ∃ min, last.min = some min ∧ min.index = e.index := by
    rw [hmin]
    split
    · exact minValueExpr_index hstring
    · exact ⟨e, rfl, rfl⟩
  obtain ⟨all, hall, hevery, hsource⟩ := exists_mapM_eq_some
    (l := comparisonSubranges op e ×ˢ comparisonSubranges op' e')
    (f := fun p => intersectSubrange e.index p.1 p.2)
    (P := fun p s => (s.min ≠ none ∧ s.max ≠ none) ↔ Touch p.1 p.2) fun p hp => by
    obtain ⟨hL, hR⟩ := List.mem_product.mp hp
    refine intersectSubrange_touch (comparisonSubranges_over hstring hL) ?_
    rw [htype] at hstring ⊢
    exact comparisonSubranges_over hstring hR
  refine ⟨⟨all.filter fun s => s.min ≠ none ∧ s.max ≠ none⟩, ?_, ?_⟩
  · rw [intersectWith_eq_intersect h h' htype, ProtoConstraintValueSet.intersectWith.intersect,
      hlast]
    simp only [Option.bind_eq_bind, Option.bind_some, hlastMin, hindex, if_neg hstring,
      intersectSubranges, hall]
    rfl
  · rw [List.filter_eq_nil_iff]
    simp only [decide_eq_true_eq]
    constructor
    · intro hno L hL R hR htouch
      obtain ⟨s, hs, hiff⟩ := hevery (L, R) (List.mem_product.mpr ⟨hL, hR⟩)
      exact hno s hs (hiff.mpr htouch)
    · intro hno s hs hends
      obtain ⟨⟨L, R⟩, hp, hiff⟩ := hsource s hs
      obtain ⟨hL, hR⟩ := List.mem_product.mp hp
      exact hno L hL R hR (hiff.mp hends)

end Comparison

/-! ### The walk -/

variable (pool) in
/-- What the value sets of two constraints decide; `some none` is a null pointer. -/
def judge (c d : ProtoConstraint Field) : Option (Option Bool) :=
  match ((pool.ofConstraint c).getD ⟨[]⟩).intersectWith ((pool.ofConstraint d).getD ⟨[]⟩) with
  | none => some none
  | some (.error _, _) => some (some true)
  | some (.ok (), s) => if s.subranges = [] then some (some false) else none

theorem doConstraintsOverlap_eq_lockstep (lhs rhs : List (ProtoConstraint Field)) :
    pool.doConstraintsOverlap
        (lhs.map fun c => (c.fieldDescriptor, (pool.ofConstraint c).getD ⟨[]⟩))
        (rhs.map fun c => (c.fieldDescriptor, (pool.ofConstraint c).getD ⟨[]⟩)) =
      lockstep (judge pool) (some false) (some true)
        (lhs.map fun c => (pool.fullName c.fieldDescriptor, c))
        (rhs.map fun c => (pool.fullName c.fieldDescriptor, c)) := by
  induction lhs generalizing rhs with
  | nil => cases rhs <;> rfl
  | cons c lhs ih =>
    cases rhs with
    | nil => rfl
    | cons d rhs =>
      simp only [List.map_cons, DescriptorPool.doConstraintsOverlap, lockstep, judge, ne_eq,
        ite_not, ih]
      refine if_congr Iff.rfl ?_ rfl
      rcases ((pool.ofConstraint c).getD ⟨[]⟩).intersectWith
        ((pool.ofConstraint d).getD ⟨[]⟩) with - | ⟨e | u, s⟩
      · rfl
      · rfl
      · by_cases hs : s.subranges = []
        · simp only [if_pos hs, Option.getD_some]
        · simp only [if_neg hs, Option.getD_none]

/-- What is decided on two constraints with value sets, in the words of the condition. -/
theorem judge_iff {c d : ProtoConstraint Field} (hc : (pool.ofConstraint c).isSome)
    (hd : (pool.ofConstraint d).isSome) :
    (Split pool (some c) (some d) ↔ judge pool c d = some (some false)) ∧
    (Stuck (some c) (some d) ↔ judge pool c d = some (some true)) ∧
    (Undefined (some c) (some d) ↔ judge pool c d = some none) := by
  obtain ⟨op, e, hop, hranges, htype, hsame, hset⟩ := ofConstraint_cases hc
  obtain ⟨op', e', hop', hranges', htype', -, hset'⟩ := ofConstraint_cases hd
  simp only [Split, Stuck, Undefined, judge, hset, hset', hranges, hranges', htype, htype',
    Option.mem_def, Option.some.injEq, exists_eq_left']
  by_cases htypes : e.index = e'.index
  · by_cases hstring : e.index = .kString
    · have hcases := intersectWith_strings hop hop' htypes hstring
      have hstring' : e'.index = .kString := htypes ▸ hstring
      rw [← hsame hstring]
      split at hcases
      · -- The minimum of the last range is a null pointer.
        rename_i horder
        rw [hcases]
        refine ⟨iff_of_false (fun hsplit => hsplit.2.1 hstring) (by simp), iff_of_false ?_ (by simp),
          iff_of_true ⟨hstring, hstring', horder⟩ rfl⟩
        rintro (hne | ⟨-, -, hlt, hle⟩)
        · exact hne htypes
        · exact horder.elim hlt hle
      · rename_i horder
        obtain ⟨m, s, hm⟩ := hcases
        rw [hm]
        exact ⟨iff_of_false (fun hsplit => hsplit.2.1 hstring) (by simp),
          iff_of_true (.inr ⟨hstring, hstring', not_or.mp horder⟩) rfl,
          iff_of_false (fun hundefined => horder hundefined.2.2) (by simp)⟩
    · obtain ⟨s, hs, hiff⟩ := intersectWith_touch hop hop' htypes hstring
      have hstuck : ¬ (e.index ≠ e'.index ∨
          (e.index = .kString ∧ e'.index = .kString ∧ c.op ≠ .kLt ∧ c.op ≠ .kLe)) := by
        rintro (hne | ⟨hs, -⟩)
        · exact hne htypes
        · exact hstring hs
      rw [hs, ← hiff]
      by_cases hempty : s.subranges = []
      · simp only [hempty, if_true]
        exact ⟨iff_of_true ⟨htypes, hstring, trivial⟩ trivial, iff_of_false hstuck (by simp),
          iff_of_false (fun hundefined => hstring hundefined.1) (by simp)⟩
      · simp only [hempty, if_false]
        exact ⟨iff_of_false (fun hsplit => hsplit.2.2) (by simp), iff_of_false hstuck (by simp),
          iff_of_false (fun hundefined => hstring hundefined.1) (by simp)⟩
  · obtain ⟨m, s, hm⟩ := intersectWith_types hop hop' htypes
    rw [hm]
    exact ⟨iff_of_false (fun hsplit => htypes hsplit.1) (by simp), iff_of_true (.inl htypes) rfl,
      iff_of_false (fun hundefined => htypes (hundefined.1.trans hundefined.2.1.symm)) (by simp)⟩

theorem ConstraintList.lookup_named (l : ConstraintList pool) (name : String) :
    l.named.lookup name = pool.constraintOn l.constraints name := by
  unfold named DescriptorPool.constraintOn
  induction l.constraints with
  | nil => rfl
  | cons c cs ih =>
    rw [List.map_cons, List.lookup_cons, ih]
    by_cases h : pool.fullName c.fieldDescriptor = name
    · rw [List.find?_cons_of_pos (by simpa using h), beq_iff_eq.mpr h.symm]
    · rw [List.find?_cons_of_neg (by simpa using h), beq_eq_false_iff_ne.mpr (Ne.symm h)]

theorem decision_judge (lhs rhs : ConstraintList pool) (name : String) :
    let c := pool.constraintOn lhs.constraints name
    let d := pool.constraintOn rhs.constraints name
    (Split pool c d ↔
      decision (judge pool) (some false) lhs.named rhs.named name = some (some false)) ∧
    (Stuck c d ↔
      decision (judge pool) (some false) lhs.named rhs.named name = some (some true)) ∧
    (Undefined c d ↔ decision (judge pool) (some false) lhs.named rhs.named name = some none) := by
  have hdescribed : ∀ l : ConstraintList pool, ∀ c, pool.constraintOn l.constraints name = some c →
      (pool.ofConstraint c).isSome :=
    fun l c hc => l.described c (List.mem_of_find?_eq_some hc)
  unfold decision
  rw [lhs.lookup_named, rhs.lookup_named]
  cases hl : pool.constraintOn lhs.constraints name with
  | none =>
    cases hr : pool.constraintOn rhs.constraints name with
    | none => simp [Split, Stuck, Undefined]
    | some d => simp [Split, Stuck, Undefined]
  | some c =>
    cases hr : pool.constraintOn rhs.constraints name with
    | none => simp [Split, Stuck, Undefined]
    | some d => exact judge_iff (hdescribed lhs c hl) (hdescribed rhs d hr)

theorem ConstraintList.sortedKeys_named (l : ConstraintList pool) : SortedKeys l.named := by
  unfold SortedKeys named
  rw [List.pairwise_map]
  exact l.sorted

theorem doConstraintsOverlap_cases (lhs rhs : ConstraintList pool) :
    (pool.doConstraintsOverlap lhs.sets rhs.sets = some true ↔
      Joined pool lhs.constraints rhs.constraints) ∧
      (pool.doConstraintsOverlap lhs.sets rhs.sets = some false ↔
        Parted pool lhs.constraints rhs.constraints) := by
  have hdecision := decision_judge lhs rhs
  have hcases := @lockstep_cases String _ _ _ (judge pool) (some false) (some true) _ _
    lhs.sortedKeys_named rhs.sortedKeys_named
  have hwalk : pool.doConstraintsOverlap lhs.sets rhs.sets =
      lockstep (judge pool) (some false) (some true) lhs.named rhs.named :=
    doConstraintsOverlap_eq_lockstep lhs.constraints rhs.constraints
  rw [hwalk]
  generalize lockstep (judge pool) (some false) (some true) lhs.named rhs.named = answer at hcases ⊢
  unfold Joined Parted
  simp only [fun name => (hdecision name).1, fun name => (hdecision name).2.1,
    fun name => (hdecision name).2.2]
  generalize decision (judge pool) (some false) lhs.named rhs.named = decide at hcases
  rcases hcases with ⟨hnone, rfl⟩ | ⟨name, hbefore, hname⟩
  · simp [hnone]
  -- The least field where something is decided.
  have hleast : ∀ k x, decide k = some x → name ≤ k := by
    intro k x hk
    by_contra hlt
    rw [hbefore k (not_le.mp hlt)] at hk
    cases hk
  have hlt : ∀ k x, decide k = some x → x ≠ answer → name < k := by
    intro k x hk hne
    refine lt_of_le_of_ne (hleast k x hk) ?_
    rintro rfl
    rw [hname] at hk
    exact hne (Option.some.inj hk).symm
  rcases answer with - | - | -
  · constructor
    · refine iff_of_false (by simp) fun h => ?_
      obtain ⟨k, hk, hstuck⟩ := h name (.inr hname)
      rw [hbefore k hk] at hstuck
      cases hstuck
    · refine iff_of_false (by simp) ?_
      rintro ⟨k, hk, hbelow⟩
      exact (hbelow name (hlt k _ hk (by simp))).2 hname
  · constructor
    · refine iff_of_false (by simp) fun h => ?_
      obtain ⟨k, hk, hstuck⟩ := h name (.inl hname)
      rw [hbefore k hk] at hstuck
      cases hstuck
    · refine iff_of_true rfl ⟨name, hname, fun k hk => ?_⟩
      rw [hbefore k hk]
      simp
  · constructor
    · refine iff_of_true rfl fun k hk => ⟨name, ?_, hname⟩
      rcases hk with hk | hk
      · exact hlt k _ hk (by simp)
      · exact hlt k _ hk (by simp)
    · refine iff_of_false (by simp) ?_
      rintro ⟨k, hk, hbelow⟩
      exact (hbelow name (hlt k _ hk (by simp))).1 hname

/-- A message type with two integers. -/
def pairPool : DescriptorPool (Fin 2) Empty where
  name f := if f = 0 then "x" else "y"
  fullName f := if f = 0 then "M.x" else "M.y"
  index f := f
  cppType _ := .int32
  closedEnum _ := none
  containingOneof _ := none
  oneofName o := o.elim
  field o := o.elim
  defaultValue _ := .value (.int32 0)
  fullName_injective := by decide
  index_lt := by decide
  mem_field _ o := o.elim
  name_nodup o := o.elim
  closedEnum_type := by simp
  default_admitted _ := ⟨rfl, by simp⟩

/-- One comparison of a field of `pairPool`. -/
def pairList (f : Fin 2) (op : ConstraintType) (e : ProtoValue) (hop : op ≠ .kHas) :
    ConstraintList pairPool where
  constraints := [⟨some ⟨pairPool.name f, f⟩, f, op, some e, none⟩]
  sorted := List.pairwise_singleton ..
  described c hc := by
    obtain rfl := List.mem_singleton.mp hc
    simp [DescriptorPool.ofConstraint, hop]

end MpactSim.Proto
