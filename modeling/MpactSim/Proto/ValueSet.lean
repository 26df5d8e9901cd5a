import MpactSim.Lib.Monad

namespace MpactSim.Proto

open Lib

/-!
# Value sets of proto constraints

The constraints on a proto field are turned into sets of values, kept as lists of subranges
whose ends are open or closed.  Two encodings are ambiguous if the sets of some field have
a value in common.  An expression is represented by the value that `GetValue` returns.

* `intersectWith`        — `IntersectWith`, with the pairwise intersections it is made of;
* `Lost`                 — the pairs of subranges whose common value it drops;
* `mem_intersectSubrange` — what a pairwise intersection holds;
* `intersectWith_iff`    — between which sets the intersection is right, and symmetric.
-/

/-! ### Values -/

/-- The types of the `ProtoValue` variant. -/
inductive ProtoValueIndex where
  | kInt32 | kInt64 | kUint32 | kUint64 | kDouble | kFloat | kBool | kString
  deriving DecidableEq, Repr

/-- A floating point number of `width` bits that is not a NaN; `infinity` are the exponent and
    fraction of an infinite one. -/
structure Floating (width infinity : Nat) where
  bits : BitVec width
  number : bits.toNat % 2 ^ (width - 1) ≤ infinity
  deriving DecidableEq

/-- Numbers are ordered as their bits are, read as sign and magnitude; both zeros are equal. -/
def Floating.rank {width infinity : Nat} (x : Floating width infinity) : Int :=
  let magnitude : Int := (x.bits.toNat % 2 ^ (width - 1) : Nat)
  if x.bits.msb then -magnitude else magnitude

/-- A `double`. -/
abbrev Double := Floating 64 0x7ff0000000000000

/-- A `float`. -/
abbrev Single := Floating 32 0x7f800000

/-- `ProtoValue`. -/
inductive ProtoValue where
  | int32 (v : Int32)
  | int64 (v : Int64)
  | uint32 (v : UInt32)
  | uint64 (v : UInt64)
  | double (v : Double)
  | float (v : Single)
  | bool (v : Bool)
  | string (v : String)
  deriving DecidableEq

namespace ProtoValue

/-- `index`, and `variant_type` of an expression. -/
def index : ProtoValue → ProtoValueIndex
  | int32 _ => .kInt32
  | int64 _ => .kInt64
  | uint32 _ => .kUint32
  | uint64 _ => .kUint64
  | double _ => .kDouble
  | float _ => .kFloat
  | bool _ => .kBool
  | string _ => .kString

/-- The place of a value in the order of its type; strings are never compared. -/
def rank : ProtoValue → Int
  | int32 v => v.toInt
  | int64 v => v.toInt
  | uint32 v => v.toNat
  | uint64 v => v.toNat
  | double v => v.rank
  | float v => v.rank
  | bool v => if v then 1 else 0
  | string _ => 0

/-- `GetValueAs`, which gives the zero of the type for a value of another one. -/
def getValueAs (t : ProtoValueIndex) (v : ProtoValue) : Int := if v.index = t then v.rank else 0

end ProtoValue

/-- `std::numeric_limits<T>::min`, which is the least positive normal number for the floating
    types. -/
def limitMin : ProtoValueIndex → Int
  | .kInt32 => -2 ^ 31
  | .kInt64 => -2 ^ 63
  | .kUint32 | .kUint64 | .kBool | .kString => 0
  | .kDouble => 0x0010000000000000
  | .kFloat => 0x00800000

/-- `std::numeric_limits<T>::max`. -/
def limitMax : ProtoValueIndex → Int
  | .kInt32 => 2 ^ 31 - 1
  | .kInt64 => 2 ^ 63 - 1
  | .kUint32 => 2 ^ 32 - 1
  | .kUint64 => 2 ^ 64 - 1
  | .kDouble => 0x7fefffffffffffff
  | .kFloat => 0x7f7fffff
  | .kBool => 1
  | .kString => 0

/-! ### The source -/

/-- A `SubRange`; an end is `none` for a null pointer. -/
structure SubRange where
  min : Option ProtoValue
  minIncluded : Bool
  max : Option ProtoValue
  maxIncluded : Bool
  deriving DecidableEq

/-- The subrange that stands for the null set. -/
def SubRange.null : SubRange := ⟨none, false, none, false⟩

/-- The value of an end, which is the limit of the type for a null pointer. -/
def endValue (t : ProtoValueIndex) (limit : Int) : Option ProtoValue → Int
  | none => limit
  | some e => e.getValueAs t

/-- The comparison of the minimum values: the value, end and flag of the later minimum. -/
def laterMin (lhs rhs : SubRange) (lhsMin rhsMin : Int) : Option (Int × ProtoValue × Bool) :=
  if lhsMin > rhsMin then lhs.min.map fun e => (lhsMin, e, lhs.minIncluded)
  else if lhsMin < rhsMin then rhs.min.map fun e => (rhsMin, e, rhs.minIncluded)
  else lhs.min.map fun e => (lhsMin, e, lhs.minIncluded && rhs.minIncluded)

/-- The comparison of the maximum values. -/
def earlierMax (lhs rhs : SubRange) (lhsMax rhsMax : Int) : Option (Int × ProtoValue × Bool) :=
  if lhsMax < rhsMax then lhs.max.map fun e => (lhsMax, e, lhs.maxIncluded)
  else if lhsMax > rhsMax then rhs.max.map fun e => (rhsMax, e, rhs.maxIncluded)
  else lhs.max.map fun e => (lhsMax, e, lhs.maxIncluded && rhs.maxIncluded)

/-- `IntersectSubrange`; undefined where a null pointer is cloned. -/
def intersectSubrange (t : ProtoValueIndex) (lhs rhs : SubRange) : Option SubRange :=
  if lhs.min = none ∧ rhs.min = none then some .null
  else if rhs.min = none ∧ rhs.max = none then some .null
  else
    let lhsMin := endValue t (limitMin t) lhs.min
    let rhsMin := endValue t (limitMin t) rhs.min
    let lhsMax := endValue t (limitMax t) lhs.max
    let rhsMax := endValue t (limitMax t) rhs.max
    if lhsMin > rhsMax ∨ lhsMax < rhsMin then some .null
    else do
      let (minValue, min, minIncluded) ← laterMin lhs rhs lhsMin rhsMin
      let (maxValue, max, maxIncluded) ← earlierMax lhs rhs lhsMax rhsMax
      -- The flag of `lhs` is tested here, not that of the new subrange.
      if minValue = maxValue ∧ ¬ (maxIncluded && lhs.minIncluded) then some .null
      else some ⟨some min, minIncluded, some max, maxIncluded⟩

/-- `IntersectSubranges`. -/
def intersectSubranges (t : ProtoValueIndex) (lhs rhs : List SubRange) : Option (List SubRange) := do
  let subranges ← (lhs ×ˢ rhs).mapM fun p => intersectSubrange t p.1 p.2
  return subranges.filter fun s => s.min ≠ none ∧ s.max ≠ none

/-- `ProtoConstraintValueSet`. -/
structure ProtoConstraintValueSet where
  subranges : List SubRange
  deriving DecidableEq

namespace ProtoConstraintValueSet

/-- The type of the first subrange with an end. -/
def firstType (subranges : List SubRange) : Option ProtoValueIndex :=
  subranges.head?.bind fun s => (s.min.orElse fun _ => s.max).map ProtoValue.index

/-- `IntersectWith`, with the set that it leaves; undefined where a null pointer is used. -/
def intersectWith (s rhs : ProtoConstraintValueSet) :
    Option (Except String Unit × ProtoConstraintValueSet) :=
  if s.subranges = [] ∨ rhs.subranges = [] then some (.ok (), ⟨[]⟩)
  else
    match firstType s.subranges, firstType rhs.subranges with
    | some lhsType, some rhsType =>
      if lhsType ≠ rhsType then
        some (.error "ProtoConstraintValueSet::IntersectWith: type error", s)
      else intersect
    | _, _ => intersect
where
  intersect : Option (Except String Unit × ProtoConstraintValueSet) := do
    let last ← s.subranges.getLast?
    let min ← last.min
    if min.index = .kString then return (.error "Unsupported type in range", s)
    let subranges ← intersectSubranges min.index s.subranges rhs.subranges
    return (.ok (), ⟨subranges⟩)

/-- `UnionWith`. -/
def unionWith (s rhs : ProtoConstraintValueSet) : ProtoConstraintValueSet :=
  if rhs.subranges = [] then s else ⟨s.subranges ++ rhs.subranges⟩

/-- The constructor from the two ends of a range. -/
def ofRange (min : Option ProtoValue) (minIncluded : Bool) (max : Option ProtoValue)
    (maxIncluded : Bool) : ProtoConstraintValueSet :=
  match min, max with
  | some min, some max =>
    if min.index ≠ max.index then ⟨[]⟩ else ⟨[⟨some min, minIncluded, some max, maxIncluded⟩]⟩
  | _, _ => ⟨[]⟩

end ProtoConstraintValueSet

/-! ### The specification -/

/-- `x` is at or above the lower end `a`, and at or below the upper end `b`. -/
def AtLeast (included : Bool) (a x : Int) : Prop := if included then a ≤ x else a < x

def AtMost (included : Bool) (b x : Int) : Prop := if included then x ≤ b else x < b

/-- The values in a subrange: those of the type of its ends that lie between them. -/
def SubRange.Mem (r : SubRange) (v : ProtoValue) : Prop :=
  ∃ min ∈ r.min, ∃ max ∈ r.max, min.index = v.index ∧ max.index = v.index ∧
    AtLeast r.minIncluded min.rank v.rank ∧ AtMost r.maxIncluded max.rank v.rank

/-- A subrange of a field of type `t`. -/
def SubRange.Over (t : ProtoValueIndex) (r : SubRange) : Prop :=
  (∃ min ∈ r.min, min.index = t) ∧ ∃ max ∈ r.max, max.index = t

namespace ProtoConstraintValueSet

/-- The members of a value set. -/
def Mem (s : ProtoConstraintValueSet) (v : ProtoValue) : Prop := ∃ r ∈ s.subranges, r.Mem v

/-- A value set of a field of type `t`. -/
def Over (t : ProtoValueIndex) (s : ProtoConstraintValueSet) : Prop := ∀ r ∈ s.subranges, r.Over t

/-- A union of disjoint ranges. -/
def Disjoint (s : ProtoConstraintValueSet) : Prop :=
  s.subranges.Pairwise fun r r' => ∀ v, ¬ (r.Mem v ∧ r'.Mem v)

/-- The new set holds what is in both. -/
def IntersectsTo (s rhs s' : ProtoConstraintValueSet) : Prop := ∀ v, s'.Mem v ↔ s.Mem v ∧ rhs.Mem v

end ProtoConstraintValueSet

/-- `R` starts, at a minimum that is included, inside `L`, which is open at its own minimum, and
    one of the two ends right there: the only common value is lost. -/
def Lost (L R : SubRange) : Prop :=
  L.minIncluded = false ∧ R.minIncluded = true ∧ ∃ p ∈ R.min, L.Mem p ∧ R.Mem p ∧
    ((∃ max ∈ L.max, max.rank = p.rank) ∨ ∃ max ∈ R.max, max.rank = p.rank)

/-! ### Intersection of subranges -/

theorem atLeast_and (i j : Bool) (a b x : Int) :
    AtLeast i a x ∧ AtLeast j b x ↔
      if a > b then AtLeast i a x else if a < b then AtLeast j b x else AtLeast (i && j) a x := by
  unfold AtLeast
  rcases lt_trichotomy a b with h | rfl | h
  · simp only [gt_iff_lt, h, not_lt_of_gt h, if_true, if_false]
    cases i <;> cases j <;> simp <;> omega
  · simp only [gt_iff_lt, lt_irrefl, if_false]
    cases i <;> cases j <;> simp <;> omega
  · simp only [gt_iff_lt, h, not_lt_of_gt h, if_true, if_false]
    cases i <;> cases j <;> simp <;> omega

theorem atMost_and (i j : Bool) (a b x : Int) :
    AtMost i a x ∧ AtMost j b x ↔
      if a < b then AtMost i a x else if a > b then AtMost j b x else AtMost (i && j) a x := by
  unfold AtMost
  rcases lt_trichotomy a b with h | rfl | h
  · simp only [gt_iff_lt, h, not_lt_of_gt h, if_true, if_false]
    cases i <;> cases j <;> simp <;> omega
  · simp only [gt_iff_lt, lt_irrefl, if_false]
    cases i <;> cases j <;> simp <;> omega
  · simp only [gt_iff_lt, h, not_lt_of_gt h, if_true, if_false]
    cases i <;> cases j <;> simp <;> omega

variable {L R : SubRange} {i : Bool} {x : Int} {t : ProtoValueIndex}

theorem laterMin_spec {a b : ProtoValue} (ha : L.min = some a) (hb : R.min = some b) :
    ∃ m k, laterMin L R a.rank b.rank = some (m.rank, m, k) ∧ (m = a ∨ m = b) ∧
      m.rank = max a.rank b.rank ∧
      (k = true → L.minIncluded = false → m = b ∧ R.minIncluded = true) ∧
      ∀ x, AtLeast L.minIncluded a.rank x ∧ AtLeast R.minIncluded b.rank x ↔ AtLeast k m.rank x := by
  rcases lt_trichotomy a.rank b.rank with h | h | h
  · refine ⟨b, R.minIncluded, ?_, .inr rfl, (max_eq_right h.le).symm, fun hk _ => ⟨rfl, hk⟩,
      fun x => ?_⟩
    · rw [laterMin, if_neg (by omega), if_pos h, hb, Option.map_some]
    · rw [atLeast_and, if_neg (by omega), if_pos h]
  · refine ⟨a, L.minIncluded && R.minIncluded, ?_, .inl rfl, ?_, fun hk hi => ?_, fun x => ?_⟩
    · rw [laterMin, if_neg (by omega), if_neg (by omega), ha, Option.map_some]
    · rw [h, max_self]
    · rw [hi] at hk
      cases hk
    · rw [atLeast_and, if_neg (by omega), if_neg (by omega)]
  · refine ⟨a, L.minIncluded, ?_, .inl rfl, (max_eq_left h.le).symm, fun hk hi => ?_, fun x => ?_⟩
    · rw [laterMin, if_pos h, ha, Option.map_some]
    · rw [hi] at hk
      cases hk
    · rw [atLeast_and, if_pos h]

theorem earlierMax_spec {a b : ProtoValue} (ha : L.max = some a) (hb : R.max = some b) :
    ∃ m k, earlierMax L R a.rank b.rank = some (m.rank, m, k) ∧ (m = a ∨ m = b) ∧
      m.rank = min a.rank b.rank ∧
      ∀ x, AtMost L.maxIncluded a.rank x ∧ AtMost R.maxIncluded b.rank x ↔ AtMost k m.rank x := by
  rcases lt_trichotomy a.rank b.rank with h | h | h
  · refine ⟨a, L.maxIncluded, ?_, .inl rfl, (min_eq_left h.le).symm, fun x => ?_⟩
    · rw [earlierMax, if_pos h, ha, Option.map_some]
    · rw [atMost_and, if_pos h]
  · refine ⟨a, L.maxIncluded && R.maxIncluded, ?_, .inl rfl, ?_, fun x => ?_⟩
    · rw [earlierMax, if_neg (by omega), if_neg (by omega), ha, Option.map_some]
    · rw [h, min_self]
    · rw [atMost_and, if_neg (by omega), if_neg (by omega)]
  · refine ⟨b, R.maxIncluded, ?_, .inr rfl, (min_eq_right h.le).symm, fun x => ?_⟩
    · rw [earlierMax, if_neg (by omega), if_pos h, hb, Option.map_some]
    · rw [atMost_and, if_neg (by omega), if_pos h]

theorem AtLeast.le {a : Int} (h : AtLeast i a x) : a ≤ x := by
  unfold AtLeast at h
  split at h <;> omega

theorem AtMost.le {b : Int} (h : AtMost i b x) : x ≤ b := by
  unfold AtMost at h
  split at h <;> omega

theorem included_of_mem {j : Bool} {a : Int} (hmin : AtLeast i a x) (hmax : AtMost j a x) :
    i = true ∧ j = true ∧ x = a := by
  unfold AtLeast at hmin
  unfold AtMost at hmax
  cases i <;> cases j <;> simp at hmin hmax ⊢ <;> omega

theorem SubRange.Over.exists_ends {r : SubRange} (h : r.Over t) :
    ∃ min max, r.min = some min ∧ r.max = some max ∧ min.index = t ∧ max.index = t := by
  obtain ⟨⟨min, hmin, hmint⟩, max, hmax, hmaxt⟩ := h
  exact ⟨min, max, hmin, hmax, hmint, hmaxt⟩

theorem SubRange.mem_iff {r : SubRange} {min max : ProtoValue} (hmin : r.min = some min)
    (hmax : r.max = some max) (hmint : min.index = t) (hmaxt : max.index = t) (v : ProtoValue) :
    r.Mem v ↔ v.index = t ∧ AtLeast r.minIncluded min.rank v.rank ∧
      AtMost r.maxIncluded max.rank v.rank := by
  simp only [SubRange.Mem, hmin, hmax, Option.mem_def, Option.some.injEq, exists_eq_left', hmint,
    hmaxt]
  constructor
  · rintro ⟨h, -, hrange⟩
    exact ⟨h.symm, hrange⟩
  · rintro ⟨h, hrange⟩
    exact ⟨h.symm, h.symm, hrange⟩

@[simp]
theorem SubRange.not_mem_null (v : ProtoValue) : ¬ SubRange.null.Mem v := by
  rintro ⟨min, hmin, -⟩
  cases hmin

/-- What the intersection of two subranges of a field is: it is defined, a range of the field
    or null, and holds the common values unless they are lost. -/
theorem mem_intersectSubrange (hL : L.Over t) (hR : R.Over t) :
    ∃ s, intersectSubrange t L R = some s ∧ (s = .null ∨ s.Over t) ∧
      ∀ v, s.Mem v ↔ L.Mem v ∧ R.Mem v ∧ ¬ Lost L R := by
  obtain ⟨a, b, hLmin, hLmax, ha, hb⟩ := hL.exists_ends
  obtain ⟨c, d, hRmin, hRmax, hc, hd⟩ := hR.exists_ends
  have hmemL := SubRange.mem_iff hLmin hLmax ha hb
  have hmemR := SubRange.mem_iff hRmin hRmax hc hd
  have hunfold : intersectSubrange t L R = if a.rank > d.rank ∨ b.rank < c.rank then some .null
      else (laterMin L R a.rank c.rank).bind fun lo => (earlierMax L R b.rank d.rank).bind fun hi =>
        if lo.1 = hi.1 ∧ ¬ (hi.2.2 && L.minIncluded) then some .null
        else some ⟨some lo.2.1, lo.2.2, some hi.2.1, hi.2.2⟩ := by
    simp only [intersectSubrange, hLmin, hLmax, hRmin, hRmax, endValue, ProtoValue.getValueAs, ha,
      hb, hc, hd, reduceCtorEq, false_and, if_false, if_true]
    rfl
  rw [hunfold]
  by_cases hapart : a.rank > d.rank ∨ b.rank < c.rank
  · -- One range ends before the other starts.
    refine ⟨.null, if_pos hapart, .inl rfl, fun v => ?_⟩
    refine iff_of_false (SubRange.not_mem_null v) ?_
    rintro ⟨hvL, hvR, -⟩
    obtain ⟨-, haL, hbL⟩ := (hmemL v).mp hvL
    obtain ⟨-, hcR, hdR⟩ := (hmemR v).mp hvR
    have := haL.le
    have := hbL.le
    have := hcR.le
    have := hdR.le
    omega
  rw [if_neg hapart]
  -- The new ends are the later minimum and the earlier maximum.
  obtain ⟨m, mi, hm, hmeq, hmrank, hmi, hmin⟩ := laterMin_spec hLmin hRmin
  obtain ⟨M, Mi, hM, hMeq, hMrank, hmax⟩ := earlierMax_spec hLmax hRmax
  have hmt : m.index = t := by rcases hmeq with rfl | rfl <;> assumption
  have hMt : M.index = t := by rcases hMeq with rfl | rfl <;> assumption
  have hboth : ∀ v, L.Mem v ∧ R.Mem v ↔
      v.index = t ∧ AtLeast mi m.rank v.rank ∧ AtMost Mi M.rank v.rank := by
    intro v
    rw [hmemL, hmemR, ← hmin, ← hmax]
    tauto
  rw [hm, Option.bind_some, hM, Option.bind_some]
  by_cases hnull : m.rank = M.rank ∧ ¬ (Mi && L.minIncluded) = true
  · -- A common value would be the only one, at the minimum of `R`, and lost.
    refine ⟨.null, if_pos hnull, .inl rfl, fun v => ?_⟩
    refine iff_of_false (SubRange.not_mem_null v) ?_
    rintro ⟨hvL, hvR, hkept⟩
    obtain ⟨hvt, hvmin, hvmax⟩ := (hboth v).mp ⟨hvL, hvR⟩
    rw [← hnull.1] at hvmax
    obtain ⟨hmi', hMi', hvm⟩ := included_of_mem hvmin hvmax
    have hLopen : L.minIncluded = false := by
      have := hnull.2
      rw [hMi', Bool.true_and] at this
      simpa using this
    obtain ⟨rfl, hRclosed⟩ := hmi hmi' hLopen
    refine hkept ⟨hLopen, hRclosed, m, hRmin, ?_, ?_, ?_⟩
    · obtain ⟨-, hrange⟩ := (hmemL v).mp hvL
      rw [hvm] at hrange
      exact (hmemL m).mpr ⟨hmt, hrange⟩
    · obtain ⟨-, hrange⟩ := (hmemR v).mp hvR
      rw [hvm] at hrange
      exact (hmemR m).mpr ⟨hmt, hrange⟩
    · rcases hMeq with rfl | rfl
      · exact .inl ⟨M, hLmax, hnull.1.symm⟩
      · exact .inr ⟨M, hRmax, hnull.1.symm⟩
  · refine ⟨_, if_neg hnull, .inr ⟨⟨m, rfl, hmt⟩, M, rfl, hMt⟩, fun v => ?_⟩
    rw [SubRange.mem_iff rfl rfl hmt hMt, ← hboth]
    have hkept : ¬ Lost L R := by
      rintro ⟨hLopen, -, p, hp, hpL, hpR, hend⟩
      rw [hRmin, Option.mem_def, Option.some.injEq] at hp
      subst hp
      obtain ⟨-, haL, hbL⟩ := (hmemL c).mp hpL
      obtain ⟨-, -, hdR⟩ := (hmemR c).mp hpR
      have := haL.le
      have := hbL.le
      have := hdR.le
      simp only [hLmax, hRmax, Option.mem_def, Option.some.injEq, exists_eq_left'] at hend
      refine hnull ⟨?_, by rw [hLopen, Bool.and_false]; simp⟩
      omega
    tauto

/-! ### Intersection of value sets -/

namespace ProtoConstraintValueSet

variable {t : ProtoValueIndex} {A B : ProtoConstraintValueSet}

theorem mem_intersectSubranges (hA : A.Over t) (hB : B.Over t) :
    ∃ subranges, intersectSubranges t A.subranges B.subranges = some subranges ∧
      ∀ v, (∃ s ∈ subranges, s.Mem v) ↔
        ∃ L ∈ A.subranges, ∃ R ∈ B.subranges, L.Mem v ∧ R.Mem v ∧ ¬ Lost L R := by
  obtain ⟨all, hall, hevery, hsource⟩ := exists_mapM_eq_some (l := A.subranges ×ˢ B.subranges)
    (f := fun p => intersectSubrange t p.1 p.2)
    (P := fun p s => (s = .null ∨ s.Over t) ∧
      ∀ v, s.Mem v ↔ p.1.Mem v ∧ p.2.Mem v ∧ ¬ Lost p.1 p.2) fun p hp => by
    obtain ⟨hL, hR⟩ := List.mem_product.mp hp
    exact mem_intersectSubrange (hA p.1 hL) (hB p.2 hR)
  refine ⟨all.filter fun s => s.min ≠ none ∧ s.max ≠ none, ?_, fun v => ?_⟩
  · rw [intersectSubranges, hall]
    rfl
  constructor
  · rintro ⟨s, hs, hv⟩
    obtain ⟨⟨L, R⟩, hp, -, hmem⟩ := hsource s (List.mem_of_mem_filter hs)
    obtain ⟨hL, hR⟩ := List.mem_product.mp hp
    exact ⟨L, hL, R, hR, (hmem v).mp hv⟩
  · rintro ⟨L, hL, R, hR, hv⟩
    obtain ⟨s, hs, -, hmem⟩ := hevery (L, R) (List.mem_product.mpr ⟨hL, hR⟩)
    have hvs := (hmem v).mpr hv
    refine ⟨s, List.mem_filter.mpr ⟨hs, ?_⟩, hvs⟩
    obtain ⟨min, hmin, max, hmax, -⟩ := hvs
    rw [Option.mem_def] at hmin hmax
    simp [hmin, hmax]

theorem mem_intersectWith (ht : t ≠ .kString) (hA : A.Over t) (hB : B.Over t) :
    ∃ A', A.intersectWith B = some (.ok (), A') ∧
      ∀ v, A'.Mem v ↔ ∃ L ∈ A.subranges, ∃ R ∈ B.subranges, L.Mem v ∧ R.Mem v ∧ ¬ Lost L R := by
  by_cases hempty : A.subranges = [] ∨ B.subranges = []
  · refine ⟨⟨[]⟩, if_pos hempty, fun v => ?_⟩
    rcases hempty with h | h <;> simp [Mem, h]
  obtain ⟨hAne, hBne⟩ := not_or.mp hempty
  -- The types of the first subranges are equal, and that of the last one is not a string.
  have hfirst : ∀ {s : ProtoConstraintValueSet}, s.Over t → s.subranges ≠ [] →
      firstType s.subranges = some t := by
    intro s hs hne
    obtain ⟨r, rest, hr⟩ := List.exists_cons_of_ne_nil hne
    obtain ⟨min, max, hmin, -, hmint, -⟩ := (hs r (by rw [hr]; exact List.mem_cons_self)).exists_ends
    simp [firstType, hr, hmin, hmint]
  obtain ⟨min, max, hmin, -, hmint, -⟩ := (hA _ (List.getLast_mem hAne)).exists_ends
  obtain ⟨subranges, hsub, hmem⟩ := mem_intersectSubranges hA hB
  refine ⟨⟨subranges⟩, ?_, hmem⟩
  rw [intersectWith, if_neg hempty, hfirst hA hAne, hfirst hB hBne]
  dsimp only
  rw [if_neg (by simp), intersectWith.intersect, List.getLast?_eq_some_getLast hAne]
  simp only [Option.bind_eq_bind, Option.bind_some, hmin, hmint, if_neg ht, hsub]
  rfl

theorem intersectWith_error {e : String} {A' : ProtoConstraintValueSet}
    (h : A.intersectWith B = some (.error e, A')) : A' = A := by
  have hintersect : intersectWith.intersect A B = some (.error e, A') → A' = A := by
    intro h
    simp only [intersectWith.intersect, Option.bind_eq_bind, Option.bind_eq_some_iff] at h
    obtain ⟨last, -, min, -, h⟩ := h
    split at h
    · cases h
      rfl
    · obtain ⟨subranges, -, h⟩ := Option.bind_eq_some_iff.mp h
      cases h
  unfold intersectWith at h
  split at h
  · cases h
  · split at h
    · split at h
      · cases h
        rfl
      · exact hintersect h
    · exact hintersect h

theorem mem_unionWith (A B : ProtoConstraintValueSet) (v : ProtoValue) :
    (A.unionWith B).Mem v ↔ A.Mem v ∨ B.Mem v := by
  unfold unionWith
  split
  · rename_i h
    simp [Mem, h]
  · simp only [Mem, List.mem_append, or_and_right, exists_or]

/-- No pair of subranges has its common value lost. -/
def NoneLost (A B : ProtoConstraintValueSet) : Prop :=
  ∀ L ∈ A.subranges, ∀ R ∈ B.subranges, ¬ Lost L R

theorem Disjoint.eq_of_mem (hA : A.Disjoint) {L L' : SubRange} (hL : L ∈ A.subranges)
    (hL' : L' ∈ A.subranges) {v : ProtoValue} (hv : L.Mem v) (hv' : L'.Mem v) : L = L' := by
  by_contra hne
  have hsymm : Std.Symm fun r r' : SubRange => ∀ v, ¬ (r.Mem v ∧ r'.Mem v) :=
    ⟨fun r r' h v hv => h v hv.symm⟩
  exact hA.forall hL hL' hne v ⟨hv, hv'⟩

theorem noneLost_of_kept (hA : A.Disjoint) (hB : B.Disjoint)
    (h : ∀ v, A.Mem v → B.Mem v →
      ∃ L ∈ A.subranges, ∃ R ∈ B.subranges, L.Mem v ∧ R.Mem v ∧ ¬ Lost L R) : NoneLost A B := by
  intro L hL R hR hlost
  obtain ⟨-, -, p, -, hpL, hpR, -⟩ := id hlost
  obtain ⟨L', hL', R', hR', hpL', hpR', hkept⟩ := h p ⟨L, hL, hpL⟩ ⟨R, hR, hpR⟩
  obtain rfl := hA.eq_of_mem hL hL' hpL hpL'
  obtain rfl := hB.eq_of_mem hR hR' hpR hpR'
  exact hkept hlost

theorem NoneLost.mem_iff (h : NoneLost A B) (v : ProtoValue) :
    (∃ L ∈ A.subranges, ∃ R ∈ B.subranges, L.Mem v ∧ R.Mem v ∧ ¬ Lost L R) ↔
      A.Mem v ∧ B.Mem v := by
  constructor
  · rintro ⟨L, hL, R, hR, hvL, hvR, -⟩
    exact ⟨⟨L, hL, hvL⟩, R, hR, hvR⟩
  · rintro ⟨⟨L, hL, hvL⟩, R, hR, hvR⟩
    exact ⟨L, hL, R, hR, hvL, hvR, h L hL R hR⟩

/-- **Intersection of value sets.** An error leaves the receiver as it was.  For disjoint unions
    of ranges over a field the intersection succeeds; it holds the common values, and the
    same ones whichever set is the receiver, exactly if no pair of subranges loses its
    common value. -/
theorem intersectWith_iff (A B : ProtoConstraintValueSet) :
    (∀ (e : String) (A' : ProtoConstraintValueSet),
      A.intersectWith B = some (.error e, A') → A' = A) ∧
    ∀ t : ProtoValueIndex, t ≠ .kString → A.Over t → B.Over t → A.Disjoint → B.Disjoint →
      ((∃ A' B', A.intersectWith B = some (.ok (), A') ∧ B.intersectWith A = some (.ok (), B') ∧
          A.IntersectsTo B A' ∧ ∀ v, A'.Mem v ↔ B'.Mem v) ↔
        NoneLost A B ∧ NoneLost B A) := by
  refine ⟨fun e A' h => intersectWith_error h, fun t ht hA hB hdA hdB => ?_⟩
  obtain ⟨A', hA', hmemA⟩ := mem_intersectWith ht hA hB
  obtain ⟨B', hB', hmemB⟩ := mem_intersectWith ht hB hA
  constructor
  · rintro ⟨_, _, hA'', hB'', hright, hsame⟩
    rw [hA'] at hA''
    rw [hB'] at hB''
    cases hA''
    cases hB''
    constructor
    · exact noneLost_of_kept hdA hdB fun v hvA hvB => (hmemA v).mp ((hright v).mpr ⟨hvA, hvB⟩)
    · exact noneLost_of_kept hdB hdA fun v hvB hvA =>
        (hmemB v).mp ((hsame v).mp ((hright v).mpr ⟨hvA, hvB⟩))
  · rintro ⟨hAB, hBA⟩
    have hright : A.IntersectsTo B A' := fun v => (hmemA v).trans (hAB.mem_iff v)
    refine ⟨A', B', hA', hB', hright, fun v => ?_⟩
    rw [hright v, hmemB, hBA.mem_iff, and_comm]

/-- Both ways round, for a set that is open at its minimum and one that starts inside it and
    ends later. -/
theorem intersectWith_iff_open :
    let A := ofRange (some (.int32 3)) false (some (.int32 10)) true
    let B := ofRange (some (.int32 5)) true (some (.int32 20)) true
    ∃ A' B', A.intersectWith B = some (.ok (), A') ∧ B.intersectWith A = some (.ok (), B') ∧
      A.IntersectsTo B A' ∧ ∀ v, A'.Mem v ↔ B'.Mem v := by
  intro A B
  refine ((intersectWith_iff A B).2 .kInt32 (by decide) ?_ ?_ ?_ ?_).mpr ⟨?_, ?_⟩
  · rintro r hr
    obtain rfl := List.mem_singleton.mp hr
    exact ⟨⟨_, rfl, rfl⟩, _, rfl, rfl⟩
  · rintro r hr
    obtain rfl := List.mem_singleton.mp hr
    exact ⟨⟨_, rfl, rfl⟩, _, rfl, rfl⟩
  · exact List.pairwise_singleton ..
  · exact List.pairwise_singleton ..
  · intro L hL R hR hlost
    obtain rfl := List.mem_singleton.mp hL
    obtain rfl := List.mem_singleton.mp hR
    obtain ⟨-, -, p, hp, -, -, hend⟩ := hlost
    cases hp
    rcases hend with ⟨max, hmax, h⟩ | ⟨max, hmax, h⟩ <;> cases hmax <;> revert h <;> decide
  · intro L hL R hR hlost
    obtain rfl := List.mem_singleton.mp hL
    obtain rfl := List.mem_singleton.mp hR
    exact absurd hlost.1 (by decide)

/-- The intersection of `(3, 10]` and `[5, 5]` is empty, that of `[5, 5]` and `(3, 10]` is not. -/
theorem intersectWith_loses_value :
    let A := ofRange (some (.int32 3)) false (some (.int32 10)) true
    let B := ofRange (some (.int32 5)) true (some (.int32 5)) true
    A.intersectWith B = some (.ok (), ⟨[]⟩) ∧ B.intersectWith A = some (.ok (), B) ∧
      ¬ A.IntersectsTo B ⟨[]⟩ := by
  intro A B
  refine ⟨rfl, rfl, fun h => ?_⟩
  have hA : A.Mem (.int32 5) :=
    ⟨_, List.mem_singleton_self _, _, rfl, _, rfl, rfl, rfl, by unfold AtLeast; decide, by unfold AtMost; decide⟩
  have hB : B.Mem (.int32 5) :=
    ⟨_, List.mem_singleton_self _, _, rfl, _, rfl, rfl, rfl, by unfold AtLeast; decide, by unfold AtMost; decide⟩
  obtain ⟨r, hr, -⟩ := (h (.int32 5)).mpr ⟨hA, hB⟩
  cases hr

end ProtoConstraintValueSet

end MpactSim.Proto
