import MpactSim.Cpp.Integer
import MpactSim.Proto.ValueSet

namespace MpactSim.Proto

open Cpp

/-!
# Messages and the constraints on them

The generator knows messages by their descriptors, and a constraint names a field by its
descriptor; what it tests is the C++ comparison of the value of the field.

* `DescriptorPool`       — the descriptors, with what the generator reads of them;
* `Message`              — what the fields of a message hold;
* `order`                — C++ comparison of two values, after the usual conversions;
* `ProtoConstraint.Holds` — what it is for a message to satisfy a constraint.
-/

/-! ### Descriptors -/

/-- `FieldDescriptor::CppType`. -/
inductive CppType where
  | int32 | int64 | uint32 | uint64 | double | float | bool | enum | string | message
  deriving DecidableEq, Repr

/-- `kCppToVariantTypeMap`; `none` is an entry of `-1`. -/
def CppType.variantType : CppType → Option ProtoValueIndex
  | int32 | enum => some .kInt32
  | int64 => some .kInt64
  | uint32 => some .kUint32
  | uint64 => some .kUint64
  | double => some .kDouble
  | float => some .kFloat
  | bool => some .kBool
  | string => some .kString
  | message => none

/-- `IsIntType`. -/
def isIntType : Option ProtoValueIndex → Bool
  | some .kInt32 | some .kInt64 | some .kUint32 | some .kUint64 => true
  | _ => false

/-- What a field holds. -/
inductive FieldValue where
  | value (v : ProtoValue)
  | nan
  | message
  deriving DecidableEq

/-- The values of a field of a type. -/
def CppType.Admits (t : CppType) : FieldValue → Prop
  | .value v => t.variantType = some v.index
  | .nan => t = .double ∨ t = .float
  | .message => t = .message

instance (t : CppType) (v : FieldValue) : Decidable (t.Admits v) := by
  cases v <;> unfold CppType.Admits <;> infer_instance

/-- The descriptors of fields and oneofs.  `closedEnum` are the numbers of the type of a field
    that takes no others. -/
structure DescriptorPool (Field Oneof : Type) where
  name : Field → String
  fullName : Field → String
  index : Field → Nat
  cppType : Field → CppType
  closedEnum : Field → Option (List Int32)
  containingOneof : Field → Option Oneof
  oneofName : Oneof → String
  field : Oneof → List Field
  defaultValue : Field → FieldValue
  fullName_injective : Function.Injective fullName
  index_lt : ∀ f, index f < 2 ^ 31
  mem_field : ∀ f o, f ∈ field o ↔ containingOneof f = some o
  name_nodup : ∀ o, ((field o).map name).Nodup
  closedEnum_type : ∀ f numbers, closedEnum f = some numbers → cppType f = .enum
  default_admitted : ∀ f, (cppType f).Admits (defaultValue f) ∧
    ∀ numbers, closedEnum f = some numbers → ∃ n ∈ numbers, defaultValue f = .value (.int32 n)

variable {Field Oneof : Type}

/-- The values that a field can hold. -/
def DescriptorPool.Admits (pool : DescriptorPool Field Oneof) (f : Field) (v : FieldValue) : Prop :=
  (pool.cppType f).Admits v ∧
    ∀ numbers, pool.closedEnum f = some numbers → ∃ n ∈ numbers, v = .value (.int32 n)

theorem DescriptorPool.admits_default (pool : DescriptorPool Field Oneof) (f : Field) :
    pool.Admits f (pool.defaultValue f) := pool.default_admitted f

/-- A message: the fields that are there, with what they hold, at most one of a oneof. -/
structure Message (pool : DescriptorPool Field Oneof) where
  field : Field → Option FieldValue
  admitted : ∀ f v, field f = some v → pool.Admits f v
  oneof_unique : ∀ f g o, pool.containingOneof f = some o → pool.containingOneof g = some o →
    (field f).isSome → (field g).isSome → f = g

namespace Message

variable {pool : DescriptorPool Field Oneof}

/-- The value that an accessor returns: the default for a field that is not there. -/
def get (m : Message pool) (f : Field) : FieldValue := (m.field f).getD (pool.defaultValue f)

/-- The field is there; for a member of a oneof, it is the active one. -/
def Has (m : Message pool) (f : Field) : Prop := (m.field f).isSome

theorem admits_get (m : Message pool) (f : Field) : pool.Admits f (m.get f) := by
  unfold get
  cases h : m.field f with
  | none => exact pool.admits_default f
  | some v => exact m.admitted f v h

theorem exists_get {f : Field} {v : FieldValue} (h : pool.Admits f v) :
    ∃ m : Message pool, m.get f = v := by
  classical
  refine ⟨⟨fun g => if g = f then some v else none, fun g w hw => ?_, fun g g' _ _ _ hg hg' => ?_⟩,
    ?_⟩
  · split at hw
    · rename_i hfield
      cases hw
      exact hfield ▸ h
    · cases hw
  · have hfield : ∀ g, (if g = f then some v else none).isSome → g = f := by
      intro g hg
      by_contra hne
      simp [hne] at hg
    rw [hfield g hg, hfield g' hg']
  · simp [get]

end Message

/-! ### Comparisons -/

/-- The C++ type of the values of an integer type or of `bool`. -/
def ProtoValueIndex.intTy : ProtoValueIndex → IntTy
  | .kInt32 => .int
  | .kInt64 => .long
  | .kUint32 => .uint
  | .kUint64 => .ulong
  | _ => ⟨false, 8, Nat.succ_pos _⟩

/-- The place of a natural number among those of a floating point format, which it is rounded
    to, to nearest with ties to even. -/
def rankOfNat (precision bias n : Nat) : Int :=
  if n = 0 then 0
  else
    let exponent := n.log2
    let dropped := exponent + 1 - precision
    let quotient := n / 2 ^ dropped
    let rest := n % 2 ^ dropped
    let up := 2 ^ dropped < 2 * rest ∨ (2 ^ dropped = 2 * rest ∧ quotient % 2 = 1)
    -- A significand that is rounded up to a power of two carries into the exponent.
    let significand := (quotient + if up then 1 else 0) * 2 ^ (precision - 1 - exponent)
    ((exponent + bias : Nat) - 1 : Int) * 2 ^ (precision - 1) + significand

/-- Conversion of an integer to a floating point format. -/
def rankOfInt (precision bias : Nat) (v : Int) : Int :=
  if v < 0 then -rankOfNat precision bias v.natAbs else rankOfNat precision bias v.natAbs

/-- Conversion of the magnitude of a `float` to `double`. -/
def widenMagnitude (r : Nat) : Int :=
  if r = 0 then 0
  else if r = 0x7f800000 then 0x7ff0000000000000
  else if r < 2 ^ 23 then rankOfNat 53 1023 r - 149 * 2 ^ 52
  else rankOfNat 53 1023 (2 ^ 23 + r % 2 ^ 23) + ((r / 2 ^ 23 : Nat) - 150 : Int) * 2 ^ 52

/-- The place of a number among those of `double`. -/
def ProtoValue.doubleRank : ProtoValue → Int
  | .double v => v.rank
  | .float v => if v.rank < 0 then -widenMagnitude v.rank.natAbs else widenMagnitude v.rank.natAbs
  | v => rankOfInt 53 1023 v.rank

/-- The place of a number that is not a `double` among those of `float`. -/
def ProtoValue.floatRank : ProtoValue → Int
  | .float v => v.rank
  | v => rankOfInt 24 127 v.rank

/-- Comparison of two values after the usual arithmetic conversions; strings are compared with
    strings only. -/
def order : ProtoValue → ProtoValue → Option Ordering
  | .string s, .string t => some (compare s t)
  | a, b =>
    if a.index = .kString ∨ b.index = .kString then none
    else if a.index = .kDouble ∨ b.index = .kDouble then some (compare a.doubleRank b.doubleRank)
    else if a.index = .kFloat ∨ b.index = .kFloat then some (compare a.floatRank b.floatRank)
    else
      let t := IntTy.common a.index.intTy b.index.intTy
      some (compare (t.wrap a.rank) (t.wrap b.rank))

/-- `ConstraintType`. -/
inductive ConstraintType where
  | kEq | kNe | kLt | kLe | kGt | kGe | kHas
  deriving DecidableEq, Repr

/-- The orders of the two sides for which a comparison is true. -/
def ConstraintType.accepts : ConstraintType → Ordering → Bool
  | .kEq, o => o = .eq
  | .kNe, o => o ≠ .eq
  | .kLt, o => o = .lt
  | .kLe, o => o ≠ .gt
  | .kGt, o => o = .gt
  | .kGe, o => o ≠ .lt
  | .kHas, _ => false

/-- The comparison of a value of a field with one of an expression; a NaN is different from
    every number. -/
def Compares (op : ConstraintType) (v : FieldValue) (e : ProtoValue) : Prop :=
  match v with
  | .value v => ∃ o ∈ order v e, op.accepts o
  | .nan => op = .kNe ∧ e.index ≠ .kString
  | .message => False

/-! ### Constraints -/

/-- The parse context of a constraint, by its qualified identifier: the text, and the field that
    its accessors lead to. -/
structure FieldConstraintCtx (Field : Type) where
  qualifiedIdent : String
  field : Field
  deriving DecidableEq, Repr

/-- `ProtoConstraint`; an expression stands for its value, `dependsOn` is the field of the
    constraint that it points to. -/
structure ProtoConstraint (Field : Type) where
  ctx : Option (FieldConstraintCtx Field)
  fieldDescriptor : Field
  op : ConstraintType
  expr : Option ProtoValue
  dependsOn : Option Field
  deriving DecidableEq

/-- A message satisfies a constraint. -/
def ProtoConstraint.Holds {pool : DescriptorPool Field Oneof} (m : Message pool)
    (c : ProtoConstraint Field) : Prop :=
  if c.op = .kHas then m.Has c.fieldDescriptor
  else ∃ e ∈ c.expr, Compares c.op (m.get c.fieldDescriptor) e

theorem ProtoConstraint.holds_has {pool : DescriptorPool Field Oneof} (m : Message pool)
    {c : ProtoConstraint Field} (h : c.op = .kHas) : c.Holds m ↔ m.Has c.fieldDescriptor := by
  rw [Holds, if_pos h]

end MpactSim.Proto
