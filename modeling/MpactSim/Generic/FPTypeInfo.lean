import MpactSim.Cpp.Rules
import MpactSim.Lib.FloatFormat

namespace MpactSim.Generic

open Cpp Lib

/-!
# Floating point type information

`FPTypeInfo` has the masks of a floating point type and predicates on its values.  It is also
there for integers that hold the pattern of a floating point value.

* `FPTypeInfo.test` — the predicates, with the types that they are computed at;
* `test_isNaN` and the like — what a predicate says about a pattern;
* `agree_iff`       — the patterns on which an integer type agrees with the floating point type.
-/

/-! ### The predicates -/

/-- `==` of two integers. -/
def equal (a b : Val) : Bool :=
  (IntTy.common a.ty b.ty).wrap a.val = (IntTy.common a.ty b.ty).wrap b.val

/-- What the specialisations of `FPTypeInfo` differ in.  `signed` and `width` are those of the
    integer that the predicates look at, and `oneTy` is the type of the literal that is shifted
    to the quiet bit. -/
structure FPTypeInfo where
  signed : Bool
  width : Nat
  kBitSize : Nat
  kExpSize : Nat
  oneTy : IntTy
  sizes : kExpSize + 2 ≤ kBitSize ∧ kBitSize ≤ width
  literal : 2 ^ (kBitSize - kExpSize - 2) < oneTy.upper

namespace FPTypeInfo

variable (info : FPTypeInfo)

theorem width_pos : 0 < info.width := by
  have := info.sizes
  omega

/-- The type of the integer that the predicates look at. -/
def valueTy : IntTy := ⟨info.signed, info.width, info.width_pos⟩

/-- `UIntType`. -/
def uintTy : IntTy := ⟨false, info.width, info.width_pos⟩

/-- `kSigSize`. -/
def kSigSize : Nat := info.kBitSize - info.kExpSize - 1

/-- `kInfMask`. -/
def kInfMask : Val := .of info.uintTy (2 ^ (info.kBitSize - 1) - 1 : Nat)

/-- `kExpMask`. -/
def kExpMask : Val := .of info.uintTy ((2 ^ info.kExpSize - 1) * 2 ^ info.kSigSize : Nat)

/-- `kSigMask`. -/
def kSigMask : Val := .of info.uintTy (2 ^ info.kSigSize - 1 : Nat)

/-- `kPosInf`. -/
def kPosInf : Val := info.kExpMask

/-- `1 << (kSigSize - 1)`. -/
def quietMask : Val := .of info.oneTy (2 ^ (info.kSigSize - 1) : Nat)

/-- `IsInf`. -/
def isInf (value : Val) : Bool := equal (.arith Int.land value info.kInfMask) info.kPosInf

/-- `IsNaN`. -/
def isNaN (value : Val) : Bool :=
  equal (.arith Int.land value info.kExpMask) info.kExpMask &&
    !equal (.arith Int.land value info.kSigMask) (.of .int 0)

/-- `IsSNaN`. -/
def isSNaN (value : Val) : Bool :=
  info.isNaN value && equal (.arith Int.land info.quietMask value) (.of .int 0)

/-- `IsQNaN`. -/
def isQNaN (value : Val) : Bool :=
  info.isNaN value && !equal (.arith Int.land info.quietMask value) (.of .int 0)

/-- `SignBit`.  The count of the shift is below the width. -/
def signBit (value : Val) : Bool :=
  equal (.of .int 1) (.of value.ty.promote (value.val / 2 ^ (info.kBitSize - 1)))

end FPTypeInfo

/-- The predicates of `FPTypeInfo`. -/
inductive FPPredicate where
  | isNaN | isInf | isSNaN | isQNaN | signBit
  deriving DecidableEq

/-- A predicate on a value. -/
def FPTypeInfo.test (info : FPTypeInfo) : FPPredicate → Val → Bool
  | .isNaN => info.isNaN
  | .isInf => info.isInf
  | .isSNaN => info.isSNaN
  | .isQNaN => info.isQNaN
  | .signBit => info.signBit

/-! ### The specialisations -/

/-- `FPTypeInfo<HalfFP>`. -/
def halfFP : FPTypeInfo := ⟨false, 16, 16, 5, .int, by decide, by decide⟩

/-- `FPTypeInfo<float>`. -/
def float : FPTypeInfo := ⟨false, 32, 32, 8, .int, by decide, by decide⟩

/-- `FPTypeInfo<double>`. -/
def double : FPTypeInfo := ⟨false, 64, 64, 11, .ulong, by decide, by decide⟩

/-- `FPTypeInfo<uint16_t>`. -/
def uint16 : FPTypeInfo := ⟨false, 16, 16, 5, .int, by decide, by decide⟩

/-- `FPTypeInfo<int16_t>`. -/
def int16 : FPTypeInfo := ⟨true, 16, 16, 5, .int, by decide, by decide⟩

/-- `FPTypeInfo<uint32_t>`. -/
def uint32 : FPTypeInfo := ⟨false, 32, 32, 8, .ulong, by decide, by decide⟩

/-- `FPTypeInfo<int32_t>`. -/
def int32 : FPTypeInfo := ⟨true, 32, 32, 8, .ulong, by decide, by decide⟩

/-- `FPTypeInfo<uint64_t>`.  Its sizes are those of `float`. -/
def uint64 : FPTypeInfo := ⟨false, 64, 32, 8, .ulong, by decide, by decide⟩

/-- `FPTypeInfo<int64_t>`.  Its sizes are those of `float`, too. -/
def int64 : FPTypeInfo := ⟨true, 64, 32, 8, .ulong, by decide, by decide⟩

/-- The widths that there are types for. -/
inductive FPWidth where
  | half | single | double
  deriving DecidableEq

namespace FPWidth

/-- Number of bits. -/
def bits : FPWidth → Nat
  | half => 16
  | single => 32
  | double => 64

/-- The floating point type of a width. -/
def floating : FPWidth → FPTypeInfo
  | half => halfFP
  | single => float
  | double => Generic.double

/-- The integer types of a width. -/
def integer : FPWidth → (signed : Bool) → FPTypeInfo
  | half, signed => if signed then int16 else uint16
  | single, signed => if signed then int32 else uint32
  | double, signed => if signed then int64 else uint64

end FPWidth

/-! ### Patterns -/

/-- The value with a pattern. -/
def FPTypeInfo.ofPattern (info : FPTypeInfo) (pattern : Nat) : Val := .of info.valueTy pattern

theorem equal_iff {a b : Val} (ha : 0 ≤ a.val) (hb : 0 ≤ b.val) :
    equal a b = true ↔ a.val = b.val := by
  rw [equal, Val.wrap_common_left b ha, Val.wrap_common_right a hb]
  exact decide_eq_true_iff

namespace FPTypeInfo

variable {info : FPTypeInfo} {n m : Nat}

/-- A mask does not see whether its other operand is extended by its sign or by zeros. -/
theorem and_pattern {u : IntTy} (hm : m < 2 ^ info.width) (hu : (m : Int) < u.upper) :
    (Val.arith Int.land (info.ofPattern n) (.of u m)).val = ((n &&& m : Nat) : Int) := by
  have hmask : (Val.of u m).val = m := IntTy.wrap_of_nonneg (Int.natCast_nonneg m) hu
  have hle : (m : Int) < (IntTy.common info.valueTy u).upper :=
    lt_of_lt_of_le hu (IntTy.upper_le_common_right _ _)
  have hand : Int.land ((IntTy.common info.valueTy u).wrap (info.ofPattern n).val) m =
      ((n &&& m : Nat) : Int) := by
    apply eq_of_testBit_eq
    intro i
    rw [Int.testBit_land, testBit_natCast, testBit_natCast, Nat.testBit_and]
    cases hbit : m.testBit i with
    | false => simp
    | true =>
      -- A bit of the mask is below the width of the value.
      have hi : i < info.width := by
        by_contra hge
        have hle := Nat.pow_le_pow_right (n := 2) two_pos (not_lt.mp hge)
        rw [Nat.testBit_lt_two_pow (lt_of_lt_of_le hm hle)] at hbit
        exact Bool.false_ne_true hbit
      have hwide := (IntTy.width_le_common info.valueTy u).1
      rw [IntTy.testBit_wrap, if_pos (lt_of_lt_of_le hi hwide)]
      show ((info.valueTy.wrap n).testBit i && true) = _
      rw [IntTy.testBit_wrap, if_pos (show i < info.valueTy.width from hi), testBit_natCast]
  rw [Val.arith, Val.of_val, hmask]
  show (IntTy.common info.valueTy u).wrap (Int.land _ ((IntTy.common info.valueTy u).wrap m)) = _
  rw [IntTy.wrap_of_nonneg (Int.natCast_nonneg m) hle]
  refine (congrArg _ hand).trans (IntTy.wrap_of_nonneg (Int.natCast_nonneg _) ?_)
  exact lt_of_le_of_lt (by exact_mod_cast Nat.and_le_right) hle

theorem common_comm (a b : IntTy) : IntTy.common a b = IntTy.common b a := by
  unfold IntTy.common
  dsimp only
  generalize a.promote = p
  generalize b.promote = q
  -- Types of one width differ at most in their sign.
  have hsign : ¬ p.width < q.width → ¬ q.width < p.width → p.signed = q.signed → p = q := by
    intro hle hge hsigned
    obtain ⟨signed, width, _⟩ := p
    obtain ⟨signed', width', _⟩ := q
    simp only at hle hge hsigned
    obtain rfl : width = width' := by omega
    subst hsigned
    rfl
  split_ifs with h h' <;> grind

theorem arith_land_comm (a b : Val) : Val.arith Int.land a b = Val.arith Int.land b a := by
  rw [Val.arith, Val.arith, common_comm a.ty b.ty]
  congr 1
  apply eq_of_testBit_eq
  intro i
  rw [Int.testBit_land, Int.testBit_land, Bool.and_comm]

/-! ### What the predicates say -/

/-- The format that the sizes are those of. -/
def format (info : FPTypeInfo) : FloatFormat := ⟨info.kExpSize, info.kSigSize⟩

theorem format_bits (info : FPTypeInfo) :
    info.format.fractionBits + info.format.exponentBits = info.kBitSize - 1 := by
  have := info.sizes
  show info.kBitSize - info.kExpSize - 1 + info.kExpSize = _
  omega

theorem mask_lt (hm : m < 2 ^ info.width) : (m : Int) < info.uintTy.upper := by
  rw [IntTy.upper_eq]
  exact_mod_cast hm

theorem infinity_lt (info : FPTypeInfo) : info.format.infinity < 2 ^ info.width := by
  calc info.format.infinity
      < 2 ^ info.format.exponentBits * 2 ^ info.format.fractionBits :=
        Nat.mul_lt_mul_of_pos_right (Nat.sub_lt (Nat.two_pow_pos _) one_pos) (Nat.two_pow_pos _)
    _ = 2 ^ (info.kBitSize - 1) := by rw [← info.format_bits, Nat.add_comm, pow_add]
    _ ≤ 2 ^ info.width := by
        have := info.sizes
        exact Nat.pow_le_pow_right two_pos (by omega)

theorem low_lt {k : Nat} (hk : k ≤ info.width) : 2 ^ k - 1 < 2 ^ info.width :=
  lt_of_lt_of_le (Nat.sub_lt (Nat.two_pow_pos k) one_pos) (Nat.pow_le_pow_right two_pos hk)

theorem kExpMask_val (info : FPTypeInfo) : info.kExpMask.val = info.format.infinity :=
  IntTy.wrap_of_nonneg (Int.natCast_nonneg _) (mask_lt info.infinity_lt)

theorem equal_and_pattern (hm : m < 2 ^ info.width) {b : Val} {k : Nat} (hb : b.val = k) :
    equal (.arith Int.land (info.ofPattern n) (.of info.uintTy m)) b = true ↔ n &&& m = k := by
  have hand := and_pattern (n := n) hm (mask_lt hm)
  rw [equal_iff (by omega) (by omega), hand, hb]
  norm_cast

theorem isInf_pattern (n : Nat) :
    info.isInf (info.ofPattern n) = true ↔ info.format.kind n = .infinite := by
  have := info.sizes
  rw [info.format.infinite_iff, info.format_bits, ← Nat.and_two_pow_sub_one_eq_mod]
  exact equal_and_pattern (low_lt (by omega)) info.kExpMask_val

theorem isNaN_pattern (n : Nat) : info.isNaN (info.ofPattern n) = true ↔
    info.format.kind n = .quietNaN ∨ info.format.kind n = .signalingNaN := by
  have := info.sizes
  have hexp := equal_and_pattern (n := n) info.infinity_lt info.kExpMask_val
  have hsig := @equal_and_pattern info n (2 ^ info.kSigSize - 1) (low_lt (by unfold kSigSize; omega))
    (.of .int 0) 0 rfl
  rw [isNaN, Bool.and_eq_true, Bool.not_eq_true', ← Bool.not_eq_true, info.format.nan_iff]
  exact and_congr hexp (not_congr hsig)

theorem equal_quietMask (n : Nat) :
    equal (.arith Int.land info.quietMask (info.ofPattern n)) (.of .int 0) = true ↔
      n.testBit (info.format.fractionBits - 1) = false := by
  have hsizes := info.sizes
  have hlt : 2 ^ (info.kSigSize - 1) < 2 ^ info.width :=
    Nat.pow_lt_pow_right (by norm_num) (by unfold kSigSize; omega)
  have hupper : ((2 ^ (info.kSigSize - 1) : Nat) : Int) < info.oneTy.upper := by
    have := info.literal
    rw [show info.kSigSize - 1 = info.kBitSize - info.kExpSize - 2 by unfold kSigSize; omega]
    exact_mod_cast this
  have hand := and_pattern (n := n) hlt hupper
  rw [arith_land_comm, quietMask, equal_iff (by omega) (le_refl 0), hand, Nat.and_two_pow]
  show _ = ((0 : Nat) : Int) ↔ n.testBit (info.kSigSize - 1) = false
  rw [Int.natCast_inj]
  cases n.testBit (info.kSigSize - 1) <;> simp

theorem isSNaN_pattern (n : Nat) :
    info.isSNaN (info.ofPattern n) = true ↔ info.format.kind n = .signalingNaN := by
  rw [isSNaN, Bool.and_eq_true]
  exact (and_congr (isNaN_pattern n) (equal_quietMask n)).trans
    (info.format.signalingNaN_iff n).symm

theorem isQNaN_pattern (n : Nat) :
    info.isQNaN (info.ofPattern n) = true ↔ info.format.kind n = .quietNaN := by
  have hquiet := not_congr (@equal_quietMask info n)
  rw [Bool.not_eq_false] at hquiet
  rw [isQNaN, Bool.and_eq_true, Bool.not_eq_true', ← Bool.not_eq_true]
  exact (and_congr (isNaN_pattern n) hquiet).trans (info.format.quietNaN_iff n).symm

theorem common_int_promote (t : IntTy) : IntTy.common .int t.promote = t.promote := by
  have hwidth := t.promote_width
  unfold IntTy.common
  rw [t.promote_promote]
  show (if 32 < t.promote.width then t.promote else if t.promote.width < 32 then .int
    else t.promote) = _
  split_ifs
  · rfl
  · omega
  · rfl

theorem bias_le_promote (t : IntTy) : t.bias ≤ t.promote.bias := by
  unfold IntTy.promote
  split
  · rename_i hnarrow
    rw [IntTy.bias]
    split
    · exact pow_le_pow_right₀ (by norm_num) (show t.width - 1 ≤ 31 by omega)
    · exact IntTy.int.bias_nonneg
  · exact le_refl _

theorem promote_wrap_div (a : Val) (k : Nat) :
    a.ty.promote.wrap (a.val / 2 ^ k) = a.val / 2 ^ k := by
  have hpow : (1 : Int) ≤ 2 ^ k := one_le_pow₀ (by norm_num)
  have hlow : -a.ty.bias ≤ a.val := by
    rw [← a.inRange]
    exact a.ty.neg_bias_le_wrap _
  have hbias := bias_le_promote a.ty
  have hupper := a.ty.upper_le_promote
  have hlt := a.val_lt
  by_cases hneg : a.val < 0
  · have hge : a.val ≤ a.val / 2 ^ k := by
      rw [Int.le_ediv_iff_mul_le (by omega)]
      nlinarith
    have hneg' : a.val / 2 ^ k < 0 := Int.ediv_neg_of_neg_of_pos hneg (by omega)
    have hpos : 0 < a.ty.promote.upper := by
      rw [IntTy.upper_eq]
      positivity
    exact IntTy.wrap_eq_self (by omega) (by omega)
  · have hle : a.val / 2 ^ k ≤ a.val := Int.ediv_le_self _ (not_lt.mp hneg)
    have hnonneg : 0 ≤ a.val / 2 ^ k := Int.ediv_nonneg (not_lt.mp hneg) (by omega)
    exact IntTy.wrap_of_nonneg hnonneg (by omega)

theorem signBit_iff (a : Val) : info.signBit a = true ↔ a.val / 2 ^ (info.kBitSize - 1) = 1 := by
  have hone : a.ty.promote.wrap (IntTy.int.wrap 1) = 1 := by
    have hle := IntTy.upper_le_common_left .int a.ty.promote
    rw [common_int_promote, IntTy.upper_int] at hle
    exact IntTy.wrap_of_nonneg one_pos.le (lt_of_lt_of_le (by decide) hle)
  rw [signBit, equal]
  show decide ((IntTy.common .int a.ty.promote).wrap (IntTy.int.wrap 1) =
    (IntTy.common .int a.ty.promote).wrap (a.ty.promote.wrap _)) = true ↔ _
  rw [common_int_promote, IntTy.wrap_wrap, promote_wrap_div, hone, decide_eq_true_iff]
  exact eq_comm

/-- What a predicate says about a pattern. -/
def Says (info : FPTypeInfo) (n : Nat) : FPPredicate → Prop
  | .isNaN => info.format.kind n = .quietNaN ∨ info.format.kind n = .signalingNaN
  | .isInf => info.format.kind n = .infinite
  | .isSNaN => info.format.kind n = .signalingNaN
  | .isQNaN => info.format.kind n = .quietNaN
  | .signBit => info.valueTy.wrap n / 2 ^ (info.kBitSize - 1) = 1

/-- **Predicates.** They tell the kinds of the format apart that the sizes are those of. -/
theorem test_iff (info : FPTypeInfo) (n : Nat) (p : FPPredicate) :
    info.test p (info.ofPattern n) = true ↔ info.Says n p := by
  cases p with
  | isNaN => exact info.isNaN_pattern n
  | isInf => exact info.isInf_pattern n
  | isSNaN => exact info.isSNaN_pattern n
  | isQNaN => exact info.isQNaN_pattern n
  | signBit => exact info.signBit_iff _

theorem says_iff (info info' : FPTypeInfo) (n : Nat) :
    (∀ p, info.Says n p ↔ info'.Says n p) ↔ info.format.kind n = info'.format.kind n ∧
      (info.Says n .signBit ↔ info'.Says n .signBit) := by
  constructor
  · intro h
    refine ⟨?_, h .signBit⟩
    have hinf := h .isInf
    have hquiet := h .isQNaN
    have hsignaling := h .isSNaN
    simp only [Says] at hinf hquiet hsignaling
    revert hinf hquiet hsignaling
    cases info.format.kind n <;> cases info'.format.kind n <;> simp
  · intro ⟨hkind, hsign⟩ p
    cases p with
    | signBit => exact hsign
    | isNaN => exact iff_of_eq (by rw [Says, Says, hkind])
    | isInf => exact iff_of_eq (by rw [Says, Says, hkind])
    | isSNaN => exact iff_of_eq (by rw [Says, Says, hkind])
    | isQNaN => exact iff_of_eq (by rw [Says, Says, hkind])

end FPTypeInfo

/-! ### Integer views -/

/-- The predicates of an integer type return for a pattern what those of the floating point type
    return. -/
def Agree (w : FPWidth) (signed : Bool) (pattern : BitVec w.bits) : Prop :=
  ∀ p, (w.integer signed).test p ((w.integer signed).ofPattern pattern.toNat) =
    w.floating.test p (w.floating.ofPattern pattern.toNat)

/-- The patterns without a difference.  A negative one has no sign bit as a signed integer; the
    types of 64 bits look at the low word, and the sign bit is the rest above bit 30. -/
def AgreeWhen : (w : FPWidth) → (signed : Bool) → BitVec w.bits → Prop
  | .half, signed, pattern => signed = true → pattern.toNat < 2 ^ 15
  | .single, signed, pattern => signed = true → pattern.toNat < 2 ^ 31
  | .double, _, pattern =>
    float.format.kind pattern.toNat = double.format.kind pattern.toNat ∧
      pattern.toNat < 2 ^ 63 ∧ pattern.toNat / 2 ^ 31 ≠ 1

theorem says_signBit_unsigned (info : FPTypeInfo) (hsigned : info.signed = false) {n : Nat}
    (hlt : n < 2 ^ info.width) :
    info.Says n .signBit ↔ n / 2 ^ (info.kBitSize - 1) = 1 := by
  have hwrap : info.valueTy.wrap n = n := by
    apply IntTy.wrap_of_nonneg (Int.natCast_nonneg n)
    rw [IntTy.upper_eq, show info.valueTy.signed = false from hsigned]
    exact_mod_cast hlt
  show info.valueTy.wrap n / 2 ^ (info.kBitSize - 1) = 1 ↔ _
  rw [hwrap]
  norm_cast

theorem says_signBit_signed (info : FPTypeInfo) (hsigned : info.signed = true) {n : Nat}
    (hlt : n < 2 ^ info.width) : info.Says n .signBit ↔
      n < 2 ^ (info.width - 1) ∧ n / 2 ^ (info.kBitSize - 1) = 1 := by
  have hupper : info.valueTy.upper = 2 ^ (info.width - 1) := by
    rw [IntTy.upper_eq, show info.valueTy.signed = true from hsigned]
    rfl
  have hbias : info.valueTy.bias = 2 ^ (info.width - 1) := IntTy.bias_signed hsigned
  show info.valueTy.wrap n / 2 ^ (info.kBitSize - 1) = 1 ↔ _
  by_cases hsmall : n < 2 ^ (info.width - 1)
  · have hwrap : info.valueTy.wrap n = n := by
      apply IntTy.wrap_of_nonneg (Int.natCast_nonneg n)
      rw [hupper]
      exact_mod_cast hsmall
    rw [hwrap, and_iff_right hsmall]
    norm_cast
  · have hwrap : info.valueTy.wrap n = n - 2 ^ info.width := by
      have hge : (2 : Int) ^ (info.width - 1) ≤ n := by exact_mod_cast not_lt.mp hsmall
      have hlt' : (n : Int) < 2 ^ info.width := by exact_mod_cast hlt
      have hdouble := info.valueTy.two_pow_width
      rw [show info.valueTy.width = info.width from rfl] at hdouble
      rw [← IntTy.wrap_sub_two_pow, show info.valueTy.width = info.width from rfl]
      exact IntTy.wrap_eq_self (by omega) (by omega)
    have hneg : ((n : Int) - 2 ^ info.width) / 2 ^ (info.kBitSize - 1) < 0 := by
      have hlt' : (n : Int) < 2 ^ info.width := by exact_mod_cast hlt
      exact Int.ediv_neg_of_neg_of_pos (by omega) (by positivity)
    rw [hwrap]
    constructor
    · omega
    · exact fun h => absurd h.1 hsmall

/-- **Integer views.** The types of 16 and 32 bits agree, but for the sign bit of a signed
    integer.  Those of 64 bits have the sizes of `float`. -/
theorem agree_iff (w : FPWidth) (signed : Bool) (pattern : BitVec w.bits) :
    Agree w signed pattern ↔ AgreeWhen w signed pattern := by
  have hlt := pattern.isLt
  have hagree : Agree w signed pattern ↔
      ∀ p, (w.integer signed).Says pattern.toNat p ↔ w.floating.Says pattern.toNat p := by
    apply forall_congr'
    intro p
    rw [Bool.eq_iff_iff, FPTypeInfo.test_iff, FPTypeInfo.test_iff]
  rw [hagree, FPTypeInfo.says_iff]
  clear hagree
  cases w with
  | half =>
    refine Iff.trans (and_iff_right (by cases signed <;> rfl)) ?_
    cases signed with
    | false => exact ⟨fun _ h => absurd h Bool.false_ne_true, fun _ => Iff.rfl⟩
    | true =>
      refine Iff.trans (iff_congr (says_signBit_signed int16 rfl hlt)
        (says_signBit_unsigned halfFP rfl hlt)) ?_
      refine Iff.trans ?_ (forall_prop_of_true rfl).symm
      show (pattern.toNat < 2 ^ 15 ∧ pattern.toNat / 2 ^ 15 = 1 ↔ pattern.toNat / 2 ^ 15 = 1) ↔
        pattern.toNat < 2 ^ 15
      change pattern.toNat < 2 ^ 16 at hlt
      omega
  | single =>
    refine Iff.trans (and_iff_right (by cases signed <;> rfl)) ?_
    cases signed with
    | false => exact ⟨fun _ h => absurd h Bool.false_ne_true, fun _ => Iff.rfl⟩
    | true =>
      refine Iff.trans (iff_congr (says_signBit_signed int32 rfl hlt)
        (says_signBit_unsigned float rfl hlt)) ?_
      refine Iff.trans ?_ (forall_prop_of_true rfl).symm
      show (pattern.toNat < 2 ^ 31 ∧ pattern.toNat / 2 ^ 31 = 1 ↔ pattern.toNat / 2 ^ 31 = 1) ↔
        pattern.toNat < 2 ^ 31
      change pattern.toNat < 2 ^ 32 at hlt
      omega
  | double =>
    -- Both types look for a 1 above bit 30, and neither finds one in a negative value.
    have hinteger : (FPWidth.double.integer signed).Says pattern.toNat .signBit ↔
        pattern.toNat / 2 ^ 31 = 1 := by
      cases signed with
      | false => exact says_signBit_unsigned uint64 rfl hlt
      | true =>
        refine (says_signBit_signed int64 rfl hlt).trans (and_iff_right_of_imp ?_)
        show pattern.toNat / 2 ^ 31 = 1 → pattern.toNat < 2 ^ 63
        omega
    have hformat : (FPWidth.double.integer signed).format = float.format := by
      cases signed <;> rfl
    rw [hformat]
    refine and_congr Iff.rfl ((iff_congr hinteger
      (says_signBit_unsigned double rfl hlt)).trans ?_)
    show (pattern.toNat / 2 ^ 31 = 1 ↔ pattern.toNat / 2 ^ 63 = 1) ↔
      pattern.toNat < 2 ^ 63 ∧ pattern.toNat / 2 ^ 31 ≠ 1
    change pattern.toNat < 2 ^ 64 at hlt
    omega

/-- The sign of a negative `int32_t` and infinity as a `uint64_t` go unnoticed. -/
theorem not_agree : ¬ Agree .single true 0x80000000#32 ∧
    ¬ Agree .double false 0x7ff0000000000000#64 := by
  refine ⟨fun h => absurd (h .signBit) ?_, fun h => absurd (h .isInf) ?_⟩
  · decide +kernel
  · decide +kernel

end MpactSim.Generic
