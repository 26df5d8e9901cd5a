import Mathlib.Data.Int.Bitwise
import Mathlib.Tactic

namespace MpactSim.Cpp

/-!
# C++ integer types and values

The generators of this repository emit C++ text, and what that text computes
depends on the integer types it is evaluated at.  A value here is the mathematical
integer it stands for, tagged with its type:

* `IntTy.wrap`   — conversion to a type: reduction modulo `2 ^ width` into its range;
* `Val`          — a typed value, which carries the proof that it is in range;
* `IntTy.common` — integer promotion and the usual arithmetic conversions.

Bits are read with `Int.testBit`, for which a negative number is an infinite run of
ones, so promotion and sign extension never change a bit (`testBit_wrap`).
-/

/-! ### Bits of an integer -/

theorem testBit_eq_decide (v : Int) (i : Nat) :
    v.testBit i = decide (v / 2 ^ i % 2 = 1) := by
  cases v with
  | ofNat m =>
    show Nat.testBit m i = _
    rw [Nat.testBit_eq_decide_div_mod_eq]
    congr 1
    simp only [Int.ofNat_eq_natCast, eq_iff_iff]
    norm_cast
  | negSucc m =>
    show (!Nat.testBit m i) = _
    rw [Nat.testBit_eq_decide_div_mod_eq, ← decide_not, decide_eq_decide]
    have h : (Int.negSucc m) / 2 ^ i = -((m / 2 ^ i : Nat) : Int) - 1 := by
      rw [Int.negSucc_ediv _ (by positivity)]
      have hm : Int.ediv (m : Int) (2 ^ i) = ((m / 2 ^ i : Nat) : Int) := by norm_cast
      rw [hm]
      ring
    rw [h]
    omega

theorem testBit_mul_two_pow (v : Int) (k i : Nat) :
    (v * 2 ^ k).testBit i = (decide (k ≤ i) && v.testBit (i - k)) := by
  rw [testBit_eq_decide, testBit_eq_decide]
  by_cases h : k ≤ i
  · obtain ⟨j, rfl⟩ := Nat.exists_eq_add_of_le h
    have hdiv : v * 2 ^ k / 2 ^ (k + j) = v / 2 ^ j := by
      rw [pow_add, mul_comm v, Int.mul_ediv_mul_of_pos _ _ (by positivity)]
    simp [hdiv]
  · obtain ⟨j, hj⟩ := Nat.exists_eq_add_of_lt (not_le.mp h)
    have hdiv : v * 2 ^ k / 2 ^ i % 2 = 0 := by
      have hk : v * 2 ^ k = (v * 2 ^ j * 2) * 2 ^ i := by rw [hj]; ring
      rw [hk, Int.mul_ediv_cancel _ (by positivity)]
      exact Int.mul_emod_left _ _
    simp [hdiv, h]

theorem testBit_div_two_pow (v : Int) (k i : Nat) :
    (v / 2 ^ k).testBit i = v.testBit (i + k) := by
  rw [testBit_eq_decide, testBit_eq_decide, Int.ediv_ediv_of_nonneg (by positivity), ← pow_add,
    Nat.add_comm]

variable {i n : Nat} {v : Int}

theorem testBit_add_mul_two_pow (v k : Int) (h : i < n) :
    (v + k * 2 ^ n).testBit i = v.testBit i := by
  obtain ⟨j, rfl⟩ := Nat.exists_eq_add_of_lt h
  have hk : k * 2 ^ (i + j + 1) = (k * 2 ^ j * 2) * 2 ^ i := by ring
  rw [testBit_eq_decide, testBit_eq_decide, hk, Int.add_mul_ediv_right _ _ (by positivity)]
  congr 2
  omega

theorem testBit_of_lt_two_pow (h0 : 0 ≤ v) (h : v < 2 ^ n) (hi : n ≤ i) : v.testBit i = false := by
  have hle : (2 : Int) ^ n ≤ 2 ^ i := pow_le_pow_right₀ (by norm_num) hi
  rw [testBit_eq_decide, Int.ediv_eq_zero_of_lt h0 (by omega)]
  rfl

theorem testBit_of_neg (h0 : v < 0) (h : -2 ^ n ≤ v) (hi : n ≤ i) : v.testBit i = true := by
  have hle : (2 : Int) ^ n ≤ 2 ^ i := pow_le_pow_right₀ (by norm_num) hi
  have hdiv : v / 2 ^ i = -1 := by
    rw [Int.ediv_eq_iff_of_pos (by positivity)]
    omega
  rw [testBit_eq_decide, hdiv]
  rfl

theorem exists_testBit_ne (m n : Nat) : ∃ i, (Int.ofNat m).testBit i ≠ (Int.negSucc n).testBit i := by
  have hlt := Nat.lt_two_pow_self (n := m + n)
  have hm : Nat.testBit m (m + n) = false := Nat.testBit_lt_two_pow (by omega)
  have hn : Nat.testBit n (m + n) = false := Nat.testBit_lt_two_pow (by omega)
  refine ⟨m + n, ?_⟩
  show Nat.testBit m (m + n) ≠ !Nat.testBit n (m + n)
  rw [hm, hn]
  decide

theorem testBit_emod_two_pow (v : Int) (n i : Nat) :
    (v % 2 ^ n).testBit i = (decide (i < n) && v.testBit i) := by
  by_cases h : i < n
  · have hv : v = v % 2 ^ n + v / 2 ^ n * 2 ^ n := by
      rw [mul_comm, Int.emod_add_mul_ediv]
    rw [decide_eq_true h, Bool.true_and]
    conv_rhs => rw [hv]
    rw [testBit_add_mul_two_pow _ _ h]
  · rw [decide_eq_false h, Bool.false_and]
    exact testBit_of_lt_two_pow (Int.emod_nonneg _ (by positivity))
      (Int.emod_lt_of_pos _ (by positivity)) (not_lt.mp h)

theorem eq_of_testBit_eq {w : Int} (h : ∀ i, v.testBit i = w.testBit i) : v = w := by
  match v, w with
  | .ofNat m, .ofNat n => exact congrArg Int.ofNat (Nat.eq_of_testBit_eq h)
  | .ofNat m, .negSucc n =>
    obtain ⟨i, hi⟩ := exists_testBit_ne m n
    exact absurd (h i) hi
  | .negSucc m, .ofNat n =>
    obtain ⟨i, hi⟩ := exists_testBit_ne n m
    exact absurd (h i).symm hi
  | .negSucc m, .negSucc n =>
    have hmn : m = n := Nat.eq_of_testBit_eq (fun i => by simpa [Int.testBit] using h i)
    rw [hmn]

@[simp]
theorem testBit_natCast (n i : Nat) : (n : Int).testBit i = n.testBit i := rfl

theorem lt_two_pow_of_testBit (h0 : 0 ≤ v) (h : ∀ i, n ≤ i → v.testBit i = false) : v < 2 ^ n := by
  obtain ⟨m, rfl⟩ := Int.eq_ofNat_of_zero_le h0
  exact_mod_cast Nat.lt_pow_two_of_testBit m fun i hi => h i hi

/-! ### Types -/

/-- A C++ integer type: its signedness and its (positive) width in bits. -/
structure IntTy where
  signed : Bool
  width : Nat
  width_pos : 0 < width := by decide
  deriving DecidableEq, Repr

namespace IntTy

/-- `int`, on the LP64 targets the repository builds for. -/
def int : IntTy := ⟨true, 32, by decide⟩

/-- `unsigned int`. -/
def uint : IntTy := ⟨false, 32, by decide⟩

/-- `long` and `int64_t`. -/
def long : IntTy := ⟨true, 64, by decide⟩

/-- `unsigned long`, `unsigned long long` and `uint64_t`. -/
def ulong : IntTy := ⟨false, 64, by decide⟩

/-- `absl::uint128`, taken as an exact unsigned 128-bit type. -/
def uint128 : IntTy := ⟨false, 128, by decide⟩

/-- Half the modulus for a signed type, zero for an unsigned one: a type holds the
    integers from `-bias` up to `2 ^ width - bias`. -/
def bias (t : IntTy) : Int := if t.signed then 2 ^ (t.width - 1) else 0

/-- Conversion of an integer to the type: the representative modulo `2 ^ width` in
    the type's range. -/
def wrap (t : IntTy) (v : Int) : Int := (v + t.bias) % 2 ^ t.width - t.bias

/-- Integer promotion: a type narrower than `int` becomes `int`. -/
def promote (t : IntTy) : IntTy := if t.width < 32 then int else t

/-- The usual arithmetic conversions on two promoted types: the wider one, and the
    unsigned one when they are equally wide. -/
def common (a b : IntTy) : IntTy :=
  let a := a.promote
  let b := b.promote
  if a.width < b.width then b
  else if b.width < a.width then a
  else if a.signed then b else a

theorem bias_nonneg (t : IntTy) : 0 ≤ t.bias := by
  rw [bias]
  split <;> positivity

variable {t : IntTy}

theorem bias_signed (h : t.signed = true) : t.bias = 2 ^ (t.width - 1) := by
  simp [bias, h]

theorem bias_unsigned (h : t.signed = false) : t.bias = 0 := by simp [bias, h]

theorem two_pow_width (t : IntTy) : (2 : Int) ^ t.width = 2 * 2 ^ (t.width - 1) := by
  rw [← pow_succ']
  congr 1
  have := t.width_pos
  omega

/-- The nonnegative values of a type are those below its upper end. -/
def upper (t : IntTy) : Int := 2 ^ t.width - t.bias

theorem upper_eq (t : IntTy) : t.upper = 2 ^ (if t.signed then t.width - 1 else t.width) := by
  rw [upper]
  cases hs : t.signed with
  | false => rw [bias_unsigned hs]; simp
  | true => rw [bias_signed hs, two_pow_width]; simp; ring

theorem upper_le_promote (t : IntTy) : t.upper ≤ t.promote.upper := by
  have hpos := t.width_pos
  rw [upper_eq, upper_eq, promote]
  apply pow_le_pow_right₀ (by norm_num)
  split_ifs <;> simp_all [int] <;> omega

theorem upper_le_common_left (a b : IntTy) : a.upper ≤ (common a b).upper := by
  refine le_trans a.upper_le_promote ?_
  rw [common]
  generalize a.promote = p
  generalize b.promote = q
  split_ifs with h1 h2 h3
  · rw [upper_eq, upper_eq]
    exact pow_le_pow_right₀ (by norm_num) (by split_ifs <;> omega)
  · exact le_rfl
  · rw [upper_eq, upper_eq]
    exact pow_le_pow_right₀ (by norm_num) (by split_ifs <;> omega)
  · exact le_rfl

theorem upper_le_common_right (a b : IntTy) : b.upper ≤ (common a b).upper := by
  refine le_trans b.upper_le_promote ?_
  rw [common]
  generalize a.promote = p
  generalize b.promote = q
  split_ifs with h1 h2 h3
  · exact le_rfl
  · rw [upper_eq, upper_eq]
    exact pow_le_pow_right₀ (by norm_num) (by split_ifs <;> omega)
  · exact le_rfl
  · rw [upper_eq, upper_eq]
    exact pow_le_pow_right₀ (by norm_num) (by split_ifs <;> omega)

theorem neg_bias_le_wrap (t : IntTy) (v : Int) : -t.bias ≤ t.wrap v := by
  have := Int.emod_nonneg (v + t.bias) (b := 2 ^ t.width) (by positivity)
  rw [wrap]
  omega

theorem wrap_lt (t : IntTy) (v : Int) : t.wrap v < t.upper := by
  have := Int.emod_lt_of_pos (v + t.bias) (b := 2 ^ t.width) (by positivity)
  rw [wrap, upper]
  omega

theorem wrap_eq_self {v : Int} (h0 : -t.bias ≤ v) (h : v < t.upper) : t.wrap v = v := by
  rw [upper] at h
  rw [wrap, Int.emod_eq_of_lt (by omega) (by omega)]
  ring

@[simp]
theorem wrap_wrap (t : IntTy) (v : Int) : t.wrap (t.wrap v) = t.wrap v :=
  wrap_eq_self (t.neg_bias_le_wrap v) (t.wrap_lt v)

theorem wrap_of_nonneg {v : Int} (h0 : 0 ≤ v) (h : v < t.upper) : t.wrap v = v :=
  wrap_eq_self (by have := t.bias_nonneg; omega) h

theorem wrap_sub_two_pow (t : IntTy) (v : Int) : t.wrap (v - 2 ^ t.width) = t.wrap v := by
  rw [wrap, wrap, show v - 2 ^ t.width + t.bias = v + t.bias - 2 ^ t.width by ring,
    Int.sub_emod_right]

theorem exists_wrap_eq (t : IntTy) (v : Int) : ∃ k, t.wrap v = v + k * 2 ^ t.width := by
  refine ⟨-((v + t.bias) / 2 ^ t.width), ?_⟩
  rw [wrap, Int.emod_def]
  ring

/-- **Bits of a converted value.** Below the width they are those of the value; from
    the width on they repeat the sign bit, or are clear for an unsigned type. -/
theorem testBit_wrap (t : IntTy) (v : Int) (i : Nat) :
    (t.wrap v).testBit i
      = if i < t.width then v.testBit i else t.signed && v.testBit (t.width - 1) := by
  have hlow : ∀ j, j < t.width → (t.wrap v).testBit j = v.testBit j := by
    intro j hj
    obtain ⟨k, hk⟩ := t.exists_wrap_eq v
    rw [hk, testBit_add_mul_two_pow _ _ hj]
  have hmin := t.neg_bias_le_wrap v
  have hmax := t.wrap_lt v
  rw [upper] at hmax
  have hpos := t.width_pos
  split
  · exact hlow i ‹_›
  · cases hs : t.signed with
    | false =>
      rw [bias_unsigned hs] at hmin hmax
      rw [testBit_of_lt_two_pow (n := t.width) (by omega) (by omega) (by omega)]
      rfl
    | true =>
      -- In range, every bit from `width - 1` on says whether the value is negative.
      rw [bias_signed hs] at hmin hmax
      rw [two_pow_width] at hmax
      rw [← hlow (t.width - 1) (by omega), Bool.true_and]
      by_cases hneg : t.wrap v < 0
      · rw [testBit_of_neg (n := t.width - 1) hneg (by omega) (by omega),
          testBit_of_neg (n := t.width - 1) hneg (by omega) (by omega)]
      · rw [testBit_of_lt_two_pow (n := t.width - 1) (by omega) (by omega) (by omega),
          testBit_of_lt_two_pow (n := t.width - 1) (by omega) (by omega) (by omega)]

end IntTy

/-! ### Values -/

/-- A typed value in the range of its type. -/
structure Val where
  ty : IntTy
  val : Int
  inRange : ty.wrap val = val
  deriving DecidableEq

namespace Val

/-- The value of type `t` an integer is converted to. -/
def of (t : IntTy) (v : Int) : Val := ⟨t, t.wrap v, t.wrap_wrap v⟩

@[simp]
theorem of_ty (t : IntTy) (v : Int) : (of t v).ty = t := rfl

@[simp]
theorem of_val (t : IntTy) (v : Int) : (of t v).val = t.wrap v := rfl

variable {a b : Val}

theorem ext_val (hty : a.ty = b.ty) (hval : a.val = b.val) : a = b := by
  cases a
  cases b
  simp_all

theorem of_val_eq {t : IntTy} (h : a.ty = t) : of t a.val = a := by
  subst h
  exact ext_val rfl a.inRange

theorem ext_bits (hty : a.ty = b.ty) (h : ∀ j < a.ty.width, a.val.testBit j = b.val.testBit j) :
    a = b := by
  refine ext_val hty (eq_of_testBit_eq fun j => ?_)
  have hpos := a.ty.width_pos
  rw [← a.inRange, ← b.inRange, ← hty, IntTy.testBit_wrap, IntTy.testBit_wrap,
    h (a.ty.width - 1) (by omega)]
  split
  · exact h j ‹_›
  · rfl

theorem testBit_unsigned (h : a.ty.signed = false) {j : Nat} (hj : a.ty.width ≤ j) :
    a.val.testBit j = false := by
  rw [← a.inRange, IntTy.testBit_wrap, if_neg (not_lt.mpr hj), h, Bool.false_and]

theorem val_lt (a : Val) : a.val < a.ty.upper := by
  rw [← a.inRange]
  exact a.ty.wrap_lt _

theorem wrap_common_left (b : Val) (h : 0 ≤ a.val) : (IntTy.common a.ty b.ty).wrap a.val = a.val :=
  IntTy.wrap_of_nonneg h (lt_of_lt_of_le a.val_lt (IntTy.upper_le_common_left _ _))

theorem wrap_common_right (a : Val) (h : 0 ≤ b.val) : (IntTy.common a.ty b.ty).wrap b.val = b.val :=
  IntTy.wrap_of_nonneg h (lt_of_lt_of_le b.val_lt (IntTy.upper_le_common_right _ _))

end Val

end MpactSim.Cpp
