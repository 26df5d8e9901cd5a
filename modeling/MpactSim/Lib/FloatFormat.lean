import Mathlib.Data.Nat.Bitwise
import Mathlib.Tactic

namespace MpactSim.Lib

/-!
# Binary interchange formats

A floating point pattern has its fraction in the low bits and the exponent above it.  What kind
of number it is depends on these two alone.

* `FloatFormat.kind` — finite, infinite, or one of the two kinds of NaN;
* `infinite_iff`, `nan_iff`, `quietNaN_iff`, `signalingNaN_iff` — the kinds by masks.

The bits above the exponent are not looked at.
-/

/-- Numbers of bits of a format, without the sign. -/
structure FloatFormat where
  exponentBits : Nat
  fractionBits : Nat
  deriving DecidableEq

/-- What a pattern stands for. -/
inductive FloatKind where
  | finite | infinite | quietNaN | signalingNaN
  deriving DecidableEq

namespace FloatFormat

/-- The exponent of a pattern, without its bias. -/
def exponent (f : FloatFormat) (n : Nat) : Nat := n / 2 ^ f.fractionBits % 2 ^ f.exponentBits

/-- The fraction of a pattern. -/
def fraction (f : FloatFormat) (n : Nat) : Nat := n % 2 ^ f.fractionBits

/-- The kind of a pattern.  The highest bit of the fraction makes a NaN quiet. -/
def kind (f : FloatFormat) (n : Nat) : FloatKind :=
  if f.exponent n ≠ 2 ^ f.exponentBits - 1 then .finite
  else if f.fraction n = 0 then .infinite
  else if n.testBit (f.fractionBits - 1) then .quietNaN
  else .signalingNaN

/-- The pattern of infinity. -/
def infinity (f : FloatFormat) : Nat := (2 ^ f.exponentBits - 1) * 2 ^ f.fractionBits

variable (f : FloatFormat) (n : Nat)

/-! ### Masks -/

theorem and_infinity : n &&& f.infinity = f.exponent n * 2 ^ f.fractionBits := by
  apply Nat.eq_of_testBit_eq
  intro i
  rw [infinity, exponent, Nat.testBit_and, Nat.testBit_mul_two_pow, Nat.testBit_mul_two_pow,
    Nat.testBit_two_pow_sub_one, Nat.testBit_mod_two_pow, Nat.testBit_div_two_pow]
  by_cases hi : f.fractionBits ≤ i
  · simp [hi, Bool.and_comm]
  · simp [hi]

theorem and_infinity_eq_iff :
    n &&& f.infinity = f.infinity ↔ f.exponent n = 2 ^ f.exponentBits - 1 := by
  rw [and_infinity]
  exact Nat.mul_left_inj (Nat.two_pow_pos _).ne'

theorem and_fractionMask : n &&& (2 ^ f.fractionBits - 1) = f.fraction n :=
  Nat.and_two_pow_sub_one_eq_mod _ _

theorem mod_eq : n % 2 ^ (f.fractionBits + f.exponentBits) =
    f.exponent n * 2 ^ f.fractionBits + f.fraction n := by
  rw [pow_add, Nat.mod_mul, exponent, fraction]
  ring

/-! ### Kinds -/

/-- **Infinity.** An infinite pattern is that of infinity, up to its sign. -/
theorem infinite_iff : f.kind n = .infinite ↔
    n % 2 ^ (f.fractionBits + f.exponentBits) = f.infinity := by
  have hfraction : f.fraction n < 2 ^ f.fractionBits := Nat.mod_lt _ (Nat.two_pow_pos _)
  rw [mod_eq, infinity]
  unfold kind
  constructor
  · split_ifs <;> simp_all
  · intro h
    -- Quotient and remainder of both sides.
    have hexponent : f.exponent n = 2 ^ f.exponentBits - 1 := by
      have := congrArg (· / 2 ^ f.fractionBits) h
      simpa [Nat.add_div_of_dvd_right (Nat.dvd_mul_left _ _), Nat.div_eq_of_lt hfraction] using this
    have hzero : f.fraction n = 0 := by
      rw [hexponent] at h
      omega
    simp [hexponent, hzero]

/-- **NaN.** -/
theorem nan_iff : (f.kind n = .quietNaN ∨ f.kind n = .signalingNaN) ↔
    n &&& f.infinity = f.infinity ∧ n &&& (2 ^ f.fractionBits - 1) ≠ 0 := by
  rw [and_infinity_eq_iff, and_fractionMask]
  unfold kind
  split_ifs <;> simp_all

/-- **Quiet NaN.** -/
theorem quietNaN_iff : f.kind n = .quietNaN ↔
    (f.kind n = .quietNaN ∨ f.kind n = .signalingNaN) ∧ n.testBit (f.fractionBits - 1) = true := by
  unfold kind
  split_ifs <;> simp_all

/-- **Signaling NaN.** -/
theorem signalingNaN_iff : f.kind n = .signalingNaN ↔
    (f.kind n = .quietNaN ∨ f.kind n = .signalingNaN) ∧ n.testBit (f.fractionBits - 1) = false := by
  unfold kind
  split_ifs <;> simp_all

end FloatFormat

end MpactSim.Lib
