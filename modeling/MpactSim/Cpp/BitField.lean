import MpactSim.Cpp.Expr

namespace MpactSim.Cpp

/-!
# Bit fields

What it means that one function reads a bit field of a word and another writes it,
and the law that ties them together:

* `Takes get …`  — `get` returns the field's bits, sign extended if it is signed;
* `Places put …` — `put` overwrites the field's bits and no other;
* `RoundTrip`    — reading after writing returns the value, the rest is unchanged.

The bit lemmas of the shift-and-mask idioms come first.
-/

/-! ### Masks -/

theorem testBit_two_pow_sub_one (n i : Nat) : ((2 : Int) ^ n - 1).testBit i = decide (i < n) := by
  have h : ((2 : Int) ^ n - 1) = ((2 ^ n - 1 : Nat) : Int) := by
    rw [Nat.cast_sub Nat.one_le_two_pow]
    norm_num
  rw [h, testBit_natCast, Nat.testBit_two_pow_sub_one]

theorem two_pow_sub_one_nonneg (n : Nat) : 0 ≤ (2 : Int) ^ n - 1 := by
  have : (0 : Int) < 2 ^ n := by positivity
  omega

/-- The value of the field of `width` bits at `low`. -/
def field (x : Int) (low width : Nat) : Int := Int.land (x / 2 ^ low) (2 ^ width - 1)

theorem testBit_field (x : Int) (low width i : Nat) :
    (field x low width).testBit i = (decide (i < width) && x.testBit (low + i)) := by
  rw [field, Int.testBit_land, testBit_div_two_pow, testBit_two_pow_sub_one, Bool.and_comm,
    Nat.add_comm]

/-! ### Sign extension by a pair of shifts -/

/-- Moving a field to the top of a signed type and back repeats its top bit.  `p` is
    the type of the expression that is shifted up, `q` that of the promoted result. -/
theorem testBit_signExtend {r p q : IntTy} {z : Int} {width : Nat} (hr : r.signed = true)
    (hw : width ≤ r.width) (hp : r.width ≤ p.width) (hq : r.width ≤ q.width)
    (hz : width = 0 → z.testBit 0 = false) (i : Nat) :
    (r.wrap (q.wrap (r.wrap (p.wrap (z * 2 ^ (r.width - width))) / 2 ^ (r.width - width)))).testBit i
      = z.testBit (if i < width then i else width - 1) := by
  have hpos := r.width_pos
  -- The shifted value, read as a value of the result type.
  have hup : ∀ j, (r.wrap (p.wrap (z * 2 ^ (r.width - width)))).testBit j
      = (decide (r.width - width ≤ min j (r.width - 1))
          && z.testBit (min j (r.width - 1) - (r.width - width))) := by
    intro j
    rw [IntTy.testBit_wrap, hr, Bool.true_and]
    by_cases hj : j < r.width
    · rw [if_pos hj, IntTy.testBit_wrap, if_pos (by omega), testBit_mul_two_pow,
        min_eq_left (by omega)]
    · rw [if_neg hj, IntTy.testBit_wrap, if_pos (by omega), testBit_mul_two_pow,
        min_eq_right (by omega)]
  have hdown : ∀ j, (q.wrap (r.wrap (p.wrap (z * 2 ^ (r.width - width))) / 2 ^ (r.width - width))).testBit j
      = z.testBit (if j < width then j else width - 1) ∨ r.width ≤ j := by
    intro j
    by_cases hj : j < r.width
    · left
      rw [IntTy.testBit_wrap, if_pos (by omega), testBit_div_two_pow, hup]
      by_cases hjw : j < width
      · rw [if_pos hjw, min_eq_left (by omega), decide_eq_true (by omega), Bool.true_and]
        congr 1
        omega
      · rw [if_neg hjw, min_eq_right (by omega)]
        by_cases h0 : width = 0
        · subst h0
          rw [decide_eq_false (by omega), hz rfl, Bool.false_and]
        · rw [decide_eq_true (by omega), Bool.true_and]
          congr 1
          omega
    · exact Or.inr (by omega)
  rw [IntTy.testBit_wrap, hr, Bool.true_and]
  by_cases hi : i < r.width
  · rw [if_pos hi]
    exact (hdown i).resolve_right (by omega)
  · rw [if_neg hi, (hdown (r.width - 1)).resolve_right (by omega), if_neg (by omega : ¬ i < width)]
    by_cases hlast : r.width - 1 < width
    · rw [if_pos hlast]
      congr 1
      omega
    · rw [if_neg hlast]

/-! ### Readers and writers of a field -/

/-- The bits of a field's value at its signedness. -/
def fieldBit (signed : Bool) (width : Nat) (bit : Nat → Bool) (i : Nat) : Bool :=
  if i < width then bit i else signed && decide (0 < width) && bit (width - 1)

/-- `get` returns the field of `width` bits at `low` of every word of `wordWidth` bits. -/
def Takes (get : Func) (wordWidth low width : Nat) (signed : Bool) : Prop :=
  ∀ x : Int, 0 ≤ x → x < 2 ^ wordWidth → ∃ r, get.call [x] = some r ∧
    ∀ i, r.val.testBit i = fieldBit signed width (fun j => x.testBit (low + j)) i

/-- `put` stores a value into the field of `width` bits at `low` of every word. -/
def Places (put : Func) (wordWidth low width : Nat) : Prop :=
  ∀ (v : BitVec width) (w : BitVec wordWidth), ∃ r,
    put.call [v.toNat, w.toNat] = some r ∧ 0 ≤ r.val ∧ r.val < 2 ^ wordWidth ∧
    ∀ i, r.val.testBit i
      = if low ≤ i ∧ i < low + width then v.getLsbD (i - low) else w.getLsbD i

/-- Reading the field after writing it returns the value, and writing it leaves every
    other bit of the word alone. -/
def RoundTrip (put get : Func) (wordWidth low width : Nat) (signed : Bool) : Prop :=
  ∀ (v : BitVec width) (w : BitVec wordWidth), ∃ word result,
    put.call [v.toNat, w.toNat] = some word ∧ get.call [word.val] = some result ∧
    result.val = (if signed then v.toInt else v.toNat) ∧
    ∀ i, i < low ∨ low + width ≤ i → word.val.testBit i = w.getLsbD i

theorem toInt_eq_wrap {width : Nat} (hpos : 0 < width) (v : BitVec width) :
    v.toInt = (IntTy.mk true width hpos).wrap v.toNat := by
  have hlt : (v.toNat : Int) < 2 ^ width := by exact_mod_cast v.isLt
  have hupper := (IntTy.mk true width hpos).upper_eq
  have hbias := (IntTy.mk true width hpos).bias_signed rfl
  have hhalf := (IntTy.mk true width hpos).two_pow_width
  simp only [if_true] at hupper hbias hhalf
  rw [BitVec.toInt_eq_toNat_cond]
  split
  · next h =>
    have h' : 2 * (v.toNat : Int) < 2 ^ width := by exact_mod_cast h
    rw [IntTy.wrap_of_nonneg (by omega) (by rw [hupper]; omega)]
  · next h =>
    have h' : (2 : Int) ^ width ≤ 2 * (v.toNat : Int) := by exact_mod_cast not_lt.mp h
    push_cast
    rw [← IntTy.wrap_sub_two_pow, IntTy.wrap_eq_self (by rw [hbias]; simp only; omega)
      (by rw [hupper]; simp only; omega)]

theorem testBit_fieldValue (signed : Bool) {width : Nat} (v : BitVec width) (i : Nat) :
    ((if signed then v.toInt else v.toNat) : Int).testBit i
      = fieldBit signed width v.getLsbD i := by
  cases signed with
  | false =>
    simp only [Bool.false_eq_true, if_false, testBit_natCast, BitVec.testBit_toNat, fieldBit,
      Bool.false_and]
    split
    · rfl
    · exact BitVec.getLsbD_of_ge _ _ (by omega)
  | true =>
    rcases Nat.eq_zero_or_pos width with rfl | hpos
    · rw [BitVec.eq_nil v]
      simp [fieldBit, testBit_eq_decide]
    · rw [if_pos rfl, toInt_eq_wrap hpos, IntTy.testBit_wrap, testBit_natCast, testBit_natCast,
        BitVec.testBit_toNat, BitVec.testBit_toNat, fieldBit, decide_eq_true hpos, Bool.and_true]

/-- **Round trip.** A reader and a writer of one field form a pair. -/
theorem roundTrip_of_places_takes {put get : Func} {wordWidth low width : Nat} {signed : Bool}
    (hput : Places put wordWidth low width) (hget : Takes get wordWidth low width signed) :
    RoundTrip put get wordWidth low width signed := by
  intro v w
  obtain ⟨word, hword, h0, hlt, hbits⟩ := hput v w
  obtain ⟨result, hresult, hrbits⟩ := hget word.val h0 hlt
  refine ⟨word, result, hword, hresult, eq_of_testBit_eq (fun i => ?_), fun i hi => ?_⟩
  · have hfield : ∀ j, j < width → word.val.testBit (low + j) = v.getLsbD j := by
      intro j hj
      rw [hbits, if_pos (by omega)]
      congr 1
      omega
    rw [hrbits, testBit_fieldValue, fieldBit, fieldBit]
    by_cases hi : i < width
    · rw [if_pos hi, if_pos hi, hfield i hi]
    · rw [if_neg hi, if_neg hi]
      by_cases hpos : 0 < width
      · rw [hfield (width - 1) (by omega)]
      · simp [hpos]
  · rw [hbits, if_neg (by omega)]

end MpactSim.Cpp
