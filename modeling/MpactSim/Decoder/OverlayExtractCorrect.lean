import Mathlib.Data.BitVec
import MpactSim.Decoder.OverlayExtract

namespace MpactSim.Decoder

open Cpp Lib Expr Overlay

/-!
# When the emitted extraction of overlays is right

A 32-bit term loses its bits from 32 on, and an `int` term is extended by its sign when it is or-ed
into a 64-bit result.

* `BitsOrField.Fits`       — the term of a component has its bits at its own type;
* `bits_agree_iff`         — when the or-ed terms are the value;
* `valueExtractors_agree_iff` — when the emitted texts compute `GetValue`.
-/

namespace BitsOrField

/-- The component is evaluated at 64 bits, or ends below the sign of its 32-bit type. -/
def Fits (d : Nat) : BitsOrField → Prop
  | .bits _ _ _ position => 32 < d ∨ position < if d ≤ 16 then 31 else 32
  | .binNum num position => 2 ^ 31 ≤ num.value ∨
      num.value * 2 ^ (position - num.width + 1).toNat < 2 ^ 31

instance (d : Nat) : DecidablePred (Fits d)
  | .bits _ _ _ position => inferInstanceAs (Decidable (32 < d ∨ position < if d ≤ 16 then 31 else 32))
  | .binNum num position => inferInstanceAs (Decidable (2 ^ 31 ≤ num.value ∨
      num.value * 2 ^ (position - num.width + 1).toNat < 2 ^ 31))

theorem fits_of_not_narrow {d : Nat} {c : BitsOrField} (h : c.narrow d = false) : c.Fits d := by
  cases c with
  | bits high low width position =>
    have hd : ¬ d ≤ 32 := of_decide_eq_false h
    exact Or.inl (by omega)
  | binNum num position =>
    have hv : ¬ num.value < 2 ^ 31 := of_decide_eq_false h
    exact Or.inl (by omega)

theorem exact_of_fits {d n : Nat} {c : BitsOrField} (hc : c.InValue n) (hfits : c.Fits d)
    (hnarrow : c.narrow d = true) (u : Nat → Bool) {j : Nat}
    (hj : 32 ≤ j ∨ c.isInt d = true ∧ 31 ≤ j) : c.exact u j = false := by
  cases c with
  | bits high low width position =>
    simp only [InValue] at hc
    simp only [narrow, isInt, decide_eq_true_eq] at hnarrow hj
    have hfits : 32 < d ∨ position < if d ≤ 16 then 31 else 32 := hfits
    rw [exact, bits_covers, decide_eq_false, Bool.false_and]
    split_ifs at hfits <;> omega
  | binNum num position =>
    have hv : num.value < 2 ^ 31 := of_decide_eq_true hnarrow
    have hlt : num.value * 2 ^ (position - num.width + 1).toNat < 2 ^ 31 := by
      obtain h | h := hfits
      · omega
      · exact h
    rw [num_exact, ← Nat.testBit_mul_two_pow]
    exact Nat.testBit_lt_two_pow (lt_of_lt_of_le hlt (Nat.pow_le_pow_right (by omega) (by omega)))

/-- A component that does not fit has a bit from its sign on, for some word. -/
theorem exists_exact_of_not_fits {d n : Nat} {c : BitsOrField} (hc : c.InValue n)
    (hd : d ≤ 64) (hfmt : c.InFormat d) (hfits : ¬ c.Fits d) :
    c.narrow d = true ∧ ∃ w : BitVec 64, ∃ j, w.toNat < 2 ^ d ∧
      (32 ≤ j ∨ c.isInt d = true ∧ 31 ≤ j) ∧ c.exact w.getLsbD j = true := by
  have hnarrow : c.narrow d = true := by
    by_contra h
    exact hfits (fits_of_not_narrow (Bool.not_eq_true _ ▸ h))
  refine ⟨hnarrow, ?_⟩
  cases c with
  | bits high low width position =>
    simp only [InValue] at hc
    simp only [InFormat] at hfmt
    have hfits : ¬ (32 < d ∨ position < if d ≤ 16 then 31 else 32) := hfits
    refine ⟨BitVec.twoPow 64 high.toNat, position.toNat, ?_, ?_, ?_⟩
    · rw [BitVec.toNat_twoPow_of_lt (by omega)]
      exact Nat.pow_lt_pow_right (by omega) (by omega)
    · simp only [isInt, decide_eq_true_eq]
      split_ifs at hfits <;> omega
    · rw [exact, bits_covers, bits_bit, decide_eq_true (by omega), BitVec.getLsbD_twoPow,
        Bool.true_and, decide_eq_true (by omega), Bool.true_and]
      exact decide_eq_true (by omega)
  | binNum num position =>
    have hge : ¬ num.value * 2 ^ (position - num.width + 1).toNat < 2 ^ 31 :=
      fun h => hfits (Or.inr h)
    obtain ⟨j, hj, hbit⟩ := Nat.exists_ge_and_testBit_of_ge_two_pow (not_lt.mp hge)
    refine ⟨0, j, Nat.two_pow_pos d, Or.inr ⟨hnarrow, hj⟩, ?_⟩
    rw [num_exact, ← Nat.testBit_mul_two_pow]
    exact hbit

end BitsOrField

namespace Overlay

variable {o : Overlay} {d : Nat}

/-- A constant fills the upper half of a 64-bit value with ones. -/
def TopOnes (o : Overlay) : Prop :=
  o.declaredWidth = 64 ∧ ∃ num, .binNum num 63 ∈ o.componentVec ∧ 32 ≤ num.width ∧
    num.value / 2 ^ (num.width - 32) = 2 ^ 32 - 1

/-- The bits of the or-ed terms are those of the value, in a result of `n` bits. -/
def BitsAgree (o : Overlay) (d n : Nat) : Prop :=
  ∀ w : BitVec 64, w.toNat < 2 ^ d → ∀ j < n,
    (o.componentVec.any fun c => c.termBit d w.getLsbD j) =
      o.componentVec.any fun c => c.exact w.getLsbD j

theorem covers_position {n : Nat} {c : BitsOrField} (hc : c.InValue n) (hemit : c.emitted = true) :
    0 ≤ c.position ∧ c.position < n ∧ c.piece.covers c.position.toNat = true ∧
      c.leftShift ≤ c.position := by
  cases c with
  | bits high low width position =>
    simp only [BitsOrField.InValue] at hc
    simp only [BitsOrField.position, BitsOrField.leftShift, BitsOrField.bits_covers,
      decide_eq_true_eq]
    omega
  | binNum num position =>
    simp only [BitsOrField.InValue] at hc
    have hwidth : num.width ≠ 0 := by
      intro hw
      have hlt := num.lt
      have hne : num.value ≠ 0 := of_decide_eq_true hemit
      rw [hw] at hlt
      omega
    simp only [BitsOrField.position, BitsOrField.leftShift, BitsOrField.num_covers,
      decide_eq_true_eq]
    omega

theorem covers_of_exact {c : BitsOrField} {u : Nat → Bool} {j : Nat} (h : c.exact u j = true) :
    c.piece.covers j = true := (Bool.and_eq_true_iff.mp h).1

theorem eq_of_covers (h : o.Placed d) {c c' : BitsOrField} (hc : c ∈ o.componentVec)
    (hc' : c' ∈ o.componentVec) {j : Nat} (hj : c.piece.covers j = true)
    (hj' : c'.piece.covers j = true) :
    c.narrow d = c'.narrow d ∧ ∀ u k, c.exact u k = c'.exact u k := by
  have hpiece : c.piece = c'.piece := h.covers.eq_of_holds (List.mem_map_of_mem hc)
    (List.mem_map_of_mem hc') hj hj'
  refine ⟨?_, fun u k => by rw [BitsOrField.exact, BitsOrField.exact, hpiece]⟩
  cases c with
  | bits high low width position =>
    cases c' with
    | bits high' low' width' position' => rfl
    | binNum num' position' =>
      rw [BitsOrField.piece, BitsOrField.piece] at hpiece
      simp only [Piece.mk.injEq, reduceCtorEq, and_false] at hpiece
  | binNum num position =>
    cases c' with
    | bits high' low' width' position' =>
      rw [BitsOrField.piece, BitsOrField.piece] at hpiece
      simp only [Piece.mk.injEq, reduceCtorEq, and_false] at hpiece
    | binNum num' position' =>
      rw [BitsOrField.piece, BitsOrField.piece] at hpiece
      simp only [Piece.mk.injEq, Source.const.injEq] at hpiece
      have hvalue : num.value = num'.value :=
        Nat.eq_of_testBit_eq fun k => congrFun hpiece.2.2 k
      rw [BitsOrField.narrow, BitsOrField.narrow, hvalue]

theorem termBit_of_lt {c : BitsOrField} {j : Nat} (hj : j < 32) (u : Nat → Bool) :
    c.termBit d u j = c.exact u j := if_neg (by omega)

theorem termBit_of_not_narrow {c : BitsOrField} (h : c.narrow d = false) (u : Nat → Bool) (j : Nat) :
    c.termBit d u j = c.exact u j := if_neg (by rw [h]; exact fun h => Bool.false_ne_true h.1)

/-! ### Values that are right -/

theorem agree_of_le (h : o.Placed d) {n : Nat} (hn : n ≤ 32) (hle : o.declaredWidth ≤ n) :
    o.ShiftsDefined d ∧ o.BitsAgree d n := by
  refine ⟨fun c hc hemit hbad => ?_, fun w _ j hj => ?_⟩
  · have := covers_position (h.inValue c hc) hemit
    omega
  · refine congrArg _ (funext fun c => termBit_of_lt (by omega) _)

theorem agree_of_fits (h : o.Placed d) (hfits : ∀ c ∈ o.componentVec, c.Fits d) (n : Nat) :
    o.ShiftsDefined d ∧ o.BitsAgree d n := by
  refine ⟨fun c hc hemit hbad => ?_, fun w _ j hj => ?_⟩
  · have hval := h.inValue c hc
    cases c with
    | bits high low width position =>
      have hfit : 32 < d ∨ position < if d ≤ 16 then 31 else 32 := hfits _ hc
      simp only [BitsOrField.InValue] at hval
      simp only [BitsOrField.narrow, BitsOrField.leftShift, decide_eq_true_eq] at hbad
      split_ifs at hfit <;> omega
    | binNum num position =>
      have hfit : 2 ^ 31 ≤ num.value ∨
        num.value * 2 ^ (position - num.width + 1).toNat < 2 ^ 31 := hfits _ hc
      simp only [BitsOrField.narrow, BitsOrField.leftShift, decide_eq_true_eq] at hbad
      have hne : num.value ≠ 0 := of_decide_eq_true hemit
      have hpow : 2 ^ 32 ≤ 2 ^ (position - num.width + 1).toNat :=
        Nat.pow_le_pow_right (by omega) (by omega)
      have hmul : 2 ^ (position - num.width + 1).toNat ≤
          num.value * 2 ^ (position - num.width + 1).toNat := Nat.le_mul_of_pos_left _ (by omega)
      omega
  · rw [Bool.eq_iff_iff, List.any_eq_true, List.any_eq_true]
    refine exists_congr fun c => and_congr_right fun hc => ?_
    cases hnarrow : c.narrow d with
    | false => rw [termBit_of_not_narrow hnarrow]
    | true =>
      have hexact : ∀ {k : Nat}, 32 ≤ k ∨ c.isInt d = true ∧ 31 ≤ k →
          c.exact w.getLsbD k = false :=
        BitsOrField.exact_of_fits (h.inValue c hc) (hfits c hc) hnarrow w.getLsbD
      by_cases hlow : j < 32
      · rw [termBit_of_lt hlow]
      · have hsign : (c.isInt d && c.exact w.getLsbD 31) = false := by
          cases hint : c.isInt d with
          | false => rfl
          | true => rw [hexact (Or.inr ⟨hint, le_rfl⟩), Bool.and_false]
        rw [BitsOrField.termBit, if_pos ⟨hnarrow, by omega⟩, hsign, hexact (Or.inl (by omega))]

theorem exact_of_topOnes {num : BinaryNum} (hwidth : 32 ≤ num.width)
    (hones : num.value / 2 ^ (num.width - 32) = 2 ^ 32 - 1) (hle : num.width ≤ 64)
    (u : Nat → Bool) {j : Nat} (hj : 32 ≤ j) (hj64 : j < 64) :
    (BitsOrField.binNum num 63).exact u j = true := by
  have hplace : j - 32 + (num.width - 32) = j - (63 - (num.width : Int) + 1).toNat := by omega
  have hbit : num.value.testBit (j - (63 - (num.width : Int) + 1).toNat) = true := by
    rw [← hplace, ← Nat.testBit_div_two_pow, hones, Nat.testBit_two_pow_sub_one]
    exact decide_eq_true (by omega)
  rw [num_exact, decide_eq_true (by omega), hbit]
  rfl

theorem agree_of_topOnes (h : o.Placed d) (htop : o.TopOnes) {n : Nat} (hn : n ≤ 64) :
    o.ShiftsDefined d ∧ o.BitsAgree d n := by
  obtain ⟨h64, num, hnum, hwidth, hones⟩ := htop
  have hval : 0 ≤ (63 : Int) - num.width + 1 ∧ (63 : Int) < o.declaredWidth :=
    h.inValue _ hnum
  have hlarge : ¬ num.value < 2 ^ 31 := by
    intro hlt
    have := Nat.div_le_self num.value (2 ^ (num.width - 32))
    omega
  have hnarrow : (BitsOrField.binNum num 63).narrow d = false := decide_eq_false hlarge
  have hexact := exact_of_topOnes hwidth hones (by omega)
  refine ⟨fun c hc hemit hbad => ?_, fun w _ j hj => ?_⟩
  · -- A component that is shifted by 32 would overlap with the constant.
    obtain ⟨hpos0, hpos, hcov, hshift⟩ := covers_position (h.inValue c hc) hemit
    have hcov' := covers_of_exact (hexact (fun _ => false) (j := c.position.toNat) (by omega)
      (by omega))
    rw [(eq_of_covers h hc hnum hcov hcov').1, hnarrow] at hbad
    exact Bool.false_ne_true hbad.1
  · by_cases hlow : j < 32
    · exact congrArg _ (funext fun c => termBit_of_lt hlow _)
    · have hbit := hexact w.getLsbD (j := j) (by omega) (by omega)
      have hterm := (termBit_of_not_narrow hnarrow w.getLsbD j).trans hbit
      rw [List.any_eq_true.mpr ⟨_, hnum, hterm⟩, List.any_eq_true.mpr ⟨_, hnum, hbit⟩]

/-! ### Values that are wrong -/

theorem exists_sign (h : o.Placed d) (hd : d ≤ 64) (hagree : o.BitsAgree d 64)
    {c : BitsOrField} (hc : c ∈ o.componentVec) (hfits : ¬ c.Fits d) :
    ∃ w : BitVec 64, w.toNat < 2 ^ d ∧ (d ≤ 32 ∨ w = 0) ∧ ∃ c' ∈ o.componentVec,
      c'.narrow d = true ∧ c'.isInt d = true ∧ c'.exact w.getLsbD 31 = true := by
  obtain ⟨hnarrow, w, j, hw, hj, hbit⟩ :=
    BitsOrField.exists_exact_of_not_fits (h.inValue c hc) hd (h.inFormat c hc) hfits
  have hlt : j < 64 := by
    have hle := h.le
    have := (piece_covers (h.inValue c hc)).mp (covers_of_exact hbit)
    have hval := h.inValue c hc
    cases c with
    | bits high low width position =>
      simp only [BitsOrField.InValue] at hval
      simp only [BitsOrField.position] at this
      omega
    | binNum num position =>
      simp only [BitsOrField.InValue] at hval
      simp only [BitsOrField.position] at this
      omega
  -- The bit of the component, or that of another one that is extended by its sign.
  have hsign : ∃ c' ∈ o.componentVec, c'.narrow d = true ∧ c'.isInt d = true ∧
      c'.exact w.getLsbD 31 = true := by
    by_cases hlow : j < 32
    · obtain ⟨hint, h31⟩ := hj.resolve_left (by omega)
      have hj31 : j = 31 := by omega
      exact ⟨c, hc, hnarrow, hint, hj31 ▸ hbit⟩
    · have hterm := (hagree w hw j hlt).trans (List.any_eq_true.mpr ⟨c, hc, hbit⟩)
      obtain ⟨c', hc', hterm⟩ := List.any_eq_true.mp hterm
      cases hnarrow' : c'.narrow d with
      | false =>
        rw [termBit_of_not_narrow hnarrow'] at hterm
        rw [(eq_of_covers h hc hc' (covers_of_exact hbit) (covers_of_exact hterm)).1,
          hnarrow'] at hnarrow
        cases hnarrow
      | true =>
        rw [BitsOrField.termBit, if_pos ⟨hnarrow', by omega⟩, Bool.and_eq_true] at hterm
        exact ⟨c', hc', hnarrow', hterm⟩
  obtain ⟨c', hc', hnarrow', hint, hbit'⟩ := hsign
  by_cases hd32 : d ≤ 32
  · exact ⟨w, hw, Or.inl hd32, c', hc', hnarrow', hint, hbit'⟩
  · -- The component is a constant, and has its bits in every word.
    refine ⟨0, Nat.two_pow_pos d, Or.inr rfl, c', hc', hnarrow', hint, ?_⟩
    cases c' with
    | bits high low width position => exact absurd (of_decide_eq_true hnarrow') hd32
    | binNum num position =>
      rw [num_exact] at hbit' ⊢
      exact hbit'

/-- A value that is right although an `int` term is negative has ones in its upper half. -/
theorem topOnes_of_sign (h : o.Placed d) (hd : d ≤ 64) (hdef : o.ShiftsDefined d)
    (hagree : o.BitsAgree d 64) {w : BitVec 64} (hw : w.toNat < 2 ^ d) (hd32 : d ≤ 32 ∨ w = 0)
    {c : BitsOrField} (hc : c ∈ o.componentVec) (hnarrow : c.narrow d = true)
    (hint : c.isInt d = true) (hbit : c.exact w.getLsbD 31 = true) : o.TopOnes := by
  have hones : ∀ j, 32 ≤ j → j < 64 → ∃ c' ∈ o.componentVec, c'.exact w.getLsbD j = true := by
    intro j h32 hj
    refine List.any_eq_true.mp ((hagree w hw j hj).symm.trans (List.any_eq_true.mpr ⟨c, hc, ?_⟩))
    rw [BitsOrField.termBit, if_pos ⟨hnarrow, h32⟩, hint, hbit]
    rfl
  obtain ⟨c', hc', htop⟩ := hones 63 (by omega) (by omega)
  have hval := h.inValue c' hc'
  have hle := h.le
  obtain ⟨hlow, hhigh⟩ := (piece_covers hval).mp (covers_of_exact htop)
  cases c' with
  | bits high low width position =>
    simp only [BitsOrField.InValue] at hval
    simp only [BitsOrField.position] at hhigh
    obtain hd32 | rfl := hd32
    · -- A reference at the top would be shifted by 32 or more.
      have hfmt : high < d := h.inFormat _ hc'
      exact absurd ⟨decide_eq_true hd32, show 32 ≤ position - high by omega⟩ (hdef _ hc' rfl)
    · rw [BitsOrField.exact, BitsOrField.bits_bit] at htop
      simp at htop
  | binNum num position =>
    simp only [BitsOrField.InValue] at hval
    simp only [BitsOrField.position, BitsOrField.width] at hlow hhigh
    obtain rfl : position = 63 := by omega
    -- The highest bit of the constant.
    have hhighest : num.value.testBit (63 - (63 - (num.width : Int) + 1).toNat) = true := by
      rw [num_exact] at htop
      exact (Bool.and_eq_true_iff.mp htop).2
    have hge := Nat.ge_two_pow_of_testBit hhighest
    have hnarrow' : ¬ num.value < 2 ^ 31 := by
      intro hlt
      have hemit : (BitsOrField.binNum num 63).emitted = true :=
        decide_eq_true (by have := Nat.two_pow_pos (63 - (63 - (num.width : Int) + 1).toNat); omega)
      have hshift : ¬ 32 ≤ (63 : Int) - num.width + 1 :=
        fun hle => hdef _ hc' hemit ⟨decide_eq_true hlt, hle⟩
      have hpow : 2 ^ 31 ≤ 2 ^ (63 - (63 - (num.width : Int) + 1).toNat) :=
        Nat.pow_le_pow_right (by omega) (by omega)
      omega
    have hwidth : 32 ≤ num.width := by
      by_contra hlt
      exact hnarrow' (lt_of_lt_of_le num.lt (Nat.pow_le_pow_right (by omega) (by omega)))
    refine ⟨by omega, num, hc', hwidth, Nat.eq_of_testBit_eq fun k => ?_⟩
    rw [Nat.testBit_div_two_pow, Nat.testBit_two_pow_sub_one]
    by_cases hk : k < 32
    · obtain ⟨c'', hc'', hbit''⟩ := hones (k + 32) (by omega) (by omega)
      have hcov : (BitsOrField.binNum num 63).piece.covers (k + 32) = true := by
        rw [BitsOrField.num_covers, decide_eq_true_eq]
        omega
      rw [(eq_of_covers h hc'' hc' (covers_of_exact hbit'') hcov).2, num_exact] at hbit''
      have hplace : k + 32 - (63 - (num.width : Int) + 1).toNat = k + (num.width - 32) := by omega
      rw [hplace] at hbit''
      rw [(Bool.and_eq_true_iff.mp hbit'').2, decide_eq_true hk]
    · rw [decide_eq_false hk]
      exact Nat.testBit_lt_two_pow (lt_of_lt_of_le num.lt
        (Nat.pow_le_pow_right (by omega) (by omega)))

/-- **When the or-ed terms are the value.** -/
theorem bits_agree_iff (h : o.Placed d) (hd : d ≤ 64) {n : Nat} (hle : o.declaredWidth ≤ n)
    (hn : n ≤ 32 ∨ n = 64) :
    o.ShiftsDefined d ∧ o.BitsAgree d n ↔
      n ≤ 32 ∨ o.TopOnes ∨ ∀ c ∈ o.componentVec, c.Fits d := by
  constructor
  · rintro ⟨hdef, hagree⟩
    obtain hn | rfl := hn
    · exact Or.inl hn
    · refine Or.inr ?_
      by_contra hnot
      push Not at hnot
      obtain ⟨hnotTop, c, hc, hfits⟩ := hnot
      obtain ⟨w, hw, hd32, c', hc', hnarrow, hint, hbit⟩ := exists_sign h hd hagree hc hfits
      exact hnotTop (topOnes_of_sign h hd hdef hagree hw hd32 hc' hnarrow hint hbit)
  · rintro (hn | htop | hfits)
    · exact agree_of_le h hn hle
    · exact agree_of_topOnes h htop (by omega)
    · exact agree_of_fits h hfits n

/-! ### The texts -/

/-- The text of `WriteSimpleValueExtractor` gives `GetValue`, for words of `d` bits and a result of
    a type. -/
def SimpleAgrees (o : Overlay) (d : Nat) (ty : IntTy) : Prop :=
  ∀ w : BitVec 64, w.toNat < 2 ^ d → ∃ terms v r,
    o.writeSimpleValueExtractor (.var "value") = some terms ∧
    accumulated ty (wordEnv (typeOf false d) w.toNat) terms = some ⟨ty, some r⟩ ∧
    o.getValue w = .ok (some v) ∧ r = .of ty v.toNat

/-- The text of `WriteComplexValueExtractor` compiles and gives `GetValue`. -/
def ComplexAgrees (o : Overlay) (ty : IntTy) : Prop :=
  ∃ terms, o.writeComplexValueExtractor.mapM ComplexTerm.compile = some terms ∧
    ∀ (env : Env) (w : BitVec 64), ∃ v r, accumulated ty env terms = some ⟨ty, some r⟩ ∧
      o.getValue w = .ok (some v) ∧ r = .of ty v.toNat

/-- Something is assigned to the result, no component is 64 bits wide, and the terms are or-ed into
    a 32-bit result, or lose nothing. -/
def Extractable (o : Overlay) (d : Nat) (ty : IntTy) : Prop :=
  (∃ c ∈ o.componentVec, c.emitted = true) ∧ (∀ c ∈ o.componentVec, c.InWord) ∧
    (ty.width ≤ 32 ∨ o.TopOnes ∨ ∀ c ∈ o.componentVec, c.Fits d)

theorem gather_pieces (o : Overlay) (u : Nat → Bool) (j : Nat) :
    gather o.pieces u j = o.componentVec.any fun c => c.exact u j := by
  rw [gather, pieces, List.any_map]
  rfl

theorem Placed.good (h : o.Placed d) (hword : ∀ c ∈ o.componentVec, c.InWord) : o.Good :=
  ⟨h.width, h.le, h.inValue, fun c hc => defined_of_inWord h.le (h.inValue c hc) (hword c hc)⟩

theorem inWord_of_getValue (h : o.Placed d) (hd : d ≤ 64) {w v : BitVec 64}
    (hv : o.getValue w = .ok (some v)) : ∀ c ∈ o.componentVec, c.InWord := by
  rw [getValue, if_neg (not_not.mpr h.width), Except.ok.injEq] at hv
  intro c hc
  obtain ⟨x, hx⟩ := foldlM_or_some hv c hc
  have hdef := defined_of_valueOf hx
  have hfmt := h.inFormat c hc
  cases c with
  | bits high low width position =>
    simp only [BitsOrField.Defined] at hdef
    simp only [BitsOrField.InFormat] at hfmt
    exact ⟨hdef.1, by omega⟩
  | binNum num position => trivial

/-- **The simple text.** -/
theorem simpleAgrees_iff (h : o.Placed d) (hd : d ≤ 64) {ty : IntTy}
    (hle : o.declaredWidth ≤ ty.width) (hty : ty.width ≤ 32 ∨ ty.width = 64) :
    o.SimpleAgrees d ty ↔ o.Extractable d ty := by
  have hagree := bits_agree_iff h hd hle hty
  have henv : ∀ w : BitVec 64, wordEnv (typeOf false d) w.toNat "value" =
      some (.of (typeOf false d) w.toNat) := fun w => Env.set_self _ _ _
  constructor
  · intro hsimple
    obtain ⟨terms, v, r, hterms, hr, hv, -⟩ := hsimple 0 (Nat.two_pow_pos d)
    have hword := inWord_of_getValue h hd hv
    obtain ⟨hemit, hdef⟩ := defined_of_accumulated (w := 0) h hd hword (Nat.two_pow_pos d)
      (henv 0) hterms hr
    refine ⟨hemit, hword, hagree.mp ⟨hdef, fun w hw j hj => ?_⟩⟩
    obtain ⟨terms, v, r, hterms, hr, hv, hval⟩ := hsimple w hw
    obtain ⟨terms', r', hterms', hr', -, hbits⟩ := @simpleValue_bits _ _ _ _ ty _ h hd hword hemit
      hdef (by omega) hw (henv w)
    obtain ⟨v', hv', hvbits⟩ := getValue_bits (h.good hword) w
    rw [hterms, Option.some.injEq] at hterms'
    subst hterms'
    rw [hr, Option.some.injEq, Variable.mk.injEq, Option.some.injEq] at hr'
    rw [hv, Except.ok.injEq, Option.some.injEq] at hv'
    rw [← hbits j hj, ← gather_pieces, ← hvbits, ← hr'.2, hval, Val.of_val, IntTy.testBit_wrap,
      if_pos hj, ← hv']
    rfl
  · rintro ⟨hemit, hword, hcond⟩ w hw
    obtain ⟨hdef, hbitsAgree⟩ := hagree.mpr hcond
    obtain ⟨terms, r, hterms, hr, hrty, hbits⟩ := @simpleValue_bits _ _ _ _ ty _ h hd hword hemit
      hdef (by omega) hw (henv w)
    obtain ⟨v, hv, hvbits⟩ := getValue_bits (h.good hword) w
    refine ⟨terms, v, r, hterms, hr, hv, Val.ext_bits hrty fun j hj => ?_⟩
    rw [hrty] at hj
    rw [hbits j hj, hbitsAgree w hw j hj, ← gather_pieces, ← hvbits, Val.of_val,
      IntTy.testBit_wrap, if_pos hj]
    rfl

/-! ### The text for wide formats -/

/-- The component is a constant. -/
def IsConstant : BitsOrField → Prop
  | .bits .. => False
  | .binNum .. => True

instance : DecidablePred IsConstant
  | .bits .. => isFalse id
  | .binNum .. => isTrue trivial

theorem complexValueTerm_compile (value : Expr) {c : BitsOrField} (hc : IsConstant c) :
    ∃ terms, (complexValueTerm c).mapM ComplexTerm.compile = some terms ∧
      simpleValueTerm value c = some terms ∧
      ∀ e ∈ terms, ∀ env env' : Env, e.eval env = e.eval env' := by
  cases c with
  | bits high low width position => exact absurd hc id
  | binNum num position =>
    simp only [complexValueTerm, simpleValueTerm]
    split_ifs
    · exact ⟨[], rfl, rfl, by simp⟩
    · exact ⟨[shifted .shl (.lit (.dec (BitVec.ofNat 64 num.value).toInt))
        (position - num.width + 1)], rfl, rfl, by simp [shifted, Expr.eval]⟩
    · exact ⟨[.lit (.dec (BitVec.ofNat 64 num.value).toInt)], rfl, rfl, by simp [Expr.eval]⟩

theorem writeComplex_of_constant (value : Expr) {cs : List BitsOrField}
    (h : ∀ c ∈ cs, IsConstant c) :
    ∃ ts, (cs.flatMap complexValueTerm).mapM ComplexTerm.compile = some ts.flatten ∧
      cs.mapM (simpleValueTerm value) = some ts ∧
      ∀ e ∈ ts.flatten, ∀ env env' : Env, e.eval env = e.eval env' := by
  induction cs with
  | nil => exact ⟨[], rfl, rfl, fun e he => nomatch he⟩
  | cons c rest ih =>
    obtain ⟨terms, hcompile, hsimple, heval⟩ :=
      complexValueTerm_compile value (h c List.mem_cons_self)
    obtain ⟨ts, hts, hmap, hrest⟩ := ih fun c hc => h c (List.mem_cons_of_mem _ hc)
    refine ⟨terms :: ts, ?_, ?_, fun e he => ?_⟩
    · rw [List.flatMap_cons, List.mapM_append, hcompile, hts]
      rfl
    · rw [List.mapM_cons, hsimple, hmap]
      rfl
    · rw [List.flatten_cons] at he
      exact (List.mem_append.mp he).elim (heval e) (hrest e)

theorem constant_of_compile {cs : List BitsOrField} {terms : List Expr}
    (h : (cs.flatMap complexValueTerm).mapM ComplexTerm.compile = some terms) :
    ∀ c ∈ cs, IsConstant c := by
  induction cs generalizing terms with
  | nil =>
    intro c hc
    cases hc
  | cons c rest ih =>
    rw [List.flatMap_cons, List.mapM_append] at h
    obtain ⟨ts, hts, h⟩ := Option.bind_eq_some_iff.mp h
    obtain ⟨ts', hts', -⟩ := Option.bind_eq_some_iff.mp h
    refine List.forall_mem_cons.mpr ⟨?_, ih hts'⟩
    cases c with
    | bits high low width position => cases hts
    | binNum num position => trivial

theorem accumulated_congr {ty : IntTy} {env env' : Env} {terms : List Expr}
    (h : ∀ e ∈ terms, e.eval env = e.eval env') :
    accumulated ty env terms = accumulated ty env' terms := by
  have hor : ∀ (rest : List Expr) (acc : Val), (∀ e ∈ rest, e.eval env = e.eval env') →
      orTerms env acc rest = orTerms env' acc rest := by
    intro rest
    induction rest with
    | nil =>
      intro acc _
      rfl
    | cons e rest ih =>
      intro acc h
      rw [orTerms, orTerms, h e List.mem_cons_self]
      exact congrArg _ (funext fun v => ih _ fun e he => h e (List.mem_cons_of_mem _ he))
  cases terms with
  | nil => rfl
  | cons e rest =>
    rw [accumulated, accumulated, h e List.mem_cons_self]
    refine congrArg _ (funext fun v => ?_)
    rw [hor rest _ fun e he => h e (List.mem_cons_of_mem _ he)]

theorem getValue_constant (hconst : ∀ c ∈ o.componentVec, IsConstant c)
    (w w' : BitVec 64) : o.getValue w = o.getValue w' := by
  rw [getValue, getValue]
  refine congrArg (fun v => if o.declaredWidth ≠ o.computedWidth then _ else Except.ok v) ?_
  have hstep : ∀ (cs : List BitsOrField) (acc : BitVec 64), (∀ c ∈ cs, IsConstant c) →
      cs.foldlM (fun value c => (valueOf w c).map (value ||| ·)) acc =
        cs.foldlM (fun value c => (valueOf w' c).map (value ||| ·)) acc := by
    intro cs
    induction cs with
    | nil =>
      intro acc _
      rfl
    | cons c rest ih =>
      intro acc hcs
      obtain ⟨hc, hrest⟩ := List.forall_mem_cons.mp hcs
      rw [List.foldlM_cons, List.foldlM_cons]
      cases c with
      | bits high low width position => exact absurd hc id
      | binNum num position => exact congrArg _ (funext fun value => ih value hrest)
  exact hstep _ _ hconst

/-- **The complex text.** -/
theorem complexAgrees_iff (h : o.Placed d) {ty : IntTy} (hle : o.declaredWidth ≤ ty.width)
    (hty : ty.width ≤ 32 ∨ ty.width = 64) :
    o.ComplexAgrees ty ↔ (∀ c ∈ o.componentVec, IsConstant c) ∧ o.Extractable 0 ty := by
  have hplaced : (∀ c ∈ o.componentVec, IsConstant c) → o.Placed 0 := fun hconst =>
    ⟨h.width, h.le, h.inValue, fun c hc => by
      have hc := hconst c hc
      cases c with
      | bits high low width position => exact absurd hc id
      | binNum num position => trivial, h.covers⟩
  constructor
  · rintro ⟨terms, hterms, hvalue⟩
    have hconst := constant_of_compile hterms
    refine ⟨hconst, (simpleAgrees_iff (hplaced hconst) (Nat.zero_le _) hle hty).mp fun w _ => ?_⟩
    obtain ⟨ts, hts, hmap, -⟩ := writeComplex_of_constant (.var "value") hconst
    obtain rfl : terms = ts.flatten := Option.some.inj (hterms.symm.trans hts)
    obtain ⟨v, r, hr, hv, hval⟩ := hvalue (wordEnv (typeOf false 0) w.toNat) w
    refine ⟨ts.flatten, v, r, ?_, hr, hv, hval⟩
    rw [writeSimpleValueExtractor, hmap, Option.map_some]
  · rintro ⟨hconst, hextract⟩
    obtain ⟨ts, hts, hmap, heval⟩ := writeComplex_of_constant (.var "value") hconst
    refine ⟨ts.flatten, hts, fun env w => ?_⟩
    obtain ⟨terms, v, r, hterms, hr, hv, hval⟩ :=
      (simpleAgrees_iff (hplaced hconst) (Nat.zero_le _) hle hty).mpr hextract 0 (by decide)
    rw [writeSimpleValueExtractor, hmap, Option.map_some, Option.some.injEq] at hterms
    subst hterms
    refine ⟨v, r, ?_, (getValue_constant hconst w 0).trans hv, hval⟩
    rw [accumulated_congr fun e he => heval e he env _]
    exact hr

/-! ### Overlays of a format -/

section Format

variable {fmt : Format} {placed : List FieldOrFormat} {getFormat : String → Option Nat}

theorem placeFrom_inFormat (hplaced : fmt.computeAndCheckFormatWidth getFormat = .ok placed)
    {comps : List BitField} (hcomps : ∀ c ∈ comps, c.Accepted fmt ∧
      ∀ field first last, c = .fieldReference field first last → .field field ∈ placed)
    (position : Int) : ∀ c ∈ placeFrom position comps, c.InFormat fmt.declaredWidth := by
  induction comps generalizing position with
  | nil =>
    intro c hc
    cases hc
  | cons comp rest ih =>
    obtain ⟨⟨hacc, hfield⟩, hrest⟩ := List.forall_mem_cons.mp hcomps
    refine List.forall_mem_cons.mpr ⟨?_, ih hrest _⟩
    cases comp with
    | fieldReference field first last =>
      have hbounds := Format.placed_bounds hplaced (hfield field first last rfl) rfl
      simp only [FieldOrFormat.low, FieldOrFormat.width] at hbounds
      simp only [BitField.Accepted] at hacc
      simp only [BitField.place, BitsOrField.InFormat]
      omega
    | formatReference first last =>
      simp only [BitField.Accepted] at hacc
      simp only [BitField.place, BitsOrField.InFormat]
      omega
    | bitConstant num => trivial

theorem placed_of (hplaced : fmt.computeAndCheckFormatWidth getFormat = .ok placed)
    (ho : o.Of fmt placed) (hwidth : o.declaredWidth = o.computedWidth)
    (h64 : o.declaredWidth ≤ 64) : o.Placed fmt.declaredWidth :=
  have hin := inValue_of hplaced ho hwidth
  ⟨hwidth, h64, hin, placeFrom_inFormat hplaced ho _, placeFrom_exclusive hin⟩

/-- **The emitted extraction.**  For an overlay of at most 64 bits, and a result of a type that
    holds it, the simple text gives `GetValue` for a format of at most 64 bits exactly if the
    overlay is extractable.  The complex text does so exactly if, besides, it is made of constants
    alone. -/
theorem valueExtractors_agree_iff
    (hplaced : fmt.computeAndCheckFormatWidth getFormat = .ok placed) (ho : o.Of fmt placed)
    (hwidth : o.declaredWidth = o.computedWidth) (h64 : o.declaredWidth ≤ 64) {ty : IntTy}
    (hle : o.declaredWidth ≤ ty.width) (hty : ty.width ≤ 32 ∨ ty.width = 64) :
    (fmt.declaredWidth ≤ 64 →
      (o.SimpleAgrees fmt.declaredWidth ty ↔ o.Extractable fmt.declaredWidth ty)) ∧
    (o.ComplexAgrees ty ↔ (∀ c ∈ o.componentVec, IsConstant c) ∧ o.Extractable 0 ty) :=
  have hp := placed_of hplaced ho hwidth h64
  ⟨fun hd => simpleAgrees_iff hp hd hle hty, complexAgrees_iff hp hle hty⟩

/-- The immediate of `branchFormat` is extracted into an `int16_t`. -/
theorem branchImm_extracted : branchImm.SimpleAgrees 32 (typeOf true 13) :=
  ((@valueExtractors_agree_iff _ branchFormat branchPlaced (fun _ => none) (by decide)
    branchImm_of (by decide) (by decide) (typeOf true 13) (by decide) (by decide)).1
      (by decide)).mpr
      ⟨⟨_, List.mem_cons_self, by decide⟩, by decide, Or.inl (by decide)⟩

/-- A 32-bit format, and an address of 44 bits made from it and 12 zeros. -/
def pageFormat : Format := ⟨"Page", 32, "", [.field "number" false 32]⟩

def pageAddress : Overlay :=
  ⟨"page_address", false, 44, [.formatReference 31 0, .bitConstant ⟨0, 12, by decide, Nat.one_le_two_pow⟩]⟩

/-- The emitted `(value & 0xffffffff) << 12` is an `unsigned int`. -/
theorem pageAddress_not_extracted :
    pageFormat.computeAndCheckFormatWidth (fun _ => none) =
        .ok [.field ⟨"number", false, 31, 0, 32⟩] ∧
      pageAddress.Of pageFormat [.field ⟨"number", false, 31, 0, 32⟩] ∧
      (accumulated (typeOf false 44) (wordEnv (typeOf false 32) (2 ^ 31))
        ((pageAddress.writeSimpleValueExtractor (.var "value")).getD [])).bind (·.value) =
          some (.of (typeOf false 44) 0) ∧
      pageAddress.getValue (2 ^ 31) = .ok (some (2 ^ 43)) ∧
      ¬ pageAddress.SimpleAgrees 32 (typeOf false 44) := by
  have hrun : (accumulated (typeOf false 44) (wordEnv (typeOf false 32) (2 ^ 31))
      ((pageAddress.writeSimpleValueExtractor (.var "value")).getD [])).bind (·.value) =
        some (.of (typeOf false 44) 0) := by decide +kernel
  refine ⟨by decide, ?_, hrun, by decide, fun h => ?_⟩
  · intro c hc
    simp only [pageAddress, List.mem_cons, List.not_mem_nil, or_false] at hc
    rcases hc with rfl | rfl
    all_goals
      refine ⟨by simp [BitField.Accepted, pageFormat], fun field first last h => ?_⟩
      cases h
  · obtain ⟨terms, v, r, hterms, hr, hv, hval⟩ := h (2 ^ 31) (by decide)
    have hword : (wordEnv (typeOf false 32) ((2 ^ 31 : BitVec 64).toNat : Int)) =
      wordEnv (typeOf false 32) (2 ^ 31) := rfl
    rw [hword] at hr
    rw [hterms, Option.getD_some, hr, Option.bind_some] at hrun
    have hv' : pageAddress.getValue (2 ^ 31) = .ok (some (2 ^ 43)) := by decide
    rw [hv, Except.ok.injEq, Option.some.injEq] at hv'
    rw [Option.some.injEq, hval, hv'] at hrun
    exact absurd (congrArg Val.val hrun) (by decide)

end Format

end Overlay

end MpactSim.Decoder
