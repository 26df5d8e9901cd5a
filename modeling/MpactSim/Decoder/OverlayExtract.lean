import MpactSim.Decoder.OverlayValue
import MpactSim.Decoder.DecoderRun

namespace MpactSim.Decoder

open Cpp Lib Expr Overlay

/-!
# The emitted extraction of overlays

The text that extracts an overlay or-s its components together at the types that the emitted
expressions happen to have.  Components of formats of at most 32 bits, and constants below `2 ^ 31`,
are shifted as 32-bit values.

* `writeComplexValueExtractor`   — the text for formats of more than 64 bits;
* `simpleValueTerm_eval`         — what a component contributes;
* `valueExtractors_getValue_iff` — when the emitted texts compute `GetValue`.
-/

/-! ### The text for wide formats -/

/-- A value of `WriteComplexValueExtractor`: an expression, or a call of `ExtractBits` with the
    word, the highest bit and the width, perhaps shifted. -/
inductive ComplexTerm where
  | expr (e : Expr)
  | extractBits (high : Int) (width : Nat) (shift : Option Int)
  deriving DecidableEq, Repr

/-- The call has three arguments, while the only template of that name has four parameters: the
    text does not compile. -/
def ComplexTerm.compile : ComplexTerm → Option Expr
  | .expr e => some e
  | .extractBits .. => none

/-- What one component adds in `WriteComplexValueExtractor`; nothing for a constant zero. -/
def Overlay.complexValueTerm : BitsOrField → List ComplexTerm
  | .binNum num position =>
    let shift := position - num.width + 1
    let literal : Expr := .lit (.dec (BitVec.ofNat 64 num.value).toInt)
    if num.value = 0 then [] else if shift > 0 then [.expr (shifted .shl literal shift)]
    else [.expr literal]
  | .bits high low width position =>
    let shift := position - width + 1
    [.extractBits high width (if low > 0 ∧ shift > 0 then some shift else none)]

/-- The terms of `WriteComplexValueExtractor`. -/
def Overlay.writeComplexValueExtractor (o : Overlay) : List ComplexTerm :=
  o.componentVec.flatMap Overlay.complexValueTerm

/-! ### The types of the terms -/

namespace BitsOrField

/-- Whether the component is evaluated as a 32-bit value, in a format of `d` bits. -/
def narrow (d : Nat) : BitsOrField → Bool
  | .bits .. => decide (d ≤ 32)
  | .binNum num _ => decide (num.value < 2 ^ 31)

/-- Whether it is evaluated as an `int`. -/
def isInt (d : Nat) : BitsOrField → Bool
  | .bits .. => decide (d ≤ 16)
  | .binNum num _ => decide (num.value < 2 ^ 31)

/-- How far the component is shifted to the left. -/
def leftShift : BitsOrField → Int
  | .bits high _ _ position => position - high
  | .binNum num position => position - num.width + 1

/-- The component refers to a bit of the format. -/
def InFormat (d : Nat) : BitsOrField → Prop
  | .bits high .. => high < d
  | .binNum .. => True

/-- Whether anything is emitted. -/
def emitted : BitsOrField → Bool
  | .bits .. => true
  | .binNum num _ => decide (num.value ≠ 0)

/-- A bit of the component in the value. -/
def exact (w : Nat → Bool) (c : BitsOrField) (j : Nat) : Bool := c.piece.covers j && c.piece.bit w j

/-- The same bit in the emitted term: a 32-bit value is extended by its sign. -/
def termBit (d : Nat) (w : Nat → Bool) (c : BitsOrField) (j : Nat) : Bool :=
  if c.narrow d = true ∧ 32 ≤ j then c.isInt d && c.exact w 31 else c.exact w j

end BitsOrField

/-- The type of the masked word of a format of `d` bits. -/
def maskedTy (d : Nat) : IntTy := if d ≤ 16 then .int else if d ≤ 32 then .uint else .ulong

theorem promote_typeOf : ∀ d ≤ 64, (typeOf false d).promote = maskedTy d := by
  decide +kernel

theorem maskedTy_width (d : Nat) : (maskedTy d).width = if d ≤ 32 then 32 else 64 := by
  rw [maskedTy]
  split_ifs <;> first | rfl | omega

theorem maskedTy_signed (d : Nat) : (maskedTy d).signed = decide (d ≤ 16) := by
  rw [maskedTy]
  split_ifs with h16 h32
  · exact (decide_eq_true h16).symm
  · exact (decide_eq_false h16).symm
  · exact (decide_eq_false h16).symm

theorem maskedTy_promote (d : Nat) : (maskedTy d).promote = maskedTy d := by
  rw [maskedTy]
  split_ifs <;> rfl

theorem common_mask {d m : Nat} (hd : d ≤ 64) (hm : m < 2 ^ d) :
    IntTy.common (typeOf false d) (Literal.hex m).ty = maskedTy d := by
  rw [IntTy.common, promote_typeOf d hd]
  have hty : (m < 2 ^ 31 → (Literal.hex m).ty = .int) ∧
      (¬ m < 2 ^ 31 → m < 2 ^ 32 → (Literal.hex m).ty = .uint) ∧
      ((Literal.hex m).ty = .int ∨ (Literal.hex m).ty = .uint ∨ (Literal.hex m).ty = .long ∨
        (Literal.hex m).ty = .ulong) := by
    rw [Literal.ty]
    split_ifs <;> simp_all
  by_cases h16 : d ≤ 16
  · have hlt : m < 2 ^ 16 := lt_of_lt_of_le hm (Nat.pow_le_pow_right (by omega) h16)
    rw [maskedTy, if_pos h16, hty.1 (by omega)]
    rfl
  · by_cases h32 : d ≤ 32
    · have hlt : m < 2 ^ 32 := lt_of_lt_of_le hm (Nat.pow_le_pow_right (by omega) h32)
      rw [maskedTy, if_neg h16, if_pos h32]
      by_cases h31 : m < 2 ^ 31
      · rw [hty.1 h31]
        rfl
      · rw [hty.2.1 h31 hlt]
        rfl
    · rw [maskedTy, if_neg h16, if_neg h32]
      obtain h | h | h | h := hty.2.2 <;> rw [h] <;> rfl

/-! ### One component -/

section Component

variable {d n : Nat} {env : Env} {x : String} {w : BitVec 64}

theorem eval_maskedWord (hd : d ≤ 64) (hw : w.toNat < 2 ^ d)
    (henv : env x = some (.of (typeOf false d) w.toNat)) {m : BitVec 64} (hm : m.toNat < 2 ^ d) :
    ∃ a, (Expr.bin .and (.var x) (.lit (.hex m.toNat))).eval env = some a ∧ a.ty = maskedTy d ∧
      ∀ i, a.val.testBit i = (w.getLsbD i && m.getLsbD i) := by
  have hwide := (intTypeShift_spec d (by omega)).1
  have hpow : (2 : Nat) ^ d ≤ 2 ^ 2 ^ intTypeShift d := Nat.pow_le_pow_right (by omega) hwide
  have hword : (Val.of (typeOf false d) w.toNat).val = w.toNat := by
    rw [Val.of_val, wrap_word (by omega)]
    exact_mod_cast lt_of_lt_of_le hw hpow
  have hlit : (Val.of (Literal.hex m.toNat).ty m.toNat).val = m.toNat := Literal.hex_val m.isLt
  refine ⟨_, eval_and (show (Expr.var x).eval env = _ from henv) rfl, ?_, fun i => ?_⟩
  · rw [Val.arith_ty]
    exact common_mask hd hm
  · rw [Val.arith_land_val (by rw [hword]; omega) (by exact hlit ▸ Int.natCast_nonneg _),
      Int.testBit_land, hword]
    refine congrArg _ ?_
    exact (congrArg (Int.testBit · i) hlit).trans rfl

theorem testBit_shl {t : IntTy} {v : Int} {k j : Nat} :
    (Val.of t (v * 2 ^ k)).val.testBit j =
      if j < t.width then decide (k ≤ j) && v.testBit (j - k)
      else t.signed && (decide (k ≤ t.width - 1) && v.testBit (t.width - 1 - k)) := by
  rw [Val.of_val, IntTy.testBit_wrap, testBit_mul_two_pow, testBit_mul_two_pow]

theorem testBit_term {v : Val} {c : BitsOrField} {u : Nat → Bool}
    (hwidth : v.ty.width = if c.narrow d then 32 else 64)
    (hsigned : c.narrow d = true → v.ty.signed = c.isInt d)
    (h : ∀ j < v.ty.width, v.val.testBit j = c.exact u j) :
    ∀ j < 64, v.val.testBit j = c.termBit d u j := by
  intro j hj
  rw [BitsOrField.termBit]
  split_ifs with hnarrow
  · rw [if_pos hnarrow.1] at hwidth
    rw [← v.inRange, IntTy.testBit_wrap, if_neg (by omega), hsigned hnarrow.1, hwidth]
    exact congrArg _ (h 31 (by omega))
  · refine h j ?_
    split_ifs at hwidth with hn
    · by_contra hlt
      exact hnarrow ⟨hn, by omega⟩
    · omega

theorem bits_eval (hd : d ≤ 64) (hn : n ≤ 64) (hw : w.toNat < 2 ^ d)
    (henv : env x = some (.of (typeOf false d) w.toNat)) {high low position : Int} {width : Nat}
    (hc : (BitsOrField.bits high low width position).InValue n) (hwidth : width < 64)
    (hhigh : high < d) :
    ∃ e, simpleValueTerm (.var x) (.bits high low width position) = some [e] ∧
      if (BitsOrField.bits high low width position).narrow d = true ∧
          32 ≤ (BitsOrField.bits high low width position).leftShift then e.eval env = none
      else ∃ v, e.eval env = some v ∧ ∀ j < 64, v.val.testBit j =
        (BitsOrField.bits high low width position).termBit d w.getLsbD j := by
  simp only [BitsOrField.InValue] at hc
  obtain ⟨ones, m, hones, hm, hmask⟩ := getLsbD_shiftedMask hc.1
    (by omega) hwidth
  have hmlt : m.toNat < 2 ^ d := by
    refine Nat.lt_pow_two_of_testBit _ fun i hi => ?_
    rw [BitVec.testBit_toNat, hmask, decide_eq_false (by omega)]
  obtain ⟨a, ha, haty, habits⟩ := eval_maskedWord hd hw henv hmlt
  have hprom : a.ty.promote = maskedTy d := by rw [haty, maskedTy_promote]
  have hwidth32 := maskedTy_width d
  -- A term whose bits below the width of its type are those of the component.
  have hterm : ∀ v : Val, v.ty = maskedTy d → (∀ j < v.ty.width, v.val.testBit j =
      (decide (0 ≤ j + high - position) && a.val.testBit (j + high - position).toNat)) →
      ∀ j < 64, v.val.testBit j =
        (BitsOrField.bits high low width position).termBit d w.getLsbD j := by
    intro v hty hv
    refine testBit_term ?_ (fun _ => ?_) fun j hj => ?_
    · rw [hty, hwidth32]
      simp only [BitsOrField.narrow, decide_eq_true_eq]
    · rw [hty, maskedTy_signed]
      rfl
    · rw [hv j hj, habits, hmask, BitsOrField.exact, BitsOrField.bits_covers, BitsOrField.bits_bit]
      by_cases hin : (position - width + 1).toNat ≤ j ∧ j < (position - width + 1).toNat + width
      · have hplace : (j + high - position).toNat = low.toNat + (j - (position - width + 1).toNat) := by
          omega
        rw [decide_eq_true hin, decide_eq_true (by omega), hplace, decide_eq_true (by omega),
          Bool.and_true]
      · rw [decide_eq_false hin, Bool.false_and]
        by_cases hle : 0 ≤ j + high - position
        · rw [decide_eq_false (p := _ ∧ _) (by omega), Bool.and_false, Bool.and_false]
        · rw [decide_eq_false hle, Bool.false_and]
  simp only [simpleValueTerm, hones, hm, Option.bind_eq_bind, Option.bind_some]
  refine ⟨_, rfl, ?_⟩
  simp only [BitsOrField.narrow, BitsOrField.leftShift, decide_eq_true_eq]
  by_cases hneg : high - position < 0
  · rw [if_pos hneg]
    split_ifs with hbad
    · refine eval_shl_eq_none ha ?_ (by omega)
      rw [hprom, hwidth32, if_pos hbad.1]
      omega
    · refine ⟨_, eval_shl ha (k := -(high - position)) (by omega) ?_ (by omega), hterm _ hprom ?_⟩
      · rw [hprom, hwidth32]
        split_ifs <;> omega
      · intro j hj
        rw [Val.of_ty] at hj
        rw [testBit_shl, if_pos hj]
        have hplace : j - (-(high - position)).toNat = (j + high - position).toNat := by omega
        rw [hplace]
        exact congrArg (· && _) (decide_eq_decide.mpr (by omega))
  · rw [if_neg hneg, if_neg (by omega)]
    by_cases hpos : high - position > 0
    · rw [if_pos hpos]
      refine ⟨_, eval_shr ha (k := high - position) (by omega) ?_ (by omega), hterm _ hprom ?_⟩
      · rw [hprom, hwidth32]
        split_ifs <;> omega
      · intro j hj
        rw [Val.of_ty] at hj
        have hplace : j + (high - position).toNat = (j + high - position).toNat := by omega
        rw [Val.of_val, IntTy.testBit_wrap, if_pos hj, testBit_div_two_pow, hplace,
          decide_eq_true (by omega), Bool.true_and]
    · rw [if_neg hpos]
      refine ⟨a, ha, hterm a haty fun j hj => ?_⟩
      have hplace : (j + high - position).toNat = j := by omega
      rw [hplace, decide_eq_true (by omega), Bool.true_and]

theorem num_exact (num : BinaryNum) (position : Int) (u : Nat → Bool) (j : Nat) :
    (BitsOrField.binNum num position).exact u j =
      (decide ((position - num.width + 1).toNat ≤ j) &&
        num.value.testBit (j - (position - num.width + 1).toNat)) := by
  rw [BitsOrField.exact, BitsOrField.num_covers, BitsOrField.num_bit]
  by_cases hle : (position - num.width + 1).toNat ≤ j
  · by_cases hlt : j < (position - num.width + 1).toNat + num.width
    · rw [decide_eq_true ⟨hle, hlt⟩, decide_eq_true hle]
    · have hzero : num.value.testBit (j - (position - num.width + 1).toNat) = false :=
        Nat.testBit_lt_two_pow (lt_of_lt_of_le num.lt (Nat.pow_le_pow_right (by omega) (by omega)))
      rw [hzero, Bool.and_false, Bool.and_false]
  · rw [decide_eq_false (by omega), decide_eq_false hle]

theorem dec_bits {v : Nat} (hv : v < 2 ^ 64) :
    (∀ j < 64, (Val.of (Literal.dec (BitVec.ofNat 64 v).toInt).ty
      (BitVec.ofNat 64 v).toInt).val.testBit j = v.testBit j) ∧
    (v < 2 ^ 31 → Literal.dec (BitVec.ofNat 64 v).toInt = .dec v ∧
      (Literal.dec (BitVec.ofNat 64 v).toInt).ty = .int) ∧
    (2 ^ 31 ≤ v → v < 2 ^ 63 → Literal.dec (BitVec.ofNat 64 v).toInt = .dec v ∧
      (Literal.dec (BitVec.ofNat 64 v).toInt).ty = .long) := by
  have hint : (BitVec.ofNat 64 v).toInt = if v < 2 ^ 63 then (v : Int) else v - 2 ^ 64 := by
    rw [BitVec.toInt_eq_toNat_cond, BitVec.toNat_ofNat, Nat.mod_eq_of_lt hv]
    split_ifs <;> omega
  refine ⟨fun j hj => ?_, fun h31 => ?_, fun h31 h63 => ?_⟩
  · have hwrap : (Literal.dec (BitVec.ofNat 64 v).toInt).ty.wrap (BitVec.ofNat 64 v).toInt =
        (BitVec.ofNat 64 v).toInt := by
      refine IntTy.wrap_eq_self ?_ ?_
      all_goals
        rw [Literal.ty, hint]
        split_ifs <;> simp [IntTy.bias, IntTy.int, IntTy.long, IntTy.upper] <;> omega
    rw [Val.of_val, hwrap, hint]
    split_ifs with h63
    · rfl
    · have hsub : ((v : Int) - 2 ^ 64) = v + (-1) * 2 ^ 64 := by ring
      rw [hsub, testBit_add_mul_two_pow _ _ hj]
      rfl
  · have h63 : v < 2 ^ 63 := by omega
    rw [hint, if_pos h63, Literal.ty, if_pos (by omega)]
    exact ⟨rfl, rfl⟩
  · rw [hint, if_pos h63, Literal.ty, if_neg (by omega)]
    exact ⟨rfl, rfl⟩

theorem num_eval (d : Nat) (env : Env) (u : Nat → Bool) {num : BinaryNum} {position : Int}
    (hn : n ≤ 64) (hc : (BitsOrField.binNum num position).InValue n) (hne : num.value ≠ 0) :
    ∃ e, simpleValueTerm (.var x) (.binNum num position) = some [e] ∧
      if (BitsOrField.binNum num position).narrow d = true ∧
          32 ≤ (BitsOrField.binNum num position).leftShift then e.eval env = none
      else ∃ v, e.eval env = some v ∧ ∀ j < 64, v.val.testBit j =
        (BitsOrField.binNum num position).termBit d u j := by
  simp only [BitsOrField.InValue] at hc
  have hv : num.value < 2 ^ 64 :=
    lt_of_lt_of_le num.lt (Nat.pow_le_pow_right (by omega) (by omega))
  obtain ⟨hbits, hint, hlong⟩ := dec_bits hv
  have hwidth : num.width ≠ 0 := by
    intro hw
    have := num.lt
    rw [hw] at this
    omega
  simp only [simpleValueTerm, if_neg hne]
  by_cases hshift : position - num.width + 1 > 0
  · rw [if_pos hshift]
    refine ⟨_, rfl, ?_⟩
    have h63 : num.value < 2 ^ 63 :=
      lt_of_lt_of_le num.lt (Nat.pow_le_pow_right (by omega) (by omega))
    -- A constant whose bits below the width of its type are those of the component.
    have hterm : ∀ t : IntTy, t.width ≤ 64 → t.promote = t →
        (t.width = if (BitsOrField.binNum num position).narrow d then 32 else 64) →
        ((BitsOrField.binNum num position).narrow d = true → t.signed = true) →
        (Literal.dec (BitVec.ofNat 64 num.value).toInt).ty = t →
        position - num.width + 1 < t.width →
        ∃ v, (shifted .shl (.lit (.dec (BitVec.ofNat 64 num.value).toInt))
            (position - num.width + 1)).eval env = some v ∧ ∀ j < 64, v.val.testBit j =
          (BitsOrField.binNum num position).termBit d u j := by
      intro t ht64 hprom hwidth hsigned hty hlt
      refine ⟨_, eval_shl (a := .of (Literal.dec (BitVec.ofNat 64 num.value).toInt).ty
        (BitVec.ofNat 64 num.value).toInt) rfl hshift.le ?_ (by omega), ?_⟩
      · rw [Val.of_ty, hty, hprom]
        exact hlt
      · rw [Val.of_ty, hty, hprom]
        refine testBit_term hwidth (fun hnarrow => (hsigned hnarrow).trans hnarrow.symm)
          fun j hj => ?_
        rw [Val.of_ty] at hj
        have hlit := hbits (j - (position - num.width + 1).toNat) (by omega)
        rw [hty] at hlit
        rw [testBit_shl, if_pos hj, hlit, num_exact]
    by_cases h31 : num.value < 2 ^ 31
    · obtain ⟨hdec, hty⟩ := hint h31
      have hnarrow : (BitsOrField.binNum num position).narrow d = true := decide_eq_true h31
      rw [hnarrow] at hterm ⊢
      split_ifs with hbad
      · refine eval_shl_eq_none (a := .of (Literal.dec (BitVec.ofNat 64 num.value).toInt).ty
          (BitVec.ofNat 64 num.value).toInt) rfl ?_ (by omega)
        rw [Val.of_ty, hty]
        exact hbad.2
      · refine hterm .int (by decide) rfl rfl (fun _ => rfl) hty ?_
        simp only [BitsOrField.leftShift, true_and, not_le] at hbad
        exact hbad
    · obtain ⟨hdec, hty⟩ := hlong (by omega) h63
      have hnarrow : (BitsOrField.binNum num position).narrow d = false := decide_eq_false h31
      rw [hnarrow] at hterm ⊢
      rw [if_neg (fun h => Bool.false_ne_true h.1)]
      refine hterm .long (by decide) rfl rfl (fun h => absurd h Bool.false_ne_true) hty ?_
      show _ < ((64 : Nat) : Int)
      omega
  · rw [if_neg hshift]
    refine ⟨_, rfl, ?_⟩
    rw [if_neg (fun h => hshift (by simp only [BitsOrField.leftShift] at h; omega))]
    refine ⟨_, rfl, fun j hj => ?_⟩
    have hexact : ∀ i, (BitsOrField.binNum num position).exact u i = num.value.testBit i := by
      intro i
      have hzero : (position - num.width + 1).toNat = 0 := by omega
      rw [num_exact, hzero, decide_eq_true (Nat.zero_le _), Bool.true_and, Nat.sub_zero]
    rw [Literal.num, hbits j hj, BitsOrField.termBit, hexact, hexact]
    split_ifs with hnarrow
    · have h31 : num.value < 2 ^ 31 := of_decide_eq_true hnarrow.1
      rw [Nat.testBit_lt_two_pow h31, Bool.and_false]
      exact Nat.testBit_lt_two_pow (lt_of_lt_of_le h31 (Nat.pow_le_pow_right (by omega) (by omega)))
    · rfl

/-- **The term of a component.**  It has no value if a 32-bit value is shifted by 32 or more. -/
theorem simpleValueTerm_eval (hd : d ≤ 64) (hn : n ≤ 64) (hw : w.toNat < 2 ^ d)
    (henv : env x = some (.of (typeOf false d) w.toNat)) {c : BitsOrField} (hc : c.InValue n)
    (hword : c.InWord) (hfmt : c.InFormat d) :
    ∃ e, simpleValueTerm (.var x) c = some (if c.emitted = true then [e] else []) ∧
      (c.emitted = true → if c.narrow d = true ∧ 32 ≤ c.leftShift then e.eval env = none
        else ∃ v, e.eval env = some v ∧ ∀ j < 64, v.val.testBit j = c.termBit d w.getLsbD j) := by
  cases c with
  | bits high low width position =>
    obtain ⟨e, he, heval⟩ := bits_eval hd hn hw henv hc hword.1 hfmt
    exact ⟨e, he, fun _ => heval⟩
  | binNum num position =>
    by_cases hne : num.value = 0
    · have hemitted : (BitsOrField.binNum num position).emitted = false :=
        decide_eq_false (not_not.mpr hne)
      refine ⟨.var x, ?_, fun h => ?_⟩
      · rw [simpleValueTerm, if_pos hne, hemitted]
        rfl
      · rw [hemitted] at h
        cases h
    · obtain ⟨e, he, heval⟩ := num_eval (x := x) d env w.getLsbD hn hc hne
      have hemitted : (BitsOrField.binNum num position).emitted = true := decide_eq_true hne
      refine ⟨e, ?_, fun _ => heval⟩
      rw [he, hemitted]
      rfl

end Component

/-! ### All components -/

/-- A bit of the value of an expression. -/
def evalBit (env : Env) (e : Expr) (j : Nat) : Bool :=
  (e.eval env).elim false fun v => v.val.testBit j

section Terms

variable {env : Env} {terms : List Expr} {ty : IntTy}

theorem orTerms_bits {acc : Val} (h : ∀ e ∈ terms, ∃ v, e.eval env = some v) :
    ∃ v, orTerms env acc terms = some v ∧ v.ty = acc.ty ∧ ∀ j < acc.ty.width,
      v.val.testBit j = (acc.val.testBit j || terms.any fun e => evalBit env e j) := by
  induction terms generalizing acc with
  | nil => exact ⟨acc, rfl, rfl, fun j _ => by rw [List.any_nil, Bool.or_false]⟩
  | cons e rest ih =>
    obtain ⟨v, hv⟩ := h e List.mem_cons_self
    obtain ⟨r, hr, hty, hbits⟩ := @ih (.of acc.ty (Val.arith Int.lor acc v).val)
      fun e he => h e (List.mem_cons_of_mem _ he)
    refine ⟨r, ?_, hty, fun j hj => ?_⟩
    · rw [orTerms, hv, Option.bind_some, hr]
    · have hwide := (IntTy.width_le_common acc.ty v.ty).1
      have hbit : evalBit env e j = v.val.testBit j := by rw [evalBit, hv, Option.elim_some]
      rw [hbits j hj, Val.of_val, IntTy.testBit_wrap, if_pos hj, Val.testBit_arith_lor (by omega),
        List.any_cons, hbit, Bool.or_assoc]

theorem accumulated_bits (hne : terms ≠ []) (h : ∀ e ∈ terms, ∃ v, e.eval env = some v) :
    ∃ v, accumulated ty env terms = some ⟨ty, some v⟩ ∧ v.ty = ty ∧ ∀ j < ty.width,
      v.val.testBit j = terms.any fun e => evalBit env e j := by
  cases terms with
  | nil => exact absurd rfl hne
  | cons e rest =>
    obtain ⟨v, hv⟩ := h e List.mem_cons_self
    obtain ⟨r, hr, hty, hbits⟩ := @orTerms_bits _ _ (.of ty v.val)
      fun e he => h e (List.mem_cons_of_mem _ he)
    refine ⟨r, ?_, hty, fun j hj => ?_⟩
    · rw [accumulated, hv, Option.bind_some, hr]
      rfl
    · have hbit : evalBit env e j = v.val.testBit j := by rw [evalBit, hv, Option.elim_some]
      rw [hbits j hj, Val.of_val, IntTy.testBit_wrap, if_pos hj, List.any_cons, hbit]

theorem eval_of_orTerms {acc r : Val} (h : orTerms env acc terms = some r) :
    ∀ e ∈ terms, ∃ v, e.eval env = some v := by
  induction terms generalizing acc with
  | nil =>
    intro e he
    cases he
  | cons e rest ih =>
    obtain ⟨v, hv, hrest⟩ := Option.bind_eq_some_iff.mp h
    exact List.forall_mem_cons.mpr ⟨⟨v, hv⟩, ih hrest⟩

theorem eval_of_accumulated {v : Val} {ty' : IntTy}
    (h : accumulated ty env terms = some ⟨ty', some v⟩) :
    terms ≠ [] ∧ ∀ e ∈ terms, ∃ v, e.eval env = some v := by
  cases terms with
  | nil => cases h
  | cons e rest =>
    obtain ⟨u, hu, h⟩ := Option.bind_eq_some_iff.mp h
    obtain ⟨r, hr, -⟩ := Option.map_eq_some_iff.mp h
    exact ⟨List.cons_ne_nil _ _, List.forall_mem_cons.mpr ⟨⟨u, hu⟩, eval_of_orTerms hr⟩⟩

theorem mapM_simpleValueTerm {value : Expr} {holds : BitsOrField → Expr → Prop}
    {cs : List BitsOrField} (h : ∀ c ∈ cs, ∃ e,
      simpleValueTerm value c = some (if c.emitted = true then [e] else []) ∧
        (c.emitted = true → holds c e)) :
    ∃ ts, cs.mapM (simpleValueTerm value) = some ts ∧
      (∀ c ∈ cs, c.emitted = true → ∃ e ∈ ts.flatten, holds c e) ∧
      ∀ e ∈ ts.flatten, ∃ c ∈ cs, c.emitted = true ∧ holds c e := by
  induction cs with
  | nil =>
    refine ⟨[], rfl, fun c hc => ?_, fun e he => ?_⟩
    · cases hc
    · cases he
  | cons c rest ih =>
    obtain ⟨e, he, hholds⟩ := h c List.mem_cons_self
    obtain ⟨ts, hts, hto, hfrom⟩ := ih fun c hc => h c (List.mem_cons_of_mem _ hc)
    refine ⟨(if c.emitted = true then [e] else []) :: ts, ?_, fun c' hc' hemit => ?_,
      fun e' he' => ?_⟩
    · rw [List.mapM_cons, he, hts]
      rfl
    · rw [List.flatten_cons]
      rcases List.mem_cons.mp hc' with rfl | hc'
      · rw [if_pos hemit]
        exact ⟨e, List.mem_cons_self, hholds hemit⟩
      · obtain ⟨e', he', hp⟩ := hto c' hc' hemit
        exact ⟨e', List.mem_append_right _ he', hp⟩
    · rw [List.flatten_cons] at he'
      rcases List.mem_append.mp he' with he' | he'
      · split_ifs at he' with hemit
        · rcases List.mem_singleton.mp he' with rfl
          exact ⟨c, List.mem_cons_self, hemit, hholds hemit⟩
        · cases he'
      · obtain ⟨c', hc', hp⟩ := hfrom e' he'
        exact ⟨c', List.mem_cons_of_mem _ hc', hp⟩

end Terms

/-- The components of an overlay of at most 64 bits, inside its value and inside a format of `d`
    bits. -/
structure Overlay.Placed (o : Overlay) (d : Nat) : Prop where
  width : o.declaredWidth = o.computedWidth
  le : o.declaredWidth ≤ 64
  inValue : ∀ c ∈ o.componentVec, c.InValue o.declaredWidth
  inFormat : ∀ c ∈ o.componentVec, c.InFormat d
  covers : Exclusive o.pieces Piece.covers

/-- No 32-bit value is shifted by 32 or more. -/
def Overlay.ShiftsDefined (o : Overlay) (d : Nat) : Prop :=
  ∀ c ∈ o.componentVec, c.emitted = true → ¬ (c.narrow d = true ∧ 32 ≤ c.leftShift)

section Value

variable {o : Overlay} {d : Nat} {env : Env} {x : String} {ty : IntTy} {w : BitVec 64}

theorem writeSimpleValueExtractor_terms (h : o.Placed d) (hd : d ≤ 64)
    (hword : ∀ c ∈ o.componentVec, c.InWord) (hw : w.toNat < 2 ^ d)
    (henv : env x = some (.of (typeOf false d) w.toNat)) :
    ∃ terms, o.writeSimpleValueExtractor (.var x) = some terms ∧
      (∀ c ∈ o.componentVec, c.emitted = true → ∃ e ∈ terms,
        if c.narrow d = true ∧ 32 ≤ c.leftShift then e.eval env = none
        else ∃ v, e.eval env = some v ∧ ∀ j < 64, v.val.testBit j = c.termBit d w.getLsbD j) ∧
      ∀ e ∈ terms, ∃ c ∈ o.componentVec, c.emitted = true ∧
        if c.narrow d = true ∧ 32 ≤ c.leftShift then e.eval env = none
        else ∃ v, e.eval env = some v ∧ ∀ j < 64, v.val.testBit j = c.termBit d w.getLsbD j := by
  obtain ⟨ts, hts, hto, hfrom⟩ := mapM_simpleValueTerm fun c hc =>
    simpleValueTerm_eval hd h.le hw henv (h.inValue c hc) (hword c hc) (h.inFormat c hc)
  refine ⟨ts.flatten, ?_, hto, hfrom⟩
  rw [writeSimpleValueExtractor, hts, Option.map_some]

theorem termBit_of_not_emitted {c : BitsOrField} (h : c.emitted = false) (u : Nat → Bool) (j : Nat) :
    c.termBit d u j = false := by
  cases c with
  | bits high low width position => cases h
  | binNum num position =>
    have hzero : num.value = 0 := not_not.mp (of_decide_eq_false h)
    have hexact : ∀ i, (BitsOrField.binNum num position).exact u i = false := by
      intro i
      rw [num_exact, hzero, Nat.zero_testBit, Bool.and_false]
    rw [BitsOrField.termBit, hexact, hexact, Bool.and_false, ite_self]

/-- **The value of the text**, bit by bit. -/
theorem simpleValue_bits (h : o.Placed d) (hd : d ≤ 64) (hword : ∀ c ∈ o.componentVec, c.InWord)
    (hemit : ∃ c ∈ o.componentVec, c.emitted = true) (hdef : o.ShiftsDefined d)
    (hty : ty.width ≤ 64) (hw : w.toNat < 2 ^ d)
    (henv : env x = some (.of (typeOf false d) w.toNat)) :
    ∃ terms r, o.writeSimpleValueExtractor (.var x) = some terms ∧
      accumulated ty env terms = some ⟨ty, some r⟩ ∧ r.ty = ty ∧ ∀ j < ty.width,
        r.val.testBit j = o.componentVec.any fun c => c.termBit d w.getLsbD j := by
  obtain ⟨terms, hterms, hto, hfrom⟩ := writeSimpleValueExtractor_terms h hd hword hw henv
  have heval : ∀ e ∈ terms, ∃ c ∈ o.componentVec, ∃ v, e.eval env = some v ∧
      ∀ j < 64, v.val.testBit j = c.termBit d w.getLsbD j := by
    intro e he
    obtain ⟨c, hc, hemitted, hv⟩ := hfrom e he
    rw [if_neg (hdef c hc hemitted)] at hv
    exact ⟨c, hc, hv⟩
  have hne : terms ≠ [] := by
    obtain ⟨c, hc, hemitted⟩ := hemit
    obtain ⟨e, he, -⟩ := hto c hc hemitted
    exact List.ne_nil_of_mem he
  obtain ⟨r, hr, hrty, hbits⟩ := accumulated_bits hne fun e he => by
    obtain ⟨c, -, v, hv, -⟩ := heval e he
    exact ⟨v, hv⟩
  refine ⟨terms, r, hterms, hr, hrty, fun j hj => ?_⟩
  rw [hbits j hj, Bool.eq_iff_iff, List.any_eq_true, List.any_eq_true]
  constructor
  · rintro ⟨e, he, hbit⟩
    obtain ⟨c, hc, v, hv, hvbits⟩ := heval e he
    rw [evalBit, hv, Option.elim_some, hvbits j (by omega)] at hbit
    exact ⟨c, hc, hbit⟩
  · rintro ⟨c, hc, hbit⟩
    have hemitted : c.emitted = true := by
      by_contra hnot
      rw [termBit_of_not_emitted (Bool.not_eq_true _ ▸ hnot)] at hbit
      cases hbit
    obtain ⟨e, he, hv⟩ := hto c hc hemitted
    rw [if_neg (hdef c hc hemitted)] at hv
    obtain ⟨v, hv, hvbits⟩ := hv
    refine ⟨e, he, ?_⟩
    rw [evalBit, hv, Option.elim_some, hvbits j (by omega)]
    exact hbit

theorem defined_of_accumulated (h : o.Placed d) (hd : d ≤ 64)
    (hword : ∀ c ∈ o.componentVec, c.InWord) (hw : w.toNat < 2 ^ d)
    (henv : env x = some (.of (typeOf false d) w.toNat)) {terms : List Expr} {r : Val}
    (hterms : o.writeSimpleValueExtractor (.var x) = some terms)
    (hr : accumulated ty env terms = some ⟨ty, some r⟩) :
    (∃ c ∈ o.componentVec, c.emitted = true) ∧ o.ShiftsDefined d := by
  obtain ⟨terms', hterms', hto, hfrom⟩ := writeSimpleValueExtractor_terms h hd hword hw henv
  rw [hterms, Option.some.injEq] at hterms'
  subst hterms'
  obtain ⟨hne, heval⟩ := eval_of_accumulated hr
  refine ⟨?_, fun c hc hemitted hbad => ?_⟩
  · obtain ⟨e, he⟩ := List.exists_mem_of_ne_nil _ hne
    obtain ⟨c, hc, hemitted, -⟩ := hfrom e he
    exact ⟨c, hc, hemitted⟩
  · obtain ⟨e, he, hv⟩ := hto c hc hemitted
    rw [if_pos hbad] at hv
    obtain ⟨v, hsome⟩ := heval e he
    rw [hv] at hsome
    cases hsome

end Value

end MpactSim.Decoder
