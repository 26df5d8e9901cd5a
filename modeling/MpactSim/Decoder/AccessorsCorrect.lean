import MpactSim.Decoder.Accessors
import MpactSim.Cpp.Rules

namespace MpactSim.Decoder

open Cpp Expr

/-!
# Correctness of the generated accessors

Each emitted extractor `Takes` its field and each emitted inserter `Places` it, at the
C++ types of the emitted text; the round trip of a component then follows from the
library's `roundTrip_of_places_takes`.
-/

/-! ### The types that are selected -/

theorem intTypeShift_spec : ∀ w ≤ 128, w ≤ 2 ^ intTypeShift w ∧ 3 ≤ intTypeShift w ∧
    intTypeShift w ≤ 7 ∧ intTypeShift (2 ^ intTypeShift w) = intTypeShift w := by
  decide +kernel

theorem intTypeShift_le_iff :
    ∀ w ≤ 128, ∀ k ≤ 7, 3 ≤ k → (intTypeShift w ≤ k ↔ w ≤ 2 ^ k) := by
  decide +kernel

theorem leftover_lt : ∀ w ≤ 64, 2 ^ intTypeShift w < 32 + w := by
  decide +kernel

variable {w width n low : Nat} {x : Int} {env : Env} {e : Expr}

theorem intTypeShift_mono {v : Nat} (h : v ≤ w) (hw : w ≤ 128) :
    intTypeShift v ≤ intTypeShift w := by
  obtain ⟨hfit, h3, h7, -⟩ := intTypeShift_spec w hw
  exact (intTypeShift_le_iff v (by omega) _ h7 h3).mpr (by omega)

theorem typeWidth_le_64 (h : w ≤ 64) : 2 ^ intTypeShift w ≤ 64 := by
  have h6 : intTypeShift w ≤ 6 := (intTypeShift_le_iff w (by omega) 6 (by omega) (by omega)).mpr h
  exact Nat.pow_le_pow_right (n := 2) (i := intTypeShift w) (j := 6) (by omega) h6

/-- The type for `bitwidth` bits. -/
def typeOf (signed : Bool) (bitwidth : Nat) : IntTy :=
  ⟨signed, 2 ^ intTypeShift bitwidth, intTypeWidth_pos bitwidth⟩

theorem getType_eq {signed : Bool} (h : w ≤ 128) : getType signed w = some (typeOf signed w) := by
  rw [getType, if_neg (by omega), typeOf]

theorem getIntTypeBitWidth_eq (h : w ≤ 128) : getIntTypeBitWidth w = 2 ^ intTypeShift w := by
  obtain ⟨-, -, h7, -⟩ := intTypeShift_spec w h
  rw [getIntTypeBitWidth, if_neg (by omega)]

theorem getType_returnWidth {signed : Bool} (h : w ≤ 128) :
    getType signed (getIntTypeBitWidth w).toNat = some (typeOf signed w) := by
  obtain ⟨-, -, h7, hidem⟩ := intTypeShift_spec w h
  have hpow : (2 : Nat) ^ intTypeShift w ≤ 2 ^ 7 := Nat.pow_le_pow_right (by omega) h7
  have hnat : (getIntTypeBitWidth w).toNat = 2 ^ intTypeShift w := by
    rw [getIntTypeBitWidth_eq h]
    exact_mod_cast Int.toNat_natCast _
  rw [hnat, getType_eq (by omega)]
  simp only [typeOf, hidem]

/-! ### The masks that are computed -/

theorem widthMask_eq (h : width < 64) :
    ∃ m, widthMask width = some m ∧ m.toNat = 2 ^ width - 1 := by
  refine ⟨((1 : BitVec 64) <<< width) - 1, ?_, ?_⟩
  · rw [widthMask, shiftLeftULL, if_pos (by omega)]
    rfl
  · have hlt : (2 : Nat) ^ width < 2 ^ 64 := Nat.pow_lt_pow_right (by omega) h
    have hshift : ((1 : BitVec 64) <<< width).toNat = 2 ^ width := by
      rw [BitVec.toNat_shiftLeft]
      simp [Nat.shiftLeft_eq]
      exact hlt
    have hpos : 0 < 2 ^ width := Nat.two_pow_pos width
    rw [BitVec.toNat_sub_of_le]
    · rw [hshift]
      rfl
    · rw [BitVec.le_def, hshift]
      exact hpos

theorem shiftedMask_eq (width low : Nat) (h : low + width ≤ 64) (hw : 0 < width) (hlt : width < 64) :
    ∃ m, (widthMask width).bind (fun m => shiftLeftULL m low) = some m ∧
      ∀ i, m.getLsbD i = decide (low ≤ i ∧ i < low + width) := by
  obtain ⟨m, hm, hmask⟩ := widthMask_eq hlt
  refine ⟨m <<< low, ?_, fun i => ?_⟩
  · rw [hm, Option.bind_some, shiftLeftULL, if_pos (by omega)]
    rfl
  · have hbit : ∀ j, m.getLsbD j = decide (j < width) := by
      intro j
      rw [← BitVec.testBit_toNat, hmask, Nat.testBit_two_pow_sub_one]
    rw [BitVec.getLsbD_shiftLeft, hbit, ← decide_not, ← Bool.decide_and, ← Bool.decide_and,
      decide_eq_decide]
    omega

/-! ### The word -/

theorem typeOf_upper (w : Nat) : (typeOf false w).upper = 2 ^ 2 ^ intTypeShift w := by
  rw [IntTy.upper_eq]
  rfl

theorem wrap_word (h0 : 0 ≤ x) (hlt : x < 2 ^ 2 ^ intTypeShift w) : (typeOf false w).wrap x = x :=
  IntTy.wrap_of_nonneg h0 (by rwa [typeOf_upper])

theorem yields_shifted (low : Nat) (he : e.Yields env x n) (hlow : low < n) (h63 : low < 2 ^ 63) :
    (shifted .shr e low).Yields env (x / 2 ^ low) n ∧
      (shiftedUnlessZero .shr e low).Yields env (x / 2 ^ low) n := by
  have hshift := he.shr (k := low) (by omega) (by exact_mod_cast hlow) (by exact_mod_cast h63)
  rw [Int.toNat_natCast] at hshift
  refine ⟨hshift, ?_⟩
  rw [shiftedUnlessZero]
  split
  · next h =>
    have : low = 0 := by exact_mod_cast h
    subst this
    simpa using he
  · exact hshift

theorem yields_shiftedUp (low : Nat) {a : Val} (ha : e.eval env = some a) (ha0 : 0 ≤ a.val)
    (hlow : low < a.ty.width) (h63 : low < 2 ^ 63) (hlt : a.val * 2 ^ low < a.ty.upper) :
    (shiftedUnlessZero .shl e low).Yields env (a.val * 2 ^ low) a.ty.promote.width := by
  have hp := a.ty.promote_width
  rw [shiftedUnlessZero]
  split
  · next h =>
    have : low = 0 := by exact_mod_cast h
    subst this
    exact ⟨a, ha, by simp, by simpa using ha0, le_rfl⟩
  · have hshift := yields_shl ha ha0 (k := low) (by omega) (by omega) (by exact_mod_cast h63)
      (by rwa [Int.toNat_natCast])
    rwa [Int.toNat_natCast] at hshift

/-! ### Formats of at most 64 bits -/

theorem yields_field {m : BitVec 64} (he : e.Yields env (x / 2 ^ low) n)
    (hm : m.toNat = 2 ^ width - 1) :
    (Expr.bin .and e (.lit (.hex m.toNat))).Yields env (field x low width) n := by
  have hmask : ((m.toNat : Nat) : Int) = 2 ^ width - 1 := by
    rw [hm, Nat.cast_sub Nat.one_le_two_pow]
    norm_num
  have hand := he.and (yields_hex env m.isLt)
  rw [hmask] at hand
  obtain ⟨a, ha, hval, h0, hn⟩ := hand
  exact ⟨a, ha, hval, h0, by omega⟩

theorem testBit_wrap_field {r : IntTy} (hr : r.signed = false) (hw : width ≤ r.width) (i : Nat) :
    (r.wrap (field x low width)).testBit i
      = fieldBit false width (fun j => x.testBit (low + j)) i := by
  rw [IntTy.testBit_wrap, testBit_field, hr, fieldBit, Bool.false_and, Bool.false_and]
  by_cases hi : i < width
  · rw [if_pos (by omega), if_pos hi, decide_eq_true hi, Bool.true_and]
  · rw [if_neg hi, decide_eq_false hi, Bool.false_and]
    split <;> rfl

theorem testBit_extended_field {v : Int}
    (hv : ∀ i, v.testBit i = (field x low width).testBit (if i < width then i else width - 1))
    (i : Nat) : v.testBit i = fieldBit true width (fun j => x.testBit (low + j)) i := by
  rw [hv, testBit_field, fieldBit, Bool.true_and]
  by_cases hi : i < width
  · rw [if_pos hi, if_pos hi, decide_eq_true hi, Bool.true_and]
  · rw [if_neg hi, if_neg hi]
    congr 1
    rw [decide_eq_decide]
    omega

/-- The environment of an extractor. -/
def wordEnv (t : IntTy) (x : Int) : Env := Env.set (fun _ => none) "value" (.of t x)

theorem call_extractor (r t : IntTy) (body : List Stmt) (x : Int) :
    (Func.mk r [(t, "value")] body).call [x]
      = (exec (wordEnv t x) body).map fun v => .of r v.val := rfl

theorem yields_word {d : Nat} (h0 : 0 ≤ x) (hx : x < 2 ^ 2 ^ intTypeShift d) :
    (Expr.var "value").Yields (wordEnv (typeOf false d) x) x
      (max (2 ^ intTypeShift d) 32) :=
  ⟨.of (typeOf false d) x, rfl, wrap_word h0 hx, h0,
    le_of_eq (typeOf false d).promote_width.symm⟩

/-- What a body with the sign extension of a field returns.  The masked expression may
    be computed after other statements, which left the environment `env`. -/
theorem exec_signExtension {f : Field} (he : e.Yields env (field x low f.width) n)
    (h64 : f.width ≤ 64) (hn : 2 ^ intTypeShift f.width ≤ n) (ret : Expr → Expr)
    (hret : ∀ env' e' v, e'.eval env' = some v → ∃ v', (ret e').eval env' = some v' ∧
      (typeOf f.isSigned f.width).wrap v'.val = (typeOf f.isSigned f.width).wrap v.val) :
    ∃ v, (exec env ((signExtension f (typeOf f.isSigned f.width) e).1 ++
        [.ret (ret (signExtension f (typeOf f.isSigned f.width) e).2)])) = some v ∧
      ∀ i, ((typeOf f.isSigned f.width).wrap v.val).testBit i
        = fieldBit f.isSigned f.width (fun j => x.testBit (low + j)) i := by
  have hfit := (intTypeShift_spec f.width (by omega)).1
  have hleft := leftover_lt f.width h64
  have hwidth : (typeOf f.isSigned f.width).width = 2 ^ intTypeShift f.width := rfl
  cases hs : f.isSigned with
  | false =>
    obtain ⟨a, ha, hav, -, -⟩ := he
    obtain ⟨v, hv, hwrap⟩ := hret env e a ha
    rw [hs] at hwrap hwidth
    refine ⟨v, by simpa [signExtension, hs, exec] using hv, fun i => ?_⟩
    rw [hwrap, hav, testBit_wrap_field rfl (by omega)]
  | true =>
    rw [hs] at hret hwidth
    have hz : f.width = 0 → (field x low f.width).testBit 0 = false := by
      intro hzero
      rw [testBit_field, decide_eq_false (by omega), Bool.false_and]
    obtain ⟨u, hty, hbits, hexec⟩ := exec_signExtend (x := "result") (r := typeOf true f.width) he rfl
      (by omega) (by omega) (by omega) hz (k := getIntTypeBitWidth f.width - f.width)
      (by rw [getIntTypeBitWidth_eq (by omega), hwidth]; push_cast; rfl)
      [.ret (ret (.var "result"))]
    obtain ⟨v, hv, hwrap⟩ := hret (env.set "result" u) (.var "result") u (Env.set_self _ _ _)
    refine ⟨v, ?_, fun i => ?_⟩
    · simp only [signExtension, hs, if_true]
      exact hexec.trans hv
    · rw [hwrap, ← hty, u.inRange]
      exact testBit_extended_field hbits i

namespace Format

variable {fmt : Format}

/-- **Field extractor, at most 64 bits.** -/
theorem generateFieldExtractor_takes_of_le_64 (hd : fmt.declaredWidth ≤ 64) {f : Field}
    (hlow : f.low = low) (hfit : low + f.width ≤ fmt.declaredWidth)
    (hin : low < 2 ^ intTypeShift fmt.declaredWidth) (hlt : f.width < 64) :
    ∃ get, fmt.generateFieldExtractor f = some get ∧
      Takes get (2 ^ intTypeShift fmt.declaredWidth) low f.width f.isSigned := by
  obtain ⟨m, hm, hmask⟩ := widthMask_eq hlt
  have hword := (intTypeShift_spec fmt.declaredWidth (by omega)).1
  have hmono : 2 ^ intTypeShift f.width ≤ 2 ^ intTypeShift fmt.declaredWidth :=
    Nat.pow_le_pow_right (by omega) (intTypeShift_mono (by omega) (by omega))
  let expr := Expr.bin .and (shiftedUnlessZero .shr (.var "value") low) (.lit (.hex m.toNat))
  let code := signExtension f (typeOf f.isSigned f.width) expr
  refine ⟨⟨typeOf f.isSigned f.width, [(typeOf false fmt.declaredWidth, "value")],
    code.1 ++ [.ret code.2]⟩, ?_, fun x h0 hx => ?_⟩
  · simp only [generateFieldExtractor, getType_returnWidth (w := f.width) (by omega), getUIntType,
      getType_eq (w := fmt.declaredWidth) (by omega), hd, hm, hlow, if_true, Option.bind_eq_bind,
      Option.bind_some]
    rfl
  · have hexpr := yields_field
      (yields_shifted low (yields_word h0 hx) (by omega) (by omega)).2 hmask
    obtain ⟨v, hv, hbits⟩ := exec_signExtension hexpr (by omega) (by omega) id
      (fun _ _ v hv => ⟨v, hv, rfl⟩)
    refine ⟨.of (typeOf f.isSigned f.width) v.val, ?_, hbits⟩
    rw [call_extractor]
    simp only [id] at hv
    rw [hv]
    rfl

/-- **Format extractor, at most 64 bits.** -/
theorem generateFormatExtractor_takes_of_le_64 (hd : fmt.declaredWidth ≤ 64) {high : Int}
    (hlow : high - width + 1 = low) (hfit : low + width ≤ fmt.declaredWidth)
    (hin : low < 2 ^ intTypeShift fmt.declaredWidth) (hlt : width < 64) :
    ∃ get, fmt.generateFormatExtractor width high = some get ∧
      Takes get (2 ^ intTypeShift fmt.declaredWidth) low width false := by
  obtain ⟨m, hm, hmask⟩ := widthMask_eq hlt
  have hword := (intTypeShift_spec fmt.declaredWidth (by omega)).1
  have hresult := (intTypeShift_spec width (by omega)).1
  let expr := Expr.bin .and (shifted .shr (.var "value") low) (.lit (.hex m.toNat))
  refine ⟨⟨typeOf false width, [(typeOf false fmt.declaredWidth, "value")], [.ret expr]⟩, ?_,
    fun x h0 hx => ?_⟩
  · simp only [generateFormatExtractor, getUIntType, getType_eq (w := width) (by omega),
      getType_eq (w := fmt.declaredWidth) (by omega), hd, hm, hlow, if_true, Option.bind_eq_bind,
      Option.bind_some]
    rfl
  · obtain ⟨a, ha, hval, -, -⟩ := yields_field
      (yields_shifted low (yields_word h0 hx) (by omega) (by omega)).1 hmask
    refine ⟨.of (typeOf false width) a.val, ?_, fun i => ?_⟩
    · rw [call_extractor]
      show (expr.eval _).map _ = _
      rw [ha]
      rfl
    · rw [Val.of_val, hval, testBit_wrap_field rfl hresult]

end Format

/-- The environment of an inserter. -/
def insertEnv (t : IntTy) (v w : Int) : Env :=
  (Env.set (fun _ => none) "value" (.of t v)).set "inst_word" (.of t w)

theorem call_inserter (t : IntTy) (body : List Stmt) (v w : Int) :
    (Func.mk t [(t, "value"), (t, "inst_word")] body).call [v, w]
      = (exec (insertEnv t v w) body).map fun r => .of t r.val := rfl

/-- The expression of both 64-bit inserters, and its bits. -/
theorem eval_inserted {d : Nat} (hd : d ≤ 64) (hfit : low + width ≤ d) (hpos : 0 < width)
    {m : BitVec 64} (hm : ∀ i, m.getLsbD i = decide (low ≤ i ∧ i < low + width)) (v : BitVec width)
    (w : BitVec (2 ^ intTypeShift d)) :
    ∃ a, (Expr.bin .or (.bin .and (.var "inst_word") (.not (.lit (.hexULL m.toNat))))
        (.bin .and (shiftedUnlessZero .shl (.var "value") low) (.lit (.hexULL m.toNat)))).eval
        (insertEnv (typeOf false d) v.toNat w.toNat) = some a ∧
      ∀ i, ((typeOf false d).wrap a.val).testBit i
        = if low ≤ i ∧ i < low + width then v.getLsbD (i - low) else w.getLsbD i := by
  have hword := (intTypeShift_spec d (by omega)).1
  have hw64 := typeWidth_le_64 hd
  have hwlt : (w.toNat : Int) < 2 ^ 2 ^ intTypeShift d := by exact_mod_cast w.isLt
  -- The value and its shift stay in the word type.
  have hvlt : (v.toNat : Int) * 2 ^ low < 2 ^ 2 ^ intTypeShift d := by
    have hv : v.toNat * 2 ^ low < 2 ^ (width + low) := by
      rw [Nat.pow_add]
      exact Nat.mul_lt_mul_of_pos_right v.isLt (Nat.two_pow_pos low)
    have hle : 2 ^ (width + low) ≤ 2 ^ 2 ^ intTypeShift d :=
      Nat.pow_le_pow_right (by omega) (by omega)
    exact_mod_cast lt_of_lt_of_le hv hle
  have hvle : (v.toNat : Int) ≤ v.toNat * 2 ^ low :=
    le_mul_of_one_le_right (by omega) (one_le_pow₀ (by norm_num))
  have hval : (typeOf false d).wrap v.toNat = v.toNat := wrap_word (by omega) (by omega)
  have hinst : (typeOf false d).wrap w.toNat = w.toNat := wrap_word (by omega) hwlt
  let env := insertEnv (typeOf false d) v.toNat w.toNat
  have hvar : (Expr.var "inst_word").Yields env w.toNat 0 :=
    ⟨.of (typeOf false d) w.toNat, rfl, hinst, by omega, by omega⟩
  have hvalue : (Expr.var "value").eval env = some (.of (typeOf false d) v.toNat) := rfl
  have hshift := yields_shiftedUp low hvalue (by rw [Val.of_val, hval]; omega) (by show low < 2 ^ intTypeShift d; omega)
    (by omega) (by rw [Val.of_val, hval, Val.of_ty, typeOf_upper]; exact hvlt)
  rw [Val.of_val, hval] at hshift
  obtain ⟨a, ha, hav, -, -⟩ := (hvar.and (yields_not_hexULL m.isLt)).or
    (hshift.and (yields_hexULL m.isLt))
  refine ⟨a, ha, fun i => ?_⟩
  rw [IntTy.testBit_wrap, hav]
  have hty : (typeOf false d).width = 2 ^ intTypeShift d := rfl
  rw [hty]
  by_cases hi : i < 2 ^ intTypeShift d
  · rw [if_pos hi, Int.testBit_lor, Int.testBit_land, Int.testBit_land, IntTy.testBit_wrap,
      if_pos (by show i < 64; omega), Int.testBit_lnot, testBit_mul_two_pow, testBit_natCast,
      testBit_natCast, testBit_natCast, BitVec.testBit_toNat, BitVec.testBit_toNat,
      BitVec.testBit_toNat, hm]
    by_cases hin : low ≤ i ∧ i < low + width
    · simp [hin]
    · simp [hin]
  · rw [if_neg hi, if_neg (by omega), BitVec.getLsbD_of_ge _ _ (by omega)]
    rfl

theorem word_range (d : Nat) (z : Int) :
    0 ≤ (typeOf false d).wrap z ∧ (typeOf false d).wrap z < 2 ^ 2 ^ intTypeShift d := by
  have hlt := (typeOf false d).wrap_lt z
  have hle := (typeOf false d).neg_bias_le_wrap z
  rw [typeOf_upper] at hlt
  rw [IntTy.bias_unsigned rfl] at hle
  omega

namespace Format

variable {fmt : Format}

/-- **Field inserter, at most 64 bits.** -/
theorem generateFieldInserter_places_of_le_64 (hd : fmt.declaredWidth ≤ 64) {f : Field}
    (hlow : f.low = low) (hfit : low + f.width ≤ fmt.declaredWidth) (hpos : 0 < f.width)
    (hlt : f.width < 64) :
    ∃ put, fmt.generateFieldInserter f = some put ∧
      Places put (2 ^ intTypeShift fmt.declaredWidth) low f.width := by
  obtain ⟨m, hm, hbits⟩ := shiftedMask_eq f.width low (by omega) hpos hlt
  let literal := Expr.lit (.hexULL m.toNat)
  let word := Expr.bin .or (.bin .and (.var "inst_word") (.not literal))
    (.bin .and (shiftedUnlessZero .shl (.var "value") low) literal)
  refine ⟨⟨typeOf false fmt.declaredWidth, [(typeOf false fmt.declaredWidth, "value"),
    (typeOf false fmt.declaredWidth, "inst_word")],
    [.assign "inst_word" word, .ret (.var "inst_word")]⟩, ?_, fun v w => ?_⟩
  · obtain ⟨m₀, hm₀, hm₁⟩ := Option.bind_eq_some_iff.mp hm
    simp only [generateFieldInserter, getUIntType, getType_eq (w := fmt.declaredWidth) (by omega),
      hd, hm₀, hm₁, hlow, if_true, Option.bind_eq_bind, Option.bind_some]
    rfl
  · obtain ⟨a, ha, habits⟩ := eval_inserted hd hfit hpos hbits v w
    have hrange := word_range fmt.declaredWidth a.val
    refine ⟨.of (typeOf false fmt.declaredWidth) a.val, ?_, hrange.1, hrange.2, habits⟩
    have hold : insertEnv (typeOf false fmt.declaredWidth) v.toNat w.toNat "inst_word"
        = some (.of (typeOf false fmt.declaredWidth) w.toNat) := rfl
    rw [call_inserter, exec_assign ha hold]
    simp only [exec, Expr.eval, Env.set_self, Option.map_some]
    exact congrArg some (Val.ext_val rfl (IntTy.wrap_wrap _ _))

/-- **Format inserter, at most 64 bits.** -/
theorem generateSingleFormatInserter_places_of_le_64 (hd : fmt.declaredWidth ≤ 64) {high : Int}
    (hlow : high - width + 1 = low) (hfit : low + width ≤ fmt.declaredWidth) (hpos : 0 < width)
    (hlt : width < 64) :
    ∃ put, fmt.generateSingleFormatInserter width high = some put ∧
      Places put (2 ^ intTypeShift fmt.declaredWidth) low width := by
  obtain ⟨m, hm, hbits⟩ := shiftedMask_eq width low (by omega) hpos hlt
  let literal := Expr.lit (.hexULL m.toNat)
  let word := Expr.bin .or (.bin .and (.var "inst_word") (.not literal))
    (.bin .and (shiftedUnlessZero .shl (.var "value") low) literal)
  refine ⟨⟨typeOf false fmt.declaredWidth, [(typeOf false fmt.declaredWidth, "value"),
    (typeOf false fmt.declaredWidth, "inst_word")], [.ret word]⟩, ?_, fun v w => ?_⟩
  · obtain ⟨m₀, hm₀, hm₁⟩ := Option.bind_eq_some_iff.mp hm
    simp only [generateSingleFormatInserter, getUIntType,
      getType_eq (w := fmt.declaredWidth) (by omega), hd, hm₀, hm₁, hlow, if_true,
      Option.bind_eq_bind, Option.bind_some]
    rfl
  · obtain ⟨a, ha, habits⟩ := eval_inserted hd hfit hpos hbits v w
    have hrange := word_range fmt.declaredWidth a.val
    refine ⟨.of (typeOf false fmt.declaredWidth) a.val, ?_, hrange.1, hrange.2, habits⟩
    rw [call_inserter]
    show (word.eval _).map _ = _
    rw [ha]
    rfl

/-- **Round trip and frame, formats of at most 64 bits.** For every component of an
    accepted format of 1 to 64 bits that is not replicated and has 1 to 63 bits, both
    accessors are generated, reading after writing returns the value (sign extended for
    a signed field), and writing changes no bit outside the component. -/
theorem accessors_roundTrip_of_le_64 {getFormat : String → Option Nat}
    {placed : List FieldOrFormat} (h : fmt.computeAndCheckFormatWidth getFormat = .ok placed)
    (hd : 1 ≤ fmt.declaredWidth ∧ fmt.declaredWidth ≤ 64) {c : FieldOrFormat} (hc : c ∈ placed)
    (hsize : c.size = 1) (hw : 1 ≤ c.width ∧ c.width ≤ 63) :
    ∃ put get, fmt.inserter c = some put ∧ fmt.extractor c = some get ∧
      RoundTrip put get fmt.wordWidth c.low.toNat c.width c.isSigned := by
  obtain ⟨hlow, hfit⟩ := placed_bounds h hc hsize
  have hlow' : c.low = c.low.toNat := by omega
  have hword := (intTypeShift_spec fmt.declaredWidth (by omega)).1
  cases c with
  | field f =>
    simp only [FieldOrFormat.width, FieldOrFormat.low] at hw hfit hlow'
    obtain ⟨put, hput, hplaces⟩ := generateFieldInserter_places_of_le_64 hd.2 hlow' (by omega)
      (by omega) (by omega)
    obtain ⟨get, hget, htakes⟩ := generateFieldExtractor_takes_of_le_64 hd.2 hlow' (by omega)
      (by omega) (by omega)
    exact ⟨put, get, hput, hget, roundTrip_of_places_takes hplaces htakes⟩
  | format formatAlias width high size =>
    simp only [FieldOrFormat.width, FieldOrFormat.low] at hw hfit hlow'
    obtain ⟨put, hput, hplaces⟩ := generateSingleFormatInserter_places_of_le_64 hd.2 hlow'
      (by omega) (by omega) (by omega)
    obtain ⟨get, hget, htakes⟩ := generateFormatExtractor_takes_of_le_64 hd.2 hlow' (by omega)
      (by omega) (by omega)
    exact ⟨put, get, hput, hget, roundTrip_of_places_takes hplaces htakes⟩

/-- A 32-bit format with a signed 12-bit immediate above a 20-bit rest. -/
def immFormat : Format := ⟨"IType", 32, "", [.field "imm12" true 12, .field "rest" false 20]⟩

/-- The immediate of `immFormat` round trips. -/
theorem immFormat_roundTrip :
    ∃ put get, immFormat.inserter (.field ⟨"imm12", true, 31, 20, 12⟩) = some put ∧
      immFormat.extractor (.field ⟨"imm12", true, 31, 20, 12⟩) = some get ∧
      RoundTrip put get 32 20 12 true :=
  @accessors_roundTrip_of_le_64 immFormat (fun _ => none)
    [.field ⟨"imm12", true, 31, 20, 12⟩, .field ⟨"rest", false, 19, 0, 20⟩] rfl
    (by decide) (.field ⟨"imm12", true, 31, 20, 12⟩) (by decide) rfl (by decide)

end Format

end MpactSim.Decoder
