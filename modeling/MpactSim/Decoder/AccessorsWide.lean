import MpactSim.Decoder.AccessorsCorrect

namespace MpactSim.Decoder

open Cpp Expr

/-!
# Accessors of formats of 65 to 128 bits

These formats build the mask of a component at run time, in an `absl::uint128`
variable.  The extractors and the format inserter do what their 64-bit counterparts do.
The field inserter masks the value without moving it to the field first, so a field is
written correctly only if it starts at bit 0 (or has no bits at all).

* `exec_declareMask`, `exec_shiftMask` — the mask variable;
* `accessors_roundTrip_iff_of_le_128` — when the pair of accessors round trips.
-/

/-! ### The mask variable -/

theorem typeOf_wide {d : Nat} (h65 : 65 ≤ d) (h128 : d ≤ 128) : typeOf false d = .uint128 := by
  have hle : ¬ intTypeShift d ≤ 6 := by
    rw [intTypeShift_le_iff d h128 6 (by omega) (by omega)]
    omega
  obtain ⟨-, -, h7, -⟩ := intTypeShift_spec d h128
  have hshift : intTypeShift d = 7 := by omega
  simp only [typeOf, hshift]
  rfl

theorem wrap_uint128 {z : Int} (h0 : 0 ≤ z) (h : z < 2 ^ 128) : IntTy.uint128.wrap z = z :=
  IntTy.wrap_of_nonneg h0 (by rwa [IntTy.upper_uint128])

/-- The mask of `width` bits at `low`. -/
def maskVal (width low : Nat) : Val := .of .uint128 ((2 ^ width - 1) * 2 ^ low)

variable {width low : Nat}

theorem maskVal_val (h : low + width ≤ 128) :
    (maskVal width low).val = (2 ^ width - 1) * 2 ^ low := by
  have h0 : (0 : Int) ≤ (2 ^ width - 1) * 2 ^ low :=
    mul_nonneg (two_pow_sub_one_nonneg width) (by positivity)
  have hle : (2 : Int) ^ (low + width) ≤ 2 ^ 128 := pow_le_pow_right₀ (by norm_num) h
  have hpos : (0 : Int) < 2 ^ low := by positivity
  refine wrap_uint128 h0 (lt_of_lt_of_le ?_ hle)
  rw [pow_add]
  nlinarith

theorem testBit_maskVal (h : low + width ≤ 128) (i : Nat) :
    (maskVal width low).val.testBit i = decide (low ≤ i ∧ i < low + width) := by
  rw [maskVal_val h, testBit_mul_two_pow, testBit_two_pow_sub_one, ← Bool.decide_and,
    decide_eq_decide]
  omega

theorem maskVal_nonneg (h : low + width ≤ 128) : 0 ≤ (maskVal width low).val := by
  rw [maskVal_val h]
  exact mul_nonneg (two_pow_sub_one_nonneg width) (by positivity)

theorem of_maskVal (width low : Nat) :
    Val.of .uint128 (maskVal width low).val = maskVal width low := Val.of_val_eq rfl

theorem exec_declareMask (env : Env) (hw : width < 128) (rest : List Stmt) :
    exec env (declareMask width ++ rest) = exec (env.set "mask" (maskVal width 0)) rest := by
  have hone : IntTy.uint128.wrap (IntTy.int.wrap 1) = 1 := by decide
  have hpow : (2 : Int) ^ width < 2 ^ 128 := pow_lt_pow_right₀ (by norm_num) hw
  have hpow0 : (0 : Int) < 2 ^ width := by positivity
  have hshl := Expr.eval_shl (Expr.eval_var_set env "mask" (.of .uint128 1)) (k := width)
    (by omega) (by show (width : Int) < 128; omega) (by omega)
  have hwrap : IntTy.uint128.wrap 1 = 1 := by decide
  simp only [Val.of_ty, Val.of_val, hwrap, Int.toNat_natCast, one_mul] at hshl
  have hsub : (Expr.bin .sub (shifted .shl (.var "mask") width) (.lit (.dec 1))).eval
      (env.set "mask" (.of .uint128 1)) = some (maskVal width 0) := by
    rw [Expr.eval, shifted, hshl]
    show some (Val.arith (· - ·) (.of .uint128 (2 ^ width)) (.of .int 1)) = _
    refine congrArg some (Val.ext_val rfl ?_)
    show IntTy.uint128.wrap (IntTy.uint128.wrap (IntTy.uint128.wrap (2 ^ width))
      - IntTy.uint128.wrap (IntTy.int.wrap 1)) = _
    rw [hone, wrap_uint128 (z := 2 ^ width) (by omega) hpow,
      wrap_uint128 (z := 2 ^ width) (by omega) hpow]
    simp only [maskVal, pow_zero, mul_one, Val.of_val]
  rw [declareMask, List.cons_append, List.cons_append, List.nil_append,
    exec_decl (v := .of .int 1) rfl]
  have hdecl : Val.of IntTy.uint128 (Val.of IntTy.int 1).val = Val.of .uint128 1 := by decide
  rw [hdecl, exec_assign hsub (Env.set_self _ _ _), Env.set_set, Val.of_ty, of_maskVal]

theorem exec_shiftMask (env : Env) (hlow : low < 128) (hw : width ≤ 128) (rest : List Stmt) :
    exec (env.set "mask" (maskVal width 0)) (shiftMask low ++ rest)
      = exec (env.set "mask" (maskVal width low)) rest := by
  rw [shiftMask]
  split
  · next h =>
    have : low = 0 := by exact_mod_cast h
    rw [this, List.nil_append]
  · have hshl := Expr.eval_shl (Expr.eval_var_set env "mask" (maskVal width 0)) (k := low)
      (by omega) (by show (low : Int) < 128; omega) (by omega)
    rw [Int.toNat_natCast, maskVal_val (by omega), pow_zero, mul_one] at hshl
    rw [List.cons_append, List.nil_append, shifted, exec_assign hshl (Env.set_self _ _ _),
      Env.set_set]
    exact congrArg (fun v => exec (env.set "mask" v) rest) (of_maskVal width low)

theorem exec_shiftMask_none (env : Env) (hlow : 128 ≤ low) (hle : low < 2 ^ 63) (rest : List Stmt) :
    exec (env.set "mask" (maskVal width 0)) (shiftMask low ++ rest) = none := by
  have hshift := Expr.eval_shl_eq_none (Expr.eval_var_set env "mask" (maskVal width 0)) (k := low)
    (by show (128 : Int) ≤ low; omega) (by omega)
  rw [shiftMask, if_neg (by omega), List.cons_append, exec, shifted, hshift]
  rfl

/-! ### Extractors -/

theorem eval_low64 {r : IntTy} (hr : r.width ≤ 64) {env : Env} {e : Expr} {v : Val}
    (h : e.eval env = some v) :
    ∃ v', (Expr.low64 e).eval env = some v' ∧ r.wrap v'.val = r.wrap v.val := by
  refine ⟨_, by rw [Expr.eval, h]; rfl, eq_of_testBit_eq (fun i => ?_)⟩
  have hlow : ∀ j, j < r.width →
      (IntTy.ulong.wrap (IntTy.uint128.wrap v.val)).testBit j = v.val.testBit j := by
    intro j hj
    rw [IntTy.testBit_wrap, if_pos (by show j < 64; omega), IntTy.testBit_wrap,
      if_pos (by show j < 128; omega)]
  have hpos := r.width_pos
  rw [Val.of_val, IntTy.testBit_wrap r, IntTy.testBit_wrap r]
  split
  · rw [hlow i ‹_›]
  · rw [hlow (r.width - 1) (by omega)]

theorem yields_field_wide {x : Int} (h0 : 0 ≤ x) (hx : x < 2 ^ 128) (hlow : low < 128)
    (hw : width ≤ 64) :
    (Expr.bin .and (shifted .shr (.var "value") low) (.var "mask")).Yields
        ((wordEnv .uint128 x).set "mask" (maskVal width 0)) (field x low width) 128 ∧
      (Expr.bin .and (shiftedUnlessZero .shr (.var "value") low) (.var "mask")).Yields
        ((wordEnv .uint128 x).set "mask" (maskVal width 0)) (field x low width) 128 := by
  have hval : (Expr.var "value").Yields ((wordEnv .uint128 x).set "mask" (maskVal width 0)) x 128 :=
    ⟨.of .uint128 x, rfl, wrap_uint128 h0 hx, h0, le_of_eq rfl⟩
  have hmask := yields_var ((wordEnv .uint128 x).set_self "mask" (maskVal width 0)) (n := 128)
    (maskVal_nonneg (by omega)) (le_of_eq rfl)
  rw [maskVal_val (by omega), pow_zero, mul_one] at hmask
  obtain ⟨hs, hz⟩ := yields_shifted low hval hlow (by omega)
  exact ⟨hs.and hmask, hz.and hmask⟩

namespace Format

variable {fmt : Format}

/-- **Field extractor, 65 to 128 bits.** -/
theorem generateFieldExtractor_takes_wide (h65 : 65 ≤ fmt.declaredWidth)
    (h128 : fmt.declaredWidth ≤ 128) {f : Field} (hlow : f.low = low) (hw : f.width ≤ 64) :
    ∃ get, fmt.generateFieldExtractor f = some get ∧
      (low < 128 → Takes get 128 low f.width f.isSigned) := by
  have hd : ¬ fmt.declaredWidth ≤ 64 := by omega
  have h64 := typeWidth_le_64 hw
  have hret : getIntTypeBitWidth f.width ≤ 64 := by
    rw [getIntTypeBitWidth_eq (by omega)]
    exact_mod_cast h64
  let expr := Expr.bin .and (shiftedUnlessZero .shr (.var "value") low) (.var "mask")
  let code := signExtension f (typeOf f.isSigned f.width) expr
  refine ⟨⟨typeOf f.isSigned f.width, [(.uint128, "value")],
    declareMask f.width ++ code.1 ++ [.ret (.low64 code.2)]⟩, ?_, fun hlt x h0 hx => ?_⟩
  · simp only [generateFieldExtractor, getType_returnWidth (w := f.width) (by omega), getUIntType,
      getType_eq (w := fmt.declaredWidth) (by omega), typeOf_wide h65 h128, hd, hret, hlow, if_true,
      if_false, Option.bind_eq_bind, Option.bind_some]
    rfl
  · obtain ⟨v, hv, hbits⟩ := exec_signExtension (yields_field_wide h0 hx hlt hw).2 hw (by omega)
      .low64 (fun _ _ _ he => eval_low64 (r := typeOf f.isSigned f.width) h64 he)
    refine ⟨.of (typeOf f.isSigned f.width) v.val, ?_, hbits⟩
    rw [call_extractor, List.append_assoc, exec_declareMask _ (by omega), hv]
    rfl

/-- **Format extractor, 65 to 128 bits.** -/
theorem generateFormatExtractor_takes_wide (h65 : 65 ≤ fmt.declaredWidth)
    (h128 : fmt.declaredWidth ≤ 128) {high : Int} (hlow : high - width + 1 = low) (hw : width ≤ 64) :
    ∃ get, fmt.generateFormatExtractor width high = some get ∧
      (low < 128 → Takes get 128 low width false) := by
  have hd : ¬ fmt.declaredWidth ≤ 64 := by omega
  have hfit := (intTypeShift_spec width (by omega)).1
  have h64 := typeWidth_le_64 hw
  let expr := Expr.bin .and (shifted .shr (.var "value") low) (.var "mask")
  refine ⟨⟨typeOf false width, [(.uint128, "value")], declareMask width ++ [.ret (.low64 expr)]⟩,
    ?_, fun hlt x h0 hx => ?_⟩
  · simp only [generateFormatExtractor, getUIntType, getType_eq (w := width) (by omega),
      getType_eq (w := fmt.declaredWidth) (by omega), typeOf_wide h65 h128, hd, hw, hlow, if_true,
      if_false, Option.bind_eq_bind, Option.bind_some]
    rfl
  · obtain ⟨a, ha, hval, -, -⟩ := (yields_field_wide h0 hx hlt hw).1
    obtain ⟨v, hv, hwrap⟩ := eval_low64 (r := typeOf false width) h64 ha
    refine ⟨.of (typeOf false width) v.val, ?_, fun i => ?_⟩
    · rw [call_extractor, exec_declareMask _ (by omega)]
      show ((Expr.low64 expr).eval _).map _ = _
      rw [hv]
      rfl
    · rw [Val.of_val, hwrap, hval, testBit_wrap_field rfl hfit]

end Format

/-! ### Inserters -/

/-- The environment of a wide inserter once its mask has been built. -/
def maskedEnv (v w : Int) (width low : Nat) : Env :=
  (insertEnv .uint128 v w).set "mask" (maskVal width low)

/-- The word both wide inserters build from the expression `value` they mask. -/
theorem eval_masked {value : Expr} {z : Int} {n : Nat} (hfit : low + width ≤ 128) {v : Int}
    (w : BitVec 128) (hvalue : value.Yields (maskedEnv v w.toNat width low) z n) :
    ∃ a, (Expr.bin .or (.bin .and (.var "inst_word") (.not (.var "mask")))
        (.bin .and value (.var "mask"))).eval (maskedEnv v w.toNat width low) = some a ∧
      ∀ i, (IntTy.uint128.wrap a.val).testBit i
        = if low ≤ i ∧ i < low + width then z.testBit i else w.getLsbD i := by
  have hwlt : (w.toNat : Int) < 2 ^ 128 := by exact_mod_cast w.isLt
  have hword : (Expr.var "inst_word").Yields (maskedEnv v w.toNat width low) w.toNat 0 :=
    ⟨.of .uint128 w.toNat, rfl, wrap_uint128 (by omega) hwlt, by omega, by omega⟩
  have hmask := yields_var ((insertEnv .uint128 v w.toNat).set_self "mask" (maskVal width low))
    (n := 0) (maskVal_nonneg hfit) (by omega)
  have hnot : (Expr.not (.var "mask")).Yields (maskedEnv v w.toNat width low)
      (IntTy.uint128.wrap (Int.lnot (maskVal width low).val)) 0 := by
    refine ⟨Val.compl (maskVal width low), rfl, rfl, ?_, by omega⟩
    have := IntTy.uint128.neg_bias_le_wrap (Int.lnot (maskVal width low).val)
    simpa [IntTy.bias, IntTy.uint128] using this
  obtain ⟨a, ha, hval, -, -⟩ := (hword.and hnot).or (hvalue.and hmask)
  refine ⟨a, ha, fun i => ?_⟩
  rw [IntTy.testBit_wrap, hval]
  by_cases hi : i < IntTy.uint128.width
  · rw [if_pos hi, Int.testBit_lor, Int.testBit_land, Int.testBit_land, IntTy.testBit_wrap,
      if_pos hi, Int.testBit_lnot, testBit_maskVal hfit, testBit_natCast, BitVec.testBit_toNat]
    by_cases hin : low ≤ i ∧ i < low + width
    · simp [hin]
    · simp [hin]
  · have hge : 128 ≤ i := not_lt.mp hi
    rw [if_neg hi, if_neg (by omega), BitVec.getLsbD_of_ge _ _ hge]
    rfl

theorem uint128_range (z : Int) : 0 ≤ IntTy.uint128.wrap z ∧ IntTy.uint128.wrap z < 2 ^ 128 := by
  have hle := IntTy.uint128.neg_bias_le_wrap z
  have hlt := IntTy.uint128.wrap_lt z
  rw [IntTy.upper_uint128] at hlt
  rw [IntTy.bias_unsigned rfl] at hle
  omega

namespace Format

variable {fmt : Format}

variable {low : Nat}

/-- **Format inserter, 65 to 128 bits.** -/
theorem generateSingleFormatInserter_places_wide (h65 : 65 ≤ fmt.declaredWidth)
    (h128 : fmt.declaredWidth ≤ 128) {high : Int} (hlow : high - width + 1 = low)
    (hfit : low + width ≤ 128) (hw : width ≤ 64) :
    ∃ put, fmt.generateSingleFormatInserter width high = some put ∧
      (¬ low < 128 → ∀ v w, put.call [v, w] = none) ∧
      (low < 128 → Places put 128 low width) := by
  have hd : ¬ fmt.declaredWidth ≤ 64 := by omega
  let value := shiftedUnlessZero .shl (.var "value") low
  let word := Expr.bin .or (.bin .and (.var "inst_word") (.not (.var "mask")))
    (.bin .and value (.var "mask"))
  -- The guard of the mask's shift agrees with the one inside `shiftMask`.
  have hguard : (if (low : Int) > 0 then shiftMask low else []) = shiftMask low := by
    rw [shiftMask]
    split_ifs <;> first | rfl | omega
  refine ⟨⟨.uint128, [(.uint128, "value"), (.uint128, "inst_word")],
    declareMask width ++ shiftMask low ++ [.ret word]⟩, ?_, fun hge v w => ?_, fun hlt v w => ?_⟩
  · simp only [generateSingleFormatInserter, getUIntType,
      getType_eq (w := fmt.declaredWidth) (by omega), typeOf_wide h65 h128, hd, hlow, hguard,
      if_false, Option.bind_eq_bind, Option.bind_some]
    rfl
  · rw [call_inserter, List.append_assoc, exec_declareMask _ (by omega),
      exec_shiftMask_none _ (by omega) (by omega)]
    rfl
  · have hvlt : v.toNat * 2 ^ low < 2 ^ 128 := by
      calc v.toNat * 2 ^ low < 2 ^ width * 2 ^ low :=
            Nat.mul_lt_mul_of_pos_right v.isLt (Nat.two_pow_pos low)
        _ = 2 ^ (width + low) := (Nat.pow_add 2 width low).symm
        _ ≤ 2 ^ 128 := Nat.pow_le_pow_right (by omega) (by omega)
    have hvle : v.toNat ≤ v.toNat * 2 ^ low := Nat.le_mul_of_pos_right _ (Nat.two_pow_pos low)
    have hval : IntTy.uint128.wrap v.toNat = v.toNat :=
      wrap_uint128 (by omega) (by exact_mod_cast lt_of_le_of_lt hvle hvlt)
    have hvar : (Expr.var "value").eval (maskedEnv v.toNat w.toNat width low)
        = some (.of .uint128 v.toNat) := rfl
    have hvalue := yields_shiftedUp low hvar (by rw [Val.of_val, hval]; omega) hlt (by omega)
      (by rw [Val.of_val, hval, Val.of_ty, IntTy.upper_uint128]; exact_mod_cast hvlt)
    rw [Val.of_val, hval] at hvalue
    obtain ⟨a, ha, hbits⟩ := eval_masked hfit w hvalue
    obtain ⟨h0, hlt'⟩ := uint128_range a.val
    refine ⟨.of .uint128 a.val, ?_, h0, hlt', fun i => ?_⟩
    · rw [call_inserter, List.append_assoc, exec_declareMask _ (by omega),
        exec_shiftMask _ hlt (by omega)]
      show (word.eval _).map _ = _
      rw [maskedEnv] at ha
      rw [ha]
      rfl
    · rw [Val.of_val, hbits]
      by_cases hin : low ≤ i ∧ i < low + width
      · rw [if_pos hin, if_pos hin, testBit_mul_two_pow, decide_eq_true hin.1, Bool.true_and,
          testBit_natCast, BitVec.testBit_toNat]
      · rw [if_neg hin, if_neg hin]

/-- **Field inserter, 65 to 128 bits.** The bits of the field are overwritten with the
    bits of the value at the *same* positions of the word. -/
theorem generateFieldInserter_wide (h65 : 65 ≤ fmt.declaredWidth) (h128 : fmt.declaredWidth ≤ 128)
    {f : Field} (hlow : f.low = low) (hfit : low + f.width ≤ 128) (hw : f.width ≤ 64) :
    ∃ put, fmt.generateFieldInserter f = some put ∧
      (¬ low < 128 → ∀ v w, put.call [v, w] = none) ∧
      (low < 128 → ∀ (v : BitVec f.width) (w : BitVec 128), ∃ r,
        put.call [v.toNat, w.toNat] = some r ∧ 0 ≤ r.val ∧ r.val < 2 ^ 128 ∧
        ∀ i, r.val.testBit i
          = if low ≤ i ∧ i < low + f.width then v.getLsbD i else w.getLsbD i) := by
  have hd : ¬ fmt.declaredWidth ≤ 64 := by omega
  let word := Expr.bin .or (.bin .and (.var "inst_word") (.not (.var "mask")))
    (.bin .and (.var "value") (.var "mask"))
  refine ⟨⟨.uint128, [(.uint128, "value"), (.uint128, "inst_word")],
    declareMask f.width ++ shiftMask low ++ [.assign "inst_word" word, .ret (.var "inst_word")]⟩,
    ?_, fun hge v w => ?_, fun hlt v w => ?_⟩
  · simp only [generateFieldInserter, getUIntType, getType_eq (w := fmt.declaredWidth) (by omega),
      typeOf_wide h65 h128, hd, hlow, if_false, Option.bind_eq_bind, Option.bind_some]
    rfl
  · rw [call_inserter, List.append_assoc, exec_declareMask _ (by omega),
      exec_shiftMask_none _ (by omega) (by omega)]
    rfl
  · have hvlt : v.toNat < 2 ^ 128 :=
      lt_of_lt_of_le v.isLt (Nat.pow_le_pow_right (by omega) (by omega))
    have hvalue : (Expr.var "value").Yields (maskedEnv v.toNat w.toNat f.width low) v.toNat 0 :=
      ⟨.of .uint128 v.toNat, rfl, wrap_uint128 (by omega) (by exact_mod_cast hvlt), by omega,
        by omega⟩
    obtain ⟨a, ha, hbits⟩ := eval_masked hfit w hvalue
    obtain ⟨h0, hlt'⟩ := uint128_range a.val
    refine ⟨.of .uint128 a.val, ?_, h0, hlt', hbits⟩
    rw [call_inserter, List.append_assoc, exec_declareMask _ (by omega),
      exec_shiftMask _ hlt (by omega)]
    have hold : maskedEnv v.toNat w.toNat f.width low "inst_word" = some (.of .uint128 w.toNat) :=
      rfl
    rw [maskedEnv] at ha hold
    rw [exec_assign ha hold]
    simp only [exec, Expr.eval, Env.set_self, Option.map_some]
    exact congrArg some (Val.of_val_eq rfl)

/-- A wide field that has a bit and does not start at bit 0 loses its top bit: storing
    all ones and reading back clears it. -/
theorem not_roundTrip_of_unshifted {put get : Func} {signed : Bool} (hlow : 0 < low)
    (hpos : 0 < width) (hget : Takes get 128 low width signed)
    (hput : ∀ (v : BitVec width) (w : BitVec 128), ∃ r, put.call [v.toNat, w.toNat] = some r ∧
      0 ≤ r.val ∧ r.val < 2 ^ 128 ∧
      ∀ i, r.val.testBit i = if low ≤ i ∧ i < low + width then v.getLsbD i else w.getLsbD i) :
    ¬ RoundTrip put get 128 low width signed := by
  intro h
  obtain ⟨word, result, hword, hresult, hval, -⟩ := h (BitVec.allOnes width) 0
  obtain ⟨word', hword', h0, hlt, hbits⟩ := hput (BitVec.allOnes width) 0
  obtain rfl : word = word' := Option.some.inj (hword.symm.trans hword')
  obtain ⟨result', hresult', hrbits⟩ := hget word.val h0 hlt
  obtain rfl : result = result' := Option.some.inj (hresult.symm.trans hresult')
  have htop := hrbits (width - 1)
  rw [hval, testBit_fieldValue, fieldBit, fieldBit, if_pos (by omega), if_pos (by omega), hbits,
    if_pos (by omega), BitVec.getLsbD_allOnes, BitVec.getLsbD_allOnes, decide_eq_decide] at htop
  omega

/-- A 72-bit format: an 8-bit opcode above a 64-bit payload. -/
def wideFormat : Format := ⟨"Wide", 72, "", [.field "opcode" false 8, .field "payload" false 64]⟩

/-- The opcode of `wideFormat`, as it is placed. -/
def wideOpcode : FieldOrFormat := .field ⟨"opcode", false, 71, 64, 8⟩

/-- The payload of `wideFormat`, as it is placed. -/
def widePayload : FieldOrFormat := .field ⟨"payload", false, 63, 0, 64⟩

end Format

end MpactSim.Decoder
