import MpactSim.Decoder.Replicated

namespace MpactSim.Decoder

open Cpp Lib Expr

/-!
# Round trip of replicated formats

The inserter over the integer word writes a replica where the extractor over the word does not
look.

* `not_replicatedCorrect_of_pos` — a replica with bits is read at another place than written.
* `replicatedCorrect_empty_iff`  — replicas without bits.
* `replicatedCorrect_wide_iff`   — the accessors over bytes are right up to 32 bits.
* `replicatedFormat_correct_iff` — when the accessors of a reference read and write its replicas.
-/

/-! ### The inserters over the integer word -/

/-- The inserter of at most 64 bits clears all bits below the replica. -/
theorem insertedReplica_bit0 {env : Env} {m k : Nat} (hlow : YieldsInt env (.var "low") k)
    (hpos : 0 < k) {r : Val} (h : (insertedReplica (.lit (.hexULL m))).eval env = some r) :
    r.val.testBit 0 = false := by
  -- A shift to the left by `k` has no bit 0.
  have hshift : ∀ {e : Expr} {c : Val}, (Expr.bin .shl e (.var "low")).eval env = some c →
      c.val.testBit 0 = false := by
    intro e c hc
    obtain ⟨a, -, hc⟩ := Option.bind_eq_some_iff.mp hc
    obtain ⟨l, hl, hc⟩ := Option.bind_eq_some_iff.mp hc
    obtain ⟨l', hl', hval⟩ := hlow.val
    obtain rfl := Option.some.inj (hl.symm.trans hl')
    rw [Val.eq_of_shift (f := fun v k => v * 2 ^ k) hc, Val.of_val, IntTy.testBit_wrap,
      if_pos a.ty.promote.width_pos, hval, Int.toNat_natCast, testBit_mul_two_pow,
      decide_eq_false (by omega), Bool.false_and]
  have hwide : ∀ a b : IntTy, 0 < (IntTy.common a b).width := fun a b => by
    have := IntTy.width_le_common a b
    omega
  obtain ⟨va, hva, h⟩ := Option.bind_eq_some_iff.mp h
  obtain ⟨vb, hvb, h⟩ := Option.bind_eq_some_iff.mp h
  obtain ⟨inst, -, hva⟩ := Option.bind_eq_some_iff.mp hva
  obtain ⟨cleared, hcleared, hva⟩ := Option.bind_eq_some_iff.mp hva
  obtain ⟨value, -, hvb⟩ := Option.bind_eq_some_iff.mp hvb
  obtain ⟨mask, hmask, hvb⟩ := Option.bind_eq_some_iff.mp hvb
  cases h
  cases hva
  cases hvb
  rw [Val.testBit_arith_lor (hwide _ _), Val.testBit_arith_land (hwide _ _),
    Val.testBit_arith_land (hwide _ _), hshift hcleared, hshift hmask, Bool.and_false,
    Bool.and_false]
  rfl

theorem eval_shl_zero {env : Env} {e f : Expr} {a : Val} (ha : e.eval env = some a)
    (hf : YieldsInt env f (0 : Nat)) :
    ∃ r, (Expr.bin .shl e f).eval env = some r ∧ r.ty = a.ty.promote ∧
      ∀ i < a.ty.promote.width, r.val.testBit i = a.val.testBit i := by
  refine ⟨_, eval_shl_int ha hf a.ty.promote.width_pos, rfl, fun i hi => ?_⟩
  rw [Val.of_val, IntTy.testBit_wrap, if_pos hi, pow_zero, mul_one]

theorem eval_hexULL_zero (env : Env) :
    ∃ zero ones, (Expr.lit (.hexULL 0)).eval env = some zero ∧
      (Expr.not (.lit (.hexULL 0))).eval env = some ones ∧ zero.ty = .ulong ∧ ones.ty = .ulong ∧
      ∀ i < 64, zero.val.testBit i = false ∧ ones.val.testBit i = true := by
  refine ⟨.of .ulong 0, Val.compl (.of .ulong 0), rfl, rfl, rfl, rfl, fun i hi => ?_⟩
  have hones : (Val.compl (.of .ulong 0)).val = 2 ^ 64 - 1 := by decide
  rw [hones, testBit_two_pow_sub_one, decide_eq_true hi]
  exact ⟨Nat.zero_testBit i, rfl⟩

theorem insertedReplica_empty {env : Env} {a b : Val} (hinst : env "inst_word" = some a)
    (hvalue : env "value" = some b) (hlow : YieldsInt env (.var "low") (0 : Nat)) :
    ∃ r, (insertedReplica (.lit (.hexULL 0))).eval env = some r ∧
      ∀ i < 64, r.val.testBit i = a.val.testBit i := by
  obtain ⟨zero, ones, hzero, hones, hzeroTy, honesTy, hbits⟩ := eval_hexULL_zero env
  obtain ⟨cleared, hcleared, hty, hclearedBits⟩ := eval_shl_zero hones hlow
  obtain ⟨value, hshifted, -, -⟩ := eval_shl_zero (e := .var "value") hvalue hlow
  obtain ⟨mask, hmask, hmaskTy, hmaskBits⟩ := eval_shl_zero hzero hlow
  rw [honesTy] at hty hclearedBits
  rw [hzeroTy] at hmaskTy hmaskBits
  refine ⟨_, eval_or (eval_and (e := .var "inst_word") hinst hcleared) (eval_and hshifted hmask),
    fun i hi => ?_⟩
  -- All operators are at 64 bits or more.
  have hleft : i < (IntTy.common a.ty cleared.ty).width := by
    refine lt_of_lt_of_le hi (le_trans (le_of_eq ?_) (IntTy.width_le_common a.ty cleared.ty).2.1)
    rw [hty]
    rfl
  have hright : i < (IntTy.common value.ty mask.ty).width := by
    refine lt_of_lt_of_le hi (le_trans (le_of_eq ?_) (IntTy.width_le_common value.ty mask.ty).2.1)
    rw [hmaskTy]
    rfl
  rw [Val.testBit_arith_lor (lt_of_lt_of_le hleft (IntTy.width_le_common _ _).1),
    Val.testBit_arith_land hleft, Val.testBit_arith_land hright, hclearedBits i hi, hmaskBits i hi,
    (hbits i hi).1, (hbits i hi).2, Bool.and_true, Bool.and_false, Bool.or_false]

theorem exec_declareLow {env : Env} {index k : Nat} (henv : env "index" = some (.of .int index))
    (hindex : index < 2 ^ 31) (hk : k < 2 ^ 31) (rest : List Stmt) :
    exec env (.decl .int "low" (replicaHigh k 0) :: rest) =
      exec (env.set "low" (.of .int k)) rest := by
  have hyields := @yieldsInt_replicaHigh _ _ 0 k henv hindex (by norm_num) (by norm_num)
      (by push_cast; omega) (by exact_mod_cast hk)
  have hzero : (k : Int) - index * (0 : Nat) = k := by push_cast; ring
  rw [hzero] at hyields
  rw [exec_decl hyields.1]
  exact congrArg (fun v => exec (env.set "low" v) rest) (Val.of_val_eq rfl)

theorem exec_shiftEmptyMask {env : Env} {k : Nat} (hlow : YieldsInt env (.var "low") k)
    (rest : List Stmt) :
    exec env (declareMask 0 ++ .assign "mask" (.bin .shl (.var "mask") (.var "low")) :: rest) =
      if k < 128 then exec (env.set "mask" (.of .uint128 0)) rest else none := by
  have hzero : maskVal 0 0 = .of .uint128 0 := by decide
  rw [exec_declareMask env (by norm_num), hzero]
  have hlow' : YieldsInt (env.set "mask" (.of .uint128 0)) (.var "low") k := ⟨hlow.1, hlow.2⟩
  split
  · next h =>
    have hshift := eval_shl_int (Expr.eval_var_set env "mask" (.of .uint128 0)) hlow' h
    have hval : (Val.of IntTy.uint128 0).val = 0 := by decide
    rw [hval, zero_mul] at hshift
    rw [exec_assign hshift (Env.set_self _ _ _), Env.set_set]
    rfl
  · next h =>
    have hcount : (IntTy.uint128.promote.width : Int) ≤ (Val.of .int k).val := by
      rw [Val.of_val, wrap_int hlow.2.1 hlow.2.2]
      exact_mod_cast not_lt.mp h
    have hshift : (Expr.bin .shl (.var "mask") (.var "low")).eval
        (env.set "mask" (.of .uint128 0)) = none := by
      simp only [Expr.eval, Env.set_self, Option.bind_eq_bind, Option.bind_some, BinOp.eval]
      rw [show env.set "mask" (.of .uint128 0) "low" = _ from hlow'.1, Option.bind_some]
      exact Val.shift_eq_none hcount
    rw [exec, hshift]
    rfl

theorem insertedWideReplica_empty {env : Env} {x v : Int} {k : Nat}
    (hinst : env "inst_word" = some (.of .uint128 x)) (hvalue : env "value" = some (.of .uint128 v))
    (hlow : YieldsInt env (.var "low") k) (hk : k < 128)
    (hmask : env "mask" = some (.of .uint128 0)) :
    ∃ r, insertedWideReplica.eval env = some r ∧
      ∀ i < 128, r.val.testBit i = (Val.of .uint128 x).val.testBit i := by
  have hones : (Expr.not (.var "mask")).eval env = some (Val.compl (.of .uint128 0)) := by
    rw [Expr.eval, Expr.eval, hmask, Option.map_some]
  have hshifted := eval_shl_int (e := .var "value") hvalue hlow hk
  refine ⟨_, eval_or (eval_and (e := .var "inst_word") hinst hones)
    (eval_and (f := .var "mask") hshifted hmask), fun i hi => ?_⟩
  have honesVal : (Val.compl (.of .uint128 0)).val = 2 ^ 128 - 1 := by decide
  have hzeroVal : (Val.of .uint128 0).val = 0 := by decide
  have hwide : ∀ {a b : Val}, a.ty = .uint128 → b.ty = .uint128 →
      i < (IntTy.common a.ty b.ty).width := by
    intro a b ha hb
    rw [ha, hb]
    exact hi
  rw [Val.testBit_arith_lor (hwide rfl rfl), Val.testBit_arith_land (hwide rfl rfl),
    Val.testBit_arith_land (hwide rfl rfl), honesVal, hzeroVal, testBit_two_pow_sub_one,
    decide_eq_true hi, Bool.and_true, show Int.testBit 0 i = false from Nat.zero_testBit i,
    Bool.and_false, Bool.or_false]

/-! ### Formats of at most 128 bits -/

section Narrow

variable {fmt : Format} {width size : Nat} {high : Int}

theorem generateReplicatedFormatInserter_word (hd : fmt.declaredWidth ≤ 128)
    {put : ReplicatedInserter}
    (h : fmt.generateReplicatedFormatInserter width high = some put) : ∃ f, put = .word f := by
  simp only [Format.generateReplicatedFormatInserter, hd, if_true] at h
  split at h
  · cases h
  · obtain ⟨ty, -, h⟩ := Option.bind_eq_some_iff.mp h
    split at h
    · obtain ⟨m, -, h⟩ := Option.bind_eq_some_iff.mp h
      cases h
      exact ⟨_, rfl⟩
    · cases h
      exact ⟨_, rfl⟩

theorem generateReplicatedFormatExtractor_word (hd : fmt.declaredWidth ≤ 128)
    {get : ReplicatedExtractor}
    (h : fmt.generateReplicatedFormatExtractor width high = some get) :
    fmt.generateReplicatedWordExtractor width high = get.word ∧
      ∃ ty, get.bytes = if popcount fmt.declaredWidth > 1 then
        some ⟨ty, [], (fmt.declaredWidth + 7) / 8, replicaHigh high width, width⟩ else none := by
  simp only [Format.generateReplicatedFormatExtractor, hd, if_true] at h
  split at h
  · cases h
  · obtain ⟨ty, -, h⟩ := Option.bind_eq_some_iff.mp h
    obtain ⟨word, hword, h⟩ := Option.bind_eq_some_iff.mp h
    cases h
    exact ⟨hword, ty, rfl⟩

/-- The extractor over the word takes the left one of a pair of replicas for index 0, while the
    inserter writes the first replica. -/
theorem not_replicatedCorrect_of_pos (hd : fmt.declaredWidth ≤ 128) (hw : 1 ≤ width)
    (hn : 2 ≤ size) (hlow : (width * size : Nat) ≤ high + 1) (hhigh : high + 1 ≤ fmt.declaredWidth) :
    ¬ fmt.ReplicatedCorrect width high size := by
  rintro ⟨put, get, hput, hget, h⟩
  obtain ⟨f, rfl⟩ := generateReplicatedFormatInserter_word hd hput
  obtain ⟨hword, -⟩ := generateReplicatedFormatExtractor_word hd hget
  obtain ⟨⟨getWord, hgetWord, hreplica⟩, -⟩ := h 0 (by omega)
  obtain ⟨hlow0, hfits⟩ := @replicaLow_eq _ _ 0 _ _ (by omega) hlow hhigh
  have hpair : width * 2 ≤ width * size := Nat.mul_le_mul_left _ hn
  have hwide := (intTypeShift_spec fmt.declaredWidth hd).1
  obtain ⟨p, hp⟩ := Int.eq_ofNat_of_zero_le (show 0 ≤ high - width + 1 - width by omega)
  -- The word whose only bit is the lowest one of the replica.
  have hlt : replicaLow high width 0 < fmt.wordWidth := by
    show _ < 2 ^ intTypeShift fmt.declaredWidth
    omega
  obtain ⟨r, hr, hbits⟩ := hreplica.reads (BitVec.twoPow _ (replicaLow high width 0))
  obtain ⟨r', hr', hbits'⟩ := @replicatedWordExtractor_reads _ _ 0 _ hd (by omega) (by omega)
      (by norm_num) (by omega) (by omega) (by omega) p (by push_cast; omega)
      (by show _ < 2 ^ intTypeShift fmt.declaredWidth; omega) _ (hword.trans hgetWord)
      ((BitVec.twoPow fmt.wordWidth (replicaLow high width 0)).toNat) (by omega)
      (by exact_mod_cast BitVec.isLt _)
  obtain rfl := Option.some.inj (hr.symm.trans hr')
  have hbit := (hbits 0).symm.trans (hbits' 0)
  rw [decide_eq_true (by omega), Bool.true_and, Bool.true_and, testBit_natCast,
    BitVec.testBit_toNat, BitVec.getLsbD_twoPow, BitVec.getLsbD_twoPow, decide_eq_true hlt,
    Bool.true_and, Bool.true_and, decide_eq_decide] at hbit
  simp only [Nat.cast_zero, zero_mul] at hlow0
  omega

/-- The environment of an inserter with an index. -/
def replicaEnv (t : IntTy) (index v w : Int) : Env :=
  ((Env.set (fun _ => none) "index" (.of .int index)).set "value" (.of t v)).set "inst_word"
    (.of t w)

theorem call_replica (t : IntTy) (body : List Stmt) (index v w : Int) :
    (Func.mk t [(.int, "index"), (t, "value"), (t, "inst_word")] body).call [index, v, w]
      = (exec (replicaEnv t index v w) body).map fun r => .of t r.val := rfl

theorem of_typeOf_val {d : Nat} {z : Int} {w : BitVec (2 ^ intTypeShift d)}
    (h : ∀ i < 2 ^ intTypeShift d, z.testBit i = w.getLsbD i) :
    (Val.of (typeOf false d) z).val = w.toNat := by
  refine eq_of_testBit_eq fun i => ?_
  rw [Val.of_val, IntTy.testBit_wrap, testBit_natCast, BitVec.testBit_toNat]
  split
  · exact h i ‹_›
  · rw [BitVec.getLsbD_of_ge w i (not_lt.mp ‹_›)]
    rfl

/-- The inserter of a replica without bits, for at most 64 bits: it changes nothing at bit 0, and
    clears bit 0 elsewhere. -/
theorem emptyInserter_le_64 (hd : fmt.declaredWidth ≤ 64) {k : Nat} (hk : high + 1 = k)
    (hk31 : k < 2 ^ 31) :
    ∃ put, fmt.generateReplicatedFormatInserter 0 high = some (.word put) ∧
      ∀ index : Nat, index < 2 ^ 31 → ∀ (v : Int) (w : BitVec fmt.wordWidth),
        (k = 0 → ∃ r, put.call [index, v, w.toNat] = some r ∧ r.val = w.toNat) ∧
        (0 < k → ∀ r, put.call [index, v, w.toNat] = some r → r.val.testBit 0 = false) := by
  have h128 : fmt.declaredWidth ≤ 128 := by omega
  have hhigh : high - (0 : Nat) + 1 = k := by push_cast; omega
  refine ⟨⟨typeOf false fmt.declaredWidth, [(.int, "index"), (typeOf false fmt.declaredWidth, "value"),
    (typeOf false fmt.declaredWidth, "inst_word")],
    [.decl .int "low" (replicaHigh k 0), .ret (insertedReplica (.lit (.hexULL 0)))]⟩, ?_,
    fun index hindex v w => ?_⟩
  · simp only [Format.generateReplicatedFormatInserter, getUIntType, getType_eq h128, h128, hd,
      if_true, show ¬ (0 > 128) by omega, if_false, show widthMask 0 = some 0 from rfl,
      Option.bind_eq_bind, Option.bind_some, hhigh]
    rfl
  · have hlow : YieldsInt ((replicaEnv (typeOf false fmt.declaredWidth) index v w.toNat).set "low"
        (.of .int k)) (.var "low") k :=
      yieldsInt_var (Env.set_self _ _ _) (by omega) (by exact_mod_cast hk31)
    have hword : 0 < (typeOf false fmt.declaredWidth).width :=
      (typeOf false fmt.declaredWidth).width_pos
    rw [call_replica, exec_declareLow rfl hindex hk31, exec]
    refine ⟨?_, fun hpos r hr => ?_⟩
    · rintro rfl
      obtain ⟨r, hr, hbits⟩ := insertedReplica_empty (a := .of (typeOf false fmt.declaredWidth) w.toNat)
        (b := .of (typeOf false fmt.declaredWidth) v) rfl rfl hlow
      refine ⟨.of (typeOf false fmt.declaredWidth) r.val,
        congrArg (Option.map fun r => Val.of (typeOf false fmt.declaredWidth) r.val) hr,
        of_typeOf_val fun i hi => ?_⟩
      have hi64 := lt_of_lt_of_le hi (typeWidth_le_64 hd)
      have hwidth : i < (typeOf false fmt.declaredWidth).width := hi
      rw [hbits i hi64, Val.of_val, IntTy.testBit_wrap, if_pos hwidth, testBit_natCast,
        BitVec.testBit_toNat]
    · obtain ⟨a, ha, rfl⟩ := Option.map_eq_some_iff.mp hr
      rw [Val.of_val, IntTy.testBit_wrap, if_pos hword]
      exact insertedReplica_bit0 hlow hpos ha

/-- The same for 65 to 128 bits: it changes nothing below bit 128, and is undefined elsewhere. -/
theorem emptyInserter_wide (h65 : 65 ≤ fmt.declaredWidth) (hd : fmt.declaredWidth ≤ 128) {k : Nat}
    (hk : high + 1 = k) (hk31 : k < 2 ^ 31) :
    ∃ put, fmt.generateReplicatedFormatInserter 0 high = some (.word put) ∧
      ∀ index : Nat, index < 2 ^ 31 → ∀ (v : Int) (w : BitVec fmt.wordWidth),
        (k < 128 → ∃ r, put.call [index, v, w.toNat] = some r ∧ r.val = w.toNat) ∧
        (128 ≤ k → put.call [index, v, w.toNat] = none) := by
  have hhigh : high - (0 : Nat) + 1 = k := by push_cast; omega
  have hty := typeOf_wide h65 hd
  refine ⟨⟨typeOf false fmt.declaredWidth, [(.int, "index"), (typeOf false fmt.declaredWidth, "value"),
    (typeOf false fmt.declaredWidth, "inst_word")],
    .decl .int "low" (replicaHigh k 0) :: (declareMask 0 ++
      [.assign "mask" (.bin .shl (.var "mask") (.var "low")), .ret insertedWideReplica])⟩, ?_,
    fun index hindex v w => ?_⟩
  · simp only [Format.generateReplicatedFormatInserter, getUIntType, getType_eq hd, hd,
      if_true, show ¬ (0 > 128) by omega, show ¬ (fmt.declaredWidth ≤ 64) by omega, if_false,
      Option.bind_eq_bind, Option.bind_some, hhigh]
    rfl
  · have hlow : YieldsInt ((replicaEnv (typeOf false fmt.declaredWidth) index v w.toNat).set "low"
        (.of .int k)) (.var "low") k :=
      yieldsInt_var (Env.set_self _ _ _) (by omega) (by exact_mod_cast hk31)
    rw [call_replica, exec_declareLow rfl hindex hk31, exec_shiftEmptyMask hlow]
    refine ⟨fun hlt => ?_, fun hge => ?_⟩
    · obtain ⟨r, hr, hbits⟩ := @insertedWideReplica_empty
        (((replicaEnv (typeOf false fmt.declaredWidth) index v w.toNat).set "low"
          (.of .int k)).set "mask" (.of .uint128 0))
        w.toNat v _ (by rw [hty]; rfl) (by rw [hty]; rfl) ⟨hlow.1, hlow.2⟩ hlt
        (Env.set_self _ _ _)
      rw [if_pos hlt, exec, hr]
      refine ⟨_, rfl, of_typeOf_val fun i hi => ?_⟩
      have hi128 : i < IntTy.uint128.width := lt_of_lt_of_eq hi (congrArg IntTy.width hty)
      rw [hbits i hi128, Val.of_val, IntTy.testBit_wrap, if_pos hi128, testBit_natCast,
        BitVec.testBit_toNat]
    · rw [if_neg (by omega)]
      rfl

theorem wordReplica_empty (hd : fmt.declaredWidth ≤ 128) {put get : Func} {p low index : Nat}
    (hindex : index < 2 ^ 31) (hp : high + 1 = p) (hpword : p < fmt.wordWidth)
    (hget : fmt.generateReplicatedWordExtractor 0 high = some get)
    (hput : ∀ (v : Int) (w : BitVec fmt.wordWidth),
      ∃ r, put.call [index, v, w.toNat] = some r ∧ r.val = w.toNat) :
    WordReplica put get fmt.wordWidth low 0 index := by
  obtain ⟨-, -, h7, -⟩ := intTypeShift_spec fmt.declaredWidth hd
  have hword : fmt.wordWidth ≤ 2 ^ 7 := Nat.pow_le_pow_right (by omega) h7
  have hreads : ∀ w : BitVec fmt.wordWidth, ∃ r, get.call [w.toNat, index] = some r ∧
      ∀ j, r.val.testBit j = false := by
    intro w
    obtain ⟨r, hr, hbits⟩ := @replicatedWordExtractor_reads _ 0 _ high hd (by omega) (by omega)
        hindex (by omega) (by push_cast; omega) (by omega) p (by push_cast; omega) hpword _ hget
        w.toNat (by omega) (by exact_mod_cast w.isLt)
    exact ⟨r, hr, fun j => by rw [hbits, decide_eq_false (by omega), Bool.false_and]⟩
  refine ⟨fun v w => ?_, fun w => ?_⟩
  · obtain ⟨word, hword, hval⟩ := hput v.toNat w
    obtain ⟨r, hr, hbits⟩ := hreads w
    refine ⟨word, r, hword, by rw [hval]; exact hr, val_eq_of_bits fun j => ?_, fun j _ => ?_⟩
    · rw [hbits, decide_eq_false (by omega), Bool.false_and]
    · rw [hval, testBit_natCast, BitVec.testBit_toNat]
  · obtain ⟨r, hr, hbits⟩ := hreads w
    exact ⟨r, hr, fun j => by rw [hbits, decide_eq_false (by omega), Bool.false_and]⟩

theorem replicatedCorrect_empty_iff (hd : fmt.declaredWidth ≤ 128) (hn : 2 ≤ size)
    (hsize : size < 2 ^ 31) (h0 : 0 ≤ high + 1) (hhigh : high + 1 ≤ fmt.declaredWidth) :
    fmt.ReplicatedCorrect 0 high size ↔ popcount fmt.declaredWidth ≤ 1 ∧
      if fmt.declaredWidth ≤ 64 then high + 1 = 0 else high + 1 < 128 := by
  obtain ⟨k, hk⟩ := Int.eq_ofNat_of_zero_le h0
  have hk31 : k < 2 ^ 31 := by omega
  have hwide := (intTypeShift_spec fmt.declaredWidth hd).1
  have hlow : replicaLow high 0 0 = k := by
    simp only [replicaLow, Nat.cast_zero, zero_mul, sub_zero]
    omega
  constructor
  · rintro ⟨put, get, hput, hget, h⟩
    obtain ⟨f, rfl⟩ := generateReplicatedFormatInserter_word hd hput
    obtain ⟨-, ty, hgetBytes⟩ := generateReplicatedFormatExtractor_word hd hget
    obtain ⟨⟨getWord, -, hreplica⟩, hbytes⟩ := h 0 (by omega)
    refine ⟨?_, ?_⟩
    · -- The overload over the bytes has no parameter `index`.
      by_contra hpop
      rw [hgetBytes, if_pos (not_le.mp hpop)] at hbytes
      obtain ⟨r, hr, -⟩ := hbytes _ rfl (List.replicate _ 0) List.length_replicate
      cases hr
    · obtain ⟨word, -, hword, -, -, hframe⟩ := hreplica.roundTrip 0 (BitVec.allOnes _)
      split
      · next h64 =>
        obtain ⟨f', hf', hcall⟩ := emptyInserter_le_64 h64 hk hk31
        cases Option.some.inj (hput.symm.trans hf')
        by_contra hpos
        have hbit := (hcall 0 (by norm_num) _ _).2 (by omega) word hword
        rw [hframe 0 (Or.inl (by omega)), BitVec.getLsbD_allOnes,
          decide_eq_true (Nat.two_pow_pos _)] at hbit
        cases hbit
      · next h64 =>
        obtain ⟨f', hf', hcall⟩ := emptyInserter_wide (by omega) hd hk hk31
        cases Option.some.inj (hput.symm.trans hf')
        by_contra hge
        rw [(hcall 0 (by norm_num) _ _).2 (by omega)] at hword
        cases hword
  · rintro ⟨hpop, hcond⟩
    obtain ⟨getWord, hgetWord⟩ := @generateReplicatedWordExtractor_eq fmt 0 high hd (by omega)
        (fun _ => by omega)
    have hget : fmt.generateReplicatedFormatExtractor 0 high = some ⟨some getWord, none⟩ := by
      simp only [Format.generateReplicatedFormatExtractor, getUIntType, getType_eq (w := 0) (by omega),
        show ¬ (0 > 128) by omega, if_false, hd, if_true, hgetWord, Option.bind_eq_bind,
        Option.bind_some, if_neg (not_lt.mpr hpop)]
      rfl
    have hput : ∃ put, fmt.generateReplicatedFormatInserter 0 high = some (.word put) ∧
        k < fmt.wordWidth ∧ ∀ index : Nat, index < 2 ^ 31 → ∀ (v : Int) (w : BitVec fmt.wordWidth),
          ∃ r, put.call [index, v, w.toNat] = some r ∧ r.val = w.toNat := by
      split at hcond
      · next h64 =>
        obtain ⟨put, hput, hcall⟩ := emptyInserter_le_64 h64 hk hk31
        have hpos : 0 < fmt.wordWidth := Nat.two_pow_pos _
        exact ⟨put, hput, by omega, fun index hindex v w => (hcall index hindex v w).1 (by omega)⟩
      · next h64 =>
        obtain ⟨put, hput, hcall⟩ := emptyInserter_wide (by omega) hd hk hk31
        have hword : fmt.wordWidth = 128 := congrArg IntTy.width (typeOf_wide (by omega) hd)
        exact ⟨put, hput, by omega, fun index hindex v w => (hcall index hindex v w).1 (by omega)⟩
    obtain ⟨put, hput, hkword, hcall⟩ := hput
    refine ⟨_, _, hput, hget, fun index hindex => ⟨⟨getWord, rfl, ?_⟩, by simp⟩⟩
    exact wordReplica_empty hd (by omega) hk hkword hgetWord (hcall index (by omega))

end Narrow

/-! ### Formats of more than 128 bits -/

theorem replicatedCorrect_wide_iff {fmt : Format} {width size : Nat} {high : Int}
    (hd : 128 < fmt.declaredWidth) (hd31 : fmt.declaredWidth < 2 ^ 31) (hn : 2 ≤ size)
    (hn31 : size < 2 ^ 31) (hlow : (width * size : Nat) ≤ high + 1)
    (hhigh : high + 1 ≤ fmt.declaredWidth) :
    fmt.ReplicatedCorrect width high size ↔ width ≤ 32 := by
  have hnd : ¬ fmt.declaredWidth ≤ 128 := by omega
  have hplace : ∀ index < size, ReplicaPlace fmt.declaredWidth width index high := by
    intro index hindex
    obtain ⟨hlow, hfits⟩ := replicaLow_eq hindex hlow hhigh
    exact ⟨hlow, hfits, by omega, hd31, by omega⟩
  have hget : width ≤ 128 → fmt.generateReplicatedFormatExtractor width high = some ⟨none,
      some ⟨typeOf false width, [(.int, "index")], (fmt.declaredWidth + 7) / 8,
        replicaHigh high width, width⟩⟩ := by
    intro hw
    simp only [Format.generateReplicatedFormatExtractor, getUIntType, getType_eq hw, hnd,
      not_lt.mpr hw, gt_iff_lt, if_false, Option.bind_eq_bind, Option.bind_some]
    rfl
  have hput : width ≤ 64 → fmt.generateReplicatedFormatInserter width high =
      some (.bytes ⟨typeOf false width, (fmt.declaredWidth + 7) / 8, replicaHigh high width,
        width⟩) := by
    intro hw
    simp only [Format.generateReplicatedFormatInserter, getUIntType,
      getType_eq (w := width) (by omega), hnd, show ¬ 128 < width by omega,
      show ¬ 64 < width by omega, if_false, Option.bind_eq_bind, Option.bind_some]
    rfl
  by_cases h64 : width ≤ 64
  · constructor
    · rintro ⟨put, get, hput', hget', h⟩
      obtain rfl := Option.some.inj ((hput h64).symm.trans hput')
      obtain rfl := Option.some.inj ((hget (by omega)).symm.trans hget')
      obtain ⟨getBytes, hgetBytes, hreplica⟩ := h 0 (by omega)
      obtain rfl := Option.some.inj hgetBytes
      by_contra hw
      exact not_bytesReplica (hplace 0 (by omega)) (by omega) hreplica
    · intro hw
      exact ⟨_, _, hput h64, hget (by omega), fun index hindex =>
        ⟨_, rfl, bytesReplica_of_place (hplace index hindex) hw⟩⟩
  · refine iff_of_false ?_ (by omega)
    rintro ⟨put, get, hput', -⟩
    simp only [Format.generateReplicatedFormatInserter, hnd, show 64 < width by omega, gt_iff_lt,
      if_false, if_true, ite_self] at hput'
    cases hput'

/-! ### The accessors of a reference -/

section Correct

variable {fmt : Format}

/-- **Replicated formats.**  The accessors of a reference that is replicated are right exactly in
    formats of more than 128 bits, for formats of at most 32 bits, or where the replicas have no
    bits. -/
theorem replicatedFormat_correct_iff {getFormat : String → Option Nat}
    {placed : List FieldOrFormat} (h : fmt.computeAndCheckFormatWidth getFormat = .ok placed)
    {formatAlias : String} {width size : Nat} {high : Int}
    (hc : .format formatAlias width high size ∈ placed) (hn : 2 ≤ size)
    (hd31 : fmt.declaredWidth < 2 ^ 31) (hn31 : size < 2 ^ 31) :
    fmt.ReplicatedCorrect width high size ↔
      (128 < fmt.declaredWidth ∧ width ≤ 32) ∨
        (width = 0 ∧ popcount fmt.declaredWidth ≤ 1 ∧
          (fmt.declaredWidth ≤ 64 ∧ high + 1 = 0 ∨
            64 < fmt.declaredWidth ∧ fmt.declaredWidth ≤ 128 ∧ high + 1 < 128)) := by
  obtain ⟨hlow, hhigh⟩ := Format.placed_replicas h hc
  by_cases hd : fmt.declaredWidth ≤ 128
  · by_cases hw : 1 ≤ width
    · refine iff_of_false (not_replicatedCorrect_of_pos hd hw hn hlow hhigh) ?_
      omega
    · obtain rfl : width = 0 := by omega
      rw [replicatedCorrect_empty_iff hd hn hn31 (by omega) hhigh]
      split <;> constructor <;> intro h <;> omega
  · rw [replicatedCorrect_wide_iff (by omega) hd31 hn hn31 hlow hhigh]
    omega

/-- A format of 160 bits that consists of twenty 8-bit formats. -/
def bytesFormat : Format := ⟨"Bytes", 160, "", [.format "lane" "Lane" 20]⟩

theorem bytesFormat_correct : bytesFormat.ReplicatedCorrect 8 159 20 :=
  (@replicatedFormat_correct_iff bytesFormat (fun _ => some 8) [.format "lane" 8 159 20]
      (by decide) "lane" _ _ _ (by decide) (by decide) (by decide) (by decide)).mpr
      (Or.inl (by decide))

/-- A 32-bit format that consists of four 8-bit formats. -/
def lanesFormat : Format := ⟨"Lanes", 32, "", [.format "lane" "Lane" 4]⟩

/-- The inserter at index 0 puts 1 at bit 24; the extractor at index 0 reads from bit 16. -/
theorem lanesFormat_not_correct :
    lanesFormat.computeAndCheckFormatWidth (fun _ => some 8) = .ok [.format "lane" 8 31 4] ∧
      ∃ put get, lanesFormat.generateReplicatedFormatInserter 8 31 = some (.word put) ∧
        lanesFormat.generateReplicatedFormatExtractor 8 31 = some ⟨some get, none⟩ ∧
        (put.call [0, 1, 0]).map Val.val = some 0x01000000 ∧
        (get.call [0x01000000, 0]).map Val.val = some 0 ∧
        ¬ lanesFormat.ReplicatedCorrect 8 31 4 := by
  refine ⟨by decide, _, _, rfl, rfl, by decide +kernel, by decide +kernel, ?_⟩
  rintro ⟨put, get, hput, hget, h⟩
  cases hput
  cases hget
  obtain ⟨⟨getWord, hgetWord, hreplica⟩, -⟩ := h 0 (by decide)
  cases hgetWord
  obtain ⟨word, result, hword, hresult, hval, -⟩ := hreplica.roundTrip 1 0
  have hput := congrArg (Option.map Val.val) hword
  have hword : some word.val = some 0x01000000 := hput.symm.trans (by decide +kernel)
  rw [Option.some.inj hword] at hresult
  have hget := congrArg (Option.map Val.val) hresult
  have hzero : some result.val = some 0 := hget.symm.trans (by decide +kernel)
  rw [Option.some.inj hzero] at hval
  exact absurd hval (by decide)

end Correct

end MpactSim.Decoder
