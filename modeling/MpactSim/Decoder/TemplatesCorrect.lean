import MpactSim.Decoder.BitsTemplates

namespace MpactSim.Decoder

open Cpp Lib Expr

/-!
# Correctness of the templates for byte arrays

* `extractBits_exact_iff` — when `ExtractBits<T>` returns the bits of the field;
* `insertBitsAt`          — `InsertBits<T>`, at the C++ types of its text;
* `insertBitsAt_spec`     — it replaces the bits of the field and no others.

A field of a byte array is given by its most significant bit and its width; bits are numbered from
the last byte on.
-/

/-! ### Extraction -/

/-- `ExtractBits<T>` returns the `width` bits of which bit `msb` is the most significant one. -/
def ExtractsField (ty : IntTy) (data : List (BitVec 8)) (msb width : Nat) : Prop :=
  ∃ r, extractBits ty data data.length msb width = some r ∧
    r.val = (bigEndian data / 2 ^ (msb + 1 - width) % 2 ^ width : Nat)

variable {ty : IntTy} {n : Nat}

theorem extractsField_iff {data : List (BitVec 8)} {msb width : Nat} :
    ExtractsField ty data msb width ↔ ∃ r, extractBits ty data data.length msb width = some r ∧
      ∀ j, r.val.testBit j =
        (decide (j < width) && (bigEndian data).testBit (msb + 1 - width + j)) := by
  have hbits : ∀ j, ((bigEndian data / 2 ^ (msb + 1 - width) % 2 ^ width : Nat) : Int).testBit j =
      (decide (j < width) && (bigEndian data).testBit (msb + 1 - width + j)) := by
    intro j
    rw [testBit_natCast, Nat.testBit_mod_two_pow, Nat.testBit_div_two_pow, Nat.add_comm]
  refine exists_congr fun r => and_congr_right fun _ => ⟨fun h j => ?_, fun h => ?_⟩
  · rw [h, hbits]
  · exact eq_of_testBit_eq fun j => by rw [h, hbits]

/-- **Extraction.**  At types of at most 32 bits the field is returned.  At a wider type its bits
    pass through an `int`: the field is returned exactly if the byte with its most significant bit
    is shifted up by less than 32, and its bits from 31 on are clear. -/
theorem extractBits_exact_iff {ty : IntTy} (hsigned : ty.signed = false)
    (hty : ty.width ∈ [8, 16, 32, 64]) {data : List (BitVec 8)} {msb width : Nat}
    (hmsb : msb < 8 * data.length) (h1 : 1 ≤ width) (hwidth : width ≤ msb + 1)
    (hfit : width ≤ ty.width) :
    ExtractsField ty data msb width ↔ ty.width ≤ 32 ∨
      (8 * (msb / 8) < msb + 1 - width + 32 ∧
        ∀ j, msb + 1 - width + 31 ≤ j → j ≤ msb → (bigEndian data).testBit j = false) := by
  rw [extractsField_iff]
  have hlsb : (msb : Int) - width + 1 = (msb + 1 - width : Nat) := by omega
  have hmsb' : msb + 1 - width + width - 1 = msb := by omega
  by_cases h32 : ty.width ≤ 32
  · obtain ⟨r, hr, -, hbits⟩ := @extractBits_spec _ hsigned h32 data _ _ _ hlsb (by omega) hfit
    exact iff_of_true ⟨r, hr, hbits⟩ (Or.inl h32)
  · have h64 : ty.width = 64 := by
      simp only [List.mem_cons, List.not_mem_nil, or_false] at hty
      omega
    rw [or_iff_right h32]
    constructor
    · rintro ⟨r, hr, hfield⟩
      have hend : 8 * (msb / 8) < msb + 1 - width + 32 := by
        by_contra hend
        rw [extractBits_undefined hlsb (by omega) (by rw [hmsb']; omega) (by omega)] at hr
        cases hr
      obtain ⟨r', hr', -, hbits⟩ := @extractBits_bits ty data _ _ _ hlsb (by omega)
          (fun _ => by rw [hmsb']; exact hend)
      obtain rfl := Option.some.inj (hr.symm.trans hr')
      refine ⟨hend, fun j hlow hhigh => ?_⟩
      -- Bit 63 of the result repeats bit 31 of the field.
      have htop : (bigEndian data).testBit (msb + 1 - width + 31) = false := by
        have hbit := (hbits 63 (by omega)).symm.trans (hfield 63)
        rw [decide_eq_true (by omega), Bool.true_and, decide_eq_false (by omega), Bool.false_and,
          Nat.min_eq_right (by norm_num)] at hbit
        exact hbit
      have hbit := (hfield (j - (msb + 1 - width))).symm.trans (hbits (j - (msb + 1 - width)) (by omega))
      rw [decide_eq_true (by omega), Bool.true_and, Nat.min_eq_right (by omega), htop,
        Bool.and_false, Nat.add_sub_cancel' (by omega)] at hbit
      exact hbit
    · rintro ⟨hend, hclear⟩
      obtain ⟨r, hr, hrty, hbits⟩ := @extractBits_bits ty data _ _ _ hlsb (by omega)
          (fun _ => by rw [hmsb']; exact hend)
      refine ⟨r, hr, fun j => ?_⟩
      by_cases hj : j < ty.width
      · rw [hbits j hj]
        by_cases h31 : j < 31
        · rw [Nat.min_eq_left (by omega)]
        · rw [Nat.min_eq_right (by omega)]
          by_cases hw : j < width
          · rw [hclear _ le_rfl (by omega), hclear _ (by omega) (by omega), Bool.and_false,
              Bool.and_false]
          · by_cases hw31 : 31 < width
            · rw [hclear _ le_rfl (by omega), decide_eq_false hw, Bool.false_and, Bool.and_false]
            · rw [decide_eq_false hw, decide_eq_false hw31, Bool.false_and, Bool.false_and]
      · rw [Val.testBit_unsigned (by rw [hrty]; exact hsigned) (by rw [hrty]; omega),
          decide_eq_false (by omega), Bool.false_and]

/-- A field across the middle of two bytes, at `uint8_t`. -/
theorem extractsField_middle : ExtractsField ⟨false, 8, by decide⟩ [0x12, 0x34] 11 8 :=
  (extractBits_exact_iff rfl (by decide) (by decide) (by decide) (by decide) (by decide)).mpr
    (Or.inl (by decide))

/-- All 32 bits of `0x80000000` at `uint64_t` come back with the upper half set. -/
theorem extractBits_signExtended :
    (extractBits .ulong [0x80, 0, 0, 0] 4 31 32).map Val.val = some 0xffffffff80000000 ∧
      ¬ ExtractsField .ulong [0x80, 0, 0, 0] 31 32 := by
  obtain ⟨r, hr, hty, hbits⟩ := @extractBits_bits .ulong [0x80, 0, 0, 0] 0 32 31 (by decide)
      (by decide) (by decide)
  have hval : r = .of .ulong 0xffffffff80000000 := by
    refine Val.ext_bits hty fun j hj => ?_
    rw [hty] at hj
    rw [hbits j hj]
    have hall : ∀ j < 64, (decide (min j 31 < 32) &&
        (bigEndian [0x80, 0, 0, 0]).testBit (0 + min j 31)) =
          (Val.of .ulong 0xffffffff80000000).val.testBit j := by decide +kernel
    exact hall j hj
  have hlen : ((([0x80, 0, 0, 0] : List (BitVec 8)).length : Nat) : Int) = 4 := rfl
  rw [hlen] at hr
  refine ⟨by rw [hr, hval]; decide +kernel, ?_⟩
  rintro ⟨r', hr', hval'⟩
  rw [hlen] at hr'
  obtain rfl := Option.some.inj (hr.symm.trans hr')
  rw [hval] at hval'
  exact absurd hval' (by decide +kernel)

/-! ### Insertion at the types of the text -/

/-- `uint8_t`. -/
def byteTy : IntTy := ⟨false, 8, by decide⟩

/-- `T bmask = (1 << bwidth) - 1;` -/
def declareBmask (ty : IntTy) (bwidth : Nat) : Option Val :=
  (BinOp.eval .shl (.of .int 1) (.of .int bwidth)).bind fun m =>
    (BinOp.eval .sub m (.of .int 1)).map fun m => .of ty m.val

/-- A compound assignment that shifts a variable by an `int`. -/
def shiftAssign (op : BinOp) (a : Val) (count : Nat) : Option Val :=
  (op.eval a (.of .int count)).map fun r => .of a.ty r.val

/-- `(byte & ~bmask) | (bval & bmask)` as a byte. -/
def writtenByte (byte : BitVec 8) (bmask bval : Val) : BitVec 8 :=
  BitVec.ofInt 8 (Val.arith Int.lor (Val.arith Int.land (.of byteTy byte.toNat) (Val.compl bmask))
    (Val.arith Int.land bval bmask)).val

/-- The body of the loop of `InsertBits<T>`: the byte that is written, and the rest of the value. -/
def insertStep (ty : IntTy) (byte : BitVec 8) (blsb : Fin 8) (bwidth : Nat) (val : Val) :
    Option (BitVec 8 × Val) :=
  (declareBmask ty bwidth).bind fun bmask =>
    -- `bval` is a `uint8_t`, whatever `T` is.
    (shiftAssign .shl bmask blsb).bind fun bmask' =>
      (shiftAssign .shl (.of byteTy (Val.arith Int.land val bmask).val) blsb).bind fun bval =>
        (shiftAssign .shr val bwidth).map fun rest => (writtenByte byte bmask' bval, rest)

/-- The loop of `InsertBits<T>`. -/
def insertLoopAt (ty : IntTy) (data : List (BitVec 8)) (byteLow : Int) (blsb : Fin 8) (width : Nat)
    (val : Val) : Option (List (BitVec 8)) :=
  if h : width = 0 then some data
  else
    let bwidth := chunkWidth blsb width
    have : width - bwidth < width := by
      have := chunkWidth_pos blsb h
      omega
    (readByte data byteLow).bind fun byte =>
      (insertStep ty byte blsb bwidth val).bind fun (written, rest) =>
        insertLoopAt ty (data.set byteLow.toNat written) (byteLow - 1) 0 (width - bwidth) rest
termination_by width

/-- `InsertBits<T>`, for any `T`. -/
def insertBitsAt (ty : IntTy) (data : List (BitVec 8)) (dataSize msb : Int) (width : Nat)
    (val : Int) : Option (List (BitVec 8)) :=
  if width = 0 then some data
  else
    let lsb := msb - width + 1
    insertLoopAt ty data (lowByte dataSize lsb) (lowBit lsb) width (.of ty val)

theorem shift_small {f : Int → Nat → Int} (a : Val) (h : n < 32) :
    Val.shift f a (.of .int n) = some (.of a.ty.promote (f a.val n)) := by
  have hcount : (Val.of .int (n : Int)).val = n := wrap_int (by omega) (by omega)
  refine Val.shift_eq hcount ?_
  rw [IntTy.promote_width]
  omega

theorem declareBmask_eq (ty : IntTy) {bwidth : Nat} (h : bwidth ≤ 8) :
    ∃ bmask, declareBmask ty bwidth = some bmask ∧ bmask.ty = ty ∧
      ∀ j < ty.width, bmask.val.testBit j = decide (j < bwidth) := by
  have hpow : (2 : Int) ^ bwidth ≤ 2 ^ 8 := pow_le_pow_right₀ (by norm_num) h
  have hpos : (0 : Int) < 2 ^ bwidth := by positivity
  have hone : IntTy.int.wrap 1 = 1 := wrap_int (by norm_num) (by norm_num)
  have hwrap : IntTy.int.wrap (2 ^ bwidth) = 2 ^ bwidth := wrap_int (by omega) (by omega)
  have hshl : BinOp.eval .shl (.of .int 1) (.of .int bwidth) = some (.of .int (2 ^ bwidth)) := by
    rw [BinOp.eval, shift_small _ (by omega), Val.of_val, hone, one_mul]
    rfl
  have hcommon : IntTy.common .int .int = .int := rfl
  have hsub : BinOp.eval .sub (.of .int (2 ^ bwidth)) (.of .int 1) =
      some (.of .int (2 ^ bwidth - 1)) := by
    simp only [BinOp.eval, Val.arith, Val.of_ty, Val.of_val, hcommon, hone, hwrap]
  refine ⟨.of ty (2 ^ bwidth - 1), ?_, rfl, fun j hj => ?_⟩
  · rw [declareBmask, hshl, Option.bind_some, hsub, Option.map_some, Val.of_val,
      wrap_int (by omega) (by omega)]
  · rw [Val.of_val, IntTy.testBit_wrap, if_pos hj, testBit_two_pow_sub_one]

theorem shiftAssign_shl (a : Val) (hn : n < 32) :
    ∃ r, shiftAssign .shl a n = some r ∧ r.ty = a.ty ∧
      ∀ j < a.ty.width, r.val.testBit j = (decide (n ≤ j) && a.val.testBit (j - n)) := by
  refine ⟨.of a.ty (Val.of a.ty.promote (a.val * 2 ^ n)).val, ?_, rfl, fun j hj => ?_⟩
  · rw [shiftAssign, BinOp.eval, shift_small _ hn, Option.map_some]
  · have hpromote : j < a.ty.promote.width := by
      rw [IntTy.promote_width]
      omega
    rw [Val.of_val, IntTy.testBit_wrap, if_pos hj, Val.of_val, IntTy.testBit_wrap,
      if_pos hpromote, testBit_mul_two_pow]

theorem shiftAssign_shr {a : Val} {m : Nat} (ha : a.val = m) (hn : n < 32) :
    ∃ r, shiftAssign .shr a n = some r ∧ r.ty = a.ty ∧ r.val = (m >>> n : Nat) := by
  have hle : ((m >>> n : Nat) : Int) ≤ m := by exact_mod_cast Nat.shiftRight_le m n
  have hlt : ((m >>> n : Nat) : Int) < a.ty.upper := lt_of_le_of_lt hle (ha ▸ a.val_lt)
  have hcast : (m : Int) / 2 ^ n = (m >>> n : Nat) := by
    rw [Nat.shiftRight_eq_div_pow]
    push_cast
    rfl
  refine ⟨.of a.ty (Val.of a.ty.promote (a.val / 2 ^ n)).val, ?_, rfl, ?_⟩
  · rw [shiftAssign, BinOp.eval, shift_small _ hn, Option.map_some]
  · have hpromote := lt_of_lt_of_le hlt a.ty.upper_le_promote
    rw [Val.of_val, Val.of_val, ha, hcast, IntTy.wrap_of_nonneg (Int.natCast_nonneg _) hpromote,
      IntTy.wrap_of_nonneg (Int.natCast_nonneg _) hlt]

theorem getLsbD_ofInt (n : Nat) (z : Int) {i : Nat} (hi : i < n) :
    (BitVec.ofInt n z).getLsbD i = z.testBit i := by
  cases z with
  | ofNat m =>
    rw [Int.ofNat_eq_natCast, BitVec.ofInt_natCast, BitVec.getLsbD_ofNat, decide_eq_true hi,
      Bool.true_and]
    rfl
  | negSucc m =>
    rw [BitVec.ofInt_negSucc_eq_not_ofNat, BitVec.getLsbD_not, BitVec.getLsbD_ofNat,
      decide_eq_true hi, Bool.true_and, Bool.true_and]
    rfl

theorem getLsbD_writtenByte (byte : BitVec 8) {bmask bval : Val} {i : Nat} (hi : i < 8) :
    (writtenByte byte bmask bval).getLsbD i =
      if bmask.val.testBit i then bval.val.testBit i else byte.getLsbD i := by
  have hcommon : ∀ a b : IntTy, i < (IntTy.common a b).width := fun a b => by
    have := IntTy.width_le_common a b
    omega
  have hcompl : i < bmask.ty.promote.width := by
    rw [IntTy.promote_width]
    omega
  have hbyte : i < byteTy.width := hi
  rw [writtenByte, getLsbD_ofInt _ _ hi, Val.testBit_arith_lor (hcommon _ _),
    Val.testBit_arith_land (hcommon _ _), Val.testBit_arith_land (hcommon _ _), Val.compl,
    Val.of_val, Val.of_val, IntTy.testBit_wrap, if_pos hbyte, IntTy.testBit_wrap, if_pos hcompl,
    Int.testBit_lnot, testBit_natCast, BitVec.testBit_toNat]
  cases bmask.val.testBit i <;> simp

theorem insertStep_eq (h8 : 8 ≤ ty.width) {blsb : Fin 8} {bwidth : Nat} (hfit : blsb + bwidth ≤ 8)
    {val : Val} (hty : val.ty = ty) (hval : val.val = n) (byte : BitVec 8) :
    ∃ rest, insertStep ty byte blsb bwidth val = some
      ((byte &&& ~~~chunkMask blsb bwidth) |||
        (((BitVec.ofNat 8 n &&& chunkMask 0 bwidth) <<< blsb.val) &&& chunkMask blsb bwidth), rest) ∧
      rest.ty = ty ∧ rest.val = (n >>> bwidth : Nat) := by
  have hblsb := blsb.isLt
  obtain ⟨bmask, hmask, hmaskTy, hmaskBits⟩ := @declareBmask_eq ty bwidth (by omega)
  obtain ⟨bmask', hmask', -, hmaskBits'⟩ := shiftAssign_shl bmask (n := blsb) (by omega)
  obtain ⟨bval, hbval, -, hbvalBits⟩ := shiftAssign_shl
    (.of byteTy (Val.arith Int.land val bmask).val) (n := blsb) (by omega)
  obtain ⟨rest, hrest, hrestTy, hrestVal⟩ := shiftAssign_shr hval (n := bwidth) (by omega)
  refine ⟨rest, ?_, hrestTy.trans hty, hrestVal⟩
  rw [insertStep, hmask, Option.bind_some, hmask', Option.bind_some, hbval, Option.bind_some, hrest,
    Option.map_some]
  refine congrArg (fun b => some (b, rest)) (BitVec.eq_of_getLsbD_eq fun i hi => ?_)
  rw [hmaskTy] at hmaskBits'
  rw [getLsbD_writtenByte _ hi, getLsbD_insertedByte _ _ _ hfit hi, hmaskBits' i (by omega)]
  by_cases hle : blsb ≤ i
  · rw [decide_eq_true hle, Bool.true_and, hmaskBits _ (by omega)]
    by_cases hlt : i - blsb < bwidth
    · have hbyte : i - blsb < byteTy.width := by show i - blsb < 8; omega
      have hcommon := IntTy.width_le_common val.ty bmask.ty
      rw [if_pos (decide_eq_true hlt), if_pos (by omega), hbvalBits i hi, decide_eq_true hle,
        Bool.true_and, Val.of_val, IntTy.testBit_wrap, if_pos hbyte,
        Val.testBit_arith_land (by omega), hmaskBits _ (by omega), decide_eq_true hlt,
        Bool.and_true, hval, testBit_natCast]
    · rw [if_neg (by simp [hlt]), if_neg (by omega)]
  · rw [decide_eq_false hle, Bool.false_and, if_neg (by decide), if_neg (by omega)]

/-- **Types of the text.**  For an unsigned `T` of at least 8 bits the loop is the one over bit
    patterns. -/
theorem insertLoopAt_eq (h8 : 8 ≤ ty.width) {data : List (BitVec 8)} {i : Int} {blsb : Fin 8}
    {width : Nat} {val : Val} (hty : val.ty = ty) (hval : val.val = n) :
    insertLoopAt ty data i blsb width val = insertLoop data i blsb width n := by
  -- Induction on the bits that are left.
  induction width using Nat.strong_induction_on generalizing data i blsb val n with
  | _ width ih =>
    rw [insertLoopAt, insertLoop]
    split
    · rfl
    · rename_i hne
      have hpos := chunkWidth_pos blsb hne
      obtain ⟨hfit, hle⟩ := chunkWidth_le blsb width
      cases readByte data i with
      | none => rw [Option.bind_none, Option.bind_none]
      | some byte =>
        obtain ⟨rest, hstep, hrestTy, hrest⟩ := insertStep_eq h8 hfit hty hval byte
        rw [Option.bind_some, Option.bind_some, hstep, Option.bind_some]
        exact ih (width - chunkWidth blsb width) (by omega) hrestTy hrest

theorem insertBitsAt_eq (hsigned : ty.signed = false) (h8 : 8 ≤ ty.width) (data : List (BitVec 8))
    (dataSize msb : Int) (width : Nat) (val : Int) :
    insertBitsAt ty data dataSize msb width val =
      insertBits data dataSize msb width (ty.wrap val).toNat := by
  have h0 := ty.neg_bias_le_wrap val
  rw [IntTy.bias_unsigned hsigned] at h0
  have hval : (Val.of ty val).val = (ty.wrap val).toNat := by
    rw [Val.of_val]
    omega
  rw [insertBitsAt, insertBits]
  split
  · rfl
  · exact insertLoopAt_eq h8 rfl hval

/-- **Insertion.**  The bits of the field are those of the value, and all others are unchanged;
    no byte outside the array is accessed. -/
theorem insertBitsAt_spec {ty : IntTy} (hsigned : ty.signed = false)
    (hty : ty.width ∈ [8, 16, 32, 64]) {data : List (BitVec 8)} {msb width : Nat}
    (hmsb : msb < 8 * data.length) (hwidth : width ≤ msb + 1) (hfit : width ≤ ty.width) (val : Int) :
    ∃ data', insertBitsAt ty data data.length msb width val = some data' ∧
      data'.length = data.length ∧
      ((bigEndian data' / 2 ^ (msb + 1 - width) % 2 ^ width : Nat) : Int) = val % 2 ^ width ∧
      ∀ j, j < msb + 1 - width ∨ msb < j →
        (bigEndian data').testBit j = (bigEndian data).testBit j := by
  have h8 : 8 ≤ ty.width := by
    simp only [List.mem_cons, List.not_mem_nil, or_false] at hty
    omega
  have h0 := ty.neg_bias_le_wrap val
  rw [IntTy.bias_unsigned hsigned] at h0
  obtain ⟨data', hinsert, hlen, hbits⟩ := @insertBits_spec data (msb + 1 - width) width msb
      (by omega) (by omega) (ty.wrap val).toNat
  refine ⟨data', (insertBitsAt_eq hsigned h8 _ _ _ _ _).trans hinsert, hlen, ?_, fun j hj => ?_⟩
  · refine eq_of_testBit_eq fun j => ?_
    rw [testBit_emod_two_pow, testBit_natCast, Nat.testBit_mod_two_pow, Nat.testBit_div_two_pow]
    by_cases hj : j < width
    · rw [decide_eq_true hj, Bool.true_and, Bool.true_and, hbits, if_pos (by omega),
        Nat.add_sub_cancel, ← testBit_natCast, Int.toNat_of_nonneg (by omega), IntTy.testBit_wrap,
        if_pos (by omega)]
    · rw [decide_eq_false hj, Bool.false_and, Bool.false_and]
  · rw [hbits, if_neg (by omega)]

/-- Eight bits across the middle of two bytes, at `uint16_t`. -/
theorem insertBitsAt_middle :
    ∃ data', insertBitsAt ⟨false, 16, by decide⟩ [0x12, 0x34] 2 11 8 0xabc = some data' ∧
      data'.length = 2 ∧ ((bigEndian data' / 2 ^ 4 % 2 ^ 8 : Nat) : Int) = 0xabc % 2 ^ 8 ∧
      ∀ j, j < 4 ∨ 11 < j → (bigEndian data').testBit j = (bigEndian [0x12, 0x34]).testBit j :=
  @insertBitsAt_spec ⟨false, 16, by decide⟩ rfl (by decide) [0x12, 0x34] 11 8 (by decide)
      (by decide) (by decide) 0xabc

end MpactSim.Decoder
