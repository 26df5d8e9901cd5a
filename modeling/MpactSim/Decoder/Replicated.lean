import MpactSim.Decoder.AccessorsWide
import MpactSim.Decoder.BitsTemplates

namespace MpactSim.Decoder

open Cpp Lib Expr

/-!
# Accessors of replicated formats

A format may refer to another format several times in a row.  The accessors of such a reference
take the index of the replica; replica 0 is the most significant one.

* Formats of at most 128 bits have accessors over the integer word.
* Wider formats have accessors over the bytes; formats whose width is not a power of two have an
  extractor over the bytes besides.
* `Format.ReplicatedCorrect` — what the accessors of a reference have to do.
* `replicatedWordExtractor_reads` — what the extractor over the word reads.
-/

/-! ### Accessors over bytes -/

/-- A function that returns `ExtractBits<T>(value, byte_size, msb, width)`, with the parameters
    after `value`. -/
structure BytesExtractor where
  returnTy : IntTy
  params : List (IntTy × String)
  byteSize : Nat
  msb : Expr
  width : Nat
  deriving DecidableEq, Repr

/-- A function that calls `InsertBits(inst_word, byte_size, msb, width, value)`, with an index and
    a value of the given type as parameters. -/
structure BytesInserter where
  valueTy : IntTy
  byteSize : Nat
  msb : Expr
  width : Nat
  deriving DecidableEq, Repr

/-- Call an extractor; an undeclared variable has no value. -/
def BytesExtractor.call (f : BytesExtractor) (data : List (BitVec 8)) (args : List Int) :
    Option Val :=
  let env := (f.params.zip args).foldl (fun (env : Env) p => env.set p.1.2 (.of p.1.1 p.2))
    (fun _ => none)
  (f.msb.eval env).bind fun msb => extractBits f.returnTy data f.byteSize msb.val f.width

/-- Call an inserter; it returns the array that it changes. -/
def BytesInserter.call (f : BytesInserter) (data : List (BitVec 8)) (index value : Int) :
    Option (List (BitVec 8)) :=
  (f.msb.eval (Env.set (fun _ => none) "index" (.of .int index))).bind fun msb =>
    insertBits data f.byteSize msb.val f.width (f.valueTy.wrap value).toNat

/-! ### The generators -/

/-- `high - (index * width)`. -/
def replicaHigh (high : Int) (width : Nat) : Expr :=
  .bin .sub (.lit (.dec high)) (.bin .mul (.var "index") (.lit (.dec width)))

/-- The word with a replica put into it, for a mask that is a literal. -/
def insertedReplica (literal : Expr) : Expr :=
  .bin .or (.bin .and (.var "inst_word") (.bin .shl (.not literal) (.var "low")))
    (.bin .and (.bin .shl (.var "value") (.var "low")) (.bin .shl literal (.var "low")))

/-- The word with a replica put into it, for a mask that is a variable. -/
def insertedWideReplica : Expr :=
  .bin .or (.bin .and (.var "inst_word") (.not (.var "mask")))
    (.bin .and (.bin .shl (.var "value") (.var "low")) (.var "mask"))

/-- The extractors of a reference: over the word, and over the bytes. -/
structure ReplicatedExtractor where
  word : Option Func
  bytes : Option BytesExtractor

/-- The inserter of a reference: over the word or over the bytes. -/
inductive ReplicatedInserter where
  | word (f : Func)
  | bytes (f : BytesInserter)

namespace Format

/-- The part of `GenerateFormatExtractor` for the integer word. -/
def generateReplicatedWordExtractor (fmt : Format) (width : Nat) (high : Int) : Option Func := do
  let returnTy ← getUIntType width
  let argTy ← getUIntType fmt.declaredWidth
  let params := [(argTy, "value"), (.int, "index")]
  let shift : Expr := .bin .add (.lit (.dec (high - width + 1)))
    (.bin .mul (.bin .sub (.var "index") (.lit (.dec 1))) (.lit (.dec width)))
  let value := .bin .shr (.var "value") shift
  if fmt.declaredWidth ≤ 64 then
    let mask ← widthMask width
    return ⟨returnTy, params, [.ret (.bin .and value (.lit (.hex mask.toNat)))]⟩
  else
    let expr := .bin .and value (.var "mask")
    let result := if width ≤ 64 then .low64 expr else expr
    return ⟨returnTy, params, declareMask width ++ [.ret result]⟩

/-- `GenerateFormatExtractor` for a format that is replicated.  The overload over the bytes of a
    format of at most 128 bits has no parameter `index`. -/
def generateReplicatedFormatExtractor (fmt : Format) (width : Nat) (high : Int) :
    Option ReplicatedExtractor := do
  if width > 128 then none
  else
    let returnTy ← getUIntType width
    let bytes (params : List (IntTy × String)) : BytesExtractor :=
      ⟨returnTy, params, (fmt.declaredWidth + 7) / 8, replicaHigh high width, width⟩
    if fmt.declaredWidth ≤ 128 then
      let word ← fmt.generateReplicatedWordExtractor width high
      return ⟨some word, if popcount fmt.declaredWidth > 1 then some (bytes []) else none⟩
    else return ⟨none, some (bytes [(.int, "index")])⟩

/-- `GenerateReplicatedFormatInserter`.  `none` is a body that only logs a fatal error, or does
    not compile because `InsertBits` converts an `absl::uint128` to a byte. -/
def generateReplicatedFormatInserter (fmt : Format) (width : Nat) (high : Int) :
    Option ReplicatedInserter := do
  if width > 128 then none
  else if fmt.declaredWidth ≤ 128 then
    let wordTy ← getUIntType fmt.declaredWidth
    let params := [(.int, "index"), (wordTy, "value"), (wordTy, "inst_word")]
    let declareLow : Stmt := .decl .int "low" (replicaHigh (high - width + 1) width)
    if fmt.declaredWidth ≤ 64 then
      let mask ← widthMask width
      return .word ⟨wordTy, params,
        [declareLow, .ret (insertedReplica (.lit (.hexULL mask.toNat)))]⟩
    else
      return .word ⟨wordTy, params, declareLow :: (declareMask width ++
        [.assign "mask" (.bin .shl (.var "mask") (.var "low")), .ret insertedWideReplica])⟩
  else if width > 64 then none
  else
    let valueTy ← getUIntType width
    return .bytes ⟨valueTy, (fmt.declaredWidth + 7) / 8, replicaHigh high width, width⟩

end Format

/-! ### What the accessors have to do -/

/-- The lowest bit of a replica. -/
def replicaLow (high : Int) (width index : Nat) : Nat := (high - width + 1 - index * width).toNat

/-- Accessors over the integer word: reading a replica after writing it returns the value, no
    other bit is changed, and the bits that are read are those of the replica. -/
structure WordReplica (put get : Func) (wordWidth low width index : Nat) : Prop where
  roundTrip : ∀ (v : BitVec width) (w : BitVec wordWidth), ∃ word result,
    put.call [index, v.toNat, w.toNat] = some word ∧ get.call [word.val, index] = some result ∧
      result.val = v.toNat ∧
      ∀ j, j < low ∨ low + width ≤ j → word.val.testBit j = w.getLsbD j
  reads : ∀ w : BitVec wordWidth, ∃ result, get.call [w.toNat, index] = some result ∧
    ∀ j, result.val.testBit j = (decide (j < width) && w.getLsbD (low + j))

/-- An extractor over bytes reads the bits of a replica. -/
def BytesReads (get : BytesExtractor) (size low width index : Nat) : Prop :=
  ∀ data : List (BitVec 8), data.length = size → ∃ result, get.call data [index] = some result ∧
    ∀ j, result.val.testBit j = (decide (j < width) && (bigEndian data).testBit (low + j))

/-- The same for accessors over bytes. -/
structure BytesReplica (put : BytesInserter) (get : BytesExtractor) (size low width index : Nat) :
    Prop where
  roundTrip : ∀ (v : BitVec width) (data : List (BitVec 8)), data.length = size → ∃ data' result,
    put.call data index v.toNat = some data' ∧ data'.length = size ∧
      get.call data' [index] = some result ∧ result.val = v.toNat ∧
      ∀ j, j < low ∨ low + width ≤ j → (bigEndian data').testBit j = (bigEndian data).testBit j
  reads : BytesReads get size low width index

/-- The accessors of a reference to `size` replicas of a format of `width` bits, the first of
    which ends at bit `high`. -/
def Format.ReplicatedCorrect (fmt : Format) (width : Nat) (high : Int) (size : Nat) : Prop :=
  ∃ put get, fmt.generateReplicatedFormatInserter width high = some put ∧
    fmt.generateReplicatedFormatExtractor width high = some get ∧
    ∀ index < size,
      match put with
      | .word put => (∃ getWord, get.word = some getWord ∧
          WordReplica put getWord fmt.wordWidth (replicaLow high width index) width index) ∧
          ∀ getBytes ∈ get.bytes, BytesReads getBytes ((fmt.declaredWidth + 7) / 8)
            (replicaLow high width index) width index
      | .bytes put => ∃ getBytes, get.bytes = some getBytes ∧ BytesReplica put getBytes
          ((fmt.declaredWidth + 7) / 8) (replicaLow high width index) width index

/-! ### Positions -/

namespace Format

/-- The replicas of a reference lie one below the other. -/
theorem placeComponents_replicas {fmt : Format} {getFormat : String → Option Nat}
    {comps : List Component} {computed : Nat} {placed : List FieldOrFormat} {total : Nat}
    (h : fmt.placeComponents getFormat comps computed = .ok (placed, total))
    (htotal : total = fmt.declaredWidth) {formatAlias : String} {width size : Nat} {high : Int}
    (hc : .format formatAlias width high size ∈ placed) :
    (width * size : Nat) ≤ high + 1 ∧ high + 1 ≤ fmt.declaredWidth := by
  induction comps generalizing computed placed total with
  | nil =>
    cases h
    cases hc
  | cons comp rest ih =>
    cases comp with
    | field name isSigned fieldWidth =>
      simp only [placeComponents] at h
      obtain ⟨⟨tail, t⟩, hrest, h⟩ := bind_eq_ok.mp h
      cases h
      rcases List.mem_cons.mp hc with hc | hc
      · cases hc
      · exact ih hrest htotal hc
    | format otherAlias formatName otherSize =>
      simp only [placeComponents] at h
      cases hfmt : getFormat formatName with
      | none =>
        rw [hfmt] at h
        cases h
      | some otherWidth =>
        rw [hfmt] at h
        obtain ⟨⟨tail, t⟩, hrest, h⟩ := bind_eq_ok.mp h
        cases h
        rcases List.mem_cons.mp hc with hc | hc
        · obtain ⟨hle, -⟩ := placeComponents_bounds hrest htotal
          cases hc
          omega
        · exact ih hrest htotal hc

theorem placed_replicas {fmt : Format} {getFormat : String → Option Nat}
    {placed : List FieldOrFormat} (h : fmt.computeAndCheckFormatWidth getFormat = .ok placed)
    {formatAlias : String} {width size : Nat} {high : Int}
    (hc : .format formatAlias width high size ∈ placed) :
    (width * size : Nat) ≤ high + 1 ∧ high + 1 ≤ fmt.declaredWidth := by
  obtain ⟨-, -, h⟩ := bind_eq_ok.mp h
  obtain ⟨⟨placed', computed⟩, hplace, h⟩ := bind_eq_ok.mp h
  obtain ⟨hw, h⟩ := ite_error_eq_ok.mp h
  cases h
  exact placeComponents_replicas hplace (not_not.mp hw) hc

end Format

theorem replicaLow_eq {width size index d : Nat} {high : Int} (hindex : index < size)
    (hlow : (width * size : Nat) ≤ high + 1) (hhigh : high + 1 ≤ d) :
    (replicaLow high width index : Int) = high - width + 1 - index * width ∧
      replicaLow high width index + width + index * width ≤ d := by
  have hle : width * (index + 1) ≤ width * size := Nat.mul_le_mul_left _ hindex
  have hmul : width * (index + 1) = index * width + width := by ring
  have hcast : ((index * width : Nat) : Int) = index * width := by push_cast; ring
  unfold replicaLow
  omega

theorem yieldsInt_replicaHigh {env : Env} {index width : Nat} {high : Int}
    (henv : env "index" = some (.of .int index)) (hindex : index < 2 ^ 31) (hwidth : width < 2 ^ 31)
    (hmul : index * width < 2 ^ 31) (h0 : -1 ≤ high - index * width) (hhigh : high < 2 ^ 31) :
    YieldsInt env (replicaHigh high width) (high - index * width) := by
  have hcast : ((index * width : Nat) : Int) = index * width := by push_cast; ring
  have hproduct : YieldsInt env (.bin .mul (.var "index") (.lit (.dec width))) (index * width) :=
    (yieldsInt_var henv (by omega) (by omega)).mul (yieldsInt_dec env (by omega) (by omega))
      (by omega) (by omega)
  exact (yieldsInt_dec env (by omega) hhigh).sub hproduct (by omega) (by omega)

/-! ### Formats of more than 128 bits -/

/-- Where a replica lies, and that its position can be computed as an `int`. -/
structure ReplicaPlace (d width index : Nat) (high : Int) : Prop where
  low : (replicaLow high width index : Int) = high - width + 1 - index * width
  fits : replicaLow high width index + width + index * width ≤ d
  index_lt : index < 2 ^ 31
  width_lt : d < 2 ^ 31
  high_lt : high < 2 ^ 31

section Bytes

variable {d width index : Nat} {high : Int}

theorem typeOf_le_32 (hw : width ≤ 32) :
    width ≤ (typeOf false width).width ∧ (typeOf false width).width ≤ 32 := by
  have h5 : intTypeShift width ≤ 5 :=
    (intTypeShift_le_iff width (by omega) 5 (by omega) (by omega)).mpr hw
  exact ⟨(intTypeShift_spec width (by omega)).1, Nat.pow_le_pow_right (by omega) h5⟩

theorem BytesExtractor.call_index (ty : IntTy) (byteSize : Nat) (msb : Expr) (width : Nat)
    (data : List (BitVec 8)) (index : Int) :
    BytesExtractor.call ⟨ty, [(.int, "index")], byteSize, msb, width⟩ data [index] =
      (msb.eval (Env.set (fun _ => none) "index" (.of .int index))).bind fun msb =>
        extractBits ty data byteSize msb.val width := rfl

theorem ReplicaPlace.msb (h : ReplicaPlace d width index high) :
    ∃ msb, (replicaHigh high width).eval
        (Env.set (fun _ => none) "index" (.of .int index)) = some msb ∧
      msb.val - width + 1 = replicaLow high width index := by
  have hlow := h.low
  have hfits := h.fits
  have hd := h.width_lt
  have hyields : YieldsInt (Env.set (fun _ => none) "index" (.of .int index))
      (replicaHigh high width) (high - index * width) :=
    yieldsInt_replicaHigh (Env.set_self _ _ _) h.index_lt (by omega) (by omega) (by omega) h.high_lt
  obtain ⟨msb, hmsb, hval⟩ := hyields.val
  exact ⟨msb, hmsb, by omega⟩

theorem bytesReads_of_place (h : ReplicaPlace d width index high) (hw : width ≤ 32) :
    BytesReads ⟨typeOf false width, [(.int, "index")], (d + 7) / 8, replicaHigh high width, width⟩
      ((d + 7) / 8) (replicaLow high width index) width index := by
  intro data hdata
  obtain ⟨msb, hmsb, hval⟩ := h.msb
  obtain ⟨hle, h32⟩ := typeOf_le_32 hw
  have hfits := h.fits
  obtain ⟨r, hr, -, hbits⟩ := @extractBits_spec (typeOf false width) rfl h32 data _ _ _ hval
      (by omega) hle
  refine ⟨r, ?_, hbits⟩
  rw [BytesExtractor.call_index, hmsb, Option.bind_some, ← hdata]
  exact hr

theorem val_eq_of_bits {width : Nat} {r : Val} {v : BitVec width}
    (h : ∀ j, r.val.testBit j = (decide (j < width) && v.getLsbD j)) : r.val = v.toNat := by
  refine eq_of_testBit_eq fun j => ?_
  rw [h, testBit_natCast, BitVec.testBit_toNat]
  by_cases hj : j < width
  · rw [decide_eq_true hj, Bool.true_and]
  · rw [BitVec.getLsbD_of_ge v j (by omega), Bool.and_false]

theorem bytesReplica_of_place (h : ReplicaPlace d width index high) (hw : width ≤ 32) :
    BytesReplica ⟨typeOf false width, (d + 7) / 8, replicaHigh high width, width⟩
      ⟨typeOf false width, [(.int, "index")], (d + 7) / 8, replicaHigh high width, width⟩
      ((d + 7) / 8) (replicaLow high width index) width index where
  reads := bytesReads_of_place h hw
  roundTrip := by
    intro v data hdata
    obtain ⟨msb, hmsb, hval⟩ := h.msb
    obtain ⟨hle, -⟩ := typeOf_le_32 hw
    have hfits := h.fits
    obtain ⟨data', hinsert, hlen, hbits⟩ := @insertBits_spec data _ _ _ hval (by omega) v.toNat
    obtain ⟨r, hr, hrbits⟩ := bytesReads_of_place h hw data' (hlen.trans hdata)
    have hvalue : (typeOf false width).wrap v.toNat = v.toNat := by
      refine wrap_word (by omega) ?_
      exact_mod_cast lt_of_lt_of_le v.isLt (Nat.pow_le_pow_right (by omega) hle)
    refine ⟨data', r, ?_, hlen.trans hdata, hr, val_eq_of_bits fun j => ?_, fun j hj => ?_⟩
    · show ((replicaHigh high width).eval (Env.set (fun _ => none) "index" (.of .int index))).bind _ = _
      rw [hmsb, Option.bind_some, hvalue, Int.toNat_natCast, ← hdata]
      exact hinsert
    · rw [hrbits, hbits]
      by_cases hj : j < width
      · rw [if_pos (by omega), BitVec.testBit_toNat, Nat.add_sub_cancel_left]
      · rw [decide_eq_false hj, Bool.false_and, Bool.false_and]
    · rw [hbits, if_neg (by omega)]

theorem not_bytesReplica {put : BytesInserter} (h : ReplicaPlace d width index high)
    (hw : 33 ≤ width) {ty : IntTy} :
    ¬ BytesReplica put
      ⟨ty, [(.int, "index")], (d + 7) / 8, replicaHigh high width, width⟩
      ((d + 7) / 8) (replicaLow high width index) width index := by
  intro hreplica
  obtain ⟨msb, hmsb, hval⟩ := h.msb
  have hfits := h.fits
  have hd := h.width_lt
  -- Write the value with bit 32 alone, wherever the inserter puts it.
  obtain ⟨data', r, -, hlen, hget, hr, -⟩ := hreplica.roundTrip (BitVec.twoPow width 32)
    (List.replicate ((d + 7) / 8) 0) List.length_replicate
  obtain ⟨r', hget', hbits⟩ := hreplica.reads data' hlen
  obtain rfl := Option.some.inj (hget.symm.trans hget')
  have htoNat : (BitVec.twoPow width 32).toNat = 2 ^ 32 := by
    rw [BitVec.toNat_twoPow]
    exact Nat.mod_eq_of_lt (Nat.pow_lt_pow_right (by omega) (by omega))
  have hone : ∀ j, j < width → (bigEndian data').testBit (replicaLow high width index + j) =
      decide (j = 32) := by
    intro j hj
    have hbit := hbits j
    rw [decide_eq_true hj, Bool.true_and, hr, htoNat, testBit_natCast, Nat.testBit_two_pow] at hbit
    rw [← hbit, decide_eq_decide]
    exact eq_comm
  have hextract : extractBits ty data' data'.length msb.val width = some r := by
    rw [← hget, hlen]
    rw [BytesExtractor.call_index, hmsb, Option.bind_some]
  have hzero := extractBits_bit32 hval (by omega) hw (by omega) hone hextract
  rw [hzero, htoNat, Val.of_val, IntTy.wrap_of_nonneg le_rfl (by rw [IntTy.upper_eq]; positivity)]
    at hr
  norm_num at hr

end Bytes

/-! ### The extractor over the integer word -/

/-- The environment of an extractor with an index. -/
def indexedEnv (t : IntTy) (x index : Int) : Env :=
  (Env.set (fun _ => none) "value" (.of t x)).set "index" (.of .int index)

theorem call_indexed (r t : IntTy) (body : List Stmt) (x index : Int) :
    (Func.mk r [(t, "value"), (.int, "index")] body).call [x, index]
      = (exec (indexedEnv t x index) body).map fun v => .of r v.val := rfl

section Word

variable {fmt : Format} {width index : Nat} {high : Int}

/-- The position that the extractor over the word computes: that of the replica `2 * index - 1`
    places above the right one. -/
theorem yieldsInt_extracted {env : Env} {p : Nat} (henv : env "index" = some (.of .int index))
    (hindex : index < 2 ^ 31) (hwidth : width < 2 ^ 31) (hlow : -2 ^ 31 < high - width + 1)
    (hhigh : high - width + 1 < 2 ^ 31) (hmul : index * width < 2 ^ 31)
    (hp : high - width + 1 + (index - 1) * width = p) (hp31 : p < 2 ^ 31) :
    YieldsInt env (.bin .add (.lit (.dec (high - width + 1)))
      (.bin .mul (.bin .sub (.var "index") (.lit (.dec 1))) (.lit (.dec width)))) p := by
  have hcast : ((index * width : Nat) : Int) = index * width := by push_cast; ring
  have hproduct : ((index : Int) - 1) * width = index * width - width := by ring
  have hsub : YieldsInt env (.bin .sub (.var "index") (.lit (.dec 1))) ((index : Int) - 1) :=
    (yieldsInt_var henv (by omega) (by omega)).sub (yieldsInt_dec env (by norm_num) (by norm_num))
      (by omega) (by omega)
  have hmul' := hsub.mul (yieldsInt_dec env (z := width) (by omega) (by omega)) (by omega) (by omega)
  rw [← hp]
  exact (yieldsInt_dec env hlow hhigh).add hmul' (by omega) (by omega)

theorem generateReplicatedWordExtractor_eq (hd : fmt.declaredWidth ≤ 128) (hw : 2 * width ≤ 128)
    (hsmall : fmt.declaredWidth ≤ 64 → width < 64) :
    ∃ get, fmt.generateReplicatedWordExtractor width high = some get := by
  by_cases h64 : fmt.declaredWidth ≤ 64
  · obtain ⟨m, hm, -⟩ := widthMask_eq (hsmall h64)
    simp only [Format.generateReplicatedWordExtractor, getUIntType, getType_eq (w := width) (by omega),
      getType_eq (w := fmt.declaredWidth) hd, h64, hm, if_true, Option.bind_eq_bind,
      Option.bind_some]
    exact ⟨_, rfl⟩
  · simp only [Format.generateReplicatedWordExtractor, getUIntType, getType_eq (w := width) (by omega),
      getType_eq (w := fmt.declaredWidth) hd, h64, if_false, Option.bind_eq_bind, Option.bind_some]
    exact ⟨_, rfl⟩

/-- The extractor over the word reads the bits at the position that it computes. -/
theorem replicatedWordExtractor_reads (hd : fmt.declaredWidth ≤ 128) (hw : 2 * width ≤ 128)
    (hsmall : fmt.declaredWidth ≤ 64 → width < 64) (hindex : index < 2 ^ 31)
    (hlow : -2 ^ 31 < high - width + 1) (hhigh : high - width + 1 < 2 ^ 31)
    (hmul : index * width < 2 ^ 31) {p : Nat} (hp : high - width + 1 + (index - 1) * width = p)
    (hpword : p < fmt.wordWidth) {get : Func}
    (hget : fmt.generateReplicatedWordExtractor width high = some get) {x : Int} (h0 : 0 ≤ x)
    (hx : x < 2 ^ fmt.wordWidth) :
    ∃ r, get.call [x, index] = some r ∧
      ∀ j, r.val.testBit j = (decide (j < width) && x.testBit (p + j)) := by
  have hresult := (intTypeShift_spec width (by omega)).1
  obtain ⟨-, -, h7, -⟩ := intTypeShift_spec fmt.declaredWidth hd
  have hword : fmt.wordWidth ≤ 2 ^ 7 := Nat.pow_le_pow_right (by omega) h7
  have hshift : ∀ env : Env, env "index" = some (.of .int index) → YieldsInt env
      (.bin .add (.lit (.dec (high - width + 1))) (.bin .mul (.bin .sub (.var "index")
        (.lit (.dec 1))) (.lit (.dec width)))) p := fun env henv =>
    yieldsInt_extracted henv hindex (by omega) hlow hhigh hmul hp (by omega)
  -- An unsigned result type does not change the bits of the field.
  have hbits : ∀ v : Int, (typeOf false width).wrap v = (typeOf false width).wrap (field x p width) →
      ∀ j, (Val.of (typeOf false width) v).val.testBit j =
        (decide (j < width) && x.testBit (p + j)) := by
    intro v hv j
    rw [Val.of_val, hv, testBit_wrap_field rfl hresult, fieldBit]
    split
    · rw [decide_eq_true ‹_›, Bool.true_and]
    · rw [decide_eq_false (p := j < width) ‹_›, Bool.false_and, Bool.false_and, Bool.false_and]
  by_cases h64 : fmt.declaredWidth ≤ 64
  · obtain ⟨m, hm, hmask⟩ := widthMask_eq (hsmall h64)
    simp only [Format.generateReplicatedWordExtractor, getUIntType, getType_eq (w := width) (by omega),
      getType_eq (w := fmt.declaredWidth) hd, h64, hm, if_true, Option.bind_eq_bind,
      Option.bind_some] at hget
    cases hget
    have hvalue : (Expr.var "value").Yields (indexedEnv (typeOf false fmt.declaredWidth) x index) x
        (max (2 ^ intTypeShift fmt.declaredWidth) 32) :=
      ⟨.of (typeOf false fmt.declaredWidth) x, rfl, wrap_word h0 hx, h0,
        le_of_eq (typeOf false fmt.declaredWidth).promote_width.symm⟩
    obtain ⟨a, ha, hval, -, -⟩ := yields_field (hvalue.shr_int (hshift _ rfl)
      (lt_of_lt_of_le hpword (le_max_left _ _))) hmask
    refine ⟨.of (typeOf false width) a.val, ?_, hbits a.val (by rw [hval])⟩
    rw [call_indexed, exec, ha]
    rfl
  · have h65 : 65 ≤ fmt.declaredWidth := by omega
    have hw64 : width ≤ 64 := by omega
    have hwide : fmt.wordWidth = 128 := congrArg IntTy.width (typeOf_wide h65 hd)
    rw [hwide] at hpword hx
    simp only [Format.generateReplicatedWordExtractor, getUIntType, getType_eq (w := width) (by omega),
      getType_eq (w := fmt.declaredWidth) hd, h64, hw64, if_true, if_false, Option.bind_eq_bind,
      Option.bind_some, typeOf_wide h65 hd] at hget
    cases hget
    have hvalue : (Expr.var "value").Yields
        ((indexedEnv .uint128 x index).set "mask" (maskVal width 0)) x 128 :=
      ⟨.of .uint128 x, rfl, wrap_uint128 h0 hx, h0, le_of_eq rfl⟩
    have hmask := yields_var ((indexedEnv .uint128 x index).set_self "mask" (maskVal width 0))
      (n := 128) (maskVal_nonneg (by omega)) (le_of_eq rfl)
    rw [maskVal_val (by omega), pow_zero, mul_one] at hmask
    obtain ⟨a, ha, hval, -, -⟩ := (hvalue.shr_int (hshift _ rfl) hpword).and hmask
    obtain ⟨v, hv, hwrap⟩ := eval_low64 (r := typeOf false width) (typeWidth_le_64 hw64) ha
    refine ⟨.of (typeOf false width) v.val, ?_, hbits v.val (by rw [hwrap, hval, field])⟩
    rw [call_indexed, exec_declareMask _ (by omega), exec, hv]
    rfl

end Word

end MpactSim.Decoder
