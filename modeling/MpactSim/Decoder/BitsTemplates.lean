import MpactSim.Cpp.Rules
import MpactSim.Lib.BigEndian

namespace MpactSim.Decoder

open Cpp Lib

/-!
# The templates for byte arrays

Accessors of a format of more than 128 bits call two function templates that are emitted with
them.  Both walk over the bytes from the one with the least significant bit on.

* `extractBits` — `ExtractBits<T>`, at the C++ types of its text;
* `insertBits`  — `InsertBits<T>`, for an unsigned `T`;
* `extractBits_bits`, `insertBits_spec` — the bits that they read and write;
* `extractBits_undefined` — where `ExtractBits` is undefined.

`none` is an access outside the array or an undefined shift.
-/

/-! ### The templates -/

/-- A byte of the array. -/
def readByte (data : List (BitVec 8)) (i : Int) : Option (BitVec 8) :=
  if 0 ≤ i then data[i.toNat]? else none

/-- `std::min(8 - blsb, bits_left)`. -/
def chunkWidth (blsb : Fin 8) (bitsLeft : Nat) : Nat := min (8 - blsb) bitsLeft

theorem chunkWidth_pos (blsb : Fin 8) {bitsLeft : Nat} (h : bitsLeft ≠ 0) :
    0 < chunkWidth blsb bitsLeft := by
  have := blsb.isLt
  unfold chunkWidth
  omega

/-- `((1 << bwidth) - 1) << blsb` as a byte. -/
def chunkMask (blsb : Fin 8) (bwidth : Nat) : BitVec 8 :=
  BitVec.ofNat 8 (2 ^ bwidth - 1) <<< blsb.val

/-- The loop of `ExtractBits`.  The bits of a byte are an `int` when they are shifted up. -/
def extractLoop (ty : IntTy) (data : List (BitVec 8)) (byteLow : Int) (blsb : Fin 8)
    (bitsLeft bitsExtracted : Nat) (val : Val) : Option Val :=
  if h : bitsLeft = 0 then some val
  else
    let bwidth := chunkWidth blsb bitsLeft
    have : bitsLeft - bwidth < bitsLeft := by
      have := chunkWidth_pos blsb h
      omega
    (readByte data byteLow).bind fun byte =>
      (Val.shift (fun v k => v * 2 ^ k)
        (.of .int ((byte &&& chunkMask blsb bwidth) >>> blsb.val).toNat)
        (.of .int bitsExtracted)).bind fun bits =>
          extractLoop ty data (byteLow - 1) 0 (bitsLeft - bwidth) (bitsExtracted + bwidth)
            (.of ty (Val.arith Int.lor val bits).val)
termination_by bitsLeft

/-- The index of the byte with the least significant bit, and the bit's place in it. -/
def lowByte (dataSize lsb : Int) : Int := dataSize - lsb / 8 - 1

/-- `lsb & 0x7`. -/
def lowBit (lsb : Int) : Fin 8 := ⟨(lsb % 8).toNat, by omega⟩

/-- `ExtractBits<T>`. -/
def extractBits (ty : IntTy) (data : List (BitVec 8)) (dataSize msb : Int) (width : Nat) :
    Option Val :=
  if width = 0 then some (.of ty 0)
  else
    let lsb := msb - width + 1
    extractLoop ty data (lowByte dataSize lsb) (lowBit lsb) width 0 (.of ty 0)

/-- The loop of `InsertBits`.  The masks and the value have type `T`, but only their lowest eight
    bits get into a byte. -/
def insertLoop (data : List (BitVec 8)) (byteLow : Int) (blsb : Fin 8) (width val : Nat) :
    Option (List (BitVec 8)) :=
  if h : width = 0 then some data
  else
    let bwidth := chunkWidth blsb width
    have : width - bwidth < width := by
      have := chunkWidth_pos blsb h
      omega
    let bmask := chunkMask blsb bwidth
    let bval := (BitVec.ofNat 8 val &&& chunkMask 0 bwidth) <<< blsb.val
    (readByte data byteLow).bind fun byte =>
      insertLoop (data.set byteLow.toNat ((byte &&& ~~~bmask) ||| (bval &&& bmask)))
        (byteLow - 1) 0 (width - bwidth) (val >>> bwidth)
termination_by width

/-- `InsertBits<T>`. -/
def insertBits (data : List (BitVec 8)) (dataSize msb : Int) (width val : Nat) :
    Option (List (BitVec 8)) :=
  if width = 0 then some data
  else
    let lsb := msb - width + 1
    insertLoop data (lowByte dataSize lsb) (lowBit lsb) width val

/-! ### One byte -/

variable {bwidth : Nat} {data : List (BitVec 8)}

theorem getLsbD_chunkMask (blsb : Fin 8) {i : Nat} (h : blsb + bwidth ≤ 8) (hi : i < 8) :
    (chunkMask blsb bwidth).getLsbD i = decide (blsb ≤ i ∧ i < blsb + bwidth) := by
  rw [chunkMask, BitVec.getLsbD_shiftLeft, decide_eq_true hi, Bool.true_and, BitVec.getLsbD_ofNat,
    Nat.testBit_two_pow_sub_one, ← decide_not, ← Bool.decide_and, ← Bool.decide_and,
    decide_eq_decide]
  omega

theorem chunkWidth_le (blsb : Fin 8) (bitsLeft : Nat) :
    blsb + chunkWidth blsb bitsLeft ≤ 8 ∧ chunkWidth blsb bitsLeft ≤ bitsLeft := by
  have := blsb.isLt
  unfold chunkWidth
  omega

theorem testBit_chunk (byte : BitVec 8) (blsb : Fin 8) (h : blsb + bwidth ≤ 8) (i : Nat) :
    ((byte &&& chunkMask blsb bwidth) >>> blsb.val).toNat.testBit i =
      (decide (i < bwidth) && byte.getLsbD (blsb + i)) := by
  rw [BitVec.testBit_toNat, BitVec.getLsbD_ushiftRight, BitVec.getLsbD_and]
  by_cases hi : blsb + i < 8
  · rw [getLsbD_chunkMask blsb h hi, Bool.and_comm]
    congr 1
    rw [decide_eq_decide]
    omega
  · rw [BitVec.getLsbD_of_ge byte _ (by omega), Bool.false_and, Bool.and_false]

theorem getLsbD_insertedByte (byte : BitVec 8) (blsb : Fin 8) (val : Nat) (h : blsb + bwidth ≤ 8)
    {i : Nat} (hi : i < 8) :
    ((byte &&& ~~~chunkMask blsb bwidth) |||
        (((BitVec.ofNat 8 val &&& chunkMask 0 bwidth) <<< blsb.val) &&&
          chunkMask blsb bwidth)).getLsbD i =
      if blsb ≤ i ∧ i < blsb + bwidth then val.testBit (i - blsb) else byte.getLsbD i := by
  rw [BitVec.getLsbD_or, BitVec.getLsbD_and, BitVec.getLsbD_and, BitVec.getLsbD_not,
    BitVec.getLsbD_shiftLeft, BitVec.getLsbD_and, getLsbD_chunkMask blsb h hi]
  by_cases hin : blsb ≤ i ∧ i < blsb + bwidth
  · have hzero : (chunkMask 0 bwidth).getLsbD (i - blsb) = true := by
      rw [getLsbD_chunkMask 0 (by simp; omega) (by omega), decide_eq_true_eq]
      simp
      omega
    rw [if_pos hin, decide_eq_true hin, hzero, BitVec.getLsbD_ofNat]
    have hlt : i - blsb < 8 := by omega
    simp [hi, hlt, hin.1]
  · rw [if_neg hin, decide_eq_false hin]
    simp [hi]

/-! ### Inserting -/

theorem readByte_eq {k : Nat} (hk : k < data.length) {i : Int} (hi : i = data.length - k - 1) :
    readByte data i = some data[data.length - 1 - k] ∧ i.toNat = data.length - 1 - k := by
  have htoNat : i.toNat = data.length - 1 - k := by omega
  refine ⟨?_, htoNat⟩
  rw [readByte, if_pos (by omega), htoNat, List.getElem?_eq_getElem]

/-- The loop puts the value into the bits from `lsb` on, which start in the byte `k` bytes before
    the last one. -/
theorem insertLoop_spec {data : List (BitVec 8)} {blsb : Fin 8} {width val lsb k : Nat}
    (hlsb : width ≠ 0 → lsb = 8 * k + blsb) (hfit : lsb + width ≤ 8 * data.length) {i : Int}
    (hi : i = data.length - k - 1) :
    ∃ data', insertLoop data i blsb width val = some data' ∧ data'.length = data.length ∧
      ∀ j, (bigEndian data').testBit j =
        if lsb ≤ j ∧ j < lsb + width then val.testBit (j - lsb) else (bigEndian data).testBit j := by
  -- Induction on the bits that are left.
  induction width using Nat.strong_induction_on generalizing data blsb val lsb k i with
  | _ width ih =>
    rw [insertLoop]
    split
    · rename_i hzero
      exact ⟨data, rfl, rfl, fun j => (if_neg (by omega)).symm⟩
    · rename_i hne
      have hpos := chunkWidth_pos blsb hne
      obtain ⟨h8, hle⟩ := chunkWidth_le blsb width
      have hlsb := hlsb hne
      have hk : k < data.length := by omega
      obtain ⟨hread, htoNat⟩ := readByte_eq hk hi
      rw [hread, Option.bind_some, htoNat]
      generalize hbyte : ((data[data.length - 1 - k] &&& ~~~chunkMask blsb (chunkWidth blsb width)) |||
        (((BitVec.ofNat 8 val &&& chunkMask 0 (chunkWidth blsb width)) <<< blsb.val) &&&
          chunkMask blsb (chunkWidth blsb width))) = byte
      have hlen : (data.set (data.length - 1 - k) byte).length = data.length := List.length_set
      have hlast : width - chunkWidth blsb width ≠ 0 → chunkWidth blsb width = 8 - blsb := by
        unfold chunkWidth
        omega
      obtain ⟨data', hrun, hlen', hbits⟩ := @ih (width - chunkWidth blsb width) (by omega)
        (data.set (data.length - 1 - k) byte) 0 (val >>> chunkWidth blsb width)
        (lsb + chunkWidth blsb width) (k + 1)
        (fun hleft => by have := hlast hleft; simp; omega) (by omega) (i - 1) (by omega)
      refine ⟨data', hrun, hlen'.trans hlen, fun j => ?_⟩
      have hold : j / 8 = k → (bigEndian data).testBit j =
          data[data.length - 1 - k].getLsbD (j % 8) := fun hj =>
        testBit_bigEndian (by omega) (by omega)
      rw [hbits, testBit_bigEndian_set (by omega)]
      by_cases hrest : lsb + chunkWidth blsb width ≤ j ∧ j < lsb + width
      · rw [if_pos (by omega), if_pos (by omega), Nat.testBit_shiftRight]
        congr 1
        omega
      · rw [if_neg (by omega)]
        by_cases hj : j / 8 = k
        · rw [if_pos (by omega), ← hbyte, getLsbD_insertedByte _ _ _ h8 (by omega)]
          by_cases hin : lsb ≤ j ∧ j < lsb + width
          · rw [if_pos (by omega), if_pos hin]
            congr 1
            omega
          · rw [if_neg (by omega), if_neg hin, hold hj]
        · rw [if_neg (by omega), if_neg (by omega)]

/-- **Insertion.** The bits from `lsb` on are those of the value, and no other bit is changed. -/
theorem insertBits_spec {data : List (BitVec 8)} {lsb width : Nat} {msb : Int}
    (hmsb : msb - width + 1 = lsb) (hfit : lsb + width ≤ 8 * data.length) (val : Nat) :
    ∃ data', insertBits data data.length msb width val = some data' ∧
      data'.length = data.length ∧ ∀ j, (bigEndian data').testBit j =
        if lsb ≤ j ∧ j < lsb + width then val.testBit (j - lsb) else (bigEndian data).testBit j := by
  rw [insertBits]
  split
  · exact ⟨data, rfl, rfl, fun j => (if_neg (by omega)).symm⟩
  · simp only [hmsb]
    refine insertLoop_spec (k := lsb / 8) (fun _ => ?_) hfit ?_
    · simp only [lowBit]
      omega
    · rw [lowByte]
      omega

/-! ### Extracting -/

theorem shift_chunk (byte : BitVec 8) (blsb : Fin 8) {bwidth s : Nat} (hs : s < 32) :
    ∃ bits, Val.shift (fun v k => v * 2 ^ k)
        (.of .int ((byte &&& chunkMask blsb bwidth) >>> blsb.val).toNat) (.of .int s) = some bits ∧
      bits.ty = .int ∧ bits.val = IntTy.int.wrap
        ((((byte &&& chunkMask blsb bwidth) >>> blsb.val).toNat : Int) * 2 ^ s) := by
  have hcount : (Val.of .int (s : Int)).val = s := by
    refine IntTy.wrap_of_nonneg (by omega) ?_
    rw [IntTy.upper_int]
    omega
  have hchunk : (Val.of .int (((byte &&& chunkMask blsb bwidth) >>> blsb.val).toNat : Int)).val =
      ((byte &&& chunkMask blsb bwidth) >>> blsb.val).toNat := by
    refine IntTy.wrap_of_nonneg (by omega) ?_
    have := ((byte &&& chunkMask blsb bwidth) >>> blsb.val).isLt
    rw [IntTy.upper_int]
    omega
  refine ⟨_, Val.shift_eq hcount ?_, rfl, ?_⟩
  · exact hs
  · rw [Val.of_val, hchunk]
    rfl

/-- The chunk of a byte at `s` as an `int`: bit 31 is repeated above. -/
theorem testBit_shiftedChunk {blsb : Fin 8} {s lsb k : Nat} (h8 : blsb + bwidth ≤ 8)
    (hpos : lsb + s = 8 * k + blsb) (hk : k < data.length) (j : Nat) :
    (IntTy.int.wrap (((data[data.length - 1 - k] &&& chunkMask blsb bwidth) >>>
        blsb.val).toNat * 2 ^ s)).testBit j =
      (decide (s ≤ min j 31 ∧ min j 31 < s + bwidth) &&
        (bigEndian data).testBit (lsb + min j 31)) := by
  have hlow : ∀ i, (((data[data.length - 1 - k] &&& chunkMask blsb bwidth) >>>
      blsb.val).toNat * 2 ^ s : Int).testBit i =
        (decide (s ≤ i ∧ i < s + bwidth) && (bigEndian data).testBit (lsb + i)) := by
    intro i
    rw [testBit_mul_two_pow, testBit_natCast, testBit_chunk _ _ h8]
    by_cases hin : s ≤ i ∧ i < s + bwidth
    · have hbit : (lsb + i) % 8 = blsb + (i - s) := by omega
      rw [testBit_bigEndian (k := data.length - 1 - k) (by omega) (by omega), hbit,
        decide_eq_true hin, decide_eq_true hin.1, decide_eq_true (by omega), Bool.true_and,
        Bool.true_and]
    · rw [decide_eq_false hin, Bool.false_and, ← Bool.and_assoc, ← Bool.decide_and,
        decide_eq_false (by omega), Bool.false_and]
  rw [IntTy.testBit_wrap, hlow, hlow]
  split
  · rename_i hj
    have hj : j < 32 := hj
    rw [Nat.min_eq_left (by omega)]
  · rename_i hj
    have hj : ¬ j < 32 := hj
    rw [Nat.min_eq_right (by omega)]
    rfl

/-- The loop collects the bits from `lsb` on, of which `s` have been extracted, as long as no chunk
    is shifted up by 32 or more.  The bits from 31 on are all that of bit 31. -/
theorem extractLoop_bits {ty : IntTy} {data : List (BitVec 8)} {blsb : Fin 8}
    {left s lsb k : Nat} {val : Val} (hty : val.ty = ty)
    (hpos : left ≠ 0 → lsb + s = 8 * k + blsb) (hfit : lsb + s + left ≤ 8 * data.length)
    (hend : left ≠ 0 → s < 32 ∧ 8 * ((lsb + s + left - 1) / 8) < lsb + 32)
    (hval : ∀ j < ty.width, val.val.testBit j =
      (decide (min j 31 < s) && (bigEndian data).testBit (lsb + min j 31)))
    {i : Int} (hi : i = data.length - k - 1) :
    ∃ r, extractLoop ty data i blsb left s val = some r ∧ r.ty = ty ∧
      ∀ j < ty.width, r.val.testBit j =
        (decide (min j 31 < s + left) && (bigEndian data).testBit (lsb + min j 31)) := by
  -- Induction on the bits that are left.
  induction left using Nat.strong_induction_on generalizing blsb s k val i with
  | _ left ih =>
    rw [extractLoop]
    split
    · rename_i hzero
      exact ⟨val, rfl, hty, fun j hj => by rw [hval j hj, hzero, Nat.add_zero]⟩
    · rename_i hne
      have hwpos := chunkWidth_pos blsb hne
      obtain ⟨h8, hle⟩ := chunkWidth_le blsb left
      have hpos := hpos hne
      obtain ⟨hs, hend⟩ := hend hne
      have hk : k < data.length := by omega
      obtain ⟨hread, -⟩ := readByte_eq hk hi
      obtain ⟨bits, hshift, hbty, hbits⟩ := @shift_chunk (data[data.length - 1 - k]) blsb
          (chunkWidth blsb left) _ hs
      rw [hread, Option.bind_some, hshift, Option.bind_some]
      have hlast : left - chunkWidth blsb left ≠ 0 → chunkWidth blsb left = 8 - blsb := by
        unfold chunkWidth
        omega
      -- The bits after this chunk.
      have hnew : ∀ j < ty.width, (Val.of ty (Val.arith Int.lor val bits).val).val.testBit j =
          (decide (min j 31 < s + chunkWidth blsb left) &&
            (bigEndian data).testBit (lsb + min j 31)) := by
        intro j hj
        obtain ⟨hcommon, -, -⟩ := IntTy.width_le_common val.ty bits.ty
        rw [hty] at hcommon
        rw [Val.of_val, IntTy.testBit_wrap, if_pos hj, Val.testBit_arith_lor (by rw [hty]; omega),
          hval j hj, hbits, testBit_shiftedChunk h8 hpos hk, ← Bool.and_or_distrib_right,
          ← Bool.decide_or]
        refine congrArg (· && _) (decide_eq_decide.mpr ?_)
        omega
      obtain ⟨r, hrun, hrty, hr⟩ := @ih (left - chunkWidth blsb left) (by omega) 0
        (s + chunkWidth blsb left) (k + 1) (.of ty (Val.arith Int.lor val bits).val)
        rfl (fun hleft => by have := hlast hleft; simp; omega) (by omega)
        (fun hleft => by have := hlast hleft; omega) hnew (i - 1) (by omega)
      have hsum : s + chunkWidth blsb left + (left - chunkWidth blsb left) = s + left := by omega
      rw [hsum] at hr
      exact ⟨r, hrun, hrty, hr⟩

/-- **Extraction.** What is extracted when no chunk is shifted up by 32 or more. -/
theorem extractBits_bits (ty : IntTy) {data : List (BitVec 8)} {lsb width : Nat} {msb : Int}
    (hmsb : msb - width + 1 = lsb)
    (hfit : lsb + width ≤ 8 * data.length)
    (hend : width ≠ 0 → 8 * ((lsb + width - 1) / 8) < lsb + 32) :
    ∃ r, extractBits ty data data.length msb width = some r ∧ r.ty = ty ∧
      ∀ j < ty.width, r.val.testBit j =
        (decide (min j 31 < width) && (bigEndian data).testBit (lsb + min j 31)) := by
  have hzero : ∀ j < ty.width, (Val.of ty 0).val.testBit j = false := by
    intro j hj
    rw [Val.of_val, IntTy.testBit_wrap, if_pos hj]
    exact Nat.zero_testBit j
  rw [extractBits]
  split
  · rename_i hwidth
    refine ⟨_, rfl, rfl, fun j hj => ?_⟩
    rw [hzero j hj, hwidth, decide_eq_false (by omega), Bool.false_and]
  · simp only [hmsb]
    have hspec := @extractLoop_bits _ data (lowBit lsb) width 0 lsb (lsb / 8) (.of ty 0) rfl
        (fun _ => by simp only [lowBit]; omega) (by omega)
        (fun hne => ⟨by omega, by have := hend hne; rwa [Nat.add_zero]⟩)
        (fun j hj => by rw [hzero j hj, decide_eq_false (by omega), Bool.false_and])
        (lowByte data.length lsb) (by rw [lowByte]; omega)
    rw [Nat.zero_add] at hspec
    exact hspec
theorem extractLoop_eq_none {ty : IntTy} {i : Int} {blsb : Fin 8} {left s : Nat} {val : Val}
    (hleft : left ≠ 0) (hs : 32 ≤ s) (h31 : s < 2 ^ 31) :
    extractLoop ty data i blsb left s val = none := by
  have hcount : (Val.of .int (s : Int)).val = s := by
    refine IntTy.wrap_of_nonneg (by omega) ?_
    rw [IntTy.upper_int]
    exact_mod_cast h31
  rw [extractLoop, dif_neg hleft]
  cases readByte data i with
  | none => rfl
  | some byte =>
    rw [Option.bind_some, Val.shift_eq_none, Option.bind_none]
    rw [hcount]
    show (32 : Int) ≤ s
    exact_mod_cast hs

theorem extractLoop_undefined {ty : IntTy} {data : List (BitVec 8)} {i : Int} {blsb : Fin 8}
    {left s lsb k : Nat} {val : Val} (hpos : lsb + s = 8 * k + blsb) (hleft : left ≠ 0)
    (hend : 32 ≤ s ∨ lsb + 32 ≤ 8 * ((lsb + s + left - 1) / 8)) (h31 : s + left < 2 ^ 31) :
    extractLoop ty data i blsb left s val = none := by
  -- Induction on the bits that are left.
  induction left using Nat.strong_induction_on generalizing blsb s k val i with
  | _ left ih =>
    by_cases hs : 32 ≤ s
    · exact extractLoop_eq_none hleft hs (by omega)
    · have hwpos := chunkWidth_pos blsb hleft
      obtain ⟨h8, hle⟩ := chunkWidth_le blsb left
      have hnext : chunkWidth blsb left = 8 - blsb ∧ left - chunkWidth blsb left ≠ 0 := by
        unfold chunkWidth
        omega
      rw [extractLoop, dif_neg hleft]
      cases readByte data i with
      | none => rfl
      | some byte =>
        rw [Option.bind_some]
        refine Option.bind_eq_none_iff.mpr fun bits _ => ?_
        exact @ih (left - chunkWidth blsb left) (by omega) _ 0 (s + chunkWidth blsb left) (k + 1) _
          (by simp; omega) hnext.2 (by omega) (by omega)

/-- `ExtractBits` is undefined when the byte with the most significant bit is shifted up by 32 or
    more. -/
theorem extractBits_undefined {ty : IntTy} {data : List (BitVec 8)} {lsb width : Nat} {msb : Int}
    (hmsb : msb - width + 1 = lsb) (hwidth : width ≠ 0)
    (hend : lsb + 32 ≤ 8 * ((lsb + width - 1) / 8)) (h31 : width < 2 ^ 31) :
    extractBits ty data data.length msb width = none := by
  rw [extractBits, if_neg hwidth]
  simp only [hmsb]
  refine @extractLoop_undefined _ _ _ _ _ _ lsb (lsb / 8) _ ?_ hwidth (by omega) (by omega)
  simp only [lowBit]
  omega

/-- **Extraction.** Up to 32 bits are extracted at a type of at most 32 bits. -/
theorem extractBits_spec {ty : IntTy} (hsigned : ty.signed = false) (h32 : ty.width ≤ 32)
    {data : List (BitVec 8)} {lsb width : Nat} {msb : Int} (hmsb : msb - width + 1 = lsb)
    (hfit : lsb + width ≤ 8 * data.length) (hw : width ≤ ty.width) :
    ∃ r, extractBits ty data data.length msb width = some r ∧ r.ty = ty ∧ ∀ j, r.val.testBit j =
      (decide (j < width) && (bigEndian data).testBit (lsb + j)) := by
  obtain ⟨r, hr, hty, hbits⟩ := extractBits_bits ty hmsb hfit (fun _ => by omega)
  refine ⟨r, hr, hty, fun j => ?_⟩
  by_cases hj : j < ty.width
  · rw [hbits j hj, Nat.min_eq_left (by omega)]
  · rw [Val.testBit_unsigned (by rw [hty]; exact hsigned) (by rw [hty]; omega),
      decide_eq_false (by omega), Bool.false_and]

theorem extractBits_bit32 {ty : IntTy} {lsb width : Nat} {msb : Int} (hmsb : msb - width + 1 = lsb)
    (hfit : lsb + width ≤ 8 * data.length) (hwide : 33 ≤ width) (h31 : width < 2 ^ 31)
    (hone : ∀ i, i < width → (bigEndian data).testBit (lsb + i) = decide (i = 32)) {r : Val}
    (hr : extractBits ty data data.length msb width = some r) : r = .of ty 0 := by
  by_cases hend : 8 * ((lsb + width - 1) / 8) < lsb + 32
  · obtain ⟨r', hr', hty, hbits⟩ := extractBits_bits ty hmsb hfit (fun _ => hend)
    obtain rfl := Option.some.inj (hr'.symm.trans hr)
    refine Val.ext_bits hty fun j hj => ?_
    rw [hty] at hj
    rw [hbits j hj, hone _ (by omega), decide_eq_false (p := min j 31 = 32) (by omega),
      Bool.and_false, Val.of_val, IntTy.testBit_wrap, if_pos hj]
    exact (Nat.zero_testBit j).symm
  · rw [extractBits_undefined hmsb (by omega) (by omega) h31] at hr
    cases hr

end MpactSim.Decoder
