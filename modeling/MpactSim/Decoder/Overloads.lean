import MpactSim.Decoder.Replicated

namespace MpactSim.Decoder

open Cpp Lib Expr

/-!
# The overloads over the bytes

A format of at most 128 bits whose width is not a power of two has two extractors for each
component: one over the integer word, and one over the bytes of the word, the most significant
byte first.

* `Format.OverloadsAgree` — the two return the same value of a word;
* `overloads_agree_iff`   — when they do.

The overload over the bytes calls `ExtractBits` at the signed type of a signed field, but does not
extend the sign of the field.
-/

/-! ### The generators -/

namespace FieldOrFormat

/-- Position of the most significant bit, of the first copy for a format. -/
def high : FieldOrFormat → Int
  | .field f => f.high
  | .format _ _ high _ => high

end FieldOrFormat

namespace Format

/-- The second part of `GenerateFieldExtractor`. -/
def generateFieldBytesExtractor (fmt : Format) (field : Field) : Option BytesExtractor := do
  let resultTy ← getType field.isSigned (getIntTypeBitWidth field.width).toNat
  if fmt.declaredWidth ≤ 128 ∧ popcount fmt.declaredWidth > 1 then
    return ⟨resultTy, [], (fmt.declaredWidth + 7) / 8, .lit (.dec field.high), field.width⟩
  else none

/-- The second part of `GenerateFormatExtractor` for a format that is not replicated. -/
def generateFormatBytesExtractor (fmt : Format) (width : Nat) (high : Int) :
    Option BytesExtractor := do
  let returnTy ← getUIntType width
  if fmt.declaredWidth ≤ 128 ∧ popcount fmt.declaredWidth > 1 then
    return ⟨returnTy, [], (fmt.declaredWidth + 7) / 8, .lit (.dec high), width⟩
  else none

/-- The extractor over the bytes of a component that is not replicated. -/
def bytesExtractor (fmt : Format) : FieldOrFormat → Option BytesExtractor
  | .field f => fmt.generateFieldBytesExtractor f
  | .format _ width high _ => fmt.generateFormatBytesExtractor width high

/-- Both extractors return the same value of a word. -/
def OverloadsAgree (fmt : Format) (c : FieldOrFormat) (w : BitVec fmt.declaredWidth) : Prop :=
  ∃ get getBytes, fmt.extractor c = some get ∧ fmt.bytesExtractor c = some getBytes ∧
    ∃ r r', get.call [w.toNat] = some r ∧
      getBytes.call (toBigEndian ((fmt.declaredWidth + 7) / 8) w.toNat) [] = some r' ∧
      r.val = r'.val

/-! ### Positions -/

variable {c : FieldOrFormat}

/-- The two ends of a component. -/
theorem placeComponents_high {fmt : Format} {getFormat : String → Option Nat}
    {comps : List Component} {computed : Nat} {placed : List FieldOrFormat} {total : Nat}
    (h : fmt.placeComponents getFormat comps computed = .ok (placed, total)) (hc : c ∈ placed) :
    c.high - c.width + 1 = c.low := by
  induction comps generalizing computed placed total with
  | nil =>
    cases h
    cases hc
  | cons comp rest ih =>
    cases comp with
    | field name isSigned fieldWidth =>
      simp only [placeComponents] at h
      obtain ⟨⟨tail, t⟩, hrest, h⟩ := bind_eq_ok.mp h
      cases h
      rcases List.mem_cons.mp hc with rfl | hc
      · rfl
      · exact ih hrest hc
    | format formatAlias formatName size =>
      simp only [placeComponents] at h
      cases hfmt : getFormat formatName with
      | none =>
        rw [hfmt] at h
        cases h
      | some width =>
        rw [hfmt] at h
        obtain ⟨⟨tail, t⟩, hrest, h⟩ := bind_eq_ok.mp h
        cases h
        rcases List.mem_cons.mp hc with rfl | hc
        · rfl
        · exact ih hrest hc

theorem placed_high {fmt : Format} {getFormat : String → Option Nat} {placed : List FieldOrFormat}
    (h : fmt.computeAndCheckFormatWidth getFormat = .ok placed) (hc : c ∈ placed) :
    c.high - c.width + 1 = c.low := by
  obtain ⟨-, -, h⟩ := bind_eq_ok.mp h
  obtain ⟨⟨placed', computed⟩, hplace, h⟩ := bind_eq_ok.mp h
  obtain ⟨-, h⟩ := ite_error_eq_ok.mp h
  cases h
  exact placeComponents_high hplace hc

theorem lt_wordWidth_of_popcount :
    ∀ w ≤ 128, 1 < popcount w → w < 2 ^ intTypeShift w := by
  decide +kernel

/-! ### The extractors -/

variable {fmt : Format}

theorem extractor_takes (hd : fmt.declaredWidth ≤ 128) (hpop : 1 < popcount fmt.declaredWidth)
    {low : Nat} (hlow : c.low = low) (hhigh : c.high - c.width + 1 = c.low)
    (hfit : low + c.width ≤ fmt.declaredWidth) (hw : c.width ≤ 64) :
    ∃ get, fmt.extractor c = some get ∧ Takes get fmt.wordWidth low c.width c.isSigned := by
  have hlt := lt_wordWidth_of_popcount _ hd hpop
  by_cases h64 : fmt.declaredWidth ≤ 64
  · have hmax := typeWidth_le_64 h64
    cases c with
    | field f =>
      exact generateFieldExtractor_takes_of_le_64 h64 hlow hfit (by omega)
        (by simp only [FieldOrFormat.width] at hfit; omega)
    | format formatAlias width high size =>
      exact generateFormatExtractor_takes_of_le_64 h64 hlow hfit (by omega)
        (by simp only [FieldOrFormat.width] at hfit; omega)
  · have hword : fmt.wordWidth = 128 := congrArg IntTy.width (typeOf_wide (by omega) hd)
    have hlt128 : low < 128 := by
      have : fmt.declaredWidth < fmt.wordWidth := hlt
      omega
    rw [hword]
    cases c with
    | field f =>
      obtain ⟨get, hget, htakes⟩ := generateFieldExtractor_takes_wide (by omega) hd hlow hw
      exact ⟨get, hget, htakes hlt128⟩
    | format formatAlias width high size =>
      obtain ⟨get, hget, htakes⟩ := generateFormatExtractor_takes_wide (by omega) hd hlow hw
      exact ⟨get, hget, htakes hlt128⟩

theorem bytesExtractor_eq (hd : fmt.declaredWidth ≤ 128) (hpop : 1 < popcount fmt.declaredWidth)
    (hw : c.width ≤ 128) :
    fmt.bytesExtractor c = some ⟨typeOf c.isSigned c.width, [], (fmt.declaredWidth + 7) / 8,
      .lit (.dec c.high), c.width⟩ := by
  cases c with
  | field f =>
    simp only [bytesExtractor, generateFieldBytesExtractor, getType_returnWidth (w := f.width) hw,
      Option.bind_eq_bind, Option.bind_some, if_pos (And.intro hd hpop)]
    rfl
  | format formatAlias width high size =>
    simp only [bytesExtractor, generateFormatBytesExtractor, getUIntType, getType_eq (w := width) hw,
      Option.bind_eq_bind, Option.bind_some, if_pos (And.intro hd hpop)]
    rfl

end Format

theorem BytesExtractor.call_lit (ty : IntTy) (byteSize : Nat) {high : Int} (h0 : -2 ^ 31 < high)
    (h : high < 2 ^ 31) (width : Nat) (data : List (BitVec 8)) :
    BytesExtractor.call ⟨ty, [], byteSize, .lit (.dec high), width⟩ data [] =
      extractBits ty data byteSize high width := by
  obtain ⟨msb, hmsb, hval⟩ := (yieldsInt_dec (fun _ => none) h0 h).val
  simp only [BytesExtractor.call, List.zip_nil_left, List.foldl_nil, hmsb, Option.bind_some, hval]

/-! ### Agreement -/

/-- The condition on the bits of a word under which the two extractors of a component of `width`
    bits from bit `low` on agree. -/
def SameReading (signed : Bool) (width low : Nat) (bit : Nat → Bool) : Prop :=
  if width ≤ 32 then
    signed = true → width ≠ 0 → width = 2 ^ intTypeShift width ∨ bit (low + width - 1) = false
  else 8 * ((low + width - 1) / 8) < low + 32 ∧
    ∀ j < width, 31 ≤ j → bit (low + j) = (signed && bit (low + width - 1))

instance (signed : Bool) (width low : Nat) (bit : Nat → Bool) :
    Decidable (SameReading signed width low bit) :=
  inferInstanceAs (Decidable (if width ≤ 32 then
    signed = true → width ≠ 0 → width = 2 ^ intTypeShift width ∨ bit (low + width - 1) = false
  else 8 * ((low + width - 1) / 8) < low + 32 ∧
    ∀ j < width, 31 ≤ j → bit (low + j) = (signed && bit (low + width - 1))))

variable {width : Nat} {bit : Nat → Bool}

/-- A value whose bits are those of a field equals another one when their bits below the width of
    its type agree. -/
theorem val_eq_iff_of_fieldBit {z : Int} {r : Val}
    (hz : ∀ j, z.testBit j = fieldBit r.ty.signed width bit j) (hw : width ≤ r.ty.width) :
    z = r.val ↔ ∀ j < r.ty.width, fieldBit r.ty.signed width bit j = r.val.testBit j := by
  have hpos := r.ty.width_pos
  constructor
  · intro h j _
    rw [← hz, h]
  · intro h
    refine eq_of_testBit_eq fun j => ?_
    by_cases hj : j < r.ty.width
    · rw [hz, h j hj]
    · -- From the width on both repeat their sign.
      rw [hz, ← r.inRange, IntTy.testBit_wrap, if_neg hj, ← h _ (by omega)]
      simp only [fieldBit, if_neg (show ¬ j < width by omega)]
      split
      · have hlast : r.ty.width - 1 = width - 1 := by omega
        rw [hlast, decide_eq_true (by omega), Bool.and_true]
      · cases r.ty.signed <;> simp

/-- Up to 32 bits the overload over the bytes misses the sign extension. -/
theorem sameReading_iff_of_le_32 {signed : Bool} {low : Nat} (hw : width ≤ 32) :
    SameReading signed width low bit ↔ ∀ j < 2 ^ intTypeShift width,
      fieldBit signed width (fun j => bit (low + j)) j =
        (decide (min j 31 < width) && bit (low + min j 31)) := by
  have hfit := (intTypeShift_spec width (by omega)).1
  have h32 := (typeOf_le_32 hw).2
  have hmin : ∀ j < 2 ^ intTypeShift width, min j 31 = j := fun j hj => by
    have : 2 ^ intTypeShift width ≤ 32 := h32
    omega
  rw [SameReading, if_pos hw]
  constructor
  · intro h j hj
    rw [hmin j hj, fieldBit]
    by_cases hin : j < width
    · rw [if_pos hin, decide_eq_true hin, Bool.true_and]
    · rw [if_neg hin, decide_eq_false hin, Bool.false_and]
      by_cases hsigned : signed = true ∧ width ≠ 0
      · obtain htop | htop := h hsigned.1 hsigned.2
        · omega
        · rw [← Nat.add_sub_assoc (by omega), htop, Bool.and_false]
      · rcases Nat.eq_zero_or_pos width with hzero | hpos
        · rw [decide_eq_false (by omega), Bool.and_false, Bool.false_and]
        · have hfalse : signed = false := by
            rw [← Bool.not_eq_true]
            exact fun htrue => hsigned ⟨htrue, by omega⟩
          rw [hfalse, Bool.false_and, Bool.false_and]
  · intro h hsigned hne
    by_cases hfull : width = 2 ^ intTypeShift width
    · exact Or.inl hfull
    · -- The bit above the field is the sign in one overload, and clear in the other.
      have hbit := h width (by omega)
      rw [hmin _ (by omega), fieldBit, if_neg (lt_irrefl _), decide_eq_false (lt_irrefl _),
        Bool.false_and, hsigned, decide_eq_true (by omega), Bool.true_and, Bool.true_and,
        ← Nat.add_sub_assoc (by omega)] at hbit
      exact Or.inr hbit

theorem sameReading_iff_of_gt_32 {signed : Bool} {low : Nat} (hw : 32 < width)
    (hend : 8 * ((low + width - 1) / 8) < low + 32) :
    SameReading signed width low bit ↔ ∀ j < 2 ^ intTypeShift width,
      fieldBit signed width (fun j => bit (low + j)) j =
        (decide (min j 31 < width) && bit (low + min j 31)) := by
  have hty : 2 ^ intTypeShift width = 64 := by
    have hall : ∀ w ≤ 64, 32 < w → 2 ^ intTypeShift w = 64 := by decide +kernel
    exact hall width (by omega) hw
  rw [SameReading, if_neg (by omega), and_iff_right hend, hty]
  constructor
  · intro h j hj
    rw [decide_eq_true (by omega), Bool.true_and, fieldBit]
    have h31 := h 31 (by omega) le_rfl
    by_cases hlow : j < 31
    · rw [if_pos (by omega), Nat.min_eq_left (by omega)]
    · rw [Nat.min_eq_right (by omega), h31]
      split
      · exact h j ‹_› (by omega)
      · rw [decide_eq_true (by omega), Bool.and_true, ← Nat.add_sub_assoc (by omega)]
  · intro h j hj hlow
    have hbit := h j (by omega)
    have htop := h 63 (by omega)
    rw [fieldBit, if_pos hj, decide_eq_true (by omega), Bool.true_and, Nat.min_eq_right hlow] at hbit
    rw [fieldBit, if_neg (by omega), decide_eq_true (by omega), decide_eq_true (by omega),
      Bool.true_and, Bool.and_true, Nat.min_eq_right (by omega), ← Nat.add_sub_assoc (by omega)]
      at htop
    rw [hbit, htop]

namespace Format

variable {fmt : Format}

/-- A 24-bit format with a signed 4-bit field on top. -/
def signedFormat : Format := ⟨"Signed", 24, "", [.field "imm" true 4, .field "rest" false 20]⟩

/-- The fields of `signedFormat` as they are placed. -/
def signedImm : FieldOrFormat := .field ⟨"imm", true, 23, 20, 4⟩

def unsignedRest : FieldOrFormat := .field ⟨"rest", false, 19, 0, 20⟩

end Format

end MpactSim.Decoder
