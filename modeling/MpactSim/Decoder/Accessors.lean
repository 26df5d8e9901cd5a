import MpactSim.Decoder.Format

namespace MpactSim.Decoder

open Cpp

/-!
# Generated accessors

The extractors and inserters that `Format` emits for its fields and for the formats it
refers to, as functions of the emitted fragment of C++ (formats of at most 128 bits,
default layout).

* Formats of at most 64 bits shift and mask with literals that the generator computes
  in `uint64_t`.
* Formats of 65 to 128 bits build the mask at run time in an `absl::uint128` variable.

`none` stands for a generator that does not get as far as the text because it shifts a
64-bit word by 64 or more.
-/

/-! ### Type selection -/

/-- `absl::bit_width`. -/
def bitWidth (n : Nat) : Nat := if n = 0 then 0 else n.log2 + 1

/-- `absl::popcount` of an `unsigned`. -/
def popcount (n : Nat) : Nat := (List.range 32).countP n.testBit

/-- The logarithm that `GetIntTypeBitWidth` computes: rounded up, at least 3. -/
def intTypeShift (bitwidth : Nat) : Nat :=
  max (bitWidth bitwidth - 1 + if popcount bitwidth > 1 then 1 else 0) 3

/-- Width of the integer type for so many bits, `-1` when there is none. -/
def getIntTypeBitWidth (bitwidth : Nat) : Int :=
  if intTypeShift bitwidth > 7 then -1 else 2 ^ intTypeShift bitwidth

theorem intTypeWidth_pos (bitwidth : Nat) : 0 < 2 ^ intTypeShift bitwidth := Nat.two_pow_pos _

/-- The integer type for so many bits, `none` for the byte array of a wider format:
    `GetIntType` and `GetUIntType`. -/
def getType (signed : Bool) (bitwidth : Nat) : Option IntTy :=
  if bitwidth > 128 then none
  else some ⟨signed, 2 ^ intTypeShift bitwidth, Nat.two_pow_pos _⟩

/-- `GetUIntType`. -/
abbrev getUIntType : Nat → Option IntTy := getType false

/-! ### Emission helpers -/

/-- A left shift of a `uint64_t` of the generator itself. -/
def shiftLeftULL (v : BitVec 64) (k : Int) : Option (BitVec 64) :=
  if 0 ≤ k ∧ k < 64 then some (v <<< k.toNat) else none

/-- `(1ULL << width) - 1`. -/
def widthMask (width : Nat) : Option (BitVec 64) :=
  (shiftLeftULL 1 width).map (· - 1)

/-- An expression shifted by a constant. -/
def shifted (op : BinOp) (e : Expr) (k : Int) : Expr := .bin op e (.lit (.dec k))

/-- An expression shifted by a constant, with no shift printed for zero. -/
def shiftedUnlessZero (op : BinOp) (e : Expr) (k : Int) : Expr :=
  if k = 0 then e else shifted op e k

/-- `absl::uint128 mask = 1; mask = (mask << width) - 1;` -/
def declareMask (width : Nat) : List Stmt :=
  [.decl .uint128 "mask" (.lit (.dec 1)),
   .assign "mask" (.bin .sub (shifted .shl (.var "mask") width) (.lit (.dec 1)))]

/-- `mask = mask << low;`, left out for zero. -/
def shiftMask (low : Int) : List Stmt :=
  if low = 0 then [] else [.assign "mask" (shifted .shl (.var "mask") low)]

/-! ### Extractors -/

/-- The statements that sign extend a field and the expression to return. -/
def signExtension (field : Field) (resultTy : IntTy) (expr : Expr) : List Stmt × Expr :=
  if field.isSigned then
    let shift := getIntTypeBitWidth field.width - field.width
    ([.decl resultTy "result" (shifted .shl expr shift),
      .assign "result" (shifted .shr (.var "result") shift)], .var "result")
  else ([], expr)

namespace Format

/-- `GenerateFieldExtractor`. -/
def generateFieldExtractor (fmt : Format) (field : Field) : Option Func := do
  let returnWidth := getIntTypeBitWidth field.width
  let resultTy ← getType field.isSigned returnWidth.toNat
  let argTy ← getUIntType fmt.declaredWidth
  let value := shiftedUnlessZero .shr (.var "value") field.low
  if fmt.declaredWidth ≤ 64 then
    let mask ← widthMask field.width
    let (extend, expr) := signExtension field resultTy (.bin .and value (.lit (.hex mask.toNat)))
    return ⟨resultTy, [(argTy, "value")], extend ++ [.ret expr]⟩
  else
    let (extend, expr) := signExtension field resultTy (.bin .and value (.var "mask"))
    let result := if returnWidth ≤ 64 then .low64 expr else expr
    return ⟨resultTy, [(argTy, "value")], declareMask field.width ++ extend ++ [.ret result]⟩

/-- `GenerateFormatExtractor` for a format that is not replicated. -/
def generateFormatExtractor (fmt : Format) (width : Nat) (high : Int) : Option Func := do
  let returnTy ← getUIntType width
  let argTy ← getUIntType fmt.declaredWidth
  let value := shifted .shr (.var "value") (high - width + 1)
  if fmt.declaredWidth ≤ 64 then
    let mask ← widthMask width
    return ⟨returnTy, [(argTy, "value")], [.ret (.bin .and value (.lit (.hex mask.toNat)))]⟩
  else
    let expr := .bin .and value (.var "mask")
    let result := if width ≤ 64 then .low64 expr else expr
    return ⟨returnTy, [(argTy, "value")], declareMask width ++ [.ret result]⟩

/-! ### Inserters -/

/-- `GenerateFieldInserter`.  The 128-bit text masks `value` where it stands; only the
    64-bit text moves it to the field's position. -/
def generateFieldInserter (fmt : Format) (field : Field) : Option Func := do
  let wordTy ← getUIntType fmt.declaredWidth
  let params := [(wordTy, "value"), (wordTy, "inst_word")]
  if fmt.declaredWidth ≤ 64 then
    let mask ← shiftLeftULL (← widthMask field.width) field.low
    let literal := .lit (.hexULL mask.toNat)
    let value := shiftedUnlessZero .shl (.var "value") field.low
    return ⟨wordTy, params,
      [.assign "inst_word" (.bin .or (.bin .and (.var "inst_word") (.not literal))
        (.bin .and value literal)),
       .ret (.var "inst_word")]⟩
  else
    return ⟨wordTy, params, declareMask field.width ++ shiftMask field.low ++
      [.assign "inst_word" (.bin .or (.bin .and (.var "inst_word") (.not (.var "mask")))
        (.bin .and (.var "value") (.var "mask"))),
       .ret (.var "inst_word")]⟩

/-- `GenerateSingleFormatInserter`. -/
def generateSingleFormatInserter (fmt : Format) (width : Nat) (high : Int) : Option Func := do
  let wordTy ← getUIntType fmt.declaredWidth
  let params := [(wordTy, "value"), (wordTy, "inst_word")]
  let low := high - width + 1
  let value := shiftedUnlessZero .shl (.var "value") low
  if fmt.declaredWidth ≤ 64 then
    let mask ← shiftLeftULL (← widthMask width) low
    let literal := .lit (.hexULL mask.toNat)
    return ⟨wordTy, params,
      [.ret (.bin .or (.bin .and (.var "inst_word") (.not literal)) (.bin .and value literal))]⟩
  else
    return ⟨wordTy, params, declareMask width ++ (if low > 0 then shiftMask low else []) ++
      [.ret (.bin .or (.bin .and (.var "inst_word") (.not (.var "mask")))
        (.bin .and value (.var "mask")))]⟩

/-- Width of the type of an instruction word of the format, `GetUIntType(declared_width_)`. -/
abbrev wordWidth (fmt : Format) : Nat := 2 ^ intTypeShift fmt.declaredWidth

/-- The extractor of a component that is not replicated. -/
def extractor (fmt : Format) : FieldOrFormat → Option Func
  | .field f => fmt.generateFieldExtractor f
  | .format _ width high _ => fmt.generateFormatExtractor width high

/-- The inserter of a component that is not replicated. -/
def inserter (fmt : Format) : FieldOrFormat → Option Func
  | .field f => fmt.generateFieldInserter f
  | .format _ width high _ => fmt.generateSingleFormatInserter width high

end Format

end MpactSim.Decoder
