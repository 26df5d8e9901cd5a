import MpactSim.Decoder.Accessors

namespace MpactSim.Decoder

open Cpp

/-!
# Overlays

An overlay is a list of bit ranges of a format and of constants, from its most significant
bit down.  As with the components of a format, a component is first declared and then
placed.

* `BitField`     — a component as it is added;
* `BitsOrField`  — the same component once `ComputeHighLow` has placed it;
* `getValue`, `getBitField` — the generator's own extraction and insertion.

A shift of the generator itself that is undefined gives `none`.
-/

/-- A binary number of the description: its digits, and how many there are.  Only the last 64
    digits are kept. -/
structure BinaryNum where
  value : Nat
  width : Nat
  lt : value < 2 ^ width
  lt_two_pow_64 : value < 2 ^ 64
  deriving DecidableEq, Repr

/-- A component as it is declared: `AddFieldReference`, `AddFormatReference` or
    `AddBitConstant`. -/
inductive BitField where
  | fieldReference (field : Field) (first last : Nat)
  | formatReference (first last : Nat)
  | bitConstant (binNum : BinaryNum)
  deriving DecidableEq, Repr

/-- A placed component.  `position` is that of its high bit in the overlay; `high` and `low`
    are positions in the format. -/
inductive BitsOrField where
  | bits (high low : Int) (width : Nat) (position : Int)
  | binNum (binNum : BinaryNum) (position : Int)
  deriving DecidableEq, Repr

/-- `Overlay`. -/
structure Overlay where
  name : String
  isSigned : Bool
  declaredWidth : Nat
  components : List BitField
  deriving DecidableEq, Repr

/-- Width of a component. -/
def BitField.width : BitField → Nat
  | .fieldReference _ first last => first + 1 - last
  | .formatReference first last => first + 1 - last
  | .bitConstant num => num.width

/-- The checks of `AddFieldReference` and `AddFormatReference`. -/
def BitField.Accepted (fmt : Format) : BitField → Prop
  | .fieldReference field first last => first < field.width ∧ last ≤ first
  | .formatReference first last => first < fmt.declaredWidth ∧ last ≤ first
  | .bitConstant _ => True

/-- A component at its place, with `high` and `low` moved by the field's position. -/
def BitField.place (position : Int) : BitField → BitsOrField
  | .fieldReference field first last =>
    .bits (first + field.low) (last + field.low) (first + 1 - last) position
  | .formatReference first last => .bits first last (first + 1 - last) position
  | .bitConstant num => .binNum num position

namespace Overlay

/-- `computed_width()`. -/
def computedWidth (o : Overlay) : Nat := (o.components.map BitField.width).sum

/-- `must_be_extracted()`. -/
def mustBeExtracted (o : Overlay) : Bool := o.components.any fun c => c matches .bitConstant _

/-- The loop of `ComputeHighLow`. -/
def placeFrom : Int → List BitField → List BitsOrField
  | _, [] => []
  | position, c :: rest => c.place position :: placeFrom (position - c.width) rest

/-- `component_vec()` after `ComputeHighLow`. -/
def componentVec (o : Overlay) : List BitsOrField :=
  placeFrom (o.declaredWidth - 1) o.components

/-- `mask()` after `ComputeHighLow`. -/
def mask (o : Overlay) : Option (BitVec 64) :=
  o.componentVec.foldlM (fun mask c =>
    match c with
    | .bits _ low width _ => do
      let bits ← shiftLeftULL (← widthMask width) low
      return mask ||| bits
    | .binNum .. => some mask) 0

/-- A right shift of a `uint64_t` of the generator itself. -/
def shiftRightULL (v : BitVec 64) (k : Int) : Option (BitVec 64) :=
  if 0 ≤ k ∧ k < 64 then some (v >>> k.toNat) else none

/-- What one component adds in `GetValue`. -/
def valueOf (input : BitVec 64) : BitsOrField → Option (BitVec 64)
  | .bits high low width position => do
    let mask ← shiftLeftULL (← widthMask width) low
    let diff := high - position
    let tmp := input &&& mask
    if diff < 0 then shiftLeftULL tmp (-diff) else shiftRightULL tmp diff
  | .binNum num position =>
    if num.value = 0 then some 0
    else shiftLeftULL (BitVec.ofNat 64 num.value) (position - num.width + 1)

/-- `GetValue`: the value that the bits of an instruction word make up. -/
def getValue (o : Overlay) (input : BitVec 64) : Except String (Option (BitVec 64)) :=
  if o.declaredWidth ≠ o.computedWidth then
    .error "Overlay definition incomplete: declared width != computed width"
  else .ok (o.componentVec.foldlM (fun value c => (valueOf input c).map (value ||| ·)) 0)

/-- What one component adds in `GetBitField`. -/
def bitFieldOf (input : BitVec 64) : BitsOrField → Option (BitVec 64)
  | .bits _ low width position => do
    let mask ← widthMask width
    let bits ← if 0 ≤ position - width + 1 ∧ position - width + 1 < 64 then
      some ((input >>> (position - width + 1).toNat) &&& mask) else none
    shiftLeftULL bits low
  | .binNum .. => some 0

/-- `GetBitField`: the bits of the instruction word that make up a value. -/
def getBitField (o : Overlay) (input : BitVec 64) : Option (BitVec 64) :=
  o.componentVec.foldlM (fun bitfield c => (bitFieldOf input c).map (bitfield ||| ·)) 0

/-- What one component adds in `WriteSimpleValueExtractor`; nothing for a constant zero. -/
def simpleValueTerm (value : Expr) : BitsOrField → Option (List Expr)
  | .binNum num position =>
    let shift := position - num.width + 1
    let literal : Expr := .lit (.dec (BitVec.ofNat 64 num.value).toInt)
    some (if num.value = 0 then [] else if shift > 0 then [shifted .shl literal shift]
      else [literal])
  | .bits high low width position => do
    let mask ← shiftLeftULL (← widthMask width) low
    let masked : Expr := .bin .and value (.lit (.hex mask.toNat))
    let diff := high - position
    return [if diff < 0 then shifted .shl masked (-diff)
      else if diff > 0 then shifted .shr masked diff else masked]

/-- The terms of `WriteSimpleValueExtractor`: the first one is assigned to the result, and the
    others are or-ed into it. -/
def writeSimpleValueExtractor (o : Overlay) (value : Expr) : Option (List Expr) :=
  (o.componentVec.mapM (simpleValueTerm value)).map List.flatten

end Overlay

end MpactSim.Decoder
