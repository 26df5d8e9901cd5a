import MpactSim.Decoder.EncodingGroup

namespace MpactSim.Decoder

open Cpp

/-!
# Instruction encodings

The constraints of an encoding are created one by one from the text of the description, and the
masks that they make up are computed when they are asked for.

* `createValueConstraint`, `createOperandConstraint` — the two versions of `CreateConstraint`;
* `EncodingState`  — the constraints so far and the cached masks;
* `EncodingState.serve` — the calls of an encoding.

`none` is an overflow, or a shift of the generator that is undefined.
-/

/-! ### Arithmetic of the generator -/

/-- `1 << k`, an `int`. -/
def oneShl (k : Int) : Option Int :=
  if 0 ≤ k ∧ k < 32 then some (IntTy.int.wrap (2 ^ k.toNat)) else none

/-- The result of an operation on `int`s. -/
def intResult (v : Int) : Option Int := if -2 ^ 31 ≤ v ∧ v < 2 ^ 31 then some v else none

/-- `value & ((1 << width) - 1)`. -/
def maskValue (width : Nat) (value : BitVec 64) : Option (BitVec 64) := do
  let mask ← intResult ((← oneShl width) - 1)
  return value &&& BitVec.ofInt 64 mask

/-! ### Creation of constraints -/

/-- The codes of the errors of `CreateConstraint`. -/
inductive ConstraintErrorCode where
  | outOfRange | notFound | invalidArgument
  deriving DecidableEq, Repr

/-- An error of `CreateConstraint`. -/
structure ConstraintError where
  code : ConstraintErrorCode
  message : String
  deriving DecidableEq, Repr

/-- What a format tells an encoding: its name, its fields and its overlays. -/
structure FormatNames where
  name : String
  getField : String → Option Field
  getOverlay : String → Option Overlay

namespace FormatNames

/-- A field is preferred to an overlay of its name. -/
def operand (names : FormatNames) (name : String) : Option Operand :=
  match names.getField name with
  | some field => some (.field field)
  | none => (names.getOverlay name).map .overlay

/-- The error for a name that is neither. -/
def notFound (names : FormatNames) (name : String) : ConstraintError :=
  ⟨.notFound, "Format '" ++ names.name ++ "' does not contain a field or overlay named " ++ name⟩

end FormatNames

/-- Fields of 64 bits are refused. -/
def tooWide (field : Field) : ConstraintError :=
  ⟨.outOfRange, "Field '" ++ field.name ++ "' is too wide to create constraint - ust be <= 64 bits"⟩

/-- The check of a value of an unsigned field. -/
def checkUnsignedField (width : Nat) (name : String) (value : BitVec 64) :
    Option (Except ConstraintError Unit) :=
  let error := ⟨.outOfRange, "Constraint value (" ++ toString value.toInt ++
    ") out of range for unsigned field '" ++ name ++ "'"⟩
  if value.toInt < 0 then some (.error error)
  else (shiftLeftULL 1 width).map fun limit =>
    if limit.toNat ≤ value.toNat then .error error else .ok ()

/-- The check of a value of an unsigned overlay; its limit is an `int`. -/
def checkUnsignedOverlay (width : Nat) (name : String) (value : BitVec 64) :
    Option (Except ConstraintError Unit) :=
  (oneShl width).map fun limit =>
    if limit ≤ value.toInt ∨ value.toInt < 0 then
      .error ⟨.outOfRange, "Constraint value exceeds field width for field '" ++ name ++ "'"⟩
    else .ok ()

/-- The check of a value of a signed field or overlay, which `what` says. -/
def checkSigned (what : String) (type : ConstraintType) (width : Nat) (name : String)
    (value : BitVec 64) : Option (Except ConstraintError Unit) :=
  let error := ⟨.outOfRange, "Constraint value (" ++ toString value.toInt ++
    ") out of range for signed " ++ what ++ " '" ++ name ++ "'"⟩
  if type ≠ .kEq ∧ type ≠ .kNe then
    some (.error ⟨.invalidArgument,
      "Only eq and ne constraints allowed on signed " ++ what ++ ": " ++ name⟩)
  else (oneShl (width - 1)).bind fun limit =>
    if value.toInt < 0 then
      (intResult (-limit)).map fun minValue =>
        if value.toInt < minValue then .error error else .ok ()
    else some (if limit ≤ value.toInt then .error error else .ok ())

/-- The end of `CreateConstraint`: a constraint is made if the check has been passed. -/
def makeConstraint (check : Option (Except ConstraintError Unit)) (stored : Option (BitVec 64))
    (make : BitVec 64 → Constraint) : Option (Except ConstraintError Constraint) :=
  check.bind fun r =>
    match r with
    | .error e => some (.error e)
    | .ok () => stored.map fun value => .ok (make value)

/-- `CreateConstraint` with a value. -/
def createValueConstraint (names : FormatNames) (type : ConstraintType) (name : String)
    (value : BitVec 64) : Option (Except ConstraintError Constraint) :=
  match names.getField name with
  | some field =>
    if 64 ≤ field.width then some (.error (tooWide field))
    else
      makeConstraint
        (if field.isSigned then checkSigned "field" type field.width name value
          else checkUnsignedField field.width name value)
        (maskValue field.width value) fun value => ⟨type, .field field, none, value⟩
  | none =>
    match names.getOverlay name with
    | none => some (.error (names.notFound name))
    | some overlay =>
      let width := overlay.computedWidth
      -- A negative value is masked once more.
      makeConstraint
        (if overlay.isSigned then checkSigned "overlay" type width name value
          else checkUnsignedOverlay width name value)
        ((if overlay.isSigned ∧ value.toInt < 0 then maskValue width value else some value).bind
          (maskValue width)) fun value => ⟨type, .overlay overlay, none, value⟩

/-- One side of `CreateConstraint` with two names. -/
def constraintSide (names : FormatNames) (name : String) : Except ConstraintError Operand :=
  match names.getField name with
  | some field => if 64 ≤ field.width then .error (tooWide field) else .ok (.field field)
  | none =>
    match names.getOverlay name with
    | none => .error (names.notFound name)
    | some overlay => .ok (.overlay overlay)

/-- `CreateConstraint` with two names.  The value is left as it is and never read. -/
def createOperandConstraint (names : FormatNames) (type : ConstraintType)
    (lhsName rhsName : String) : Except ConstraintError Constraint := do
  let lhs ← constraintSide names lhsName
  let rhs ← constraintSide names rhsName
  return ⟨type, lhs, some rhs, 0⟩

/-! ### The calls of an encoding -/

/-- The constraints of an `InstructionEncoding`, and its masks with the flag that they are set. -/
structure EncodingState where
  equalConstraints : List Constraint
  equalExtractedConstraints : List Constraint
  otherConstraints : List Constraint
  maskSet : Bool
  mask : BitVec 64
  otherMask : BitVec 64
  extractedMask : BitVec 64
  value : BitVec 64
  deriving DecidableEq, Repr

/-- The call of an encoding. -/
inductive EncodingCall where
  | addEqualConstraint (name : String) (value : BitVec 64)
  | addOtherConstraint (type : ConstraintType) (name : String) (value : BitVec 64)
  | addOtherOperands (type : ConstraintType) (lhsName rhsName : String)
  | getMask
  | getValue
  | getCombinedMask
  deriving DecidableEq, Repr

/-- What a call returns: a status, or a mask or value. -/
inductive EncodingReply where
  | status (status : Except ConstraintError Unit)
  | bits (bits : BitVec 64)

/-- Whether an equal constraint is tested with the value that is extracted. -/
def Constraint.mustBeExtracted (c : Constraint) : Bool :=
  match c.lhs with
  | .field _ => false
  | .overlay o => o.mustBeExtracted

namespace EncodingState

/-- A new encoding. -/
def init : EncodingState := ⟨[], [], [], false, 0, 0, 0, 0⟩

/-- `AddEqualConstraint`.  The flag is cleared even if the constraint is refused. -/
def addEqualConstraint (names : FormatNames) (s : EncodingState) (name : String)
    (value : BitVec 64) : Option (EncodingState × Except ConstraintError Unit) := do
  let s := { s with maskSet := false }
  match ← createValueConstraint names .kEq name value with
  | .error e => return (s, .error e)
  | .ok c =>
    return (if c.mustBeExtracted = true
      then { s with equalExtractedConstraints := s.equalExtractedConstraints ++ [c] }
      else { s with equalConstraints := s.equalConstraints ++ [c] }, .ok ())

/-- The end of both versions of `AddOtherConstraint`.  The flag stays as it is. -/
def pushOther (s : EncodingState) : Except ConstraintError Constraint →
    EncodingState × Except ConstraintError Unit
  | .error e => (s, .error e)
  | .ok c => ({ s with otherConstraints := s.otherConstraints ++ [c] }, .ok ())

/-- `AddOtherConstraint` with a value. -/
def addOtherConstraint (names : FormatNames) (s : EncodingState) (type : ConstraintType)
    (name : String) (value : BitVec 64) : Option (EncodingState × Except ConstraintError Unit) :=
  (createValueConstraint names type name value).map s.pushOther

/-- `AddOtherConstraint` with two names. -/
def addOtherOperands (names : FormatNames) (s : EncodingState) (type : ConstraintType)
    (lhsName rhsName : String) : EncodingState × Except ConstraintError Unit :=
  s.pushOther (createOperandConstraint names type lhsName rhsName)

/-- What the right side adds to the mask of the other constraints: the mask of the left side is
    cut down to it, and for a field shifted. -/
def rhsMask (mask : BitVec 64) : Operand → Option (BitVec 64)
  | .field f => do shiftLeftULL (mask &&& (← widthMask f.width)) f.low
  | .overlay o => do return mask &&& (← o.mask)

/-- The equal constraints in `ComputeMaskAndValue`: mask and value so far.  The value is or-ed
    into the one of the encoding. -/
def equalLoop (constraints : List Constraint) (r : BitVec 64 × BitVec 64) :
    Option (BitVec 64 × BitVec 64) :=
  constraints.foldlM (fun r c => do
    let mask ← c.lhs.mask
    let value ← c.lhs.bits c.value
    return (r.1 ||| mask, r.2 ||| (mask &&& value))) r

/-- The equal constraints that must be extracted. -/
def extractedLoop (constraints : List Constraint) : Option (BitVec 64) :=
  constraints.foldlM (fun r c => do return r ||| (← c.lhs.mask)) 0

/-- The other constraints. -/
def otherLoop (constraints : List Constraint) : Option (BitVec 64) :=
  constraints.foldlM (fun r c => do
    let mask ← c.lhs.mask
    match c.rhs with
    | none => return r ||| mask
    | some rhs => return r ||| mask ||| (← rhsMask mask rhs)) 0

/-- `ComputeMaskAndValue`. -/
def computeMaskAndValue (s : EncodingState) : Option EncodingState := do
  let (mask, value) ← equalLoop s.equalConstraints (0, s.value)
  let extracted ← extractedLoop s.equalExtractedConstraints
  let other ← otherLoop s.otherConstraints
  return { s with
    maskSet := true, mask := mask, value := value, extractedMask := extracted, otherMask := other }

/-- The masks are computed unless they are set. -/
def update (s : EncodingState) : Option EncodingState :=
  if s.maskSet then some s else s.computeMaskAndValue

/-- `GetMask`. -/
def getMask (s : EncodingState) : Option (EncodingState × BitVec 64) :=
  s.update.map fun s => (s, s.mask)

/-- `GetValue`. -/
def getValue (s : EncodingState) : Option (EncodingState × BitVec 64) :=
  s.update.map fun s => (s, s.value)

/-- `GetCombinedMask`. -/
def getCombinedMask (s : EncodingState) : Option (EncodingState × BitVec 64) :=
  s.update.map fun s => (s, s.mask ||| s.extractedMask ||| s.otherMask)

/-- Serve a call. -/
def serve (names : FormatNames) (s : EncodingState) : EncodingCall →
    Option (EncodingState × EncodingReply)
  | .addEqualConstraint name value =>
    (s.addEqualConstraint names name value).map fun r => (r.1, .status r.2)
  | .addOtherConstraint type name value =>
    (s.addOtherConstraint names type name value).map fun r => (r.1, .status r.2)
  | .addOtherOperands type lhsName rhsName =>
    let r := s.addOtherOperands names type lhsName rhsName
    some (r.1, .status r.2)
  | .getMask => s.getMask.map fun r => (r.1, .bits r.2)
  | .getValue => s.getValue.map fun r => (r.1, .bits r.2)
  | .getCombinedMask => s.getCombinedMask.map fun r => (r.1, .bits r.2)

end EncodingState

end MpactSim.Decoder
