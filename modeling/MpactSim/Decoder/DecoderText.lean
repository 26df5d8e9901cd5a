import MpactSim.Decoder.EncodingGroup
import MpactSim.Lib.Ordered

namespace MpactSim.Decoder

open Cpp Lib

/-!
# The text of the emitted decoders

Every group of the tree becomes a function.  A group with subgroups looks the next function
up in a table; a leaf finds the opcode by a table of opcodes or by comparisons.

* `Line`                     — a piece of a function body, with its braces;
* `emitEncodingIfStatement`  — the comparisons for one encoding;
* `emitDecoders`             — the functions of a group and its subgroups;
* `emitInitializers`         — the tables;
* `emitDecoderCode`          — what is emitted for an instruction group.
-/

/-! ### Lines -/

/-- An opcode with its format, as they are returned. -/
structure OpcodeFormat where
  name : String
  formatName : String
  deriving DecidableEq, Repr

/-- A comparison of the emitted text. -/
structure Comparison where
  lhs : Expr
  type : ConstraintType
  rhs : Expr
  deriving DecidableEq, Repr

/-- A piece of a function body.  The conditions of an `if` are conjunctions; `none` is the pair
    of `kNone` opcode and format. -/
inductive Line where
  /-- `type name;` or `type name = value;` -/
  | declare (ty : IntTy) (name : String) (value : Option Expr)
  /-- `name = value;` -/
  | assign (name : String) (value : Expr)
  /-- `name |= value;` -/
  | orAssign (name : String) (value : Expr)
  /-- `if (condition) {` -/
  | openIf (condition : List Comparison)
  /-- `if (condition)`, for the statement that follows -/
  | bareIf (condition : List Comparison)
  /-- `} else if (condition) {` -/
  | elseIf (condition : List Comparison)
  /-- `} else {` -/
  | elseLine
  /-- `switch (name) {` -/
  | openSwitch (name : String)
  /-- `case value: {` -/
  | openCase (value : Nat)
  /-- `break;` -/
  | breakLine
  /-- `default: break;` -/
  | defaultLine
  /-- `}` -/
  | close
  /-- `return std::make_pair(opcode, format);` -/
  | ret (opcode : Option OpcodeFormat)
  /-- `static constexpr std::pair<...> opcodes[] = {...};` -/
  | opcodeTable (entries : List (Option OpcodeFormat))
  /-- `return opcodes[index];` -/
  | retEntry
  /-- `return parse_group_name[index](inst_word);` -/
  | retTable (table : String)
  /-- `auto name = callee(inst_word);`, perhaps with `.first` -/
  | declareCall (name callee : String)
  /-- `if (name != kNone) return name;`, perhaps with `.first` in the comparison -/
  | retUnlessNone (name : String)
  /-- `return name;` -/
  | retVar (name : String)
  deriving DecidableEq, Repr

/-- A decode function. -/
structure DecodeFunction where
  name : String
  body : List Line
  deriving Repr

/-- A table of decode functions. -/
structure DecodeTable where
  name : String
  entries : List String
  deriving DecidableEq, Repr

/-- The code of an instruction group. -/
structure DecoderCode where
  initializers : List DecodeTable
  functions : List DecodeFunction
  deriving Repr

/-! ### Extractions -/

/-- The variable that an operand is extracted into. -/
def Operand.valueName : Operand → String
  | .field f => f.name ++ "_value"
  | .overlay o => o.name ++ "_value"

/-- Width of an operand. -/
def Operand.width : Operand → Nat
  | .field f => f.width
  | .overlay o => o.declaredWidth

/-- `uint8_t` to `uint64_t`, for so many bits. -/
def uintType (bitwidth : Nat) : IntTy := ⟨false, 2 ^ intTypeShift bitwidth, intTypeWidth_pos bitwidth⟩

/-- Several values or-ed into a variable, as overlays and indices are. -/
def accumulate (name : String) : List Expr → List Line
  | [] => []
  | first :: rest => .assign name first :: rest.map (.orAssign name)

/-- The text of `EmitFieldExtraction` and `EmitOverlayExtraction`, in a group of `groupWidth`
    bits.  A field of a constraint has less than 64 bits. -/
def Operand.extraction (groupWidth : Nat) (operand : Operand) : List Line :=
  let ty := uintType (if operand.width > groupWidth then operand.width else groupWidth)
  match operand with
  | .field f =>
    [.declare ty (f.name ++ "_value") (some (.bin .and (shifted .shr (.var "inst_word") f.low)
      (.lit (.hex (2 ^ f.width - 1)))))]
  | .overlay o =>
    .declare ty (o.name ++ "_value") none ::
      accumulate (o.name ++ "_value") ((o.writeSimpleValueExtractor (.var "inst_word")).getD [])

/-- Extraction of the operands whose names have not been extracted, and the names after it. -/
def emitExtractions (groupWidth : Nat) : List Operand → List String → List Line × List String
  | [], extracted => ([], extracted)
  | operand :: rest, extracted =>
    if operand.valueName ∈ extracted then emitExtractions groupWidth rest extracted
    else
      let (lines, after) := emitExtractions groupWidth rest (operand.valueName :: extracted)
      (operand.extraction groupWidth ++ lines, after)

/-- The operands of a constraint, in the order of their extraction. -/
def Constraint.operands (c : Constraint) : List Operand := c.lhs :: c.rhs.toList

/-- A comparison of `EmitConstraintConditions`. -/
def Constraint.valueComparison (c : Constraint) : Comparison :=
  ⟨.var c.lhs.valueName, c.type, .lit (.hex c.value.toNat)⟩

/-- A comparison of `EmitOtherConstraintConditions`. -/
def Constraint.comparison (c : Constraint) : Comparison :=
  ⟨.var c.lhs.valueName, c.type,
    match c.rhs with
    | some rhs => .var rhs.valueName
    | none => .lit (.hex c.value.toNat)⟩

namespace GroupData

/-- `ProcessConstraint`: the bits of an equal constraint are handled by a parent or by the
    discriminator.  For an overlay the generator shifts an `int` by its width. -/
def canIgnore (g : GroupData) (extracted : List String) (c : Constraint) : Bool :=
  match c.lhs with
  | .field f =>
    f.name ++ "_value" ∉ extracted ∧
      (c.lhs.mask).any fun mask => mask &&& ~~~(g.ignore ||| g.discriminator) = 0
  | .overlay o =>
    (if o.declaredWidth < 31 then o.getBitField (2 ^ o.declaredWidth - 1) else none).any
      fun mask => mask &&& ~~~(g.ignore ||| g.discriminator) = 0

/-- The equal constraints that are not ignored. -/
def testedEquals (g : GroupData) (extracted : List String) (enc : InstructionEncoding) :
    List Constraint :=
  enc.equalConstraints.filter fun c => ¬ g.canIgnore extracted c

end GroupData

/-! ### One encoding -/

/-- The constraints of an opcode, of which `equals` are the equal ones that are tested. -/
def ConstrainedOpcode.tested (opcode : ConstrainedOpcode) (equals : List Constraint) :
    List Constraint :=
  equals ++ opcode.equalExtractedConstraints ++ opcode.otherConstraints

/-- The condition that its constraints make. -/
def ConstrainedOpcode.conditions (opcode : ConstrainedOpcode) (equals : List Constraint) :
    List Comparison :=
  (equals ++ opcode.equalExtractedConstraints).map Constraint.valueComparison ++
    opcode.otherConstraints.map Constraint.comparison

/-- The condition of a specialization, whose constraints are all tested. -/
abbrev ConstrainedOpcode.allConditions (opcode : ConstrainedOpcode) : List Comparison :=
  opcode.conditions opcode.equalConstraints

/-- The opcode and format that are returned. -/
def ConstrainedOpcode.opcodeFormat (opcode : ConstrainedOpcode) : OpcodeFormat :=
  ⟨opcode.name, opcode.formatName⟩

/-- The operands that are extracted for an encoding and its specializations. -/
def InstructionEncoding.operands (enc : InstructionEncoding) (equals : List Constraint) :
    List Operand :=
  (enc.tested equals).flatMap Constraint.operands ++
    enc.specializations.flatMap fun s => (s.tested s.equalConstraints).flatMap Constraint.operands

/-- The loop over the specializations; only the first one starts a chain. -/
def emitSpecializations : Bool → List ConstrainedOpcode → List Line
  | _, [] => []
  | first, s :: rest =>
    (if s.allConditions = [] then []
      else [if first then .openIf s.allConditions else .elseIf s.allConditions]) ++
      .ret s.opcodeFormat :: emitSpecializations false rest

/-- The statement of `EmitEncodingIfStatement`, after the extractions. -/
def emitIf (enc : InstructionEncoding) (conditions : List Comparison) : List Line :=
  let base : Line := .ret enc.opcodeFormat
  if enc.specializations = [] then
    (if conditions = [] then [] else [.bareIf conditions]) ++ [base]
  else
    (if conditions = [] then [] else [.openIf conditions]) ++
      emitSpecializations true enc.specializations ++ [.elseLine, base, .close, .close]

/-- `EmitEncodingIfStatement`: the text, the names that are extracted then, and whether the
    encoding is tested at all. -/
def emitEncodingIfStatement (groupWidth : Nat) (g : GroupData) (extracted : List String)
    (enc : InstructionEncoding) : List Line × List String × Bool :=
  let equals := g.testedEquals extracted enc
  let (extractions, extracted) := emitExtractions groupWidth (enc.operands equals) extracted
  let conditions := enc.conditions equals
  (extractions ++ emitIf enc conditions, extracted, conditions ≠ [])

/-- The statements for several encodings, and whether any of them is tested. -/
def emitIfSequence (groupWidth : Nat) (g : GroupData) :
    List String → List InstructionEncoding → List Line × Bool
  | _, [] => ([], false)
  | extracted, enc :: rest =>
    let (lines, extracted, tested) := emitEncodingIfStatement groupWidth g extracted enc
    let (restLines, restTested) := emitIfSequence groupWidth g extracted rest
    (lines ++ restLines, tested || restTested)

/-! ### One group -/

namespace GroupData

/-- The recipe of the index. -/
abbrev discriminatorRecipe (g : GroupData) : List ExtractionStep :=
  getExtractionRecipe g.discriminator

/-- The index of an encoding. -/
abbrev indexOf (g : GroupData) (enc : InstructionEncoding) : Nat :=
  (extractValue enc.value g.discriminatorRecipe).toNat

/-- The value of the first encoding. -/
def firstValue (g : GroupData) : BitVec 64 := (g.encodings.head?.map (·.value)).getD 0

/-- The test of the constant bits. -/
def constantTest (g : GroupData) : List Line :=
  if g.constant = 0 then []
  else [.bareIf [⟨.bin .and (.var "inst_word") (.lit (.hex g.constant.toNat)), .kNe,
    .lit (.hex (g.firstValue &&& g.constant).toNat)⟩], .ret none]

/-- The extraction of the index; `WriteExtraction`. -/
def indexExtraction (groupWidth : Nat) (g : GroupData) : List Line :=
  if g.discriminatorRecipe = [] then []
  else .declare (uintType groupWidth) "index" none ::
    accumulate "index" (g.discriminatorRecipe.map fun step =>
      .bin .and (shifted .shr (.var "inst_word") step.shift) (.lit (.hex step.mask.toNat)))

/-- A `case` of `EmitComplexDecoderBody`. -/
def emitCase (groupWidth : Nat) (g : GroupData) (indexValue : Nat) : List Line :=
  let (lines, tested) := emitIfSequence groupWidth g []
    (g.encodings.filter fun enc => g.indexOf enc = indexValue)
  .openCase indexValue :: lines ++ (if tested then [.breakLine] else []) ++ [.close]

/-- `EmitComplexDecoderBody` and `EmitComplexDecoderBodyIfSequence`. -/
def emitComplexDecoderBody (groupWidth : Nat) (g : GroupData) : List Line :=
  if g.discriminatorRecipe = [] then
    let (lines, tested) := emitIfSequence groupWidth g [] g.encodings
    lines ++ (if tested then [.ret none] else [])
  else
    .openSwitch "index" :: (keys (g.encodings.map g.indexOf)).flatMap (g.emitCase groupWidth) ++
      [.defaultLine, .close, .ret none]

/-- The entries of the table of opcodes: those before an encoding's index are filled. -/
def opcodeEntries (g : GroupData) (count : Nat) :
    List InstructionEncoding → Nat → List (Option OpcodeFormat)
  | [], entry => List.replicate (count - entry) none
  | enc :: rest, entry =>
    List.replicate (g.indexOf enc - entry) none ++ some enc.opcodeFormat ::
      opcodeEntries g count rest (max entry (g.indexOf enc) + 1)

/-- The body of the function of a leaf. -/
def emitLeaf (groupWidth : Nat) (g : GroupData) : List Line :=
  if g.simpleDecoding then
    match g.encodings with
    | [enc] => g.constantTest ++ [.ret enc.opcodeFormat]
    | encodings =>
      .opcodeTable (g.opcodeEntries (2 ^ popcount64 g.discriminator) encodings 0) ::
        g.constantTest ++ g.indexExtraction groupWidth ++ [.retEntry]
  else g.constantTest ++ g.indexExtraction groupWidth ++ g.emitComplexDecoderBody groupWidth

end GroupData

/-! ### The tree -/

/-- `absl::Hex`. -/
def hexText (n : Nat) : String := String.ofList (Nat.toDigits 16 n)

/-- The name of the subgroup for a value of the discriminator. -/
def subName (name : String) (value : Nat) : String := name ++ "_" ++ hexText value

mutual

/-- `EmitDecoders`. -/
def EncodingGroup.emitDecoders (groupWidth : Nat) (name : String) :
    EncodingGroup → List DecodeFunction
  | .mk data groups =>
    let body := if groups.isEmpty then data.emitLeaf groupWidth
      else data.constantTest ++ data.indexExtraction groupWidth ++ [.retTable name]
    ⟨"Decode" ++ name, body⟩ :: emitGroups groupWidth name data groups

/-- Its calls for the subgroups. -/
def emitGroups (groupWidth : Nat) (name : String) (parent : GroupData) :
    List EncodingGroup → List DecodeFunction
  | [] => []
  | g :: rest =>
    g.emitDecoders groupWidth
        (subName name (extractValue g.data.firstValue parent.discriminatorRecipe).toNat) ++
      emitGroups groupWidth name parent rest

end

/-- The entries of a table: the subgroups are in the order of their values. -/
def tableEntries (groupName name : String) : List Nat → List Nat → List String
  | _, [] => []
  | value :: values, i :: rest =>
    if value = i then ("Decode" ++ subName name i) :: tableEntries groupName name values rest
    else ("Decode" ++ groupName ++ "None") :: tableEntries groupName name (value :: values) rest
  | [], _ :: rest => ("Decode" ++ groupName ++ "None") :: tableEntries groupName name [] rest

mutual

/-- `EmitInitializers`. -/
def EncodingGroup.emitInitializers (groupName name : String) : EncodingGroup → List DecodeTable
  | .mk data groups =>
    if data.discriminatorSize = 0 then []
    else
      ⟨name, tableEntries groupName name
        (groups.map fun g => (extractValue g.data.firstValue data.discriminatorRecipe).toNat)
        (List.range data.discriminatorSize)⟩ :: initGroups groupName name data groups

/-- Its calls for the subgroups that have subgroups. -/
def initGroups (groupName name : String) (parent : GroupData) :
    List EncodingGroup → List DecodeTable
  | [] => []
  | g :: rest =>
    (if g.groups.isEmpty then [] else g.emitInitializers groupName
        (subName name (extractValue g.data.firstValue parent.discriminatorRecipe).toNat)) ++
      initGroups groupName name parent rest

end

/-- `InstructionGroupLess`, for groups without a parent. -/
def instructionGroupLess (lhs rhs : EncodingGroup) : Bool :=
  let recipe := getExtractionRecipe lhs.data.constant
  extractValue lhs.data.firstValue recipe < extractValue rhs.data.firstValue recipe

/-- The body of a top-level decoder; `opcode` is the name of its variable. -/
def topLevelBody (name opcode : String) (count : Nat) : List Line :=
  ((List.range count).flatMap fun i =>
    .declareCall opcode ("Decode" ++ subName name i) ::
      if count > 1 then [.retUnlessNone opcode] else []) ++ [.retVar opcode]

/-- The text of groups that have been sorted. -/
def emitSortedGroups (name : String) (groupWidth : Nat) (groups : List EncodingGroup) :
    DecoderCode :=
  { initializers := groups.zipIdx.flatMap fun g => g.1.emitInitializers name (subName name g.2)
    functions :=
      ⟨"Decode" ++ name ++ "None", [.ret none]⟩ ::
        groups.zipIdx.flatMap (fun g => g.1.emitDecoders groupWidth (subName name g.2)) ++
        [⟨"Decode" ++ name, topLevelBody name "opcode" groups.length⟩,
          ⟨"Decode" ++ name ++ "WithFormat", topLevelBody name "opcode_format" groups.length⟩] }

/-- `EmitDecoderCode`. -/
def emitDecoderCode (name : String) (groupWidth : Nat) (groups : List EncodingGroup) :
    DecoderCode :=
  if groups = [] then ⟨[], []⟩
  else emitSortedGroups name groupWidth
    (groups.insertionSort fun a b => ¬ instructionGroupLess b a)

end MpactSim.Decoder
