import MpactSim.Decoder.AccessorArithmetic
import MpactSim.Decoder.DecoderTables
import MpactSim.Decoder.Inheritance

namespace MpactSim.Decoder

open Cpp Lib Overlay

/-!
# Arithmetic of the generator

Everything that the generator shifts, counts and divides for a description, from the accessors of
its formats to the text of the decoder.

* `checkedIndex`, `checkedIndex_eq` — the shifts of an extraction recipe are always defined;
* `DecodeTable.text`       — a table as it is laid out in lines;
* `processConstraint`, `extractionText` — the tests of a decoder;
* `Description`            — formats and an instruction group that are accepted;
* `arithmeticDefined_iff`  — the descriptions for which all arithmetic is defined.
-/

/-! ### Recipes -/

/-- The loop of `GetExtractionRecipe`, with its shift by the number of bits so far checked. -/
def checkedRecipeLoop :
    Nat → BitVec 64 → BitVec 64 → Nat → Nat → Nat → Option (List ExtractionStep)
  | 0, _, mask, shift, width, total =>
    if mask ≠ 0 then (shiftLeftULL mask total).map fun m => [⟨m, shift - width - total⟩]
    else some []
  | left + 1, value, mask, shift, width, total =>
    if value = 0 then
      if mask ≠ 0 then (shiftLeftULL mask total).map fun m => [⟨m, shift - width - total⟩]
      else some []
    else if value.getLsbD 0 then
      checkedRecipeLoop left (value >>> 1) ((mask <<< 1) ||| 1) (shift + 1) (width + 1) total
    else if mask ≠ 0 then do
      let m ← shiftLeftULL mask total
      let rest ← checkedRecipeLoop left (value >>> 1) 0 (shift + 1) 0 (total + width)
      return ⟨m, shift - width - total⟩ :: rest
    else checkedRecipeLoop left (value >>> 1) 0 (shift + 1) 0 total

/-- `GetExtractionRecipe` and `ExtractValue`, with their shifts checked. -/
def checkedIndex (mask value : BitVec 64) : Option (BitVec 64) := do
  let recipe ← checkedRecipeLoop 64 mask 0 0 0 0
  recipe.foldlM (fun extracted step =>
    (shiftRightULL value step.shift).map fun bits => extracted ||| (bits &&& step.mask)) 0

/-- A run of ones that is read is not empty, so the bits before it are less than 64. -/
theorem checkedRecipeLoop_eq {left : Nat} {value mask : BitVec 64} {shift width total : Nat}
    (hbits : total + width ≤ shift) (hleft : shift + left ≤ 64) (hmask : mask ≠ 0 → 0 < width) :
    checkedRecipeLoop left value mask shift width total =
      some (recipeLoop left value mask shift width total) := by
  have hshift : mask ≠ 0 → shiftLeftULL mask total = some (mask <<< total) := by
    intro hne
    have hpos := hmask hne
    exact if_pos (show (0 : Int) ≤ total ∧ (total : Int) < 64 by omega)
  induction left generalizing value mask shift width total with
  | zero =>
    rw [checkedRecipeLoop, recipeLoop]
    split
    · rw [hshift ‹_›]
      rfl
    · rfl
  | succ left ih =>
    rw [checkedRecipeLoop, recipeLoop]
    split
    · split
      · rw [hshift ‹_›]
        rfl
      · rfl
    · split
      · refine ih (by omega) (by omega) (fun _ => by omega) fun _ => ?_
        exact if_pos (show (0 : Int) ≤ total ∧ (total : Int) < 64 by omega)
      · split
        · rw [hshift ‹_›, ih (by omega) (by omega) (fun h => absurd rfl h) (fun h => absurd rfl h)]
          rfl
        · exact ih (by omega) (by omega) (fun h => absurd rfl h) (fun h => absurd rfl h)

/-- **Indices.** No shift of a recipe or of an extraction is by 64 or more. -/
theorem checkedIndex_eq (mask value : BitVec 64) :
    checkedIndex mask value = some (extractValue value (getExtractionRecipe mask)) := by
  have hrecipe : checkedRecipeLoop 64 mask 0 0 0 0 = some (getExtractionRecipe mask) :=
    checkedRecipeLoop_eq (le_refl _) (le_refl _) fun h => absurd rfl h
  rw [checkedIndex, hrecipe, extractValue]
  show (getExtractionRecipe mask).foldlM _ 0 = _
  have hsteps : ∀ s ∈ getExtractionRecipe mask, s.shift < 64 := fun s hs => shift_lt_of_mem hs
  generalize getExtractionRecipe mask = recipe at hsteps
  generalize (0 : BitVec 64) = extracted
  induction recipe generalizing extracted with
  | nil => rfl
  | cons step rest ih =>
    obtain ⟨hstep, hrest⟩ := List.forall_mem_cons.mp hsteps
    have hshift : shiftRightULL value step.shift = some (value >>> step.shift) :=
      if_pos (show (0 : Int) ≤ step.shift ∧ (step.shift : Int) < 64 by omega)
    rw [List.foldlM_cons, hshift, List.foldl_cons]
    exact ih hrest _

/-! ### Tables -/

/-- The lines of a table in `EmitInitializers`.  The number of entries on a line depends on the
    name; it is used as a divisor for every entry. -/
def DecodeTable.text (t : DecodeTable) : Option String :=
  let perLine := 76 / (8 + t.name.utf8ByteSize + 1 + 2 + 2)
  if perLine = 0 ∧ t.entries ≠ [] then none
  else some (String.join (t.entries.zipIdx.map fun entry =>
    (if entry.2 % perLine = 0 then "   " else "") ++ " &" ++ entry.1 ++ "," ++
      if entry.2 % perLine = perLine - 1 then "\n" else ""))

theorem DecodeTable.isSome_text_iff {t : DecodeTable} (hne : t.entries ≠ []) :
    t.text.isSome = true ↔ t.name.utf8ByteSize ≤ 63 := by
  have hline : 76 / (8 + t.name.utf8ByteSize + 1 + 2 + 2) = 0 ↔ ¬ t.name.utf8ByteSize ≤ 63 := by
    rw [Nat.div_eq_zero_iff]
    omega
  unfold DecodeTable.text
  by_cases hsize : t.name.utf8ByteSize ≤ 63 <;> simp [hline, hne, hsize]

theorem length_tableEntries (groupName name : String) (values indices : List Nat) :
    (tableEntries groupName name values indices).length = indices.length := by
  induction indices generalizing values with
  | nil => cases values <;> rfl
  | cons i rest ih =>
    cases values with
    | nil => rw [tableEntries, List.length_cons, List.length_cons, ih]
    | cons value values =>
      rw [tableEntries]
      split <;> rw [List.length_cons, List.length_cons, ih]

/-! ### Tests -/

/-- `ProcessConstraint`. -/
def GroupData.processConstraint (g : GroupData) (extracted : List String) (c : Constraint) :
    Option Bool :=
  match c.lhs with
  | .field f =>
    if f.name ++ "_value" ∈ extracted then some false
    else (c.lhs.mask).map fun mask => decide (mask &&& ~~~(g.ignore ||| g.discriminator) = 0)
  | .overlay o => do
    let ones ← intResult ((← oneShl o.declaredWidth) - 1)
    let mask ← o.getBitField (BitVec.ofInt 64 ones)
    return decide (mask &&& ~~~(g.ignore ||| g.discriminator) = 0)

theorem allOnes_eq {width : Nat} (h : width ≤ 30) :
    (do intResult ((← oneShl width) - 1)) = some (2 ^ width - 1) := by
  have hle : (2 : Int) ^ width ≤ 2 ^ 30 := by exact_mod_cast Nat.pow_le_pow_right two_pos h
  have hpos : (0 : Int) < 2 ^ width := by positivity
  rw [oneShl_eq rfl h]
  exact if_pos ⟨by omega, by omega⟩

/-- `EmitFieldExtraction` and `EmitOverlayExtraction`. -/
def Operand.extractionText (groupWidth : Nat) (operand : Operand) : Option (List Line) :=
  let ty := uintType (if operand.width > groupWidth then operand.width else groupWidth)
  match operand with
  | .field f => (widthMask f.width).map fun mask =>
    [.declare ty (f.name ++ "_value") (some (.bin .and (shifted .shr (.var "inst_word") f.low)
      (.lit (.hex mask.toNat))))]
  | .overlay o => (o.writeSimpleValueExtractor (.var "inst_word")).map fun terms =>
    .declare ty (o.name ++ "_value") none :: accumulate (o.name ++ "_value") terms

theorem Operand.isSome_extractionText_iff {groupWidth : Nat} {operand : Operand} :
    (operand.extractionText groupWidth).isSome = true ↔ match operand with
      | .field f => f.width < 64
      | .overlay o => ∀ c ∈ o.componentVec, (maskOf c).isSome = true := by
  unfold Operand.extractionText
  cases operand with
  | field f => exact Option.isSome_map.symm ▸ isSome_widthMask
  | overlay o => exact Option.isSome_map.symm ▸ isSome_writeSimpleValueExtractor

/-! ### Descriptions -/

/-- A constraint of the description: with a value, or with a second operand. -/
inductive ConstraintText where
  | value (type : ConstraintType) (name : String) (value : BitVec 64)
  | operands (type : ConstraintType) (lhsName rhsName : String)

namespace ConstraintText

/-- `CreateConstraint`. -/
def create (names : FormatNames) :
    ConstraintText → Option (Except ConstraintError Constraint)
  | value type name v => createValueConstraint names type name v
  | operands type lhsName rhsName => some (createOperandConstraint names type lhsName rhsName)

/-- The operands that it names. -/
def mentioned (names : FormatNames) : ConstraintText → List Operand
  | value _ name _ => (names.operand name).toList
  | operands _ lhsName rhsName => (names.operand lhsName).toList ++ (names.operand rhsName).toList

/-- The operand that is compared with a value. -/
def valueOperand (names : FormatNames) : ConstraintText → Option Operand
  | value _ name _ => names.operand name
  | operands .. => none

/-- The constraint that it creates. -/
def created (names : FormatNames) (text : ConstraintText) : Option Constraint :=
  (text.create names).bind Except.toOption

end ConstraintText

/-- The constraints of an opcode, none of which is refused, and the names that its format has. -/
structure OpcodeText (getFormat : String → Option Nat) where
  name : String
  format : AcceptedFormat getFormat
  narrow : format.format.declaredWidth ≤ 64
  names : FormatNames
  names_of : names.Of format.format format.placed
  equal : List (String × BitVec 64)
  other : List ConstraintText
  accepted : ∀ text ∈ equal.map (fun r => .value .kEq r.1 r.2) ++ other,
    ∀ e, text.create names ≠ some (.error e)

namespace OpcodeText

variable {getFormat : String → Option Nat}

/-- The equal constraints. -/
def equalTexts (t : OpcodeText getFormat) : List ConstraintText :=
  t.equal.map fun r => .value .kEq r.1 r.2

/-- All constraints. -/
def texts (t : OpcodeText getFormat) : List ConstraintText := t.equalTexts ++ t.other

/-- The opcode with the constraints that are created. -/
def opcode (t : OpcodeText getFormat) : ConstrainedOpcode :=
  let equals := t.equalTexts.filterMap (·.created t.names)
  { name := t.name
    formatName := t.format.format.name
    equalConstraints := equals.filter fun c => ¬ c.mustBeExtracted
    equalExtractedConstraints := equals.filter fun c => c.mustBeExtracted
    otherConstraints := t.other.filterMap (·.created t.names) }

/-- Its constraints before its masks are computed. -/
def state (t : OpcodeText getFormat) : EncodingState :=
  { EncodingState.init with
    equalConstraints := t.opcode.equalConstraints
    equalExtractedConstraints := t.opcode.equalExtractedConstraints
    otherConstraints := t.opcode.otherConstraints }

/-- All its constraints are created without undefined arithmetic. -/
def Created (t : OpcodeText getFormat) : Prop :=
  ∀ text ∈ t.texts, (text.create t.names).isSome

/-- The extractions for its tests are written without an undefined shift. -/
def Extracted (groupWidth : Nat) (t : OpcodeText getFormat) : Prop :=
  ∀ c ∈ t.state.constraints, ∀ operand ∈ c.operands, (operand.extractionText groupWidth).isSome

/-- It is decided without undefined arithmetic which of its constraints are tested, whatever group
    it is in. -/
def Processed (t : OpcodeText getFormat) : Prop :=
  ∀ (g : GroupData) (extracted : List String), ∀ c ∈ t.opcode.equalConstraints,
    (g.processConstraint extracted c).isSome

end OpcodeText

/-- A component whose accessors are emitted, by its format or by a base of the same width. -/
structure EmittedComponent (getFormat : String → Option Nat) where
  emitter : Format
  owner : AcceptedFormat getFormat
  component : FieldOrFormat
  mem : component ∈ owner.placed
  sameWidth : emitter.declaredWidth = owner.format.declaredWidth
  narrow : owner.format.declaredWidth ≤ 64
  narrowComponent : component.width ≤ 64

/-- Formats of at most 64 bits and an instruction group, as the generator accepts them. -/
structure Description (getFormat : String → Option Nat) where
  formats : List (AcceptedFormat getFormat)
  narrow : ∀ f ∈ formats, f.format.declaredWidth ≤ 64
  components : List (EmittedComponent getFormat)
  name : String
  width : Nat
  opcodes : List (OpcodeText getFormat)
  specializations : List (OpcodeText getFormat)

namespace Description

variable {getFormat : String → Option Nat}

/-- The encodings of the instruction group. -/
def encodings (d : Description getFormat) : Option (List InstructionEncoding) :=
  d.opcodes.mapM fun t => newEncoding t.opcode

/-- Its groups. -/
def groups (d : Description getFormat) : Option (List EncodingGroup) :=
  d.encodings.bind processEncodings

/-- The generator shifts by less than the width of the operand, its table and mask sizes are
    representable, and it does not divide by zero. -/
structure ArithmeticDefined (d : Description getFormat) : Prop where
  accessors : ∀ c ∈ d.components, c.emitter.AccessorsDefined c.component
  overlays : ∀ f ∈ d.formats, ∀ o ∈ f.overlays,
    o.overlay.Computed (typeOf false f.format.declaredWidth)
  constraints : ∀ t ∈ d.opcodes ++ d.specializations, t.Created
  masks : ∀ t ∈ d.opcodes, t.state.computeMaskAndValue.isSome
  tables : ∃ groups, d.groups = some groups ∧
    ∀ t ∈ (emitDecoderCode d.name d.width groups).initializers, t.text.isSome
  processed : ∀ t ∈ d.opcodes, t.Processed
  extracted : ∀ t ∈ d.opcodes ++ d.specializations, t.Extracted d.width
  indices : ∀ mask value, (checkedIndex mask value).isSome

/-- The bounds that the arithmetic needs. -/
structure WithinBounds (d : Description getFormat) : Prop where
  components : ∀ c ∈ d.components, c.component.Narrow
  overlays : ∀ f ∈ d.formats, ∀ o ∈ f.overlays, ∀ c ∈ o.overlay.componentVec, c.InWord
  values : ∀ t ∈ d.opcodes ++ d.specializations, ∀ text ∈ t.texts,
    ∀ operand ∈ text.valueOperand t.names, operand.Comparable
  operands : ∀ t ∈ d.opcodes, ∀ text ∈ t.texts, ∀ operand ∈ text.mentioned t.names, operand.Narrow
  specialized : ∀ t ∈ d.specializations, ∀ text ∈ t.texts, ∀ o,
    .overlay o ∈ text.mentioned t.names → ∀ c ∈ o.componentVec, c.InWord
  countable : ∀ encodings, d.encodings = some encodings → CountableValues encodings
  names : ∀ groups, d.groups = some groups →
    ∀ t ∈ (emitDecoderCode d.name d.width groups).initializers, t.name.utf8ByteSize ≤ 63

end Description

/-! ### The constraints of an opcode -/

namespace ConstraintText

variable {names : FormatNames} {text : ConstraintText} {c : Constraint}

theorem created_eq_some_iff : text.created names = some c ↔ text.create names = some (.ok c) := by
  rw [created]
  cases text.create names with
  | none => simp
  | some r => cases r <;> simp [Except.toOption]

theorem operands_of_create (h : text.create names = some (.ok c)) :
    c.operands = text.mentioned names := by
  cases text with
  | value type name v =>
    obtain ⟨hlhs, hrhs, -⟩ := createValueConstraint_ok h
    rw [Constraint.operands, mentioned, hlhs, hrhs]
    rfl
  | operands type lhsName rhsName =>
    obtain ⟨hlhs, -, rhs, hrhs, hname⟩ :=
      EncodingState.createOperandConstraint_ok (Option.some.inj h)
    rw [Constraint.operands, mentioned, hlhs, hrhs, hname]
    rfl

theorem field_lt_of_create (h : text.create names = some (.ok c)) {f : Field}
    (hf : .field f ∈ c.operands) : f.width < 64 := by
  have hside : ∀ {name : String} {f : Field}, constraintSide names name = .ok (.field f) →
      f.width < 64 := by
    intro name f hside
    rw [constraintSide] at hside
    cases hfield : names.getField name with
    | some field =>
      simp only [hfield] at hside
      split at hside
      · cases hside
      · cases hside
        omega
    | none =>
      simp only [hfield] at hside
      cases hoverlay : names.getOverlay name <;> simp [hoverlay] at hside
  cases text with
  | value type name v =>
    obtain ⟨-, hrhs, hwidth⟩ := createValueConstraint_ok h
    rw [Constraint.operands, hrhs] at hf
    rw [← List.mem_singleton.mp hf] at hwidth
    exact lt_trans hwidth (by decide)
  | operands type lhsName rhsName =>
    obtain ⟨lhs, hlhs, h⟩ := bind_eq_ok.mp (Option.some.inj h)
    obtain ⟨rhs, hrhs, h⟩ := bind_eq_ok.mp h
    cases h
    rcases List.mem_cons.mp hf with rfl | hf
    · exact hside hlhs
    · rw [← List.mem_singleton.mp hf] at hrhs
      exact hside hrhs

end ConstraintText

namespace OpcodeText

variable {getFormat : String → Option Nat} {t : OpcodeText getFormat}

theorem mem_constraints_iff {c : Constraint} :
    c ∈ t.state.constraints ↔ ∃ text ∈ t.texts, text.create t.names = some (.ok c) := by
  simp only [EncodingState.constraints, state, opcode, texts, List.mem_append, List.mem_filter,
    List.mem_filterMap, ConstraintText.created_eq_some_iff]
  grind

theorem of_mentioned {text : ConstraintText} {operand : Operand}
    (h : operand ∈ text.mentioned t.names) : operand.Of t.format.format t.format.placed := by
  have hname : ∀ {name}, operand ∈ (t.names.operand name).toList →
      operand.Of t.format.format t.format.placed := fun hop =>
    t.names_of.operand (Option.mem_toList.mp hop)
  cases text with
  | value type name v => exact hname h
  | operands type lhsName rhsName => exact (List.mem_append.mp h).elim hname hname

theorem created_iff : t.Created ↔ ∀ text ∈ t.texts, ∀ operand ∈ text.valueOperand t.names,
    operand.Comparable := by
  refine forall₂_congr fun text htext => ?_
  have haccepted := t.accepted text htext
  cases text with
  | operands type lhsName rhsName => simp [ConstraintText.create, ConstraintText.valueOperand]
  | value type name v =>
    cases hop : t.names.operand name with
    | none =>
      -- A name that the format does not have is refused.
      refine absurd ?_ (haccepted (t.names.notFound name))
      rw [FormatNames.operand] at hop
      rw [ConstraintText.create, createValueConstraint]
      cases hfield : t.names.getField name with
      | some field => simp [hfield] at hop
      | none =>
        rw [hfield, Option.map_eq_none_iff] at hop
        simp [hop]
    | some operand =>
      simp only [ConstraintText.valueOperand, hop, Option.mem_some_iff, forall_eq']
      exact isSome_createValueConstraint_iff haccepted hop

theorem forall_operands_iff (h : t.Created) {P : Operand → Prop} :
    (∀ c ∈ t.state.constraints, ∀ operand ∈ c.operands, P operand) ↔
      ∀ text ∈ t.texts, ∀ operand ∈ text.mentioned t.names, P operand := by
  constructor
  · intro hall text htext operand hop
    obtain ⟨r, hr⟩ := Option.isSome_iff_exists.mp (h text htext)
    cases r with
    | error e => exact absurd hr (t.accepted text htext e)
    | ok c =>
      refine hall c (mem_constraints_iff.mpr ⟨text, htext, hr⟩) operand ?_
      rw [ConstraintText.operands_of_create hr]
      exact hop
  · intro hall c hc operand hop
    obtain ⟨text, htext, hr⟩ := mem_constraints_iff.mp hc
    rw [ConstraintText.operands_of_create hr] at hop
    exact hall text htext operand hop

theorem constraints_of : ∀ c ∈ t.state.constraints, ∀ operand ∈ c.operands,
    operand.Of t.format.format t.format.placed := by
  intro c hc operand hop
  obtain ⟨text, -, hr⟩ := mem_constraints_iff.mp hc
  rw [ConstraintText.operands_of_create hr] at hop
  exact of_mentioned hop

theorem equal_of_mem {c : Constraint}
    (hc : c ∈ t.opcode.equalConstraints ++ t.opcode.equalExtractedConstraints) :
    c ∈ t.state.constraints ∧ ∃ name value,
      createValueConstraint t.names .kEq name value = some (.ok c) ∧
        .value .kEq name value ∈ t.texts := by
  refine ⟨List.mem_append_left _ hc, ?_⟩
  have hmem : c ∈ t.equalTexts.filterMap (·.created t.names) := by
    rcases List.mem_append.mp hc with hc | hc <;> exact (List.mem_filter.mp hc).1
  obtain ⟨text, htext, hcreated⟩ := List.mem_filterMap.mp hmem
  obtain ⟨r, -, rfl⟩ := List.mem_map.mp htext
  exact ⟨r.1, r.2, ConstraintText.created_eq_some_iff.mp hcreated, List.mem_append_left _ htext⟩

theorem isSome_masks_iff (h : t.Created) : t.state.computeMaskAndValue.isSome = true ↔
    ∀ text ∈ t.texts, ∀ operand ∈ text.mentioned t.names, operand.Narrow := by
  rw [isSome_computeMaskAndValue_iff t.format.accepted t.narrow constraints_of]
  · exact forall_operands_iff h
  · intro c hc
    obtain ⟨-, name, value, hcreate, -⟩ := equal_of_mem hc
    exact (createValueConstraint_ok hcreate).2.1

theorem extracted_iff (h : t.Created) (groupWidth : Nat) : t.Extracted groupWidth ↔
    ∀ text ∈ t.texts, ∀ o, .overlay o ∈ text.mentioned t.names →
      ∀ c ∈ o.componentVec, c.InWord := by
  have hoperands := forall_operands_iff (t := t) h
    (P := fun operand => ∀ o, operand = .overlay o → ∀ c ∈ o.componentVec, c.InWord)
  have hmentioned : (∀ text ∈ t.texts, ∀ operand ∈ text.mentioned t.names,
      ∀ o, operand = .overlay o → ∀ c ∈ o.componentVec, c.InWord) ↔
      ∀ text ∈ t.texts, ∀ o, .overlay o ∈ text.mentioned t.names →
        ∀ c ∈ o.componentVec, c.InWord := by
    refine forall₂_congr fun text _ => ⟨fun hall o ho => hall _ ho o rfl, ?_⟩
    rintro hall operand hop o rfl
    exact hall o hop
  rw [← hmentioned, ← hoperands]
  refine forall₂_congr fun c hc => forall₂_congr fun operand hop => ?_
  rw [Operand.isSome_extractionText_iff]
  cases operand with
  | field f =>
    obtain ⟨text, -, hr⟩ := mem_constraints_iff.mp hc
    exact iff_of_true (ConstraintText.field_lt_of_create hr hop) fun o ho => nomatch ho
  | overlay o =>
    have hplaced := placed_of_operand (constraints_of c hc _ hop) t.format.accepted
    dsimp only
    rw [Overlay.isSome_masks_iff hplaced t.narrow]
    exact ⟨fun hword o' ho' => (Operand.overlay.inj ho') ▸ hword, fun hall => hall o rfl⟩

/-- Narrow operands that are comparable are processed without undefined arithmetic. -/
theorem processed_of (hcreated : t.Created)
    (hnarrow : ∀ text ∈ t.texts, ∀ operand ∈ text.mentioned t.names, operand.Narrow) :
    t.Processed := by
  intro g extracted c hc
  obtain ⟨hmem, name, value, hcreate, htext⟩ := equal_of_mem (List.mem_append_left _ hc)
  have hlhs := constraints_of c hmem _ List.mem_cons_self
  have hmask : c.lhs.mask.isSome = true := by
    rw [isSome_operandMask_iff t.format.accepted t.narrow hlhs]
    exact (forall_operands_iff hcreated).mpr hnarrow c hmem _ List.mem_cons_self
  obtain ⟨hop, -, -⟩ := createValueConstraint_ok hcreate
  have hcomparable := created_iff.mp hcreated _ htext c.lhs hop
  unfold GroupData.processConstraint
  cases hoperand : c.lhs with
  | field f =>
    rw [hoperand] at hmask
    dsimp only
    split
    · rfl
    · rw [Option.isSome_map]
      exact hmask
  | overlay o =>
    rw [hoperand] at hmask hlhs hcomparable
    have hwidth : o.declaredWidth ≤ 30 := by
      rw [hlhs.2.1]
      exact hcomparable.1
    have hones := allOnes_eq hwidth
    have hbits := isSome_bits t.format.accepted t.narrow hlhs hmask
      (BitVec.ofInt 64 (2 ^ o.declaredWidth - 1))
    obtain ⟨mask, hbits⟩ := Option.isSome_iff_exists.mp hbits
    have hbits : o.getBitField (BitVec.ofInt 64 (2 ^ o.declaredWidth - 1)) = some mask := hbits
    simp only [Option.bind_eq_bind] at hones ⊢
    rw [← Option.bind_assoc, hones, Option.bind_some, hbits]
    rfl

end OpcodeText

/-! ### The instruction group -/

theorem isSome_newEncoding {getFormat : String → Option Nat} {t : OpcodeText getFormat}
    (h : t.state.computeMaskAndValue.isSome = true) : (newEncoding t.opcode).isSome = true := by
  obtain ⟨s, hs⟩ := Option.isSome_iff_exists.mp h
  obtain ⟨r, hr, -⟩ := Option.bind_eq_some_iff.mp hs
  have hr : computeMaskAndValue t.opcode.equalConstraints = some r := hr
  rw [newEncoding, hr]
  rfl

theorem entries_ne_nil {name : String} {groupWidth : Nat} {encodings : List InstructionEncoding}
    {groups : List EncodingGroup} (h : processEncodings encodings = some groups) {t : DecodeTable}
    (ht : t ∈ (emitDecoderCode name groupWidth groups).initializers) : t.entries ≠ [] := by
  unfold emitDecoderCode at ht
  split at ht
  · cases ht
  · obtain ⟨g, hg, ht⟩ := List.mem_flatMap.mp ht
    have htree : g.1 ∈ groups :=
      (List.perm_insertionSort _ _).subset (List.fst_mem_of_mem_zipIdx hg)
    obtain ⟨path, node, -, rfl, hsize⟩ := EncodingGroup.exists_of_mem_emitInitializers
      (processEncodings_spec h htree).1 ht
    refine List.ne_nil_of_length_pos ?_
    rw [EncodingGroup.table, length_tableEntries, List.length_range]
    exact Nat.pos_of_ne_zero hsize

namespace Description

variable {getFormat : String → Option Nat} {d : Description getFormat}

/-- The tables are laid out if the values of every group can be counted and no name is too long. -/
theorem tables_iff (hmasks : ∀ t ∈ d.opcodes, t.state.computeMaskAndValue.isSome = true) :
    (∃ groups, d.groups = some groups ∧
      ∀ t ∈ (emitDecoderCode d.name d.width groups).initializers, t.text.isSome = true) ↔
    (∀ encodings, d.encodings = some encodings → CountableValues encodings) ∧
      ∀ groups, d.groups = some groups →
        ∀ t ∈ (emitDecoderCode d.name d.width groups).initializers, t.name.utf8ByteSize ≤ 63 := by
  have hencodings : d.encodings.isSome = true :=
    isSome_mapM_iff.mpr fun t ht => isSome_newEncoding (hmasks t ht)
  obtain ⟨encodings, hencodings⟩ := Option.isSome_iff_exists.mp hencodings
  have hgroups : d.groups = processEncodings encodings := by
    rw [groups, hencodings, Option.bind_some]
  have hcountable := isSome_processEncodings_iff encodings
  rw [hgroups, hencodings]
  constructor
  · intro ⟨groups, hsome, htext⟩
    refine ⟨fun encodings' h => ?_, fun groups' h t ht => ?_⟩
    · rw [← Option.some.inj h, ← hcountable, hsome]
      rfl
    · rw [hsome, Option.some.injEq] at h
      subst h
      exact (DecodeTable.isSome_text_iff (entries_ne_nil hsome ht)).mp (htext t ht)
  · intro ⟨hall, hnames⟩
    obtain ⟨groups, hsome⟩ := Option.isSome_iff_exists.mp (hcountable.mpr (hall encodings rfl))
    refine ⟨groups, hsome, fun t ht => ?_⟩
    exact (DecodeTable.isSome_text_iff (entries_ne_nil hsome ht)).mpr (hnames groups hsome t ht)

/-- **Arithmetic of the generator.** For any description that is accepted, all arithmetic is defined
    if and only if the bounds hold: no component or overlay has 64 bits at once, values are compared
    with at most 30 bits and masks are made for operands below bit 64, no group that is visited
    discriminates by more than 30 bits, and no table has a name of more than 63 bytes. -/
theorem arithmeticDefined_iff (d : Description getFormat) :
    d.ArithmeticDefined ↔ d.WithinBounds := by
  have haccessors : (∀ c ∈ d.components, c.emitter.AccessorsDefined c.component) ↔
      ∀ c ∈ d.components, c.component.Narrow := by
    refine forall₂_congr fun c _ => accessorsDefined_iff ?_ c.narrowComponent
    rw [c.sameWidth]
    exact c.narrow
  have hoverlays : (∀ f ∈ d.formats, ∀ o ∈ f.overlays,
      o.overlay.Computed (typeOf false f.format.declaredWidth)) ↔
      ∀ f ∈ d.formats, ∀ o ∈ f.overlays, ∀ c ∈ o.overlay.componentVec, c.InWord := by
    refine forall₂_congr fun f hf => forall₂_congr fun o ho => ?_
    obtain ⟨hof, hwidth⟩ := f.complete o ho
    exact computed_iff (placed_of f.accepted hof hwidth o.narrow) (d.narrow f hf) _
  have hcreated : (∀ t ∈ d.opcodes ++ d.specializations, t.Created) ↔
      ∀ t ∈ d.opcodes ++ d.specializations, ∀ text ∈ t.texts,
        ∀ operand ∈ text.valueOperand t.names, operand.Comparable :=
    forall₂_congr fun t _ => OpcodeText.created_iff
  constructor
  · intro h
    have hmem : ∀ t ∈ d.specializations, t ∈ d.opcodes ++ d.specializations := fun t ht =>
      List.mem_append_right _ ht
    obtain ⟨hcountable, hnames⟩ := (tables_iff h.masks).mp h.tables
    refine ⟨haccessors.mp h.accessors, hoverlays.mp h.overlays, hcreated.mp h.constraints,
      fun t ht => ?_, fun t ht => ?_, hcountable, hnames⟩
    · exact (OpcodeText.isSome_masks_iff (h.constraints t (List.mem_append_left _ ht))).mp
        (h.masks t ht)
    · exact (OpcodeText.extracted_iff (h.constraints t (hmem t ht)) d.width).mp
        (h.extracted t (hmem t ht))
  · intro h
    have hall := hcreated.mpr h.values
    have hopcode : ∀ t ∈ d.opcodes, t.Created := fun t ht => hall t (List.mem_append_left _ ht)
    have hmasks : ∀ t ∈ d.opcodes, t.state.computeMaskAndValue.isSome = true := fun t ht =>
      (OpcodeText.isSome_masks_iff (hopcode t ht)).mpr (h.operands t ht)
    refine ⟨haccessors.mpr h.components, hoverlays.mpr h.overlays, hall, hmasks,
      (tables_iff hmasks).mpr ⟨h.countable, h.names⟩, fun t ht => ?_, fun t ht => ?_,
      fun mask value => ?_⟩
    · exact OpcodeText.processed_of (hopcode t ht) (h.operands t ht)
    · rw [OpcodeText.extracted_iff (hall t ht)]
      rcases List.mem_append.mp ht with ht | ht
      · exact fun text htext o ho => h.operands t ht text htext _ ho
      · exact h.specialized t ht
    · rw [checkedIndex_eq]
      rfl

end Description

/-- A format of 64 bits that is a single field. -/
def word64Format : AcceptedFormat fun _ => none where
  format := ⟨"Word64", 64, "", [.field "data" false 64]⟩
  overlays := []
  placed := [.field ⟨"data", false, 63, 0, 64⟩]
  accepted := by decide
  complete := by simp

/-- A description that has only this format. -/
def wordDescription : Description fun _ => none where
  formats := [word64Format]
  narrow := by simp [word64Format]
  components :=
    [{ emitter := word64Format.format
       owner := word64Format
       component := .field ⟨"data", false, 63, 0, 64⟩
       mem := List.mem_cons_self
       sameWidth := rfl
       narrow := le_refl _
       narrowComponent := le_refl _ }]
  name := "isa"
  width := 64
  opcodes := []
  specializations := []

/-- The mask of a field of 64 bits is made by a shift by 64. -/
theorem not_arithmeticDefined_word : ¬ wordDescription.ArithmeticDefined := by
  intro h
  have haccessors := h.accessors _ List.mem_cons_self
  exact absurd haccessors.1 (by decide)

end MpactSim.Decoder
