import MpactSim.Decoder.ConstraintCache
import MpactSim.Decoder.Replicated

namespace MpactSim.Decoder

open Cpp Lib Overlay

/-!
# Arithmetic of the accessors and constraints

The generator computes masks and limits while it writes the text.  Where it shifts by a width or a
position of the description, the shift may be undefined.

* `AccessorsDefined`, `accessorsDefined_iff` — accessors of fields and of referenced formats;
* `NarrowOverlay.Computed`, `overlay_computed_iff` — masks, extractors and inserters of overlays;
* `isSome_createValueConstraint_iff` — constraints that are not refused;
* `isSome_computeMaskAndValue_iff` — the masks of an encoding.
-/

/-! ### Shifts -/

@[simp]
theorem isSome_shiftLeftULL {v : BitVec 64} {k : Int} :
    (shiftLeftULL v k).isSome = true ↔ 0 ≤ k ∧ k < 64 := by
  unfold shiftLeftULL
  split <;> simp_all

@[simp]
theorem isSome_widthMask {width : Nat} : (widthMask width).isSome = true ↔ width < 64 := by
  rw [widthMask, Option.isSome_map, isSome_shiftLeftULL]
  omega

theorem isSome_shiftedMask {width : Nat} {low : Int} :
    ((widthMask width).bind fun m => shiftLeftULL m low).isSome = true ↔
      width < 64 ∧ 0 ≤ low ∧ low < 64 := by
  cases h : widthMask width with
  | none =>
    have hwidth : ¬ width < 64 := by rw [← isSome_widthMask, h]; simp
    simp [hwidth]
  | some m =>
    have hwidth : width < 64 := by rw [← isSome_widthMask, h]; rfl
    simp [hwidth]

/-! ### Fields and referenced formats -/

namespace Format

variable {fmt : Format} {width : Nat} {high : Int}

theorem isSome_generateFieldExtractor (hfmt : fmt.declaredWidth ≤ 64) {f : Field}
    (hf : f.width ≤ 64) : (fmt.generateFieldExtractor f).isSome = true ↔ f.width < 64 := by
  unfold generateFieldExtractor
  dsimp only
  rw [getType_returnWidth (by omega), getUIntType, getType_eq (by omega), ← isSome_widthMask]
  simp only [Option.bind_eq_bind, Option.bind_some, if_pos hfmt]
  cases widthMask f.width <;> simp

theorem isSome_generateFieldInserter (hfmt : fmt.declaredWidth ≤ 64) {f : Field} :
    (fmt.generateFieldInserter f).isSome = true ↔ f.width < 64 ∧ 0 ≤ f.low ∧ f.low < 64 := by
  unfold generateFieldInserter
  rw [getUIntType, getType_eq (by omega), ← isSome_shiftedMask]
  simp only [Option.bind_eq_bind, Option.bind_some, if_pos hfmt]
  cases widthMask f.width with
  | none => simp
  | some m => cases h : shiftLeftULL m f.low <;> simp [h]

theorem isSome_generateFormatExtractor (hfmt : fmt.declaredWidth ≤ 64) (hwidth : width ≤ 64) :
    (fmt.generateFormatExtractor width high).isSome = true ↔ width < 64 := by
  unfold generateFormatExtractor
  rw [getUIntType, getType_eq (by omega), getType_eq (by omega), ← isSome_widthMask]
  simp only [Option.bind_eq_bind, Option.bind_some, if_pos hfmt]
  cases widthMask width <;> simp

theorem isSome_generateSingleFormatInserter (hfmt : fmt.declaredWidth ≤ 64) :
    (fmt.generateSingleFormatInserter width high).isSome = true ↔
      width < 64 ∧ 0 ≤ high - width + 1 ∧ high - width + 1 < 64 := by
  unfold generateSingleFormatInserter
  rw [getUIntType, getType_eq (by omega), ← isSome_shiftedMask]
  simp only [Option.bind_eq_bind, Option.bind_some, if_pos hfmt]
  cases widthMask width with
  | none => simp
  | some m => cases h : shiftLeftULL m (high - width + 1) <;> simp [h]

theorem isSome_generateReplicatedFormatExtractor (hfmt : fmt.declaredWidth ≤ 64)
    (hwidth : width ≤ 64) :
    (fmt.generateReplicatedFormatExtractor width high).isSome = true ↔ width < 64 := by
  unfold generateReplicatedFormatExtractor generateReplicatedWordExtractor
  rw [getUIntType, getType_eq (by omega), getType_eq (by omega), ← isSome_widthMask,
    if_neg (by omega)]
  simp only [Option.bind_eq_bind, Option.bind_some, if_pos hfmt,
    if_pos (show fmt.declaredWidth ≤ 128 by omega)]
  cases widthMask width <;> simp

theorem isSome_generateReplicatedFormatInserter (hfmt : fmt.declaredWidth ≤ 64)
    (hwidth : width ≤ 64) :
    (fmt.generateReplicatedFormatInserter width high).isSome = true ↔ width < 64 := by
  unfold generateReplicatedFormatInserter
  rw [getUIntType, getType_eq (by omega), ← isSome_widthMask, if_neg (by omega)]
  simp only [Option.bind_eq_bind, Option.bind_some, if_pos hfmt,
    if_pos (show fmt.declaredWidth ≤ 128 by omega)]
  cases widthMask width <;> simp

/-- The extractor and the inserter of a component are written without an undefined shift. -/
def AccessorsDefined (fmt : Format) : FieldOrFormat → Prop
  | .field f => (fmt.generateFieldExtractor f).isSome ∧ (fmt.generateFieldInserter f).isSome
  | .format _ width high size =>
    if size > 1 then (fmt.generateReplicatedFormatExtractor width high).isSome ∧
      (fmt.generateReplicatedFormatInserter width high).isSome
    else (fmt.generateFormatExtractor width high).isSome ∧
      (fmt.generateSingleFormatInserter width high).isSome

end Format

/-- A component of less than 64 bits that starts below bit 64. -/
def FieldOrFormat.Narrow (c : FieldOrFormat) : Prop :=
  c.width < 64 ∧ (c.size ≤ 1 → 0 ≤ c.low ∧ c.low < 64)

theorem accessorsDefined_iff {fmt : Format} (hfmt : fmt.declaredWidth ≤ 64) {c : FieldOrFormat}
    (hc : c.width ≤ 64) : fmt.AccessorsDefined c ↔ c.Narrow := by
  cases c with
  | field f =>
    have hf : f.width ≤ 64 := hc
    rw [Format.AccessorsDefined, Format.isSome_generateFieldExtractor hfmt hf,
      Format.isSome_generateFieldInserter hfmt]
    simp only [FieldOrFormat.Narrow, FieldOrFormat.width, FieldOrFormat.low, FieldOrFormat.size]
    omega
  | format formatAlias width high size =>
    have hwidth : width ≤ 64 := hc
    simp only [FieldOrFormat.Narrow, FieldOrFormat.width, FieldOrFormat.low, FieldOrFormat.size]
    rw [Format.AccessorsDefined]
    split
    · rw [Format.isSome_generateReplicatedFormatExtractor hfmt hwidth,
        Format.isSome_generateReplicatedFormatInserter hfmt hwidth]
      omega
    · rw [Format.isSome_generateFormatExtractor hfmt hwidth,
        Format.isSome_generateSingleFormatInserter hfmt]
      omega

/-! ### Overlays -/

namespace Overlay

/-- The loop of `GenerateOverlayInserter` for a format of at most 64 bits; `remaining` is the number
    of bits of the overlay that are left. -/
def inserterLoop : List BitsOrField → Int → Option (List Line)
  | [], _ => some []
  | .binNum num _ :: rest, remaining => inserterLoop rest (remaining - num.width)
  | .bits _ low width _ :: rest, remaining => do
    let mask ← widthMask width
    let value := if remaining - width > 0 then shifted .shr (.var "value") (remaining - width)
      else .var "value"
    let lines ← inserterLoop rest (remaining - width)
    return .assign "tmp" (.bin .and value (.lit (.hexULL mask.toNat))) ::
      .orAssign "inst_word" (shiftedUnlessZero .shl (.var "tmp") low) :: lines

/-- The body of `GenerateOverlayInserter` for an instruction word of type `ty`. -/
def generateOverlayInserter (ty : IntTy) (o : Overlay) : Option (List Line) := do
  let lines ← inserterLoop o.componentVec o.declaredWidth
  return .declare ty "tmp" none :: lines ++ [.retVar "inst_word"]

/-- What is computed for an overlay: its mask, and the masks in its extractor and inserter. -/
structure Computed (ty : IntTy) (o : Overlay) : Prop where
  mask : o.mask.isSome
  extractor : (o.writeSimpleValueExtractor (.var "value")).isSome
  inserter : (o.generateOverlayInserter ty).isSome

theorem isSome_maskOf {c : BitsOrField} : (maskOf c).isSome = true ↔ match c with
    | .bits _ low width _ => width < 64 ∧ 0 ≤ low ∧ low < 64
    | .binNum .. => True := by
  cases c with
  | bits high low width position => exact isSome_shiftedMask
  | binNum num position => simp [maskOf]

theorem isSome_mask {o : Overlay} :
    o.mask.isSome = true ↔ ∀ c ∈ o.componentVec, (maskOf c).isSome = true := by
  rw [mask_eq]
  exact isSome_foldlM_iff (fun a c => by rw [Option.isSome_map]) 0

theorem isSome_writeSimpleValueExtractor {o : Overlay} {value : Expr} :
    (o.writeSimpleValueExtractor value).isSome = true ↔
      ∀ c ∈ o.componentVec, (maskOf c).isSome = true := by
  rw [writeSimpleValueExtractor, Option.isSome_map, isSome_mapM_iff]
  refine forall₂_congr fun c _ => ?_
  rw [isSome_maskOf]
  cases c with
  | bits high low width position =>
    refine Iff.trans ?_ isSome_shiftedMask
    simp only [simpleValueTerm, Option.bind_eq_bind]
    cases widthMask width with
    | none => rfl
    | some m => cases h : shiftLeftULL m low <;> simp [h]
  | binNum num position => simp [simpleValueTerm]

theorem isSome_inserterLoop {components : List BitsOrField} {remaining : Int} :
    (inserterLoop components remaining).isSome = true ↔ ∀ c ∈ components, match c with
      | .bits _ _ width _ => width < 64
      | .binNum .. => True := by
  induction components generalizing remaining with
  | nil => simp [inserterLoop]
  | cons c rest ih =>
    rw [List.forall_mem_cons]
    cases c with
    | bits high low width position =>
      dsimp only
      rw [← @ih (remaining - width), ← isSome_widthMask]
      simp only [inserterLoop, Option.bind_eq_bind]
      cases widthMask width with
      | none => simp
      | some m => cases h : inserterLoop rest (remaining - width) <;> simp
    | binNum num position => simpa [inserterLoop] using ih

theorem isSome_masks_iff {o : Overlay} {d : Nat} (h : o.Placed d) (hd : d ≤ 64) :
    (∀ c ∈ o.componentVec, (maskOf c).isSome = true) ↔ ∀ c ∈ o.componentVec, c.InWord := by
  refine forall₂_congr fun c hc => ?_
  have hin := h.inValue c hc
  have hfmt := h.inFormat c hc
  rw [isSome_maskOf]
  cases c with
  | bits high low width position =>
    simp only [BitsOrField.InValue] at hin
    simp only [BitsOrField.InFormat] at hfmt
    simp only [BitsOrField.InWord]
    omega
  | binNum num position => exact Iff.rfl

/-- In a format of at most 64 bits everything is computed for an overlay without a component of
    64 bits. -/
theorem computed_iff {o : Overlay} {d : Nat} (h : o.Placed d) (hd : d ≤ 64) (ty : IntTy) :
    o.Computed ty ↔ ∀ c ∈ o.componentVec, c.InWord := by
  rw [← isSome_masks_iff h hd]
  constructor
  · intro hcomputed
    exact isSome_mask.mp hcomputed.mask
  · intro hsome
    refine ⟨isSome_mask.mpr hsome, isSome_writeSimpleValueExtractor.mpr hsome, ?_⟩
    have hloop : (inserterLoop o.componentVec o.declaredWidth).isSome = true := by
      rw [isSome_inserterLoop]
      intro c hc
      have hmask := isSome_maskOf.mp (hsome c hc)
      cases c with
      | bits high low width position => exact hmask.1
      | binNum num position => trivial
    obtain ⟨lines, hlines⟩ := Option.isSome_iff_exists.mp hloop
    simp [generateOverlayInserter, hlines]

end Overlay

/-! ### Constraints -/

theorem le_of_maskValue {width : Nat} {value r : BitVec 64} (h : maskValue width value = some r) :
    width ≤ 30 := by
  have hlt := lt_of_maskValue h
  obtain ⟨one, hone, h⟩ := Option.bind_eq_some_iff.mp h
  obtain ⟨mask, hmask, -⟩ := Option.bind_eq_some_iff.mp h
  by_contra hgt
  obtain rfl : width = 31 := by omega
  rw [show oneShl ((31 : Nat) : Int) = some (-2 ^ 31) from by decide, Option.some.injEq] at hone
  rw [← hone, show intResult (-2 ^ 31 - 1) = none from by decide] at hmask
  cases hmask

theorem pos_of_checkSigned {what name : String} {type : ConstraintType} {width : Nat}
    {value : BitVec 64} (h : checkSigned what type width name value = some (.ok ())) :
    0 < width := by
  unfold checkSigned at h
  dsimp only at h
  split at h
  · cases h
  · obtain ⟨limit, hlimit, -⟩ := Option.bind_eq_some_iff.mp h
    rw [oneShl] at hlimit
    split at hlimit
    · omega
    · cases hlimit

theorem check_of_makeConstraint {check : Option (Except ConstraintError Unit)}
    {stored : Option (BitVec 64)} {make : BitVec 64 → Constraint} {c : Constraint}
    (h : makeConstraint check stored make = some (.ok c)) : check = some (.ok ()) := by
  obtain ⟨r, hr, h⟩ := Option.bind_eq_some_iff.mp h
  cases r with
  | error e => cases h
  | ok u => exact hr

/-- A value can be compared with an operand if its mask is an `int`, and with a signed one if that
    has a sign bit. -/
def Operand.Comparable (op : Operand) : Prop :=
  op.computedWidth ≤ 30 ∧ (op.isSigned = true → 0 < op.computedWidth)

/-- A constraint with a value that is not refused is created without undefined arithmetic if and
    only if its operand is comparable. -/
theorem isSome_createValueConstraint_iff {names : FormatNames} {type : ConstraintType}
    {name : String} {value : BitVec 64}
    (haccepted : ∀ e, createValueConstraint names type name value ≠ some (.error e)) {op : Operand}
    (hop : names.operand name = some op) :
    (createValueConstraint names type name value).isSome = true ↔ op.Comparable := by
  constructor
  · intro hsome
    obtain ⟨r, hr⟩ := Option.isSome_iff_exists.mp hsome
    cases r with
    | error e => exact absurd hr (haccepted e)
    | ok c =>
      rw [FormatNames.operand] at hop
      rw [createValueConstraint] at hr
      cases hfield : names.getField name with
      | some field =>
        rw [hfield, Option.some.injEq] at hop
        subst hop
        simp only [hfield] at hr
        split at hr
        · cases hr
        · obtain ⟨v, hv, -⟩ := of_makeConstraint hr
          refine ⟨le_of_maskValue hv, fun hsigned => ?_⟩
          have hcheck := check_of_makeConstraint hr
          rw [if_pos (show field.isSigned = true from hsigned)] at hcheck
          exact pos_of_checkSigned hcheck
      | none =>
        rw [hfield] at hop
        obtain ⟨overlay, hoverlay, rfl⟩ := Option.map_eq_some_iff.mp hop
        simp only [hfield, hoverlay] at hr
        obtain ⟨v, hv, -⟩ := of_makeConstraint hr
        obtain ⟨u, -, hv⟩ := Option.bind_eq_some_iff.mp hv
        refine ⟨le_of_maskValue hv, fun hsigned => ?_⟩
        have hcheck := check_of_makeConstraint hr
        rw [if_pos (show overlay.isSigned = true from hsigned)] at hcheck
        exact pos_of_checkSigned hcheck
  · rintro ⟨hwidth, hpos⟩
    obtain ⟨r, hr, -⟩ := (createValueConstraint_range hop type value).1 hwidth hpos
    rw [hr]
    rfl

/-! ### Masks of an encoding -/

/-- An operand whose mask is defined. -/
def Operand.Narrow : Operand → Prop
  | .field f => f.width < 64 ∧ f.low < 64
  | .overlay o => ∀ c ∈ o.componentVec, c.InWord

section Masks

variable {fmt : Format} {placed : List FieldOrFormat} {getFormat : String → Option Nat}

theorem isSome_operandMask_iff (hplaced : fmt.computeAndCheckFormatWidth getFormat = .ok placed)
    (hd : fmt.declaredWidth ≤ 64) {op : Operand} (hop : op.Of fmt placed) :
    op.mask.isSome = true ↔ op.Narrow := by
  cases op with
  | field f =>
    have hlow : 0 ≤ f.low := (Format.placed_bounds hplaced hop rfl).1
    refine Iff.trans isSome_shiftedMask ?_
    rw [Operand.Narrow]
    omega
  | overlay o =>
    have hp := placed_of_operand hop hplaced
    constructor
    · intro hsome
      obtain ⟨m, hm⟩ := Option.isSome_iff_exists.mp hsome
      exact inWord_of_mask hp hd hm
    · intro hword
      exact ((computed_iff hp hd .int).mpr hword).mask

theorem isSome_bits (hplaced : fmt.computeAndCheckFormatWidth getFormat = .ok placed)
    (hd : fmt.declaredWidth ≤ 64) {op : Operand} (hop : op.Of fmt placed)
    (hm : op.mask.isSome = true) (value : BitVec 64) : (op.bits value).isSome = true := by
  have hnarrow := (isSome_operandMask_iff hplaced hd hop).mp hm
  cases op with
  | field f =>
    have hlow : 0 ≤ f.low := (Format.placed_bounds hplaced hop rfl).1
    exact isSome_shiftLeftULL.mpr ⟨hlow, hnarrow.2⟩
  | overlay o =>
    obtain ⟨w, hw, -⟩ := getBitField_bits ((placed_of_operand hop hplaced).good hnarrow) value
    show (o.getBitField value).isSome = true
    rw [hw]
    rfl

open EncodingState in
theorem isSome_equalLoop (hplaced : fmt.computeAndCheckFormatWidth getFormat = .ok placed)
    (hd : fmt.declaredWidth ≤ 64) {cs : List Constraint} (hof : ∀ c ∈ cs, c.lhs.Of fmt placed)
    (start : BitVec 64 × BitVec 64) :
    (equalLoop cs start).isSome = true ↔ ∀ c ∈ cs, c.lhs.mask.isSome = true := by
  rw [equalLoop, isSome_foldlM_iff (p := fun c => c.lhs.mask.isSome = true ∧
    (c.lhs.bits c.value).isSome = true)]
  · exact forall₂_congr fun c hc => and_iff_left_of_imp fun hm =>
      isSome_bits hplaced hd (hof c hc) hm c.value
  · intro r c
    simp only [Option.bind_eq_bind]
    cases c.lhs.mask with
    | none => simp
    | some m => cases c.lhs.bits c.value <;> simp

open EncodingState in
theorem isSome_extractedLoop {cs : List Constraint} :
    (extractedLoop cs).isSome = true ↔ ∀ c ∈ cs, c.lhs.mask.isSome = true := by
  rw [extractedLoop]
  refine isSome_foldlM_iff (fun r c => ?_) 0
  simp only [Option.bind_eq_bind]
  cases c.lhs.mask <;> simp

open EncodingState in
theorem isSome_otherLoop {cs : List Constraint} :
    (otherLoop cs).isSome = true ↔ ∀ c ∈ cs, ∀ op ∈ c.operands, op.mask.isSome = true := by
  have hrhs : ∀ (m : BitVec 64) (op : Operand),
      (rhsMask m op).isSome = true ↔ op.mask.isSome = true := by
    intro m op
    cases op with
    | field f =>
      refine Iff.trans ?_ isSome_shiftedMask.symm
      rw [← isSome_widthMask]
      simp only [rhsMask, Option.bind_eq_bind]
      cases widthMask f.width <;> simp
    | overlay o =>
      simp only [rhsMask, Operand.mask, Option.bind_eq_bind]
      cases o.mask <;> simp
  rw [otherLoop_eq]
  refine isSome_foldlM_iff (fun r c => ?_) 0
  rw [Option.isSome_map, otherTerm, Constraint.operands, List.forall_mem_cons]
  cases c.lhs.mask with
  | none => simp
  | some m =>
    cases hc : c.rhs with
    | none => simp
    | some op => simp [hrhs]

/-- The masks of an encoding are defined if and only if those of all operands are. -/
theorem isSome_computeMaskAndValue_iff
    (hplaced : fmt.computeAndCheckFormatWidth getFormat = .ok placed)
    (hd : fmt.declaredWidth ≤ 64) {s : EncodingState}
    (hof : ∀ c ∈ s.constraints, ∀ op ∈ c.operands, op.Of fmt placed)
    (hnone : ∀ c ∈ s.equalConstraints ++ s.equalExtractedConstraints, c.rhs = none) :
    s.computeMaskAndValue.isSome = true ↔ ∀ c ∈ s.constraints, ∀ op ∈ c.operands, op.Narrow := by
  have hequal : ∀ c ∈ s.equalConstraints, c.lhs.Of fmt placed := fun c hc =>
    hof c (List.mem_append_left _ (List.mem_append_left _ hc)) _ List.mem_cons_self
  have hlhs : ∀ cs : List Constraint, (∀ c ∈ cs, c.rhs = none) →
      ((∀ c ∈ cs, c.lhs.mask.isSome = true) ↔
        ∀ c ∈ cs, ∀ op ∈ c.operands, op.mask.isSome = true) := by
    intro cs hcs
    refine forall₂_congr fun c hc => ?_
    rw [Constraint.operands, hcs c hc]
    simp
  have hloops : s.computeMaskAndValue.isSome = true ↔
      (EncodingState.equalLoop s.equalConstraints (0, s.value)).isSome = true ∧
        (EncodingState.extractedLoop s.equalExtractedConstraints).isSome = true ∧
          (EncodingState.otherLoop s.otherConstraints).isSome = true := by
    unfold EncodingState.computeMaskAndValue
    simp only [Option.bind_eq_bind]
    cases EncodingState.equalLoop s.equalConstraints (0, s.value) with
    | none => simp
    | some r =>
      cases EncodingState.extractedLoop s.equalExtractedConstraints with
      | none => simp
      | some extracted => cases EncodingState.otherLoop s.otherConstraints <;> simp
  rw [hloops, isSome_equalLoop hplaced hd hequal, isSome_extractedLoop, isSome_otherLoop,
    hlhs _ fun c hc => hnone c (List.mem_append_left _ hc),
    hlhs _ fun c hc => hnone c (List.mem_append_right _ hc), ← and_assoc, ← List.forall_mem_append,
    ← List.forall_mem_append]
  refine forall₂_congr fun c hc => forall₂_congr fun op hop => ?_
  exact isSome_operandMask_iff hplaced hd (hof c hc op hop)

end Masks

end MpactSim.Decoder
