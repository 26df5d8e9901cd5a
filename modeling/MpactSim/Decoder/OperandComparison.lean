import MpactSim.Decoder.ConstraintCache

namespace MpactSim.Decoder

open Cpp Lib Overlay

/-!
# Comparisons of two operands

Constraints between two fields or overlays are emitted as comparisons of unsigned variables.  A
signed operand whose sign bit is set is taken for a large number.

* `Operand.pattern`, `Reading.number` — what an operand is in a word;
* `SignsHarmless`          — the patterns of two operands compare as the numbers do;
* `operandComparison_iff`  — when the emitted comparison is right.
-/

/-! ### Readings -/

/-- The bits of an operand in a word, with its width and signedness. -/
structure Reading where
  isSigned : Bool
  width : Nat
  pattern : Nat
  lt : pattern < 2 ^ width

namespace Reading

/-- The number that is read. -/
def number (r : Reading) : Int := decodePattern r.isSigned r.width r.pattern

/-- The operand is signed and its sign bit is set. -/
def negative (r : Reading) : Bool := r.isSigned && decide (2 ^ r.width ≤ 2 * r.pattern)

theorem number_eq (r : Reading) :
    r.number = if r.negative = true then (r.pattern : Int) - 2 ^ r.width else r.pattern := by
  rw [number, decodePattern, negative]
  cases r.isSigned with
  | false => rfl
  | true =>
    rw [if_pos rfl, BitVec.toInt_eq_toNat_cond, BitVec.toNat_ofNat, Nat.mod_eq_of_lt r.lt,
      Bool.true_and]
    simp only [decide_eq_true_eq]
    split_ifs with h h'
    · omega
    · rfl
    · push_cast
      rfl
    · omega

end Reading

namespace ConstraintType

/-- How two patterns have to compare when the first number is below the second one. -/
def Below : ConstraintType → Nat → Nat → Prop
  | .kEq, a, b | .kNe, a, b => a ≠ b
  | .kLt, a, b | .kGe, a, b => a < b
  | .kLe, a, b | .kGt, a, b => a ≤ b

/-- How they have to compare when the first number is above the second one. -/
def Above : ConstraintType → Nat → Nat → Prop
  | .kEq, a, b | .kNe, a, b => a ≠ b
  | .kLt, a, b | .kGe, a, b => b ≤ a
  | .kLe, a, b | .kGt, a, b => b < a

/-- The patterns compare alike after `x` has been added to the first one and `y` to the second. -/
def Unmoved : ConstraintType → Nat → Nat → Nat → Nat → Prop
  | .kEq, a, b, x, y | .kNe, a, b, x, y => a = b ↔ a + x = b + y
  | .kLt, a, b, x, y | .kGe, a, b, x, y => a < b ↔ a + x < b + y
  | .kLe, a, b, x, y | .kGt, a, b, x, y => a ≤ b ↔ a + x ≤ b + y

end ConstraintType

/-- No sign bit is set; or both are, and the numbers have one width or the widths do not matter; or
    one is, and the patterns are on the right side of each other. -/
def SignsHarmless (type : ConstraintType) (lhs rhs : Reading) : Prop :=
  match lhs.negative, rhs.negative with
  | false, false => True
  | true, true => lhs.width = rhs.width ∨
      type.Unmoved lhs.pattern rhs.pattern (2 ^ rhs.width) (2 ^ lhs.width)
  | true, false => type.Below lhs.pattern rhs.pattern
  | false, true => type.Above lhs.pattern rhs.pattern

/-- **Signs.**  The patterns compare as the numbers exactly if the signs are harmless. -/
theorem holds_pattern_iff (type : ConstraintType) (lhs rhs : Reading) :
    type.holds lhs.pattern rhs.pattern = type.holds lhs.number rhs.number ↔
      SignsHarmless type lhs rhs := by
  have hl := lhs.lt
  have hr := rhs.lt
  have hlcast : ((2 ^ lhs.width : Nat) : Int) = 2 ^ lhs.width := by push_cast; rfl
  have hrcast : ((2 ^ rhs.width : Nat) : Int) = 2 ^ rhs.width := by push_cast; rfl
  rw [SignsHarmless, lhs.number_eq, rhs.number_eq, ← hlcast, ← hrcast]
  cases hln : lhs.negative <;> cases hrn : rhs.negative
  · simp
  · simp only [Bool.false_eq_true, if_false, if_true]
    cases type <;> simp only [ConstraintType.holds, ConstraintType.Above, decide_eq_decide] <;>
      omega
  · simp only [Bool.false_eq_true, if_false, if_true]
    cases type <;> simp only [ConstraintType.holds, ConstraintType.Below, decide_eq_decide] <;>
      omega
  · simp only [if_true]
    by_cases hwidth : lhs.width = rhs.width
    · rw [hwidth, iff_true_right (Or.inl rfl)]
      cases type <;> simp only [ConstraintType.holds, decide_eq_decide] <;> omega
    · rw [or_iff_right hwidth]
      cases type <;> simp only [ConstraintType.holds, ConstraintType.Unmoved, decide_eq_decide] <;>
        omega

/-! ### Extraction -/

/-- The extraction of an operand in a decoder is right: a field's shift is defined, and an overlay
    is extractable. -/
def Operand.Extracts (d : Nat) : Operand → Prop
  | .field f => f.low < (uintType d).promote.width
  | .overlay o => o.Extractable d ((Operand.overlay o).ty d)

/-- The bits of an operand in a word. -/
def Operand.pattern (w : BitVec 64) : Operand → Option Nat
  | .field f => some ((w >>> f.low.toNat).toNat % 2 ^ f.width)
  | .overlay o =>
    match o.getValue w with
    | .ok (some v) => some v.toNat
    | _ => none

/-- What a word has in the bits of an operand. -/
structure Operand.Reads (op : Operand) (w : BitVec 64) (r : Reading) : Prop where
  isSigned : r.isSigned = op.isSigned
  width : r.width = op.width
  pattern : op.pattern w = some r.pattern

section Extraction

variable {fmt : Format} {placed : List FieldOrFormat} {getFormat : String → Option Nat}
  {op : Operand} {w : BitVec 64}

theorem getValue_lt {o : Overlay} {d : Nat} (h : o.Placed d) {u : Nat → Bool} {v : BitVec 64}
    (hv : ∀ j, v.getLsbD j = gather o.pieces u j) : v.toNat < 2 ^ o.declaredWidth := by
  refine Nat.lt_pow_two_of_testBit _ fun j hj => ?_
  rw [BitVec.testBit_toNat, hv]
  refine any_eq_false_of_forall (fun p hp => ?_) _
  obtain ⟨c, hc, rfl⟩ := List.mem_map.mp hp
  have hval := h.inValue c hc
  rw [← Bool.not_eq_true, piece_covers hval]
  have hposition : c.position < o.declaredWidth := by
    cases c with
    | bits high low width position => exact hval.2.2.2.2
    | binNum num position => exact hval.2
  omega

theorem Operand.exists_reads (hplaced : fmt.computeAndCheckFormatWidth getFormat = .ok placed)
    (hop : op.Of fmt placed) (hex : ∀ o, op = .overlay o → op.Extracts fmt.declaredWidth)
    (w : BitVec 64) : ∃ r, op.Reads w r := by
  cases op with
  | field f => exact ⟨⟨f.isSigned, f.width, _, Nat.mod_lt _ (Nat.two_pow_pos _)⟩, rfl, rfl, rfl⟩
  | overlay o =>
    have hp := placed_of_operand hop hplaced
    obtain ⟨v, hv, hbits⟩ := getValue_bits (hp.good (hex o rfl).2.1) w
    exact ⟨⟨o.isSigned, o.declaredWidth, v.toNat, getValue_lt hp hbits⟩, rfl, rfl,
      by rw [Operand.pattern, hv]⟩

theorem ty_width : ∀ n ≤ 64, n ≤ 2 ^ intTypeShift n ∧
    (2 ^ intTypeShift n ≤ 32 ∨ 2 ^ intTypeShift n = 64) := by
  decide +kernel

theorem Operand.valueOf_eq (hplaced : fmt.computeAndCheckFormatWidth getFormat = .ok placed)
    (hd : fmt.declaredWidth ≤ 64) (hop : op.Of fmt placed)
    (hfield : ∀ f, op = .field f → f.width < 64) (hex : op.Extracts fmt.declaredWidth)
    (hw : w.toNat < 2 ^ fmt.declaredWidth) {r : Reading} (hr : op.Reads w r) :
    ∃ v, op.valueOf fmt.declaredWidth (.of (uintType fmt.declaredWidth) w.toNat) = some v ∧
      v.val = r.pattern := by
  have hwide := (intTypeShift_spec fmt.declaredWidth (by omega)).1
  cases op with
  | field f =>
    obtain ⟨h0, hfit⟩ := Format.placed_bounds hplaced hop rfl
    simp only [FieldOrFormat.low, FieldOrFormat.width] at h0 hfit
    have hpow : (2 : Nat) ^ fmt.declaredWidth ≤ 2 ^ 2 ^ intTypeShift fmt.declaredWidth :=
      Nat.pow_le_pow_right (by omega) hwide
    have hword : (Val.of (uintType fmt.declaredWidth) w.toNat).val = w.toNat := by
      rw [Val.of_val]
      refine wrap_word (by omega) ?_
      exact_mod_cast lt_of_lt_of_le hw hpow
    have hlow : f.low < (uintType fmt.declaredWidth).promote.width := hex
    obtain ⟨v, hv, hval⟩ := @Operand.valueOf_field fmt.declaredWidth f.low.toNat
        (.of (uintType fmt.declaredWidth) w.toNat) f (by omega) (hfield f rfl) (by omega)
        (by omega) rfl (by omega) (by rw [hword]; omega)
    refine ⟨v, hv, ?_⟩
    have hpattern : r.pattern = (w >>> f.low.toNat).toNat % 2 ^ f.width :=
      (Option.some.inj hr.pattern).symm
    rw [hval, hword, hpattern]
    refine eq_of_testBit_eq fun j => ?_
    rw [testBit_field, testBit_natCast, testBit_natCast, testBit_fieldBits, BitVec.testBit_toNat,
      Nat.add_comm]
  | overlay o =>
    obtain ⟨hemit, hword, hcond⟩ := hex
    have hp := placed_of_operand hop hplaced
    have hwidth : ((Operand.overlay o).ty fmt.declaredWidth).width =
        2 ^ intTypeShift (max o.declaredWidth fmt.declaredWidth) := by
      rw [Operand.ty, Operand.width, max_def]
      split_ifs <;> first | rfl | omega
    obtain ⟨hle, hreal⟩ := ty_width (max o.declaredWidth fmt.declaredWidth) (by have := hp.le; omega)
    rw [← hwidth] at hle hreal
    obtain ⟨hdef, hagree⟩ := (bits_agree_iff hp hd (by omega) hreal).mpr hcond
    obtain ⟨terms, u, hterms, hu, huty, hbits⟩ := @simpleValue_bits _ _
        (instWordEnv (.of (typeOf false fmt.declaredWidth) w.toNat)) "inst_word"
        ((Operand.overlay o).ty fmt.declaredWidth) _ hp hd hword hemit hdef (by omega) hw
        (if_pos rfl)
    obtain ⟨v, hv, hvbits⟩ := getValue_bits (hp.good hword) w
    have hlt := getValue_lt hp hvbits
    have hpattern : v.toNat = r.pattern := by
      have h := hr.pattern
      rw [Operand.pattern, hv] at h
      exact Option.some.inj h
    refine ⟨u, ?_, ?_⟩
    · rw [Operand.valueOf, Operand.read, hterms, Option.getD_some]
      exact (congrArg (Option.bind · Variable.value) hu).trans rfl
    · -- Both have the bits of the value, and no others.
      rw [← hpattern]
      refine eq_of_testBit_eq fun j => ?_
      rw [testBit_natCast]
      by_cases hj : j < ((Operand.overlay o).ty fmt.declaredWidth).width
      · rw [hbits j hj, hagree w hw j hj, ← gather_pieces, ← hvbits, BitVec.testBit_toNat]
      · have hunsigned : u.ty.signed = false := by rw [huty]; rfl
        rw [Val.testBit_unsigned hunsigned (by rw [huty]; omega)]
        exact (Nat.testBit_lt_two_pow (lt_of_lt_of_le hlt
          (Nat.pow_le_pow_right (by omega) (by omega)))).symm

theorem Operand.extracts_of_valueOf (hplaced : fmt.computeAndCheckFormatWidth getFormat = .ok placed)
    (hd : fmt.declaredWidth ≤ 64) {f : Field} (hop : (Operand.field f).Of fmt placed) {v : Val}
    (hv : (Operand.field f).valueOf fmt.declaredWidth
      (.of (uintType fmt.declaredWidth) w.toNat) = some v) :
    (Operand.field f).Extracts fmt.declaredWidth := by
  obtain ⟨h0, hfit⟩ := Format.placed_bounds hplaced hop rfl
  simp only [FieldOrFormat.low, FieldOrFormat.width] at h0 hfit
  by_contra hnot
  have hnot : ¬ f.low < (uintType fmt.declaredWidth).promote.width := hnot
  rw [@Operand.valueOf_field_eq_none _ f.low.toNat _ _ (by omega) (by omega) rfl (by omega)] at hv
  cases hv

end Extraction

/-! ### Comparisons -/

section Comparisons

variable {fmt : Format} {placed : List FieldOrFormat} {getFormat : String → Option Nat}
  {names : FormatNames}

theorem lt_of_constraintSide {name : String} {op : Operand}
    (h : constraintSide names name = .ok op) {f : Field} (hf : op = .field f) : f.width < 64 := by
  rw [constraintSide] at h
  subst hf
  cases hfield : names.getField name with
  | some field =>
    simp only [hfield] at h
    split at h
    · cases h
    · cases h
      omega
  | none =>
    simp only [hfield] at h
    cases hoverlay : names.getOverlay name <;> rw [hoverlay] at h <;> cases h

/-- **Comparisons of operands.**  Where the overlays are extractable, the emitted comparison of two
    operands of a word is the one of the numbers exactly if the shifts of the fields are defined
    and the signs are harmless. -/
theorem operandComparison_iff (hplaced : fmt.computeAndCheckFormatWidth getFormat = .ok placed)
    (hd : fmt.declaredWidth ≤ 64) (hnames : names.Of fmt placed) {type : ConstraintType}
    {lhsName rhsName : String} {c : Constraint}
    (hc : createOperandConstraint names type lhsName rhsName = .ok c)
    (hoverlays : ∀ o, .overlay o ∈ c.operands → (Operand.overlay o).Extracts fmt.declaredWidth)
    {w : BitVec 64} (hw : w.toNat < 2 ^ fmt.declaredWidth) {env : Env}
    (henv : ∀ op ∈ c.operands, env op.valueName =
      op.valueOf fmt.declaredWidth (.of (uintType fmt.declaredWidth) w.toNat)) :
    ∃ rhs lhsRead rhsRead, c.operands = [c.lhs, rhs] ∧ c.lhs.Reads w lhsRead ∧
      rhs.Reads w rhsRead ∧
      (c.comparison.eval env = some (type.holds lhsRead.number rhsRead.number) ↔
        (∀ op ∈ c.operands, op.Extracts fmt.declaredWidth) ∧
          SignsHarmless type lhsRead rhsRead) := by
  obtain ⟨lhs, hlhs, hc⟩ := bind_eq_ok.mp hc
  obtain ⟨rhs, hrhs, hc⟩ := bind_eq_ok.mp hc
  cases hc
  have hlof := hnames.operand (EncodingState.operand_of_constraintSide hlhs)
  have hrof := hnames.operand (EncodingState.operand_of_constraintSide hrhs)
  have hloverlay : ∀ o, lhs = .overlay o → lhs.Extracts fmt.declaredWidth := by
    rintro o rfl
    exact hoverlays o List.mem_cons_self
  have hroverlay : ∀ o, rhs = .overlay o → rhs.Extracts fmt.declaredWidth := by
    rintro o rfl
    exact hoverlays o (List.mem_cons_of_mem _ List.mem_cons_self)
  obtain ⟨lhsRead, hl⟩ := Operand.exists_reads hplaced hlof hloverlay w
  obtain ⟨rhsRead, hr⟩ := Operand.exists_reads hplaced hrof hroverlay w
  refine ⟨rhs, lhsRead, rhsRead, rfl, hl, hr, ?_⟩
  have hboth : (∀ op ∈ [lhs, rhs], op.Extracts fmt.declaredWidth) ↔
      lhs.Extracts fmt.declaredWidth ∧ rhs.Extracts fmt.declaredWidth := by
    simp
  rw [Constraint.eval_comparison henv, show Constraint.operands ⟨type, lhs, some rhs, 0⟩ =
    [lhs, rhs] from rfl, hboth, Constraint.holds]
  -- A side without a value has a field that is not extracted.
  have hneeded : ∀ {op : Operand} {v : Val}, op.Of fmt placed →
      (∀ o, op = .overlay o → op.Extracts fmt.declaredWidth) →
      op.valueOf fmt.declaredWidth (.of (uintType fmt.declaredWidth) w.toNat) = some v →
      op.Extracts fmt.declaredWidth := by
    intro op v hof hover hv
    cases op with
    | field f => exact Operand.extracts_of_valueOf hplaced hd hof hv
    | overlay o => exact hover o rfl
  constructor
  · intro h
    obtain ⟨a, ha, h⟩ := Option.bind_eq_some_iff.mp h
    obtain ⟨b, hb, h⟩ := Option.map_eq_some_iff.mp h
    have hlex := hneeded hlof hloverlay ha
    have hrex := hneeded hrof hroverlay hb
    obtain ⟨a', ha', hval⟩ := Operand.valueOf_eq hplaced hd hlof
      (fun f hf => lt_of_constraintSide hlhs hf) hlex hw hl
    obtain ⟨b', hb', hval'⟩ := Operand.valueOf_eq hplaced hd hrof
      (fun f hf => lt_of_constraintSide hrhs hf) hrex hw hr
    cases ha.symm.trans ha'
    cases hb.symm.trans hb'
    rw [hval, hval'] at h
    exact ⟨⟨hlex, hrex⟩, (holds_pattern_iff type lhsRead rhsRead).mp h⟩
  · rintro ⟨⟨hlex, hrex⟩, hsigns⟩
    obtain ⟨a, ha, hval⟩ := Operand.valueOf_eq hplaced hd hlof
      (fun f hf => lt_of_constraintSide hlhs hf) hlex hw hl
    obtain ⟨b, hb, hval'⟩ := Operand.valueOf_eq hplaced hd hrof
      (fun f hf => lt_of_constraintSide hrhs hf) hrex hw hr
    simp only [ha, hb, Option.bind_some, Option.map_some, hval, hval']
    exact congrArg some ((holds_pattern_iff type lhsRead rhsRead).mpr hsigns)

/-- Two signed fields of 8 bits. -/
def firstOffset : Field := ⟨"first", true, 15, 8, 8⟩

def secondOffset : Field := ⟨"second", true, 7, 0, 8⟩

def offsetPairFormat : Format := ⟨"Offsets", 16, "", [.field "first" true 8, .field "second" true 8]⟩

def offsetPairNames : FormatNames :=
  ⟨"Offsets", fun name => if name = "first" then some firstOffset
    else if name = "second" then some secondOffset else none, fun _ => none⟩

/-- The variables after the fields of a word have been extracted. -/
def offsetPairEnv (w : BitVec 64) : Env := fun x =>
  if x = "first_value" then (Operand.field firstOffset).valueOf 16 (.of (uintType 16) w.toNat)
  else if x = "second_value" then (Operand.field secondOffset).valueOf 16 (.of (uintType 16) w.toNat)
  else none

theorem offsetPairNames_of : offsetPairNames.Of offsetPairFormat [.field firstOffset, .field secondOffset] := by
  refine ⟨fun name f h => ?_, fun name o h => nomatch h⟩
  simp only [offsetPairNames] at h
  split at h
  · cases h
    exact List.mem_cons_self
  · split at h
    · cases h
      exact List.mem_cons_of_mem _ List.mem_cons_self
    · cases h

/-- Both offsets are negative: -2 and -1. -/
theorem offsets_compared :
    ∃ rhs lhsRead rhsRead,
      Constraint.operands ⟨.kLt, .field firstOffset, some (.field secondOffset), 0⟩ =
        [.field firstOffset, rhs] ∧
      (Operand.field firstOffset).Reads 0xFEFF lhsRead ∧ rhs.Reads 0xFEFF rhsRead ∧
      ((Constraint.comparison ⟨.kLt, .field firstOffset, some (.field secondOffset), 0⟩).eval
          (offsetPairEnv 0xFEFF) = some (ConstraintType.kLt.holds lhsRead.number rhsRead.number) ↔
        (∀ op ∈ Constraint.operands ⟨.kLt, .field firstOffset, some (.field secondOffset), 0⟩,
          op.Extracts 16) ∧ SignsHarmless .kLt lhsRead rhsRead) :=
  @operandComparison_iff offsetPairFormat _ (fun _ => none) _ (by decide) (by decide)
      offsetPairNames_of _ "first" "second" _ rfl
      (fun o ho => by simp [Constraint.operands] at ho) _ (by decide) _
      (fun op hop => by
      simp only [Constraint.operands, Option.toList_some, List.mem_cons, List.not_mem_nil,
        or_false] at hop
      rcases hop with rfl | rfl <;> rfl)

/-- The offsets -1 and 1 are compared as 255 and 1. -/
theorem offsets_not_compared :
    createOperandConstraint offsetPairNames .kLt "first" "second" =
        .ok ⟨.kLt, .field firstOffset, some (.field secondOffset), 0⟩ ∧
      (Operand.field firstOffset).Reads 0xFF01 ⟨true, 8, 255, by decide⟩ ∧
      (Operand.field secondOffset).Reads 0xFF01 ⟨true, 8, 1, by decide⟩ ∧
      (Reading.mk true 8 255 (by decide)).number = -1 ∧
      (Reading.mk true 8 1 (by decide)).number = 1 ∧
      ConstraintType.kLt.holds (-1) 1 = true ∧
      (Constraint.comparison ⟨.kLt, .field firstOffset, some (.field secondOffset), 0⟩).eval
        (offsetPairEnv 0xFF01) = some false := by
  refine ⟨rfl, ⟨rfl, rfl, rfl⟩, ⟨rfl, rfl, rfl⟩, by decide, by decide, by decide, ?_⟩
  decide +kernel

end Comparisons

end MpactSim.Decoder
