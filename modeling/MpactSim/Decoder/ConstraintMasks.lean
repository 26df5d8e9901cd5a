import MpactSim.Decoder.ConstraintRange
import MpactSim.Decoder.OverlayExtractCorrect

namespace MpactSim.Decoder

open Cpp Lib Overlay

/-!
# The mask and value of an encoding

The equal constraints of an encoding fix bits of the instruction word: its mask has them, and its
value has what they are.

* `Constraint.Satisfied`  — a word has the value of a constraint in the bits of its operand;
* `mask_value_characterise` — the words that have the value under the mask are those that satisfy
  all equal constraints.
-/

/-! ### Operands of a format -/

/-- A field or overlay of a format. -/
def Operand.Of (op : Operand) (fmt : Format) (placed : List FieldOrFormat) : Prop :=
  match op with
  | .field f => .field f ∈ placed
  | .overlay o => o.Of fmt placed ∧ o.declaredWidth = o.computedWidth ∧ o.declaredWidth ≤ 64

/-- The names are those of the fields and overlays of a format. -/
structure FormatNames.Of (names : FormatNames) (fmt : Format) (placed : List FieldOrFormat) :
    Prop where
  field : ∀ name f, names.getField name = some f → (Operand.field f).Of fmt placed
  overlay : ∀ name o, names.getOverlay name = some o → (Operand.overlay o).Of fmt placed

/-- The bits of the instruction word that an operand is made from. -/
def Operand.reads : Operand → Nat → Bool
  | .field f, i => decide (f.low.toNat ≤ i ∧ i < f.low.toNat + f.width)
  | .overlay o, i => readMask o.pieces i

/-- A word has the value of the constraint in the field's bits, or as the overlay's value. -/
def Constraint.Satisfied (w : BitVec 64) (c : Constraint) : Prop :=
  match c.lhs with
  | .field f => (w >>> f.low.toNat).toNat % 2 ^ f.width = c.value.toNat
  | .overlay o => o.getValue w = .ok (some c.value)

instance (w : BitVec 64) : DecidablePred (Constraint.Satisfied w)
  | ⟨_, .field f, _, value⟩ =>
    inferInstanceAs (Decidable ((w >>> f.low.toNat).toNat % 2 ^ f.width = value.toNat))
  | ⟨_, .overlay o, _, value⟩ => inferInstanceAs (Decidable (o.getValue w = .ok (some value)))

section Operand

variable {fmt : Format} {placed : List FieldOrFormat} {getFormat : String → Option Nat}
  {op : Operand} {m : BitVec 64}

theorem FormatNames.Of.operand {names : FormatNames} (h : names.Of fmt placed) {name : String}
    (hop : names.operand name = some op) : op.Of fmt placed := by
  rw [FormatNames.operand] at hop
  cases hfield : names.getField name with
  | some f =>
    rw [hfield, Option.some.injEq] at hop
    exact hop ▸ h.field name f hfield
  | none =>
    rw [hfield] at hop
    obtain ⟨o, ho, rfl⟩ := Option.map_eq_some_iff.mp hop
    exact h.overlay name o ho

theorem inWord_of_mask {o : Overlay} {d : Nat} (h : o.Placed d) (hd : d ≤ 64)
    (hm : o.mask = some m) : ∀ c ∈ o.componentVec, c.InWord := by
  rw [mask_eq] at hm
  intro c hc
  obtain ⟨x, hx⟩ := foldlM_or_some hm c hc
  have hfmt := h.inFormat c hc
  cases c with
  | bits high low width position =>
    obtain ⟨ones, hones, -⟩ := Option.bind_eq_some_iff.mp hx
    simp only [BitsOrField.InFormat] at hfmt
    exact ⟨lt_of_widthMask hones, by omega⟩
  | binNum num position => trivial

theorem inWord_of_lt {o : Overlay} {d : Nat} (h : o.Placed d) (hd : d ≤ 64)
    (hlt : o.declaredWidth < 64) : ∀ c ∈ o.componentVec, c.InWord := by
  intro c hc
  have hin := h.inValue c hc
  have hfmt := h.inFormat c hc
  cases c with
  | bits high low width position =>
    simp only [BitsOrField.InValue] at hin
    simp only [BitsOrField.InFormat] at hfmt
    exact ⟨by omega, by omega⟩
  | binNum num position => trivial

theorem placed_of_operand {o : Overlay} (h : (Operand.overlay o).Of fmt placed)
    (hplaced : fmt.computeAndCheckFormatWidth getFormat = .ok placed) :
    o.Placed fmt.declaredWidth :=
  placed_of hplaced h.1 h.2.1 h.2.2

theorem field_of_mask {f : Field} (hm : (Operand.field f).mask = some m) :
    f.width < 64 ∧ 0 ≤ f.low ∧ f.low < 64 := by
  obtain ⟨ones, hones, hm⟩ := Option.bind_eq_some_iff.mp hm
  exact ⟨lt_of_widthMask hones, lt_of_shiftLeftULL hm⟩

theorem Operand.mask_bits (hplaced : fmt.computeAndCheckFormatWidth getFormat = .ok placed)
    (hd : fmt.declaredWidth ≤ 64) (hop : op.Of fmt placed) (hm : op.mask = some m) (i : Nat) :
    m.getLsbD i = (decide (i < 64) && op.reads i) := by
  cases op with
  | field f =>
    obtain ⟨hw, h0, hlow⟩ := field_of_mask hm
    obtain ⟨ones, r, hones, hr, hbits⟩ := getLsbD_shiftedMask h0 hlow hw
    rw [Operand.mask, hones, Option.bind_eq_bind, Option.bind_some, hr, Option.some.injEq] at hm
    rw [← hm, hbits, Operand.reads, ← Bool.decide_and]
  | overlay o =>
    have hp := placed_of_operand hop hplaced
    obtain ⟨m', hm', hbits⟩ := Overlay.mask_bits (hp.good (inWord_of_mask hp hd hm))
    have hm : o.mask = some m := hm
    rw [hm, Option.some.injEq] at hm'
    rw [hm', hbits, Operand.reads]

/-- The masks of operands of a format are defined, apart from overlays with a component of 64 bits
    and fields without bits at the top. -/
theorem Operand.exists_mask (hplaced : fmt.computeAndCheckFormatWidth getFormat = .ok placed)
    (hd : fmt.declaredWidth ≤ 64) (hop : op.Of fmt placed)
    (hdef : match op with
      | .field f => 0 < f.width ∧ f.width < 64
      | .overlay o => ∀ c ∈ o.componentVec, c.InWord) : ∃ m, op.mask = some m := by
  cases op with
  | field f =>
    obtain ⟨h0, hfit⟩ := Format.placed_bounds hplaced hop rfl
    simp only [FieldOrFormat.low, FieldOrFormat.width] at h0 hfit
    obtain ⟨ones, r, hones, hr, -⟩ := getLsbD_shiftedMask h0 (by omega) hdef.2
    exact ⟨r, by rw [Operand.mask, hones, Option.bind_eq_bind, Option.bind_some, hr]⟩
  | overlay o =>
    obtain ⟨m, hm, -⟩ := Overlay.mask_bits ((placed_of_operand hop hplaced).good hdef)
    exact ⟨m, hm⟩

end Operand

/-! ### One constraint -/

section Constraint

variable {fmt : Format} {placed : List FieldOrFormat} {getFormat : String → Option Nat}
  {c : Constraint} {m b w₀ w : BitVec 64}

theorem testBit_fieldBits (w : BitVec 64) (low width j : Nat) :
    ((w >>> low).toNat % 2 ^ width).testBit j = (decide (j < width) && w.getLsbD (low + j)) := by
  rw [Nat.testBit_mod_two_pow, BitVec.testBit_toNat, BitVec.getLsbD_ushiftRight]

/-- What a constraint puts into the value are the bits of a word that satisfies it. -/
theorem Constraint.bits_of_satisfied
    (hplaced : fmt.computeAndCheckFormatWidth getFormat = .ok placed)
    (hd : fmt.declaredWidth ≤ 64) (hop : c.lhs.Of fmt placed) (hm : c.lhs.mask = some m)
    (hb : c.lhs.bits c.value = some b) (hsat : c.Satisfied w₀) : m &&& b = m &&& w₀ := by
  refine BitVec.eq_of_getLsbD_eq fun i hi => ?_
  rw [BitVec.getLsbD_and, BitVec.getLsbD_and, Operand.mask_bits hplaced hd hop hm,
    decide_eq_true hi, Bool.true_and]
  cases hreads : c.lhs.reads i with
  | false => rw [Bool.false_and, Bool.false_and]
  | true =>
    rw [Bool.true_and, Bool.true_and]
    rw [Constraint.Satisfied] at hsat
    cases hlhs : c.lhs with
    | field f =>
      rw [hlhs] at hm hb hsat hreads
      simp only [Operand.reads, decide_eq_true_eq] at hreads
      obtain ⟨hw, h0, hlow⟩ := field_of_mask hm
      obtain ⟨r, hr, hbits⟩ := getLsbD_shiftLeftULL (v := c.value) h0 hlow
      have hb : shiftLeftULL c.value f.low = some b := hb
      rw [hr, Option.some.injEq] at hb
      have hbit := testBit_fieldBits w₀ f.low.toNat f.width (i - f.low.toNat)
      have hplace : f.low.toNat + (i - f.low.toNat) = i := by omega
      rw [hsat, decide_eq_true (by omega), Bool.true_and, hplace, BitVec.testBit_toNat] at hbit
      rw [← hb, hbits, decide_eq_true (by omega), Bool.true_and, hbit]
    | overlay o =>
      rw [hlhs] at hop hm hb hsat hreads
      have hp := placed_of_operand hop hplaced
      have hgood := hp.good (inWord_of_mask hp hd hm)
      obtain ⟨b', hb', hbits⟩ := getBitField_bits hgood c.value
      obtain ⟨v, hv, hvbits⟩ := getValue_bits hgood w₀
      have hb : o.getBitField c.value = some b := hb
      rw [hb, Option.some.injEq] at hb'
      have hsat : o.getValue w₀ = .ok (some c.value) := hsat
      rw [hsat, Except.ok.injEq, Option.some.injEq] at hv
      have hread : readMask o.pieces i = true := hreads
      rw [hb', hbits, decide_eq_true hi, Bool.true_and, hv, funext hvbits,
        scatter_gather hp.covers, hread, Bool.true_and]

/-- A word satisfies a constraint if it agrees with one that does on the bits of the operand. -/
theorem Constraint.satisfied_iff (hplaced : fmt.computeAndCheckFormatWidth getFormat = .ok placed)
    (hd : fmt.declaredWidth ≤ 64) (hop : c.lhs.Of fmt placed) (hm : c.lhs.mask = some m)
    (hsat : c.Satisfied w₀) : c.Satisfied w ↔ m &&& w = m &&& w₀ := by
  have hagree : m &&& w = m &&& w₀ ↔ ∀ i, c.lhs.reads i = true → w.getLsbD i = w₀.getLsbD i := by
    have hbits := Operand.mask_bits hplaced hd hop hm
    constructor
    · intro h i hreads
      by_cases hi : i < 64
      · have hbit := congrArg (BitVec.getLsbD · i) h
        simpa only [BitVec.getLsbD_and, hbits, decide_eq_true hi, hreads, Bool.true_and] using hbit
      · rw [BitVec.getLsbD_of_ge w i (by omega), BitVec.getLsbD_of_ge w₀ i (by omega)]
    · intro h
      refine BitVec.eq_of_getLsbD_eq fun i hi => ?_
      rw [BitVec.getLsbD_and, BitVec.getLsbD_and, hbits]
      cases hreads : c.lhs.reads i with
      | false => rw [Bool.and_false, Bool.false_and, Bool.false_and]
      | true => rw [h i hreads]
  rw [hagree]
  rw [Constraint.Satisfied] at hsat ⊢
  cases hlhs : c.lhs with
  | field f =>
    rw [hlhs] at hm hsat
    simp only [Operand.reads, decide_eq_true_eq]
    have hsat : (w₀ >>> f.low.toNat).toNat % 2 ^ f.width = c.value.toNat := hsat
    rw [← hsat]
    constructor
    · intro h i hi
      have hbit := congrArg (Nat.testBit · (i - f.low.toNat)) h
      have hplace : f.low.toNat + (i - f.low.toNat) = i := by omega
      simpa only [testBit_fieldBits, hplace, decide_eq_true (show i - f.low.toNat < f.width by omega),
        Bool.true_and] using hbit
    · intro h
      refine Nat.eq_of_testBit_eq fun j => ?_
      rw [testBit_fieldBits, testBit_fieldBits]
      by_cases hj : j < f.width
      · rw [h (f.low.toNat + j) (by omega)]
      · rw [decide_eq_false hj, Bool.false_and, Bool.false_and]
  | overlay o =>
    rw [hlhs] at hop hm hsat
    have hp := placed_of_operand hop hplaced
    have hgood := hp.good (inWord_of_mask hp hd hm)
    obtain ⟨v, hv, hvbits⟩ := getValue_bits hgood w
    obtain ⟨v₀, hv₀, hvbits₀⟩ := getValue_bits hgood w₀
    have hsat : o.getValue w₀ = .ok (some c.value) := hsat
    rw [hsat, Except.ok.injEq, Option.some.injEq] at hv₀
    show o.getValue w = .ok (some c.value) ↔ ∀ i, readMask o.pieces i = true → _
    rw [hv, Except.ok.injEq, Option.some.injEq, hv₀]
    constructor
    · rintro rfl i hread
      have hscatter := congrArg (scatter o.pieces · i)
        ((funext hvbits).symm.trans (funext hvbits₀))
      simpa only [scatter_gather hp.covers, hread, Bool.true_and] using hscatter
    · intro h
      refine BitVec.eq_of_getLsbD_eq fun j _ => ?_
      rw [hvbits, hvbits₀]
      exact gather_congr (fun p hpiece i hi =>
        h i (List.any_eq_true.mpr ⟨p, hpiece, hi⟩)) j

end Constraint

/-! ### All equal constraints -/

namespace EncodingState

/-- Several equal constraints are added, and all are accepted. -/
def addEqualConstraints (names : FormatNames) :
    EncodingState → List (String × BitVec 64) → Option EncodingState
  | s, [] => some s
  | s, (name, value) :: rest =>
    match s.addEqualConstraint names name value with
    | some (s', .ok ()) => s'.addEqualConstraints names rest
    | _ => none

section

variable {fmt : Format} {placed : List FieldOrFormat} {getFormat : String → Option Nat}
  {cs : List Constraint} {w₀ : BitVec 64}

theorem or_and_eq_iff {a b w w₀ : BitVec 64} :
    (a ||| b) &&& w = (a ||| b) &&& w₀ ↔ a &&& w = a &&& w₀ ∧ b &&& w = b &&& w₀ := by
  have habsorb : ∀ x y z : BitVec 64, x &&& ((x ||| y) &&& z) = x &&& z := by
    intro x y z
    refine BitVec.eq_of_getLsbD_eq fun i _ => ?_
    rw [BitVec.getLsbD_and, BitVec.getLsbD_and, BitVec.getLsbD_or, BitVec.getLsbD_and]
    cases x.getLsbD i <;> simp
  constructor
  · intro h
    refine ⟨by rw [← habsorb a b w, h, habsorb], ?_⟩
    rw [← habsorb b a w, BitVec.or_comm, h, BitVec.or_comm, habsorb]
  · rintro ⟨ha, hb⟩
    rw [BitVec.and_or_distrib_right, BitVec.and_or_distrib_right, ha, hb]

/-- The loop collects the bits of the word that satisfies the constraints. -/
theorem equalLoop_of_satisfied (hplaced : fmt.computeAndCheckFormatWidth getFormat = .ok placed)
    (hd : fmt.declaredWidth ≤ 64) (hcs : ∀ c ∈ cs, c.lhs.Of fmt placed ∧ c.Satisfied w₀)
    {mask : BitVec 64} {r : BitVec 64 × BitVec 64}
    (h : equalLoop cs (mask, mask &&& w₀) = some r) :
    r.2 = r.1 &&& w₀ ∧ ∀ w, r.1 &&& w = r.1 &&& w₀ ↔
      mask &&& w = mask &&& w₀ ∧ ∀ c ∈ cs, c.Satisfied w := by
  induction cs generalizing mask with
  | nil =>
    cases h
    exact ⟨rfl, fun w => ⟨fun h => ⟨h, fun c hc => nomatch hc⟩, And.left⟩⟩
  | cons c rest ih =>
    obtain ⟨⟨hop, hsat⟩, hrest⟩ := List.forall_mem_cons.mp hcs
    rw [equalLoop, List.foldlM_cons] at h
    obtain ⟨r', hr', h⟩ := Option.bind_eq_some_iff.mp h
    obtain ⟨m, hm, hr'⟩ := Option.bind_eq_some_iff.mp hr'
    obtain ⟨b, hb, hr'⟩ := Option.bind_eq_some_iff.mp hr'
    cases hr'
    have hbits : (mask &&& w₀) ||| (m &&& b) = (mask ||| m) &&& w₀ := by
      rw [Constraint.bits_of_satisfied hplaced hd hop hm hb hsat, BitVec.and_or_distrib_right]
    rw [hbits] at h
    obtain ⟨hvalue, hiff⟩ := ih hrest h
    refine ⟨hvalue, fun w => ?_⟩
    rw [hiff, or_and_eq_iff, List.forall_mem_cons,
      Constraint.satisfied_iff hplaced hd hop hm hsat, and_assoc]

theorem exists_equalLoop (hcs : ∀ c ∈ cs, (∃ m, c.lhs.mask = some m) ∧
    ∃ b, c.lhs.bits c.value = some b) (r : BitVec 64 × BitVec 64) :
    ∃ r', equalLoop cs r = some r' := by
  induction cs generalizing r with
  | nil => exact ⟨r, rfl⟩
  | cons c rest ih =>
    obtain ⟨⟨⟨m, hm⟩, b, hb⟩, hrest⟩ := List.forall_mem_cons.mp hcs
    obtain ⟨r', hr'⟩ := ih hrest (r.1 ||| m, r.2 ||| (m &&& b))
    refine ⟨r', ?_⟩
    rw [equalLoop, List.foldlM_cons]
    simp only [hm, hb, Option.bind_eq_bind, Option.bind_some]
    exact hr'

/-- Constraints on fields, and on overlays without constants, are all kept together. -/
theorem addEqualConstraints_eq {names : FormatNames} {calls : List (String × BitVec 64)}
    (h : List.Forall₂ (fun call c => createValueConstraint names .kEq call.1 call.2 = some (.ok c))
      calls cs) (hplain : ∀ c ∈ cs, ∀ o, c.lhs = .overlay o → o.mustBeExtracted = false)
    (before : List Constraint) :
    addEqualConstraints names { init with equalConstraints := before } calls =
      some { init with equalConstraints := before ++ cs } := by
  induction h generalizing before with
  | nil => rw [addEqualConstraints, List.append_nil]
  | @cons call c calls cs hc _ ih =>
    obtain ⟨hplain, hrest⟩ := List.forall_mem_cons.mp hplain
    have hadd : addEqualConstraint names { init with equalConstraints := before } call.1 call.2 =
        some ({ init with equalConstraints := before ++ [c] }, .ok ()) := by
      have hextracted : c.mustBeExtracted = false := by
        unfold Constraint.mustBeExtracted
        cases hlhs : c.lhs with
        | field f => rfl
        | overlay o => exact hplain o hlhs
      simp only [addEqualConstraint, hc, hextracted, Option.bind_eq_bind, Option.bind_some]
      rfl
    rw [addEqualConstraints, hadd]
    simp only
    rw [ih hrest, List.append_assoc]
    rfl

theorem update_equal (cs : List Constraint) : update { init with equalConstraints := cs } =
    (equalLoop cs (0, 0)).map fun r => ⟨cs, [], [], true, r.1, 0, 0, r.2⟩ := by
  simp only [update, init, computeMaskAndValue, Bool.false_eq_true, if_false]
  cases equalLoop cs (0, 0) <;> rfl

end

end EncodingState

section Characterise

variable {fmt : Format} {placed : List FieldOrFormat} {getFormat : String → Option Nat}
  {names : FormatNames}

/-- **Mask and value.**  For equal constraints that are accepted and that some word satisfies, a
    word has the value under the mask exactly if it satisfies all of them.  Mask and value are
    defined as long as every constrained field has a bit. -/
theorem mask_value_characterise (hplaced : fmt.computeAndCheckFormatWidth getFormat = .ok placed)
    (hd : fmt.declaredWidth ≤ 64) (hnames : names.Of fmt placed)
    {calls : List (String × BitVec 64)} {cs : List Constraint}
    (hcalls : List.Forall₂
      (fun call c => createValueConstraint names .kEq call.1 call.2 = some (.ok c)) calls cs)
    (hplain : ∀ c ∈ cs, ∀ o, c.lhs = .overlay o → o.mustBeExtracted = false)
    {w₀ : BitVec 64} (hsat : ∀ c ∈ cs, c.Satisfied w₀) :
    ∃ s, EncodingState.init.addEqualConstraints names calls = some s ∧
      (∀ m v, s.getMask.map Prod.snd = some m → s.getValue.map Prod.snd = some v →
        ∀ w : BitVec 64, w &&& m = v ↔ ∀ c ∈ cs, c.Satisfied w) ∧
      ((∀ c ∈ cs, ∀ f, c.lhs = .field f → 0 < f.width) →
        ∃ m v, s.getMask.map Prod.snd = some m ∧ s.getValue.map Prod.snd = some v) := by
  refine ⟨_, EncodingState.addEqualConstraints_eq hcalls hplain [], ?_⟩
  rw [List.nil_append]
  have hof : ∀ c ∈ cs, c.lhs.Of fmt placed ∧ c.lhs.computedWidth < 32 := by
    intro c hc
    obtain ⟨call, -, hcall⟩ := exists_of_forall₂ hcalls hc
    obtain ⟨hop, -, hwidth⟩ := createValueConstraint_ok hcall
    exact ⟨hnames.operand hop, hwidth⟩
  refine ⟨fun m v hm hv w => ?_, fun hfields => ?_⟩
  · rw [EncodingState.getMask, EncodingState.update_equal, Option.map_map, Option.map_map] at hm
    rw [EncodingState.getValue, EncodingState.update_equal, Option.map_map, Option.map_map] at hv
    obtain ⟨r, hr, rfl⟩ := Option.map_eq_some_iff.mp hm
    obtain ⟨r', hr', rfl⟩ := Option.map_eq_some_iff.mp hv
    obtain rfl : r = r' := Option.some.inj (hr.symm.trans hr')
    have hstart : EncodingState.equalLoop cs (0, 0 &&& w₀) = some r :=
      (congrArg (fun v => EncodingState.equalLoop cs (0, v)) BitVec.zero_and).trans hr
    obtain ⟨hval, hiff⟩ := EncodingState.equalLoop_of_satisfied hplaced hd
      (fun c hc => ⟨(hof c hc).1, hsat c hc⟩) hstart
    show w &&& r.1 = r.2 ↔ _
    rw [hval, BitVec.and_comm w, hiff]
    exact and_iff_right (BitVec.zero_and.trans BitVec.zero_and.symm)
  · have hdef : ∀ c ∈ cs, (∃ m, c.lhs.mask = some m) ∧ ∃ b, c.lhs.bits c.value = some b := by
      intro c hc
      obtain ⟨hop, hwidth⟩ := hof c hc
      cases hlhs : c.lhs with
      | field f =>
        rw [hlhs] at hop hwidth
        have hwidth : f.width < 32 := hwidth
        obtain ⟨m, hm⟩ := Operand.exists_mask hplaced hd hop ⟨hfields c hc f hlhs, by omega⟩
        obtain ⟨-, h0, hlow⟩ := field_of_mask hm
        exact ⟨⟨m, hm⟩, _, if_pos ⟨h0, hlow⟩⟩
      | overlay o =>
        rw [hlhs] at hop hwidth
        have hwidth : o.computedWidth < 32 := hwidth
        have hp := placed_of_operand hop hplaced
        have hword := inWord_of_lt hp hd (by rw [hp.width]; omega)
        obtain ⟨m, hm⟩ := Operand.exists_mask hplaced hd hop hword
        obtain ⟨b, hb, -⟩ := getBitField_bits (hp.good hword) c.value
        exact ⟨⟨m, hm⟩, b, hb⟩
    obtain ⟨r, hr⟩ := EncodingState.exists_equalLoop hdef (0, 0)
    refine ⟨r.1, r.2, ?_, ?_⟩
    · rw [EncodingState.getMask, EncodingState.update_equal, hr]
      rfl
    · rw [EncodingState.getValue, EncodingState.update_equal, hr]
      rfl

/-- The displacement of a store: two fields that make one number. -/
def storeOffset : Overlay :=
  ⟨"offset", false, 12, [.fieldReference imm7 6 0, .fieldReference imm5 4 0]⟩

/-- A field and an overlay of `branchFormat`. -/
def storeNames : FormatNames :=
  ⟨"BType", fun name => if name = "func3" then some ⟨"func3", false, 14, 12, 3⟩ else none,
    fun name => if name = "offset" then some storeOffset else none⟩

theorem storeNames_of : storeNames.Of branchFormat branchPlaced := by
  refine ⟨fun name f h => ?_, fun name o h => ?_⟩
  · simp only [storeNames] at h
    split at h
    · cases h
      show FieldOrFormat.field _ ∈ branchPlaced
      decide
    · cases h
  · simp only [storeNames] at h
    split at h
    · cases h
      refine ⟨fun c hc => ?_, by decide, by decide⟩
      simp only [storeOffset, List.mem_cons, List.not_mem_nil, or_false] at hc
      rcases hc with rfl | rfl
      all_goals
        refine ⟨by simp [BitField.Accepted, imm7, imm5], fun field first last h => ?_⟩
        cases h
        decide
    · cases h

/-- The two constraints on stores, and a word that satisfies them. -/
theorem store_characterised :
    ∃ s, EncodingState.init.addEqualConstraints storeNames [("func3", 2), ("offset", 37)] = some s ∧
      (∀ m v, s.getMask.map Prod.snd = some m → s.getValue.map Prod.snd = some v →
        ∀ w : BitVec 64, w &&& m = v ↔
          ∀ c ∈ [⟨.kEq, .field ⟨"func3", false, 14, 12, 3⟩, none, 2⟩,
            ⟨.kEq, .overlay storeOffset, none, 37⟩], Constraint.Satisfied w c) ∧
      ((∀ c ∈ [(⟨.kEq, .field ⟨"func3", false, 14, 12, 3⟩, none, 2⟩ : Constraint),
          ⟨.kEq, .overlay storeOffset, none, 37⟩], ∀ f, c.lhs = .field f → 0 < f.width) →
        ∃ m v, s.getMask.map Prod.snd = some m ∧ s.getValue.map Prod.snd = some v) :=
  @mask_value_characterise branchFormat branchPlaced (fun _ => none) _
    (by decide) (by decide) storeNames_of _ _
    (.cons (by decide) (.cons (by decide) .nil))
    (by
      intro c hc o ho
      simp only [List.mem_cons, List.not_mem_nil, or_false] at hc
      rcases hc with rfl | rfl <;> cases ho
      decide)
    _ (show ∀ c ∈ [(⟨.kEq, .field ⟨"func3", false, 14, 12, 3⟩, none, 2⟩ : Constraint),
      ⟨.kEq, .overlay storeOffset, none, 37⟩], Constraint.Satisfied 0x020022A3 c by decide)

end Characterise

end MpactSim.Decoder
