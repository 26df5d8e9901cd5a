import MpactSim.Decoder.InstructionEncoding
import MpactSim.Decoder.OverlayValue

namespace MpactSim.Decoder

open Cpp

/-!
# The range of constraint values

A value is accepted for a field or overlay if its bits can stand for it.  What is stored is the
pattern of the value.

* `Representable`, `decodePattern` — the numbers that the bits of an operand stand for;
* `createValueConstraint_range`    — which values are accepted, and what is stored.
-/

/-! ### Operands -/

/-- Number of bits that the check uses. -/
def Operand.computedWidth : Operand → Nat
  | .field f => f.width
  | .overlay o => o.computedWidth

/-- `is_signed` of the field or overlay. -/
def Operand.isSigned : Operand → Bool
  | .field f => f.isSigned
  | .overlay o => o.isSigned

/-- The numbers that so many bits stand for. -/
def Representable (isSigned : Bool) (width : Nat) (v : Int) : Prop :=
  if isSigned = true then -2 ^ (width - 1) ≤ v ∧ v < 2 ^ (width - 1) else 0 ≤ v ∧ v < 2 ^ width

instance (isSigned : Bool) (width : Nat) (v : Int) : Decidable (Representable isSigned width v) :=
  inferInstanceAs (Decidable (if isSigned = true then -2 ^ (width - 1) ≤ v ∧ v < 2 ^ (width - 1)
    else 0 ≤ v ∧ v < 2 ^ width))

/-- The number that a pattern of bits stands for. -/
def decodePattern (isSigned : Bool) (width : Nat) (pattern : Nat) : Int :=
  if isSigned = true then (BitVec.ofNat width pattern).toInt else pattern

variable {width : Nat}

/-- The pattern of a number stands for it. -/
theorem decodePattern_emod {isSigned : Bool} {v : Int} {pattern : Nat}
    (hpos : isSigned = true → 0 < width) (hv : Representable isSigned width v)
    (hpattern : (pattern : Int) = v % 2 ^ width) : decodePattern isSigned width pattern = v := by
  rw [decodePattern]
  rw [Representable] at hv
  split_ifs at hv ⊢ with hs
  · have hwidth := hpos hs
    have hdouble : (2 : Int) ^ width = 2 * 2 ^ (width - 1) := by
      rw [← pow_succ', Nat.sub_add_cancel hwidth]
    have hofNat : BitVec.ofNat width pattern = BitVec.ofInt width v := by
      refine BitVec.eq_of_toNat_eq ?_
      have hcast : ((2 ^ width : Nat) : Int) = 2 ^ width := by push_cast; rfl
      have hnat : pattern % 2 ^ width = (v % 2 ^ width).toNat := by
        rw [← hpattern, Int.toNat_natCast]
        refine Nat.mod_eq_of_lt ?_
        have := Int.emod_lt_of_pos v (b := 2 ^ width) (by positivity)
        omega
      rw [BitVec.toNat_ofNat, BitVec.toNat_ofInt, hnat, hcast]
    rw [hofNat, BitVec.toInt_ofInt]
    refine Int.bmod_eq_of_le ?_ ?_
    · push_cast
      omega
    · push_cast
      omega
  · rw [hpattern, Int.emod_eq_of_lt hv.1 hv.2]

/-! ### The arithmetic of the checks -/

theorem oneShl_eq {k : Int} {n : Nat} (hk : k = n) (hn : n ≤ 30) : oneShl k = some (2 ^ n) := by
  have hpow : (2 : Int) ^ n ≤ 2 ^ 30 := pow_le_pow_right₀ (by norm_num) hn
  have hpos : (0 : Int) < 2 ^ n := by positivity
  rw [oneShl, if_pos (by omega), hk, Int.toNat_natCast, Expr.wrap_int (by omega) (by omega)]

theorem maskValue_eq (h : width ≤ 30) (value : BitVec 64) :
    ∃ r, maskValue width value = some r ∧ (r.toNat : Int) = value.toInt % 2 ^ width ∧
      maskValue width r = some r := by
  have hpow : (2 : Int) ^ width ≤ 2 ^ 30 := pow_le_pow_right₀ (by norm_num) h
  have hpos : (0 : Int) < 2 ^ width := by positivity
  have hmask : ∀ v, maskValue width v = some (v &&& BitVec.ofInt 64 (2 ^ width - 1)) := by
    intro v
    simp only [maskValue, oneShl_eq (k := width) rfl h, Option.bind_eq_bind, Option.bind_some]
    rw [intResult, if_pos (by omega)]
    rfl
  have hones : (BitVec.ofInt 64 (2 ^ width - 1)).toNat = 2 ^ width - 1 := by
    have hcast : ((2 : Int) ^ width - 1) = ((2 ^ width - 1 : Nat) : Int) := by
      rw [Nat.cast_sub Nat.one_le_two_pow]
      push_cast
      rfl
    have hlt : 2 ^ width ≤ 2 ^ 30 := Nat.pow_le_pow_right (by omega) h
    rw [hcast, BitVec.ofInt_natCast, BitVec.toNat_ofNat, Nat.mod_eq_of_lt (by omega)]
  refine ⟨_, hmask value, ?_, ?_⟩
  · rw [BitVec.toNat_and, hones, Nat.and_two_pow_sub_one_eq_mod]
    have hdvd : (2 : Int) ^ width ∣ 2 ^ 64 := pow_dvd_pow 2 (by omega)
    have hint : value.toInt % 2 ^ width = value.toNat % 2 ^ width := by
      rw [BitVec.toInt_eq_toNat_cond]
      split_ifs
      · rfl
      · rw [Int.sub_emod, Nat.cast_pow, Nat.cast_ofNat, Int.emod_eq_zero_of_dvd hdvd, sub_zero,
          Int.emod_emod]
    rw [hint]
    push_cast
    rfl
  · rw [hmask, BitVec.and_assoc, BitVec.and_self]

/-- A check that is made comes to a result, and passes exactly on a condition. -/
def Checks (check : Option (Except ConstraintError Unit)) (p : Prop) : Prop :=
  ∃ r, check = some r ∧ (r = .ok () ↔ p)

theorem checks_ite {p : Prop} [Decidable p] {e : ConstraintError} :
    Checks (some (if p then .error e else .ok ())) (¬ p) := by
  refine ⟨_, rfl, ?_⟩
  split_ifs with h
  · exact iff_of_false (fun h => nomatch h) (not_not.mpr h)
  · exact iff_of_true rfl h

theorem checkUnsignedField_checks (hw : width < 64) (name : String) (value : BitVec 64) :
    Checks (checkUnsignedField width name value) (Representable false width value.toInt) := by
  have hpow : (2 : Nat) ^ width < 2 ^ 64 := Nat.pow_lt_pow_right (by omega) hw
  have hlimit : shiftLeftULL 1 width = some (BitVec.twoPow 64 width) := by
    rw [shiftLeftULL, if_pos (by omega), BitVec.twoPow]
    rfl
  have hcast : ((2 ^ width : Nat) : Int) = 2 ^ width := by push_cast; rfl
  have hrep : Representable false width value.toInt ↔ 0 ≤ value.toInt ∧ value.toInt < 2 ^ width :=
    Iff.rfl
  rw [hrep, checkUnsignedField]
  split_ifs with hneg
  · exact ⟨_, rfl, iff_of_false (by simp) (by omega)⟩
  · rw [hlimit, Option.map_some, BitVec.toNat_twoPow_of_lt hw]
    obtain ⟨r, hr, hiff⟩ := checks_ite (p := 2 ^ width ≤ value.toNat)
    refine ⟨_, rfl, (Option.some.inj hr ▸ hiff).trans ?_⟩
    have hint : value.toInt = value.toNat := by
      rw [BitVec.toInt_eq_toNat_cond] at hneg ⊢
      split_ifs at hneg ⊢
      · rfl
      · omega
    omega

theorem checkUnsignedOverlay_checks (hw : width ≤ 30) (name : String) (value : BitVec 64) :
    Checks (checkUnsignedOverlay width name value) (Representable false width value.toInt) := by
  have hrep : Representable false width value.toInt ↔ 0 ≤ value.toInt ∧ value.toInt < 2 ^ width :=
    Iff.rfl
  rw [hrep, checkUnsignedOverlay, oneShl_eq (k := width) rfl hw, Option.map_some]
  obtain ⟨r, hr, hiff⟩ := checks_ite (p := 2 ^ width ≤ value.toInt ∨ value.toInt < 0)
  exact ⟨_, rfl, (Option.some.inj hr ▸ hiff).trans (by omega)⟩

theorem checkSigned_checks (hw : width ≤ 31) (hpos : 0 < width) (what : String)
    (type : ConstraintType) (name : String) (value : BitVec 64) :
    Checks (checkSigned what type width name value)
      ((type = .kEq ∨ type = .kNe) ∧ Representable true width value.toInt) := by
  have hrep : Representable true width value.toInt ↔
    -2 ^ (width - 1) ≤ value.toInt ∧ value.toInt < 2 ^ (width - 1) := Iff.rfl
  have hpow : (2 : Int) ^ (width - 1) ≤ 2 ^ 30 := pow_le_pow_right₀ (by norm_num) (by omega)
  have hpow0 : (0 : Int) < 2 ^ (width - 1) := by positivity
  rw [hrep, checkSigned]
  split_ifs with htype hneg
  · refine ⟨_, rfl, iff_of_false (fun h => nomatch h) fun h => ?_⟩
    exact h.1.elim htype.1 htype.2
  · have hallowed : type = .kEq ∨ type = .kNe := by tauto
    rw [oneShl_eq (n := width - 1) (by omega) (by omega), Option.bind_some, intResult,
      if_pos (by omega), Option.map_some]
    obtain ⟨r, hr, hiff⟩ := checks_ite (p := value.toInt < -2 ^ (width - 1))
    refine ⟨_, rfl, (Option.some.inj hr ▸ hiff).trans ?_⟩
    rw [and_iff_right hallowed]
    omega
  · have hallowed : type = .kEq ∨ type = .kNe := by tauto
    rw [oneShl_eq (n := width - 1) (by omega) (by omega), Option.bind_some]
    obtain ⟨r, hr, hiff⟩ := checks_ite (p := 2 ^ (width - 1) ≤ value.toInt)
    refine ⟨_, rfl, (Option.some.inj hr ▸ hiff).trans ?_⟩
    rw [and_iff_right hallowed]
    omega

/-! ### Accepted values -/

section Accepted

variable {names : FormatNames} {name : String} {op : Operand}

theorem makeConstraint_eq {check : Option (Except ConstraintError Unit)} {p : Prop}
    (h : Checks check p) {pattern : BitVec 64} {stored : Option (BitVec 64)}
    (hstored : stored = some pattern) (make : BitVec 64 → Constraint) :
    ∃ r, makeConstraint check stored make = some r ∧ ((∃ c, r = .ok c) ↔ p) ∧
      ∀ c, r = Except.ok (ε := ConstraintError) c → c = make pattern := by
  obtain ⟨r, rfl, hr⟩ := h
  rw [makeConstraint, Option.bind_some]
  cases r with
  | error e =>
    refine ⟨.error e, rfl, iff_of_false (fun ⟨c, hc⟩ => nomatch hc) fun hp => ?_, fun c hc => ?_⟩
    · exact nomatch hr.mpr hp
    · exact nomatch hc
  | ok u =>
    refine ⟨.ok (make pattern), ?_, iff_of_true ⟨_, rfl⟩ (hr.mp rfl), fun c hc => ?_⟩
    · rw [hstored, Option.map_some]
    · exact (Except.ok.inj hc).symm

theorem of_makeConstraint {check : Option (Except ConstraintError Unit)}
    {stored : Option (BitVec 64)} {make : BitVec 64 → Constraint} {c : Constraint}
    (h : makeConstraint check stored make = some (.ok c)) :
    ∃ v, stored = some v ∧ c = make v := by
  obtain ⟨r, -, h⟩ := Option.bind_eq_some_iff.mp h
  cases r with
  | error e => cases h
  | ok u =>
    obtain ⟨v, hv, h⟩ := Option.map_eq_some_iff.mp h
    exact ⟨v, hv, (Except.ok.inj h).symm⟩

theorem lt_of_maskValue {width : Nat} {value r : BitVec 64} (h : maskValue width value = some r) :
    width < 32 := by
  obtain ⟨one, hone, -⟩ := Option.bind_eq_some_iff.mp h
  rw [oneShl] at hone
  split at hone
  · omega
  · cases hone

/-- A constraint with a value is about the operand of the name, which has less than 32 bits. -/
theorem createValueConstraint_ok {type : ConstraintType} {value : BitVec 64} {c : Constraint}
    (h : createValueConstraint names type name value = some (.ok c)) :
    names.operand name = some c.lhs ∧ c.rhs = none ∧ c.lhs.computedWidth < 32 := by
  rw [createValueConstraint] at h
  rw [FormatNames.operand]
  cases hfield : names.getField name with
  | some field =>
    simp only [hfield] at h
    split at h
    · cases h
    · obtain ⟨v, hv, rfl⟩ := of_makeConstraint h
      exact ⟨rfl, rfl, lt_of_maskValue hv⟩
  | none =>
    simp only [hfield] at h
    cases hoverlay : names.getOverlay name with
    | none =>
      rw [hoverlay] at h
      cases h
    | some overlay =>
      simp only [hoverlay] at h
      obtain ⟨v, hv, rfl⟩ := of_makeConstraint h
      obtain ⟨u, -, hv⟩ := Option.bind_eq_some_iff.mp hv
      exact ⟨rfl, rfl, lt_of_maskValue hv⟩

/-- **The range check.**  A field or overlay of at most 30 bits accepts the values that its bits
    stand for, a signed one for `==` and `!=` only.  The pattern that is stored is the value modulo
    `2 ^ width` and stands for it.  An unsigned field of any width refuses all other values. -/
theorem createValueConstraint_range (hop : names.operand name = some op) (type : ConstraintType)
    (value : BitVec 64) :
    (op.computedWidth ≤ 30 → (op.isSigned = true → 0 < op.computedWidth) →
      ∃ r, createValueConstraint names type name value = some r ∧
        ((∃ c, r = .ok c) ↔ (op.isSigned = true → type = .kEq ∨ type = .kNe) ∧
          Representable op.isSigned op.computedWidth value.toInt) ∧
        ∀ c, r = .ok c → c.type = type ∧ c.lhs = op ∧ c.rhs = none ∧
          (c.value.toNat : Int) = value.toInt % 2 ^ op.computedWidth ∧
          decodePattern op.isSigned op.computedWidth c.value.toNat = value.toInt) ∧
    ∀ field, op = .field field → field.isSigned = false → field.width < 64 →
      ¬ Representable false field.width value.toInt →
      ∃ e, createValueConstraint names type name value = some (.error e) := by
  rw [FormatNames.operand] at hop
  refine ⟨fun hw hpos => ?_, ?_⟩
  · obtain ⟨pattern, hpattern, hmod, hagain⟩ := maskValue_eq hw value
    -- What is stored, once the check has been passed.
    have hfinish : ∀ r : Except ConstraintError Constraint,
        ((∃ c, r = .ok c) ↔ (op.isSigned = true → type = .kEq ∨ type = .kNe) ∧
          Representable op.isSigned op.computedWidth value.toInt) →
        (∀ c, r = .ok c → c = ⟨type, op, none, pattern⟩) →
        ∀ c, r = .ok c → c.type = type ∧ c.lhs = op ∧ c.rhs = none ∧
          (c.value.toNat : Int) = value.toInt % 2 ^ op.computedWidth ∧
          decodePattern op.isSigned op.computedWidth c.value.toNat = value.toInt := by
      intro r hiff hstored c hc
      rw [hstored c hc]
      exact ⟨rfl, rfl, rfl, hmod, decodePattern_emod hpos (hiff.mp ⟨c, hc⟩).2 hmod⟩
    have hsigned : ∀ what, op.isSigned = true →
        Checks (checkSigned what type op.computedWidth name value)
          ((op.isSigned = true → type = .kEq ∨ type = .kNe) ∧
            Representable op.isSigned op.computedWidth value.toInt) := by
      intro what hs
      have h := checkSigned_checks (by omega) (hpos hs) what type name value
      rw [hs]
      simpa using h
    have hunsigned : ∀ {check}, op.isSigned = false →
        Checks check (Representable false op.computedWidth value.toInt) →
        Checks check ((op.isSigned = true → type = .kEq ∨ type = .kNe) ∧
            Representable op.isSigned op.computedWidth value.toInt) := by
      intro check hs h
      rw [hs]
      simpa using h
    rw [createValueConstraint]
    cases hfield : names.getField name with
    | some field =>
      rw [hfield, Option.some.injEq] at hop
      subst hop
      have hcheck : Checks (if field.isSigned = true then
          checkSigned "field" type field.width name value
          else checkUnsignedField field.width name value)
          (((Operand.field field).isSigned = true → type = .kEq ∨ type = .kNe) ∧
            Representable (Operand.field field).isSigned (Operand.field field).computedWidth
              value.toInt) := by
        split_ifs with hs
        · exact hsigned "field" hs
        · exact hunsigned (Bool.not_eq_true _ ▸ hs)
            (checkUnsignedField_checks (by have : field.width ≤ 30 := hw; omega) name value)
      obtain ⟨r, hr, hiff, hstored⟩ := makeConstraint_eq hcheck hpattern fun v => ⟨type, .field field, none, v⟩
      have hnot : ¬ 64 ≤ field.width := by have : field.width ≤ 30 := hw; omega
      refine ⟨r, ?_, hiff, hfinish r hiff hstored⟩
      simp only [if_neg hnot]
      exact hr
    | none =>
      rw [hfield] at hop
      obtain ⟨overlay, hoverlay, rfl⟩ := Option.map_eq_some_iff.mp hop
      have hcheck : Checks (if overlay.isSigned = true then
          checkSigned "overlay" type overlay.computedWidth name value
          else checkUnsignedOverlay overlay.computedWidth name value)
          (((Operand.overlay overlay).isSigned = true → type = .kEq ∨ type = .kNe) ∧
            Representable (Operand.overlay overlay).isSigned
              (Operand.overlay overlay).computedWidth value.toInt) := by
        split_ifs with hs
        · exact hsigned "overlay" hs
        · exact hunsigned (Bool.not_eq_true _ ▸ hs) (checkUnsignedOverlay_checks hw name value)
      -- A negative value is masked twice.
      have hstore : ((if overlay.isSigned = true ∧ value.toInt < 0
          then maskValue overlay.computedWidth value else some value).bind
            (maskValue overlay.computedWidth)) = some pattern := by
        split_ifs
        · rw [show maskValue overlay.computedWidth value = some pattern from hpattern,
            Option.bind_some]
          exact hagain
        · rw [Option.bind_some]
          exact hpattern
      obtain ⟨r, hr, hiff, hstored⟩ := makeConstraint_eq hcheck hstore
        fun v => ⟨type, .overlay overlay, none, v⟩
      refine ⟨r, ?_, hiff, hfinish r hiff hstored⟩
      simp only [hoverlay]
      exact hr
  · rintro field rfl hs hw hnot
    cases hfield : names.getField name with
    | none =>
      rw [hfield] at hop
      obtain ⟨overlay, -, h⟩ := Option.map_eq_some_iff.mp hop
      cases h
    | some field' =>
      rw [hfield, Option.some.injEq, Operand.field.injEq] at hop
      subst hop
      obtain ⟨r, hr, hiff⟩ := checkUnsignedField_checks hw name value
      rw [createValueConstraint, hfield]
      simp only [if_neg (not_le.mpr hw), hs, Bool.false_eq_true, if_false, hr,
        makeConstraint, Option.bind_some]
      cases r with
      | error e => exact ⟨e, rfl⟩
      | ok u => exact absurd (hiff.mp rfl) hnot

/-- A format with a signed field of 8 bits. -/
def offsetNames : FormatNames :=
  ⟨"Load", fun name => if name = "offset" then some ⟨"offset", true, 7, 0, 8⟩ else none,
    fun _ => none⟩

/-- A negative offset is stored as its pattern. -/
theorem offset_accepted : ∃ r, createValueConstraint offsetNames .kNe "offset" (-3) = some r ∧
    ((∃ c, r = .ok c) ↔ (true = true → ConstraintType.kNe = .kEq ∨ ConstraintType.kNe = .kNe) ∧
      Representable true 8 (BitVec.toInt (-3 : BitVec 64))) ∧
    ∀ c, r = .ok c → c.type = .kNe ∧ c.lhs = .field ⟨"offset", true, 7, 0, 8⟩ ∧ c.rhs = none ∧
      (c.value.toNat : Int) = BitVec.toInt (-3 : BitVec 64) % 2 ^ 8 ∧
      decodePattern true 8 c.value.toNat = BitVec.toInt (-3 : BitVec 64) :=
  (@createValueConstraint_range offsetNames _ (.field ⟨"offset", true, 7, 0, 8⟩) (by decide)
      .kNe (-3)).1 (by decide) (by decide)

/-- Signed fields are compared for equality only. -/
theorem offset_less_refused :
    Representable true 8 (BitVec.toInt (1 : BitVec 64)) ∧
      createValueConstraint offsetNames .kLt "offset" 1 = some (.error ⟨.invalidArgument,
        "Only eq and ne constraints allowed on signed field: offset"⟩) := by
  decide

end Accepted

end MpactSim.Decoder
