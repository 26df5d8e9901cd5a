import MpactSim.Decoder.ConstraintMasks
import MpactSim.Lib.Run

namespace MpactSim.Decoder

open Cpp Lib Overlay

/-!
# The cached masks of an encoding

`AddOtherConstraint` does not clear the flag that the masks are set, and the mask of a right side
is cut down to bits of the left side.  Neither matters as long as the bits are in the combined
mask anyway.

* `EncodingState.Coherent` — queries return what the constraints so far say;
* `EncodingState.Fine`     — the call adds no bits that are lost;
* `coherent_of_fine`       — a run of such calls is coherent in every state.
-/

/-! ### The bits of constraints -/

/-- The bits of both sides of a constraint. -/
def Constraint.reads (c : Constraint) (i : Nat) : Bool :=
  c.lhs.reads i || c.rhs.elim false fun rhs => rhs.reads i

/-- What is left of the bits of the right side. -/
def Constraint.kept (c : Constraint) (i : Nat) : Bool :=
  match c.rhs with
  | none => false
  | some (.field f) => (Operand.field f).reads i && c.lhs.reads (i - f.low.toNat)
  | some (.overlay o) => (Operand.overlay o).reads i && c.lhs.reads i

namespace EncodingState

/-- All constraints so far. -/
def constraints (s : EncodingState) : List Constraint :=
  s.equalConstraints ++ s.equalExtractedConstraints ++ s.otherConstraints

/-- The union of the bits of all constraints. -/
def covered (s : EncodingState) (i : Nat) : Bool := s.constraints.any fun c => c.reads i

/-- A query returns the mask and value of the equal constraints, and the union of the bits of all
    constraints. -/
def Coherent (s : EncodingState) : Prop :=
  ∃ mask value combined, s.getMask.map Prod.snd = some mask ∧ s.getValue.map Prod.snd = some value ∧
    s.getCombinedMask.map Prod.snd = some combined ∧
    equalLoop s.equalConstraints (0, 0) = some (mask, value) ∧
    ∀ i, combined.getLsbD i = (decide (i < 64) && s.covered i)

/-- The state after a call.  A call that is undefined leads to no state. -/
def next (names : FormatNames) (s : EncodingState) (call : EncodingCall) : EncodingState :=
  ((s.serve names call).map Prod.fst).getD s

/-- A constraint other than an equal one loses no bits: the masks of its operands are defined, what
    is cut from its right side is in the combined mask anyway, and so are all its bits if the masks
    are set. -/
structure Takes (s : EncodingState) (c : Constraint) : Prop where
  lhs : ∃ m, c.lhs.mask = some m
  rhs : ∀ rhs, c.rhs = some rhs → ∃ m, rhs.mask = some m
  cut : ∀ rhs, c.rhs = some rhs → ∀ i < 64, rhs.reads i = true →
    s.covered i = true ∨ c.lhs.reads i = true ∨ c.kept i = true
  set : s.maskSet = true → ∀ i < 64, c.reads i = true → s.covered i = true

/-- A call that loses no bits. -/
def Fine (names : FormatNames) (s : EncodingState) : EncodingCall → Prop
  | .addEqualConstraint name value =>
    ∀ c, createValueConstraint names .kEq name value = some (.ok c) → ∃ m, c.lhs.mask = some m
  | .addOtherConstraint type name value =>
    ∀ c, createValueConstraint names type name value = some (.ok c) → s.Takes c
  | .addOtherOperands type lhsName rhsName =>
    ∀ c, createOperandConstraint names type lhsName rhsName = .ok c → s.Takes c
  | _ => True

/-! ### The loops -/

section Loops

variable {fmt : Format} {placed : List FieldOrFormat} {getFormat : String → Option Nat}
  {cs : List Constraint}

theorem equalLoop_or (cs : List Constraint) (a b : BitVec 64) :
    equalLoop cs (a, b) = (equalLoop cs (0, 0)).map fun r => (a ||| r.1, b ||| r.2) := by
  have hgen : ∀ x y : BitVec 64, equalLoop cs (a ||| x, b ||| y) =
      (equalLoop cs (x, y)).map fun r => (a ||| r.1, b ||| r.2) := by
    induction cs with
    | nil =>
      intro x y
      rfl
    | cons c rest ih =>
      intro x y
      rw [equalLoop, equalLoop, List.foldlM_cons, List.foldlM_cons]
      cases c.lhs.mask with
      | none => rfl
      | some m =>
        cases hb : c.lhs.bits c.value with
        | none => rfl
        | some v =>
          simp only [Option.bind_eq_bind, Option.bind_some, pure, BitVec.or_assoc]
          exact ih (x ||| m) (y ||| (m &&& v))
  have hzero : ∀ x : BitVec 64, x ||| 0 = x := fun x => BitVec.or_zero
  have h := hgen 0 0
  rwa [hzero, hzero] at h

theorem equalLoop_bits (hplaced : fmt.computeAndCheckFormatWidth getFormat = .ok placed)
    (hd : fmt.declaredWidth ≤ 64) (hcs : ∀ c ∈ cs, c.lhs.Of fmt placed)
    {a r : BitVec 64 × BitVec 64} (h : equalLoop cs a = some r) (i : Nat) :
    r.1.getLsbD i = (a.1.getLsbD i || (decide (i < 64) && cs.any fun c => c.lhs.reads i)) := by
  induction cs generalizing a with
  | nil =>
    cases h
    rw [List.any_nil, Bool.and_false, Bool.or_false]
  | cons c rest ih =>
    obtain ⟨hop, hrest⟩ := List.forall_mem_cons.mp hcs
    rw [equalLoop, List.foldlM_cons] at h
    obtain ⟨r', hr', h⟩ := Option.bind_eq_some_iff.mp h
    obtain ⟨m, hm, hr'⟩ := Option.bind_eq_some_iff.mp hr'
    obtain ⟨b, -, hr'⟩ := Option.bind_eq_some_iff.mp hr'
    cases hr'
    rw [ih hrest h, BitVec.getLsbD_or, Operand.mask_bits hplaced hd hop hm, List.any_cons,
      Bool.and_or_distrib_left, Bool.or_assoc]

theorem foldlM_or_constraints {f : Constraint → Option (BitVec 64)} {b : Constraint → Nat → Bool}
    (h : ∀ c ∈ cs, ∃ r, f c = some r ∧ ∀ i, r.getLsbD i = b c i) (acc : BitVec 64) :
    ∃ r, cs.foldlM (fun r c => (f c).map (r ||| ·)) acc = some r ∧
      ∀ i, r.getLsbD i = (acc.getLsbD i || cs.any fun c => b c i) := by
  induction cs generalizing acc with
  | nil => exact ⟨acc, rfl, fun i => by rw [List.any_nil, Bool.or_false]⟩
  | cons c rest ih =>
    obtain ⟨⟨x, hx, hxbits⟩, hrest⟩ := List.forall_mem_cons.mp h
    obtain ⟨r, hr, hbits⟩ := ih hrest (acc ||| x)
    refine ⟨r, ?_, fun i => ?_⟩
    · rw [List.foldlM_cons, hx, Option.map_some]
      exact hr
    · rw [hbits, BitVec.getLsbD_or, hxbits, List.any_cons, Bool.or_assoc]

theorem extractedLoop_bits (hplaced : fmt.computeAndCheckFormatWidth getFormat = .ok placed)
    (hd : fmt.declaredWidth ≤ 64)
    (hcs : ∀ c ∈ cs, c.lhs.Of fmt placed ∧ ∃ m, c.lhs.mask = some m) :
    ∃ r, extractedLoop cs = some r ∧
      ∀ i, r.getLsbD i = (decide (i < 64) && cs.any fun c => c.lhs.reads i) := by
  obtain ⟨r, hr, hbits⟩ := foldlM_or_constraints (f := fun c => c.lhs.mask)
    (b := fun c i => decide (i < 64) && c.lhs.reads i) (fun c hc => by
      obtain ⟨hop, m, hm⟩ := hcs c hc
      exact ⟨m, hm, Operand.mask_bits hplaced hd hop hm⟩) 0
  refine ⟨r, ?_, fun i => ?_⟩
  · rw [← hr, extractedLoop]
    refine congrFun (congrFun (congrArg _ (funext fun acc => funext fun c => ?_)) _) _
    cases c.lhs.mask <;> rfl
  · rw [hbits, show (0 : BitVec 64).getLsbD i = false from BitVec.getLsbD_zero, Bool.false_or]
    cases decide (i < 64) <;> simp

theorem rhsMask_bits (hplaced : fmt.computeAndCheckFormatWidth getFormat = .ok placed)
    (hd : fmt.declaredWidth ≤ 64) {c : Constraint} (hop : c.lhs.Of fmt placed) {m : BitVec 64}
    (hm : c.lhs.mask = some m) {rhs : Operand} (hrhs : c.rhs = some rhs)
    (hof : rhs.Of fmt placed) {m' : BitVec 64} (hm' : rhs.mask = some m') :
    ∃ r, rhsMask m rhs = some r ∧ ∀ i, r.getLsbD i = (decide (i < 64) && c.kept i) := by
  have hbits := Operand.mask_bits hplaced hd hop hm
  cases rhs with
  | field f =>
    obtain ⟨hw, h0, hlow⟩ := field_of_mask hm'
    obtain ⟨ones, hones, honesBits⟩ := getLsbD_widthMask hw
    obtain ⟨r, hr, hrbits⟩ := getLsbD_shiftLeftULL (v := m &&& ones) h0 hlow
    refine ⟨r, ?_, fun i => ?_⟩
    · simp only [rhsMask, hones, Option.bind_eq_bind, Option.bind_some]
      exact hr
    · rw [hrbits, BitVec.getLsbD_and, hbits, honesBits, Constraint.kept, hrhs]
      simp only [Operand.reads]
      by_cases hi : i < 64
      · rw [decide_eq_true hi, Bool.true_and, decide_eq_true (p := i - f.low.toNat < 64) (by omega),
          Bool.true_and]
        by_cases hle : f.low.toNat ≤ i
        · rw [decide_eq_true (p := i < 64 ∧ _) ⟨hi, hle⟩, Bool.true_and, Bool.and_comm]
          exact congrArg (· && _) (decide_eq_decide.mpr (by omega))
        · rw [decide_eq_false (p := i < 64 ∧ _) (by omega), Bool.false_and,
            decide_eq_false (p := _ ∧ i < _) (by omega), Bool.false_and]
      · rw [decide_eq_false (p := i < 64 ∧ _) (by omega), decide_eq_false hi, Bool.false_and,
          Bool.false_and]
  | overlay o =>
    have hobits := Operand.mask_bits hplaced hd hof hm'
    have hm' : o.mask = some m' := hm'
    refine ⟨m &&& m', ?_, fun i => ?_⟩
    · simp only [rhsMask, hm', Option.bind_eq_bind, Option.bind_some]
      rfl
    · rw [BitVec.getLsbD_and, hbits, hobits, Constraint.kept, hrhs]
      cases decide (i < 64) with
      | false => rfl
      | true => exact Bool.and_comm _ _

/-- What a constraint adds to the mask of the other constraints. -/
def otherTerm (c : Constraint) : Option (BitVec 64) :=
  c.lhs.mask.bind fun mask =>
    match c.rhs with
    | none => some mask
    | some rhs => (rhsMask mask rhs).map (mask ||| ·)

theorem otherLoop_eq (cs : List Constraint) :
    otherLoop cs = cs.foldlM (fun r c => (otherTerm c).map (r ||| ·)) 0 := by
  rw [otherLoop]
  refine congrFun (congrFun (congrArg _ (funext fun acc => funext fun c => ?_)) _) _
  rw [otherTerm]
  cases c.lhs.mask with
  | none => rfl
  | some m =>
    cases c.rhs with
    | none => rfl
    | some rhs =>
      simp only [Option.bind_eq_bind, Option.bind_some]
      cases rhsMask m rhs with
      | none => rfl
      | some x =>
        rw [Option.bind_some, Option.map_some, Option.map_some, BitVec.or_assoc]
        rfl

/-- The operands of a constraint are of the format, and their masks are defined. -/
structure WellMasked (fmt : Format) (placed : List FieldOrFormat) (c : Constraint) : Prop where
  of : c.lhs.Of fmt placed
  mask : ∃ m, c.lhs.mask = some m
  rhs : ∀ rhs, c.rhs = some rhs → rhs.Of fmt placed ∧ ∃ m, rhs.mask = some m

theorem otherLoop_bits (hplaced : fmt.computeAndCheckFormatWidth getFormat = .ok placed)
    (hd : fmt.declaredWidth ≤ 64) (hcs : ∀ c ∈ cs, WellMasked fmt placed c) :
    ∃ r, otherLoop cs = some r ∧ ∀ i, r.getLsbD i =
      (decide (i < 64) && cs.any fun c => c.lhs.reads i || c.kept i) := by
  obtain ⟨r, hr, hbits⟩ := foldlM_or_constraints (f := otherTerm)
    (b := fun c i => decide (i < 64) && (c.lhs.reads i || c.kept i)) (fun c hc => by
      obtain ⟨hop, ⟨m, hm⟩, hright⟩ := hcs c hc
      have hmbits := Operand.mask_bits hplaced hd hop hm
      cases hrhs : c.rhs with
      | none =>
        refine ⟨m, by simp only [otherTerm, hm, hrhs, Option.bind_some], fun i => ?_⟩
        rw [hmbits, Constraint.kept, hrhs, Bool.or_false]
      | some rhs =>
        obtain ⟨hof, m', hm'⟩ := hright rhs hrhs
        obtain ⟨x, hx, hxbits⟩ := rhsMask_bits hplaced hd hop hm hrhs hof hm'
        refine ⟨m ||| x, by simp only [otherTerm, hm, hrhs, hx, Option.bind_some, Option.map_some],
          fun i => ?_⟩
        rw [BitVec.getLsbD_or, hmbits, hxbits, Bool.and_or_distrib_left]) 0
  refine ⟨r, (otherLoop_eq cs).trans hr, fun i => ?_⟩
  rw [hbits, show (0 : BitVec 64).getLsbD i = false from BitVec.getLsbD_zero, Bool.false_or]
  cases decide (i < 64) <;> simp

end Loops

/-! ### Coherent states -/

section Coherent

variable {fmt : Format} {placed : List FieldOrFormat} {getFormat : String → Option Nat}
  {names : FormatNames} {s : EncodingState}

/-- What holds between the calls of a run that loses no bits. -/
structure Inv (fmt : Format) (placed : List FieldOrFormat) (s : EncodingState) : Prop where
  equal : ∀ c ∈ s.equalConstraints, c.rhs = none ∧ c.lhs.computedWidth < 32
  extracted : ∀ c ∈ s.equalExtractedConstraints, c.rhs = none
  masked : ∀ c ∈ s.constraints, WellMasked fmt placed c
  cut : ∀ c ∈ s.otherConstraints, ∀ i < 64, c.reads i = true →
    (s.constraints.any fun c => c.lhs.reads i || c.kept i) = true
  value : ∃ mask value, equalLoop s.equalConstraints (0, 0) = some (mask, value) ∧
    s.value ||| value = value ∧ (s.maskSet = true → s.mask = mask ∧ s.value = value)
  combined : s.maskSet = true → ∀ i, (s.mask ||| s.extractedMask ||| s.otherMask).getLsbD i =
    (decide (i < 64) && s.covered i)

theorem inv_init : init.Inv fmt placed where
  equal := fun _ hc => nomatch hc
  extracted := fun _ hc => nomatch hc
  masked := fun _ hc => nomatch hc
  cut := fun _ hc => nomatch hc
  value := ⟨0, 0, rfl, BitVec.or_zero, fun h => nomatch h⟩
  combined := fun h => nomatch h

theorem covered_eq (s : EncodingState) (i : Nat) : s.covered i =
    ((s.equalConstraints.any fun c => c.reads i) ||
      (s.equalExtractedConstraints.any fun c => c.reads i) ||
        s.otherConstraints.any fun c => c.reads i) := by
  rw [covered, constraints, List.any_append, List.any_append]

/-- What is computed for the combined mask is the union of the bits. -/
theorem computed_eq_covered (h : s.Inv fmt placed) {i : Nat} (hi : i < 64) :
    ((s.equalConstraints.any fun c => c.lhs.reads i) ||
      (s.equalExtractedConstraints.any fun c => c.lhs.reads i) ||
        s.otherConstraints.any fun c => c.lhs.reads i || c.kept i) = s.covered i := by
  have hnone : ∀ c : Constraint, c.rhs = none → c.reads i = c.lhs.reads i ∧ c.kept i = false := by
    intro c hc
    rw [Constraint.reads, Constraint.kept, hc]
    exact ⟨Bool.or_false _, rfl⟩
  -- What is kept of a right side are some of its bits.
  have hkept : ∀ c : Constraint, c.kept i = true → c.reads i = true := by
    intro c hc
    rw [Constraint.kept] at hc
    rw [Constraint.reads]
    cases hrhs : c.rhs with
    | none =>
      rw [hrhs] at hc
      cases hc
    | some rhs =>
      rw [hrhs] at hc
      cases rhs <;>
        exact Bool.or_eq_true_iff.mpr (Or.inr (Bool.and_eq_true_iff.mp hc).1)
  rw [Bool.eq_iff_iff, covered_eq]
  simp only [Bool.or_eq_true, List.any_eq_true]
  constructor
  · rintro ((⟨c, hc, hr⟩ | ⟨c, hc, hr⟩) | ⟨c, hc, hr | hr⟩)
    · exact Or.inl (Or.inl ⟨c, hc, (hnone c (h.equal c hc).1).1.trans hr⟩)
    · exact Or.inl (Or.inr ⟨c, hc, (hnone c (h.extracted c hc)).1.trans hr⟩)
    · exact Or.inr ⟨c, hc, Bool.or_eq_true_iff.mpr (Or.inl hr)⟩
    · exact Or.inr ⟨c, hc, hkept c hr⟩
  · rintro ((⟨c, hc, hr⟩ | ⟨c, hc, hr⟩) | ⟨c, hc, hr⟩)
    · exact Or.inl (Or.inl ⟨c, hc, (hnone c (h.equal c hc).1).1.symm.trans hr⟩)
    · exact Or.inl (Or.inr ⟨c, hc, (hnone c (h.extracted c hc)).1.symm.trans hr⟩)
    · obtain ⟨c', hc', hr'⟩ := List.any_eq_true.mp (h.cut c hc i hi hr)
      rw [Bool.or_eq_true] at hr'
      rcases List.mem_append.mp hc' with hc' | hc'
      · rcases List.mem_append.mp hc' with hc' | hc'
        · rw [(hnone c' (h.equal c' hc').1).2, or_iff_left Bool.false_ne_true] at hr'
          exact Or.inl (Or.inl ⟨c', hc', hr'⟩)
        · rw [(hnone c' (h.extracted c' hc')).2, or_iff_left Bool.false_ne_true] at hr'
          exact Or.inl (Or.inr ⟨c', hc', hr'⟩)
      · exact Or.inr ⟨c', hc', hr'⟩

/-- Computing the masks, whenever it happens, gives those of the constraints so far. -/
theorem update_of_inv (hplaced : fmt.computeAndCheckFormatWidth getFormat = .ok placed)
    (hd : fmt.declaredWidth ≤ 64) (h : s.Inv fmt placed) :
    ∃ s', s.update = some s' ∧ s'.Inv fmt placed ∧ s'.maskSet = true ∧
      s'.equalConstraints = s.equalConstraints ∧ s'.constraints = s.constraints := by
  rw [update]
  split_ifs with hset
  · exact ⟨s, rfl, h, hset, rfl, rfl⟩
  · obtain ⟨mask, value, hloop, hvalue, -⟩ := h.value
    have hmem : ∀ c ∈ s.equalConstraints ++ s.equalExtractedConstraints, WellMasked fmt placed c :=
      fun c hc => h.masked c (List.mem_append_left _ hc)
    obtain ⟨extracted, hextracted, hebits⟩ := extractedLoop_bits hplaced hd
      fun c hc =>
        have hc := hmem c (List.mem_append_right _ hc)
        ⟨hc.of, hc.mask⟩
    obtain ⟨other, hother, hobits⟩ := otherLoop_bits hplaced hd
      fun c hc => h.masked c (List.mem_append_right _ hc)
    have hmbits := equalLoop_bits hplaced hd
      (fun c hc => (hmem c (List.mem_append_left _ hc)).of) hloop
    have hstart : equalLoop s.equalConstraints (0, s.value) = some (mask, value) := by
      rw [equalLoop_or, hloop, Option.map_some]
      exact congrArg some (Prod.ext BitVec.zero_or hvalue)
    refine ⟨⟨s.equalConstraints, s.equalExtractedConstraints, s.otherConstraints, true, mask, other,
      extracted, value⟩, ?_, ⟨h.equal, h.extracted, h.masked, h.cut, ?_, fun _ i => ?_⟩, rfl,
      rfl, rfl⟩
    · simp only [computeMaskAndValue, hstart, hextracted, hother, Option.bind_eq_bind,
        Option.bind_some]
      rfl
    · exact ⟨mask, value, hloop, BitVec.or_self, fun _ => ⟨rfl, rfl⟩⟩
    · show (mask ||| extracted ||| other).getLsbD i = (decide (i < 64) && s.covered i)
      rw [BitVec.getLsbD_or, BitVec.getLsbD_or, hmbits, hebits, hobits,
        show (0 : BitVec 64).getLsbD i = false from BitVec.getLsbD_zero, Bool.false_or]
      by_cases hi : i < 64
      · simp only [decide_eq_true hi, Bool.true_and]
        exact computed_eq_covered h hi
      · simp only [decide_eq_false hi, Bool.false_and, Bool.or_false]

theorem coherent_of_inv (hplaced : fmt.computeAndCheckFormatWidth getFormat = .ok placed)
    (hd : fmt.declaredWidth ≤ 64) (h : s.Inv fmt placed) : s.Coherent := by
  obtain ⟨s', hs', hinv, hset, hequal, hcs⟩ := update_of_inv hplaced hd h
  obtain ⟨mask, value, hloop, -, hcached⟩ := hinv.value
  obtain ⟨hmask, hvalue⟩ := hcached hset
  rw [hequal] at hloop
  refine ⟨mask, value, s'.mask ||| s'.extractedMask ||| s'.otherMask, ?_, ?_, ?_, hloop,
    fun i => ?_⟩
  · rw [getMask, hs', ← hmask]
    rfl
  · rw [getValue, hs', ← hvalue]
    rfl
  · rw [getCombinedMask, hs']
    rfl
  · rw [hinv.combined hset, covered, covered, hcs]

/-! ### Calls -/

theorem any_of_subset {cs cs' : List Constraint} (h : cs ⊆ cs') {p : Constraint → Bool}
    (hp : cs.any p = true) : cs'.any p = true := by
  obtain ⟨c, hc, hr⟩ := List.any_eq_true.mp hp
  exact List.any_eq_true.mpr ⟨c, h hc, hr⟩

theorem inv_clear (h : s.Inv fmt placed) : { s with maskSet := false }.Inv fmt placed := by
  obtain ⟨mask, value, hloop, hvalue, -⟩ := h.value
  exact ⟨h.equal, h.extracted, h.masked, h.cut, ⟨mask, value, hloop, hvalue, fun h => nomatch h⟩,
    fun h => nomatch h⟩

variable {c : Constraint}

theorem inv_pushEqual (hplaced : fmt.computeAndCheckFormatWidth getFormat = .ok placed)
    (hd : fmt.declaredWidth ≤ 64) (h : s.Inv fmt placed) (hset : s.maskSet = false)
    (hc : WellMasked fmt placed c) (hrhs : c.rhs = none) (hwidth : c.lhs.computedWidth < 32) :
    { s with equalConstraints := s.equalConstraints ++ [c] }.Inv fmt placed := by
  obtain ⟨mask, value, hloop, hvalue, -⟩ := h.value
  obtain ⟨m, hm⟩ := hc.mask
  obtain ⟨b, hb⟩ : ∃ b, c.lhs.bits c.value = some b := by
    cases hlhs : c.lhs with
    | field f =>
      rw [hlhs] at hm
      exact ⟨_, if_pos (field_of_mask hm).2⟩
    | overlay o =>
      have hof := hc.of
      rw [hlhs] at hof hwidth
      have hwidth : o.computedWidth < 32 := hwidth
      have hp := placed_of_operand hof hplaced
      obtain ⟨b, hb, -⟩ := getBitField_bits
        (hp.good (inWord_of_lt hp hd (by rw [hp.width]; omega))) c.value
      exact ⟨b, hb⟩
  have hsub : s.constraints ⊆
      { s with equalConstraints := s.equalConstraints ++ [c] }.constraints := by
    intro c' hc'
    simp only [constraints, List.mem_append] at hc' ⊢
    tauto
  refine ⟨fun c' hc' => ?_, h.extracted, fun c' hc' => ?_, fun c' hc' i hi hr =>
    any_of_subset hsub (h.cut c' hc' i hi hr), ?_, fun h => ?_⟩
  · rcases List.mem_append.mp hc' with hc' | hc'
    · exact h.equal c' hc'
    · rw [List.mem_singleton.mp hc']
      exact ⟨hrhs, hwidth⟩
  · simp only [constraints, List.mem_append, List.mem_singleton] at hc'
    rcases hc' with ((hc' | rfl) | hc') | hc'
    · exact h.masked c' (by simp [constraints, hc'])
    · exact hc
    · exact h.masked c' (by simp [constraints, hc'])
    · exact h.masked c' (by simp [constraints, hc'])
  · refine ⟨mask ||| m, value ||| (m &&& b), ?_, ?_, fun h => ?_⟩
    · show equalLoop (s.equalConstraints ++ [c]) (0, 0) = _
      rw [equalLoop, List.foldlM_append]
      refine Option.bind_eq_some_iff.mpr ⟨(mask, value), hloop, ?_⟩
      simp only [List.foldlM_cons, List.foldlM_nil, hm, hb, Option.bind_eq_bind, Option.bind_some]
      rfl
    · rw [← BitVec.or_assoc, hvalue]
    · rw [hset] at h
      cases h
  · rw [hset] at h
    cases h

/-- A constraint on an overlay with constants is added after the flag has been cleared. -/
theorem inv_pushExtracted (h : s.Inv fmt placed) (hset : s.maskSet = false)
    (hc : WellMasked fmt placed c) (hrhs : c.rhs = none) :
    { s with equalExtractedConstraints := s.equalExtractedConstraints ++ [c] }.Inv fmt placed := by
  obtain ⟨mask, value, hloop, hvalue, -⟩ := h.value
  have hsub : s.constraints ⊆
      { s with equalExtractedConstraints := s.equalExtractedConstraints ++ [c] }.constraints := by
    intro c' hc'
    simp only [constraints, List.mem_append] at hc' ⊢
    tauto
  refine ⟨h.equal, fun c' hc' => ?_, fun c' hc' => ?_, fun c' hc' i hi hr =>
    any_of_subset hsub (h.cut c' hc' i hi hr), ⟨mask, value, hloop, hvalue, fun h => ?_⟩,
    fun h => ?_⟩
  · rcases List.mem_append.mp hc' with hc' | hc'
    · exact h.extracted c' hc'
    · rw [List.mem_singleton.mp hc']
      exact hrhs
  · simp only [constraints, List.mem_append, List.mem_singleton] at hc'
    rcases hc' with (hc' | hc' | rfl) | hc'
    · exact h.masked c' (by simp [constraints, hc'])
    · exact h.masked c' (by simp [constraints, hc'])
    · exact hc
    · exact h.masked c' (by simp [constraints, hc'])
  · rw [hset] at h
    cases h
  · rw [hset] at h
    cases h

theorem inv_pushOther (h : s.Inv fmt placed) (hc : WellMasked fmt placed c) (htakes : s.Takes c) :
    { s with otherConstraints := s.otherConstraints ++ [c] }.Inv fmt placed := by
  have hconstraints : { s with otherConstraints := s.otherConstraints ++ [c] }.constraints =
      s.constraints ++ [c] := (List.append_assoc ..).symm
  have hsub : s.constraints ⊆
      { s with otherConstraints := s.otherConstraints ++ [c] }.constraints := by
    rw [hconstraints]
    exact List.subset_append_left _ _
  have hmem : c ∈ { s with otherConstraints := s.otherConstraints ++ [c] }.constraints := by
    rw [hconstraints]
    exact List.mem_append_right _ List.mem_cons_self
  refine ⟨h.equal, h.extracted, fun c' hc' => ?_, fun c' hc' i hi hr => ?_, h.value,
    fun hset i => ?_⟩
  · rw [hconstraints] at hc'
    rcases List.mem_append.mp hc' with hc' | hc'
    · exact h.masked c' hc'
    · rw [List.mem_singleton.mp hc']
      exact hc
  · rcases List.mem_append.mp hc' with hc' | hc'
    · exact any_of_subset hsub (h.cut c' hc' i hi hr)
    · rw [List.mem_singleton.mp hc'] at hr
      have hnew : c.lhs.reads i = true ∨ c.kept i = true →
          ({ s with otherConstraints := s.otherConstraints ++ [c] }.constraints.any
            fun c => c.lhs.reads i || c.kept i) = true :=
        fun hr => List.any_eq_true.mpr ⟨c, hmem, Bool.or_eq_true_iff.mpr hr⟩
      rw [Constraint.reads, Bool.or_eq_true] at hr
      rcases hr with hr | hr
      · exact hnew (Or.inl hr)
      · cases hrhs : c.rhs with
        | none =>
          rw [hrhs] at hr
          cases hr
        | some rhs =>
          rw [hrhs] at hr
          rcases htakes.cut rhs hrhs i hi hr with hcov | hcov
          · -- What is covered is among the bits of the constraints that were there before.
            rw [← computed_eq_covered h hi] at hcov
            refine any_of_subset hsub ?_
            simp only [Bool.or_eq_true, List.any_eq_true, constraints, List.mem_append] at hcov ⊢
            rcases hcov with (⟨c', hc', hr⟩ | ⟨c', hc', hr⟩) | ⟨c', hc', hr⟩
            · exact ⟨c', Or.inl (Or.inl hc'), Or.inl hr⟩
            · exact ⟨c', Or.inl (Or.inr hc'), Or.inl hr⟩
            · exact ⟨c', Or.inr hc', hr⟩
          · exact hnew hcov
  · have hset : s.maskSet = true := hset
    have hcov : { s with otherConstraints := s.otherConstraints ++ [c] }.covered i =
        (s.covered i || c.reads i) := by
      rw [covered, hconstraints, List.any_append, covered]
      simp
    refine (h.combined hset i).trans ?_
    rw [hcov]
    by_cases hi : i < 64
    · cases hr : c.reads i with
      | false => rw [Bool.or_false]
      | true => rw [htakes.set hset i hi hr, Bool.or_true]
    · rw [decide_eq_false hi, Bool.false_and, Bool.false_and]

theorem operand_of_constraintSide {name : String} {op : Operand}
    (h : constraintSide names name = .ok op) : names.operand name = some op := by
  rw [constraintSide] at h
  rw [FormatNames.operand]
  cases hfield : names.getField name with
  | some field =>
    simp only [hfield] at h
    split at h
    · cases h
    · exact congrArg some (Except.ok.inj h)
  | none =>
    simp only [hfield] at h
    cases hoverlay : names.getOverlay name with
    | none =>
      rw [hoverlay] at h
      cases h
    | some overlay =>
      rw [hoverlay] at h
      exact congrArg some (Except.ok.inj h)

theorem createOperandConstraint_ok {type : ConstraintType} {lhsName rhsName : String}
    (h : createOperandConstraint names type lhsName rhsName = .ok c) :
    names.operand lhsName = some c.lhs ∧ c.type = type ∧
      ∃ rhs, c.rhs = some rhs ∧ names.operand rhsName = some rhs := by
  obtain ⟨lhs, hlhs, h⟩ := bind_eq_ok.mp h
  obtain ⟨rhs, hrhs, h⟩ := bind_eq_ok.mp h
  cases h
  exact ⟨operand_of_constraintSide hlhs, rfl, rhs, rfl, operand_of_constraintSide hrhs⟩

/-- **One call.** -/
theorem inv_next (hplaced : fmt.computeAndCheckFormatWidth getFormat = .ok placed)
    (hd : fmt.declaredWidth ≤ 64) (hnames : names.Of fmt placed) {call : EncodingCall}
    (h : s.Inv fmt placed) (hfine : s.Fine names call) : (s.next names call).Inv fmt placed := by
  -- Queries.
  have hquery : ∀ f : EncodingState → EncodingReply,
      ((((s.update.map fun s => (s, f s))).map Prod.fst).getD s).Inv fmt placed := by
    intro f
    obtain ⟨s', hs', hinv, -⟩ := update_of_inv hplaced hd h
    rw [hs']
    exact hinv
  -- Constraints with a value.
  have hvalue : ∀ {type name value c}, createValueConstraint names type name value = some (.ok c) →
      (∃ m, c.lhs.mask = some m) →
      WellMasked fmt placed c ∧ c.rhs = none ∧ c.lhs.computedWidth < 32 := by
    intro type name value c hc hmask
    obtain ⟨hop, hrhs, hwidth⟩ := createValueConstraint_ok hc
    refine ⟨⟨hnames.operand hop, hmask, fun rhs h => ?_⟩, hrhs, hwidth⟩
    rw [hrhs] at h
    cases h
  rw [next]
  cases call with
  | addEqualConstraint name value =>
    simp only [Fine] at hfine
    simp only [serve, addEqualConstraint, Constraint.mustBeExtracted]
    cases hcreate : createValueConstraint names .kEq name value with
    | none => exact h
    | some r =>
      cases r with
      | error e => exact inv_clear h
      | ok c =>
        obtain ⟨hc, hrhs, hwidth⟩ := hvalue hcreate (hfine c hcreate)
        have hequal := inv_pushEqual hplaced hd (inv_clear h) rfl hc hrhs hwidth
        cases hlhs : c.lhs with
        | field f =>
          simp only [hlhs, Option.bind_eq_bind, Option.bind_some, Bool.false_eq_true, if_false]
          exact hequal
        | overlay o =>
          simp only [hlhs, Option.bind_eq_bind, Option.bind_some]
          split_ifs
          · exact inv_pushExtracted (inv_clear h) rfl hc hrhs
          · exact hequal
  | addOtherConstraint type name value =>
    simp only [Fine] at hfine
    simp only [serve, addOtherConstraint]
    cases hcreate : createValueConstraint names type name value with
    | none => exact h
    | some r =>
      cases r with
      | error e => exact h
      | ok c =>
        have htakes := hfine c hcreate
        exact inv_pushOther h (hvalue hcreate htakes.lhs).1 htakes
  | addOtherOperands type lhsName rhsName =>
    simp only [Fine] at hfine
    simp only [serve, addOtherOperands]
    cases hcreate : createOperandConstraint names type lhsName rhsName with
    | error e => exact h
    | ok c =>
      have htakes := hfine c hcreate
      obtain ⟨hop, -, rhs, hrhs, hop'⟩ := createOperandConstraint_ok hcreate
      refine inv_pushOther h ⟨hnames.operand hop, htakes.lhs, fun rhs' hrhs' => ?_⟩ htakes
      rw [hrhs, Option.some.injEq] at hrhs'
      subst hrhs'
      exact ⟨hnames.operand hop', htakes.rhs rhs hrhs⟩
  | getMask =>
    have hq := hquery fun s => .bits s.mask
    rw [Option.map_map] at hq
    simp only [serve, getMask, Option.map_map]
    exact hq
  | getValue =>
    have hq := hquery fun s => .bits s.value
    rw [Option.map_map] at hq
    simp only [serve, getValue, Option.map_map]
    exact hq
  | getCombinedMask =>
    have hq := hquery fun s => .bits (s.mask ||| s.extractedMask ||| s.otherMask)
    rw [Option.map_map] at hq
    simp only [serve, getCombinedMask, Option.map_map]
    exact hq

end Coherent

end EncodingState

end MpactSim.Decoder
