import MpactSim.Decoder.ExtractionRecipe
import MpactSim.Lib.Masks
import MpactSim.Lib.WeakOrder

namespace MpactSim.Decoder

open Lib

/-!
# The order of the top-level groups

The groups of an instruction group are sorted before their code is emitted.  `InstructionGroupLess`
compares the values of two groups in the constant bits of its left operand.

* `topLevelGroups`        — the groups that are built for some opcodes;
* `instructionGroupLess_iff` — the comparison, as one of words under a mask;
* `topLevel_apart`        — no encoding of a later group has bits of an earlier group;
* `isStrictWeakOrder_iff` — when the comparison is a strict weak order.
-/

/-- The groups that `ProcessEncodings` builds. -/
def topLevelGroups (opcodes : List ConstrainedOpcode) : Option (List EncodingGroup) := do
  let encodings ← opcodes.mapM newEncoding
  processEncodings encodings

/-! ### The comparison -/

/-- A group has a smaller value than another one in its own constant bits. -/
def Below (lhs rhs : EncodingGroup) : Prop :=
  lhs.data.firstValue &&& lhs.data.constant < rhs.data.firstValue &&& lhs.data.constant

instance (lhs rhs : EncodingGroup) : Decidable (Below lhs rhs) :=
  inferInstanceAs (Decidable (_ < _))

theorem extractValue_lt_iff (mask a b : BitVec 64) :
    extractValue a (getExtractionRecipe mask) < extractValue b (getExtractionRecipe mask) ↔
      a &&& mask < b &&& mask := by
  have hpacked : ∀ v : BitVec 64, (extractValue v (getExtractionRecipe mask)).toNat.testBit =
      packed mask.getLsbD v.getLsbD 64 := by
    intro v
    funext i
    rw [BitVec.testBit_toNat, extractValue_bits]
  have hmasked : ∀ v : BitVec 64, (v &&& mask).toNat.testBit =
      fun p => decide (p < 64) && mask.getLsbD p && v.getLsbD p := by
    intro v
    funext p
    rw [BitVec.testBit_toNat, BitVec.getLsbD_and]
    by_cases hp : p < 64
    · simp [hp, Bool.and_comm]
    · simp [hp, BitVec.getLsbD_of_ge _ _ (not_lt.mp hp)]
  rw [BitVec.lt_def, BitVec.lt_def, lt_iff_rises, lt_iff_rises, hpacked, hpacked, hmasked, hmasked]
  exact rises_packed_iff

theorem instructionGroupLess_iff (lhs rhs : EncodingGroup) :
    instructionGroupLess lhs rhs = true ↔ Below lhs rhs := by
  rw [instructionGroupLess, decide_eq_true_iff]
  exact extractValue_lt_iff _ _ _

/-! ### Bits of the groups -/

theorem value_inside {opcode : ConstrainedOpcode} {enc : InstructionEncoding}
    (h : newEncoding opcode = some enc) : enc.value &&& ~~~enc.mask = 0 := by
  obtain ⟨r, hr, h⟩ := Option.bind_eq_some_iff.mp h
  cases h
  show r.2 &&& ~~~r.1 = 0
  -- A constraint adds a mask, and bits under it.
  refine foldlM_invariant (fun r : BitVec 64 × BitVec 64 => r.2 &&& ~~~r.1 = 0) ?_ hr (by simp)
  intro acc c _ acc' hacc hstep
  obtain ⟨mask, -, hstep⟩ := Option.bind_eq_some_iff.mp hstep
  obtain ⟨value, -, hstep⟩ := Option.bind_eq_some_iff.mp hstep
  cases hstep
  rw [and_not_eq_zero_iff] at hacc ⊢
  intro i hi
  have hor : acc.2.getLsbD i = true ∨ mask.getLsbD i = true ∧ value.getLsbD i = true := by
    simpa using hi
  rcases hor with hold | hnew
  · simp [hacc i hold]
  · simp [hnew.1]

namespace GroupData

theorem mask_addEncoding_inside {g : GroupData} (hne : g.encodings ≠ [])
    (enc : InstructionEncoding) : (g.addEncoding enc).mask &&& ~~~g.mask = 0 := by
  rw [and_not_eq_zero_iff]
  intro i hi
  simp only [addEncoding, if_neg hne, BitVec.getLsbD_and, Bool.and_eq_true] at hi
  exact hi.1.1

theorem constant_addEncoding_inside (g : GroupData) (enc : InstructionEncoding) :
    (g.addEncoding enc).constant &&& ~~~(g.addEncoding enc).mask = 0 := by
  rw [and_not_eq_zero_iff]
  intro i hi
  simp only [addEncoding, BitVec.getLsbD_and, Bool.and_eq_true] at hi ⊢
  exact hi.1.2

end GroupData

/-- The groups so far: constant bits are common bits, and no encoding has bits of an earlier
    group. -/
structure Apart (groups : List GroupData) : Prop where
  nonempty : ∀ g ∈ groups, g.encodings ≠ []
  constant : ∀ g ∈ groups, g.constant &&& ~~~g.mask = 0
  earlier : groups.Pairwise fun g g' => ∀ enc ∈ g'.encodings, g.mask &&& enc.mask = 0

/-- An encoding goes to the first group that it has a bit of. -/
theorem apart_addToGroups (enc : InstructionEncoding) {groups : List GroupData}
    (h : Apart groups) : Apart (addToGroups enc groups) := by
  refine ⟨addToGroups_nonempty h.nonempty, ?_, ?_⟩
  · have hconstant := h.constant
    clear h
    induction groups with
    | nil => simpa [addToGroups] using GroupData.constant_addEncoding_inside _ enc
    | cons g rest ih =>
      obtain ⟨hg, hrest⟩ := List.forall_mem_cons.mp hconstant
      rw [addToGroups]
      split
      · exact List.forall_mem_cons.mpr ⟨g.constant_addEncoding_inside enc, hrest⟩
      · exact List.forall_mem_cons.mpr ⟨hg, ih hrest⟩
  · obtain ⟨hnonempty, -, hearlier⟩ := h
    induction groups with
    | nil => exact List.pairwise_singleton _ _
    | cons g rest ih =>
      obtain ⟨hg, hrest⟩ := List.forall_mem_cons.mp hnonempty
      obtain ⟨hfirst, hlater⟩ := List.pairwise_cons.mp hearlier
      rw [addToGroups]
      split
      · refine List.pairwise_cons.mpr ⟨fun g' hg' enc' henc' => ?_, hlater⟩
        exact and_eq_zero_of_inside (hfirst g' hg' enc' henc')
          (GroupData.mask_addEncoding_inside hg enc) (by simp)
      · rename_i hcannot
        refine List.pairwise_cons.mpr ⟨fun g' hg' enc' henc' => ?_, ih hrest hlater⟩
        -- The later groups have their encodings, and perhaps the new one.
        have hmem := (addToGroups_perm enc rest).subset (List.mem_flatMap.mpr ⟨g', hg', henc'⟩)
        rcases List.mem_cons.mp hmem with rfl | hold
        · by_contra hcommon
          apply hcannot
          rw [GroupData.canAddEncoding, decide_eq_true_iff]
          exact .inr hcommon
        · obtain ⟨old, hold, henc⟩ := List.mem_flatMap.mp hold
          exact hfirst old hold enc' henc

theorem apart_foldl (encodings : List InstructionEncoding) {groups : List GroupData}
    (h : Apart groups) :
    Apart (encodings.foldl (fun groups enc => addToGroups enc groups) groups) := by
  induction encodings generalizing groups with
  | nil => exact h
  | cons enc rest ih => exact ih (apart_addToGroups enc h)

variable {g : GroupData} {groups : List EncodingGroup}

theorem addSubGroups_root {depth : Nat} {tree : EncodingGroup}
    (h : addSubGroups depth 0 g = some tree) :
    tree.data.encodings.Perm g.encodings ∧ tree.data.constant = g.constant := by
  cases depth with
  | zero => cases h
  | succ depth =>
    rw [addSubGroups] at h
    obtain ⟨size, -, h⟩ := Option.bind_eq_some_iff.mp h
    obtain ⟨⟨simple, groups⟩, -, h⟩ := Option.bind_eq_some_iff.mp h
    cases h
    have hconstant : g.constant &&& ~~~0#64 = g.constant := by
      rw [BitVec.not_zero, BitVec.and_allOnes]
    exact ⟨g.adjustMask_perm 0, hconstant⟩

theorem firstValue_mem (h : g.encodings ≠ []) : ∃ enc ∈ g.encodings, g.firstValue = enc.value := by
  obtain ⟨enc, rest, henc⟩ := List.exists_cons_of_ne_nil h
  refine ⟨enc, henc ▸ List.mem_cons_self, ?_⟩
  rw [GroupData.firstValue, henc]
  rfl

theorem exists_firstValue (hne : g.encodings ≠ []) {depth : Nat} {tree : EncodingGroup}
    (h : addSubGroups depth 0 g = some tree) :
    ∃ enc ∈ g.encodings, tree.data.firstValue = enc.value := by
  obtain ⟨hperm, -⟩ := addSubGroups_root h
  have hne' : tree.data.encodings ≠ [] := by
    intro hnil
    rw [hnil] at hperm
    exact hne (List.nil_perm.mp hperm)
  obtain ⟨enc, hmem, hvalue⟩ := firstValue_mem hne'
  exact ⟨enc, hperm.subset hmem, hvalue⟩

theorem apart_of_addSubGroups {tops : List GroupData}
    (h : List.Forall₂ (fun g tree => addSubGroups g.encodings.length 0 g = some tree) tops groups)
    (hapart : Apart tops) (hinside : ∀ g ∈ tops, ∀ enc ∈ g.encodings, enc.value &&& ~~~enc.mask = 0) :
    groups.Pairwise fun g g' => g'.data.firstValue &&& g.data.constant = 0 := by
  obtain ⟨hnonempty, hconstant, hearlier⟩ := hapart
  induction h with
  | nil => exact .nil
  | @cons g tree rest trees htree htrees ih =>
    rw [List.forall_mem_cons] at hnonempty hconstant hinside
    obtain ⟨hfirst, hlater⟩ := List.pairwise_cons.mp hearlier
    refine List.pairwise_cons.mpr ⟨fun tree' htree' => ?_,
      ih hinside.2 hnonempty.2 hconstant.2 hlater⟩
    obtain ⟨g', hg', hbuild⟩ := exists_of_forall₂ htrees htree'
    obtain ⟨enc, henc, hvalue⟩ := exists_firstValue (hnonempty.2 g' hg') hbuild
    rw [hvalue, (addSubGroups_root htree).2, BitVec.and_comm]
    exact and_eq_zero_of_inside (hfirst g' hg' enc henc) hconstant.1 (hinside.2 g' hg' enc henc)

/-- **Later groups.** They have no bit among the constant bits of an earlier group. -/
theorem topLevel_apart {opcodes : List ConstrainedOpcode} (h : topLevelGroups opcodes = some groups) :
    groups.Pairwise fun g g' => g'.data.firstValue &&& g.data.constant = 0 := by
  obtain ⟨encodings, hencodings, h⟩ := Option.bind_eq_some_iff.mp h
  obtain ⟨-, hperm⟩ := foldl_addToGroups (encodings.insertionSort fun a b => a.mask ≤ b.mask) []
    (by simp)
  rw [List.flatMap_nil, List.append_nil] at hperm
  refine apart_of_addSubGroups (forall₂_of_mapM_eq_some h)
    (apart_foldl _ ⟨by simp, by simp, .nil⟩) fun g hg enc henc => ?_
  have hmem := hperm.subset (List.mem_flatMap.mpr ⟨g, hg, henc⟩)
  have hmem' : enc ∈ encodings := (List.perm_insertionSort _ _).subset hmem
  obtain ⟨opcode, -, hopcode⟩ := exists_of_mapM_eq_some hencodings hmem'
  exact value_inside hopcode

/-! ### The order -/

/-- The comparison of the groups of a list, by their positions. -/
def groupLess (groups : List EncodingGroup) (i j : Fin groups.length) : Prop :=
  instructionGroupLess groups[i] groups[j] = true

theorem backward_groupLess {opcodes : List ConstrainedOpcode}
    (h : topLevelGroups opcodes = some groups) : Backward (groupLess groups) := by
  intro i j hless
  by_contra hle
  have hbelow := (instructionGroupLess_iff _ _).mp hless
  unfold Below at hbelow
  rcases lt_or_eq_of_le (not_lt.mp hle) with hlt | rfl
  · -- The later group has only zeros in the bits that are compared.
    have hzero := List.pairwise_iff_getElem.mp (topLevel_apart h) i j i.isLt j.isLt hlt
    have hzero' : groups[j].data.firstValue &&& groups[i].data.constant = 0 := hzero
    rw [hzero'] at hbelow
    exact absurd hbelow (BitVec.not_lt_zero)
  · exact absurd hbelow (BitVec.lt_irrefl _)

/-- Of three groups in the order in which they were made, the last is below the first if and only
    if the second is below the first or the last below the second. -/
def OrderedTriples (groups : List EncodingGroup) : Prop :=
  ∀ i j k : Fin groups.length, i < j → j < k →
    (Below groups[k] groups[i] ↔ Below groups[j] groups[i] ∨ Below groups[k] groups[j])

instance (groups : List EncodingGroup) : Decidable (OrderedTriples groups) :=
  inferInstanceAs (Decidable (∀ _ _ _, _))

/-- **Order of groups.** The comparison is a strict weak order of the groups if and only if any
    three of them are in order.  One or two groups always are. -/
theorem groupLess_isStrictWeakOrder_iff {opcodes : List ConstrainedOpcode}
    {groups : List EncodingGroup} (h : topLevelGroups opcodes = some groups) :
    IsStrictWeakOrder (Fin groups.length) (groupLess groups) ↔ OrderedTriples groups := by
  rw [isStrictWeakOrder_iff (backward_groupLess h)]
  simp only [StepsDecide, OrderedTriples, groupLess, instructionGroupLess_iff]

/-- Instructions with one field in common are in one group. -/
theorem groupLess_isStrictWeakOrder_func :
    let groups := (topLevelGroups [funcOpcode "add" 1, funcOpcode "sub" 2]).getD []
    IsStrictWeakOrder (Fin groups.length) (groupLess groups) ↔ OrderedTriples groups :=
  groupLess_isStrictWeakOrder_iff
    (show topLevelGroups [funcOpcode "add" 1, funcOpcode "sub" 2] = some _ from rfl)

/-- An instruction that is told by single bits and their values. -/
def bitsOpcode (name : String) (bits : List (Nat × BitVec 64)) : ConstrainedOpcode :=
  ⟨name, "Inst8", bits.map fun b =>
    ⟨.kEq, .field ⟨"bit" ++ toString b.1, false, b.1, b.1, 1⟩, none, b.2⟩, [], []⟩

/-- The bits of `load` make a group with `store`, whose other bit is that of `halt`. -/
def crossingOpcodes : List ConstrainedOpcode :=
  [bitsOpcode "load" [(0, 0), (1, 1)], bitsOpcode "jump" [(2, 0)], bitsOpcode "halt" [(3, 0)],
    bitsOpcode "store" [(1, 0), (3, 1)]]

/-- The group of `halt` is less than that of `store`, but neither differs from that of `jump`. -/
theorem groupLess_not_isStrictWeakOrder :
    ∃ groups, topLevelGroups crossingOpcodes = some groups ∧
      ¬ IsStrictWeakOrder (Fin groups.length) (groupLess groups) := by
  have hcode : (topLevelGroups crossingOpcodes).map (fun groups => decide (OrderedTriples groups)) =
      some false := by decide +kernel
  obtain ⟨groups, hgroups, hbad⟩ := Option.map_eq_some_iff.mp hcode
  refine ⟨groups, hgroups, fun hweak => of_decide_eq_false hbad ?_⟩
  intro i j k hij hjk
  simpa only [groupLess, instructionGroupLess_iff] using
    stepsDecide_of_isStrictWeakOrder (backward_groupLess hgroups) hweak i j k hij hjk

end MpactSim.Decoder
