import MpactSim.Decoder.Disasm
import MpactSim.Lib.Monad

namespace MpactSim.Decoder

open Lib

/-!
# Slots and the operands of an opcode

An opcode is declared in one slot.  A slot that inherits from it has its own copy of the
instruction, and may override the disassembly format of the copy.

* `visitSlots` builds the instruction set from the declarations of its slots.
* The regular expression of an instruction is made from the copy (`emitRegEx`), its
  `Encode` function from the declared instruction (`encodeOperands`).

`capturesAgree_iff` says when the captures of the one are the operands of the other.
-/

/-! ### The source -/

/-- An opcode specification of a slot: an opcode that is not inherited, one that is
    inherited with other attributes, or a new one.  Only the disassembly attribute is
    modelled. -/
inductive OpcodeSpec where
  | deleted (name : Name)
  | overridden (name : Name) (disasm : Option (List DisasmFormat))
  | declared (inst : Instruction)
  deriving DecidableEq, Repr

/-- A slot declaration. -/
structure SlotDecl where
  name : Name
  bases : List Name
  opcodes : List OpcodeSpec
  deriving DecidableEq, Repr

/-- `Slot`, with all slots it inherits from. -/
structure Slot where
  name : Name
  predecessors : List Name
  instructions : List Instruction
  deriving DecidableEq, Repr

/-- `InstructionSet`: the declared instructions and the slots. -/
structure InstructionSet where
  instructions : List Instruction
  slots : List Slot
  deriving DecidableEq, Repr

/-- An override: the opcode, and its formats if it has a disassembly attribute. -/
abbrev Override := Name × Option (List DisasmFormat)

/-- What `ProcessOpcodeList` collects. -/
structure OpcodeOps where
  declared : List Instruction
  deleted : List Name
  overridden : List Override
  deriving DecidableEq, Repr

/-- `HasInstruction`. -/
def Slot.hasInstruction (slot : Slot) (name : Name) : Bool :=
  slot.instructions.any (·.name = name)

/-- `ProcessOpcodeSpec`; `none` is a semantic error. -/
def processOpcodeSpec (bases : List Slot) (st : InstructionSet × OpcodeOps) :
    OpcodeSpec → Option (InstructionSet × OpcodeOps)
  | .deleted name =>
    if bases.any (·.hasInstruction name) then
      some (st.1, { st.2 with deleted := st.2.deleted ++ [name] })
    else none
  | .overridden name disasm =>
    if bases.countP (·.hasInstruction name) = 1 then
      some (st.1, { st.2 with overridden := st.2.overridden ++ [(name, disasm)] })
    else none
  | .declared inst =>
    -- `CreateOpcode` refuses a name that is taken.
    if st.1.instructions.any (·.name = inst.name) then none
    else
      some ({ st.1 with instructions := st.1.instructions ++ [inst] },
        { st.2 with declared := st.2.declared ++ [inst] })

/-- `AppendInstruction` and `AppendInheritedInstruction`: a copy has the opcode, the
    locators and the formats of the instruction. -/
def Slot.appendInstruction (slot : Slot) (inst : Instruction) : Option Slot :=
  if slot.hasInstruction inst.name then none
  else some { slot with instructions := slot.instructions ++ [inst] }

/-- `VisitOpcodeAttributes` of an override, which replaces the formats. -/
def Slot.override (slot : Slot) (spec : Override) : Option Slot :=
  -- `instruction_map().at(name)` fails if no instruction of the name was inherited yet.
  if slot.hasInstruction spec.1 then
    some { slot with
      instructions := slot.instructions.map fun inst =>
        if inst.name = spec.1 then { inst with formats := spec.2.getD inst.formats } else inst }
  else none

section Visit

-- The order in which the hash set of a slot's overrides is visited.
variable (order : List Override → List Override)

/-- `PerformOpcodeOverrides`. -/
def performOpcodeOverrides (overridden : List Override) (slot : Slot) : Option Slot :=
  (order overridden).foldlM Slot.override slot

/-- The iteration of `VisitOpcodeList` for a base slot. -/
def inheritBase (ops : OpcodeOps) (slot base : Slot) : Option Slot := do
  let slot ← (base.instructions.filter (·.name ∉ ops.deleted)).foldlM Slot.appendInstruction slot
  performOpcodeOverrides order ops.overridden slot

/-- `VisitOpcodeList`. -/
def visitOpcodeList (set : InstructionSet) (bases : List Slot) (opcodes : List OpcodeSpec)
    (slot : Slot) : Option InstructionSet := do
  let (set, ops) ← opcodes.foldlM (processOpcodeSpec bases) (set, ⟨[], [], []⟩)
  let slot ← bases.foldlM (inheritBase order ops) slot
  let slot ← ops.declared.foldlM Slot.appendInstruction slot
  return { set with slots := set.slots ++ [slot] }

/-- `AddBase`: neither the base slot nor one it inherits from is a predecessor already. -/
def Slot.addBase (slot base : Slot) : Option Slot :=
  if (base.name :: base.predecessors).any (· ∈ slot.predecessors) then none
  else some { slot with predecessors := slot.predecessors ++ base.name :: base.predecessors }

/-- `VisitSlotDeclaration`.  Base slots have been visited before. -/
def visitSlotDeclaration (set : InstructionSet) (decl : SlotDecl) : Option InstructionSet := do
  if set.slots.any (·.name = decl.name) then none
  let bases ← decl.bases.mapM fun name => set.slots.find? (·.name = name)
  let slot ← bases.foldlM Slot.addBase ⟨decl.name, [], []⟩
  visitOpcodeList order set bases decl.opcodes slot

/-- The instruction set of a list of slots, in the order in which they are visited. -/
def visitSlots (decls : List SlotDecl) : Option InstructionSet :=
  decls.foldlM (visitSlotDeclaration order) ⟨[], []⟩

end Visit

/-- The operands that the `Encode` function of an opcode encodes from `operands[0]`,
    `operands[1]` and so on: the loop of `GenerateEncClasses`.  The number of operands
    it checks for is the length. -/
def encodeOperands (inst : Instruction) : List (Name × OperandLocator) :=
  inst.operandNames.filterMap fun opName =>
    if opName = [] then none
    else (inst.locator opName).map fun locator => (opName, locator)

/-! ### The specification -/

/-- The operand of a capture: its name and locator. -/
def Instruction.capture (inst : Instruction) (opName : Name) : Name × Option OperandLocator :=
  (opName, inst.locator opName)

/-- The expression of a slot's instruction agrees with the `Encode` function of the declared
    one: there is an expression, it has a capture for every operand, and the function
    encodes capture `i` as the operand that it is of. -/
def CapturesAgree (inst decl : Instruction) : Prop :=
  ∃ items names, emitRegEx inst = some (items, names) ∧
    groups items = (encodeOperands decl).length ∧
    ∀ i : Nat, names[i]?.map inst.capture =
      (encodeOperands decl)[i]?.map fun op : Name × OperandLocator => (op.1, some op.2)

/-- The operands that a declaration's formats name, without expressions that have only the
    address. -/
def Instruction.namedOperands (inst : Instruction) : List Name :=
  inst.operandNames.filter fun opName => opName ≠ [] ∧ (inst.locator opName).isSome

/-- No fragment of the formats ends a raw string literal. -/
def Instruction.Quotable (inst : Instruction) : Prop :=
  ∀ format ∈ inst.formats, ∀ fragment ∈ format.fragments, endsRawString fragment = false

/-! ### The instruction set -/

/-- The instruction is the declared one but for its formats. -/
structure CopyOf (decl inst : Instruction) : Prop where
  name : decl.name = inst.name
  locators : decl.locators = inst.locators

/-- Every instruction of a slot is a copy of a declared one. -/
def Slot.Copies (slot : Slot) (instructions : List Instruction) : Prop :=
  ∀ inst ∈ slot.instructions, ∃ decl ∈ instructions, CopyOf decl inst

/-- The invariant of an instruction set: the names of the declared instructions are
    distinct, and the slots hold copies of them. -/
structure InstructionSet.Valid (set : InstructionSet) : Prop where
  nodup : (set.instructions.map Instruction.name).Nodup
  copies : ∀ slot ∈ set.slots, slot.Copies set.instructions

variable {slot slot' : Slot} {instructions : List Instruction} {inst decl : Instruction}
  {order : List Override → List Override} {set : InstructionSet}

theorem Slot.Copies.mono {instructions' : List Instruction} (h : slot.Copies instructions)
    (hsub : instructions ⊆ instructions') : slot.Copies instructions' := by
  intro inst hinst
  obtain ⟨decl, hdecl, hcopy⟩ := h inst hinst
  exact ⟨decl, hsub hdecl, hcopy⟩

theorem copies_appendInstruction (hslot : slot.Copies instructions)
    (hinst : ∃ decl ∈ instructions, CopyOf decl inst) (h : slot.appendInstruction inst = some slot') : slot'.Copies instructions := by
  unfold Slot.appendInstruction at h
  split at h
  · cases h
  · cases h
    intro inst' hmem
    rcases List.mem_append.mp hmem with hmem | hmem
    · exact hslot inst' hmem
    · rw [List.mem_singleton.mp hmem]
      exact hinst

theorem copies_override {spec : Override} (hslot : slot.Copies instructions)
    (h : slot.override spec = some slot') : slot'.Copies instructions := by
  unfold Slot.override at h
  split at h
  · cases h
    intro inst hmem
    obtain ⟨inst', hmem', rfl⟩ := List.mem_map.mp hmem
    obtain ⟨decl, hdecl, hcopy⟩ := hslot inst' hmem'
    refine ⟨decl, hdecl, ?_⟩
    split
    · exact ⟨hcopy.name, hcopy.locators⟩
    · exact hcopy
  · cases h

theorem copies_inheritBase {ops : OpcodeOps} {base : Slot} (hslot : slot.Copies instructions)
    (hbase : base.Copies instructions) (h : inheritBase order ops slot base = some slot') :
    slot'.Copies instructions := by
  unfold inheritBase at h
  obtain ⟨mid, hmid, hover⟩ := Option.bind_eq_some_iff.mp h
  have hcopies : mid.Copies instructions := by
    refine foldlM_invariant (·.Copies instructions) ?_ hmid hslot
    intro s inst hinst s' hs hstep
    exact copies_appendInstruction hs (hbase inst (List.mem_of_mem_filter hinst)) hstep
  refine foldlM_invariant (·.Copies instructions) ?_ hover hcopies
  intro s spec _ s' hs hstep
  exact copies_override hs hstep

/-- What the opcode list of a slot has done: it declares instructions under new names. -/
structure Declares (set : InstructionSet) (st : InstructionSet × OpcodeOps) : Prop where
  slots : st.1.slots = set.slots
  nodup : (st.1.instructions.map Instruction.name).Nodup
  instructions : st.1.instructions = set.instructions ++ st.2.declared

theorem declares_processOpcodeSpec {bases : List Slot} {st st' : InstructionSet × OpcodeOps}
    {spec : OpcodeSpec} (hst : Declares set st) (h : processOpcodeSpec bases st spec = some st') :
    Declares set st' := by
  unfold processOpcodeSpec at h
  cases spec with
  | deleted name =>
    dsimp only at h
    split at h
    · cases h
      exact ⟨hst.slots, hst.nodup, hst.instructions⟩
    · cases h
  | overridden name disasm =>
    dsimp only at h
    split at h
    · cases h
      exact ⟨hst.slots, hst.nodup, hst.instructions⟩
    · cases h
  | declared inst =>
    dsimp only at h
    split at h
    · cases h
    · rename_i hnew
      cases h
      refine ⟨hst.slots, ?_, ?_⟩
      · have hnotMem : inst.name ∉ st.1.instructions.map Instruction.name := by
          simpa using hnew
        show (List.map Instruction.name (st.1.instructions ++ [inst])).Nodup
        rw [List.map_append]
        exact List.Nodup.append hst.nodup (List.nodup_singleton _) (by simpa using hnotMem)
      · show st.1.instructions ++ [inst] = _
        rw [hst.instructions, List.append_assoc]

theorem valid_visitOpcodeList {set' : InstructionSet} {bases : List Slot}
    {opcodes : List OpcodeSpec} (hset : set.Valid) (hbases : ∀ base ∈ bases, base ∈ set.slots)
    (hslot : slot.instructions = []) (h : visitOpcodeList order set bases opcodes slot = some set') : set'.Valid := by
  unfold visitOpcodeList at h
  obtain ⟨⟨set₁, ops⟩, hops, h⟩ := Option.bind_eq_some_iff.mp h
  obtain ⟨slot₁, hinherit, h⟩ := Option.bind_eq_some_iff.mp h
  obtain ⟨slot₂, hdeclared, h⟩ := Option.bind_eq_some_iff.mp h
  cases h
  have hst : Declares set (set₁, ops) := by
    refine foldlM_invariant (Declares set) ?_ hops ⟨rfl, hset.nodup, by simp⟩
    intro st spec _ st' hst hstep
    exact declares_processOpcodeSpec hst hstep
  have hinstructions : set₁.instructions = set.instructions ++ ops.declared := hst.instructions
  have hsub : set.instructions ⊆ set₁.instructions := by
    rw [hinstructions]
    exact List.subset_append_left _ _
  have hslot₁ : slot₁.Copies set₁.instructions := by
    refine foldlM_invariant (·.Copies set₁.instructions) ?_ hinherit ?_
    · intro s base hbase s' hs hstep
      exact copies_inheritBase hs ((hset.copies base (hbases base hbase)).mono hsub) hstep
    · intro inst hinst
      rw [hslot] at hinst
      exact absurd hinst List.not_mem_nil
  have hslot₂ : slot₂.Copies set₁.instructions := by
    refine foldlM_invariant (·.Copies set₁.instructions) ?_ hdeclared hslot₁
    intro s inst hinst s' hs hstep
    have hmem : inst ∈ set₁.instructions := by
      rw [hinstructions]
      exact List.mem_append_right _ hinst
    exact copies_appendInstruction hs ⟨inst, hmem, rfl, rfl⟩ hstep
  refine ⟨hst.nodup, ?_⟩
  intro s hs
  rcases List.mem_append.mp hs with hs | hs
  · exact (hset.copies s (hst.slots ▸ hs)).mono hsub
  · rw [List.mem_singleton.mp hs]
    exact hslot₂

theorem valid_visitSlotDeclaration {set' : InstructionSet} {decl : SlotDecl} (hset : set.Valid)
    (h : visitSlotDeclaration order set decl = some set') : set'.Valid := by
  unfold visitSlotDeclaration at h
  split at h
  · cases h
  · obtain ⟨bases, hbases, h⟩ := Option.bind_eq_some_iff.mp h
    obtain ⟨slot, hslot, h⟩ := Option.bind_eq_some_iff.mp h
    have hfound : ∀ base ∈ bases, base ∈ set.slots := by
      intro base hbase
      obtain ⟨name, -, hfind⟩ := exists_of_mapM_eq_some hbases hbase
      exact List.mem_of_find?_eq_some hfind
    have hempty : slot.instructions = [] := by
      refine foldlM_invariant (·.instructions = []) ?_ hslot rfl
      intro s base _ s' hs hstep
      unfold Slot.addBase at hstep
      split at hstep
      · cases hstep
      · cases hstep
        exact hs
    exact valid_visitOpcodeList hset hfound hempty h

theorem valid_visitSlots {decls : List SlotDecl} (h : visitSlots order decls = some set) :
    set.Valid := by
  refine foldlM_invariant InstructionSet.Valid ?_ h ⟨List.nodup_nil, ?_⟩
  · intro s decl _ s' hs hstep
    exact valid_visitSlotDeclaration hs hstep
  · intro slot hslot
    exact absurd hslot List.not_mem_nil

/-! ### Captures and operands -/

theorem map_fst_encodeOperands (decl : Instruction) :
    (encodeOperands decl).map Prod.fst = decl.namedOperands := by
  unfold encodeOperands Instruction.namedOperands
  induction decl.operandNames with
  | nil => rfl
  | cons opName rest ih =>
    rw [List.filterMap_cons, List.filter_cons]
    by_cases hempty : opName = []
    · simp [hempty, ih]
    · cases decl.locator opName with
      | none => simp [hempty, ih]
      | some locator => simp [hempty, ih]

theorem locator_of_mem_encodeOperands {op : Name × OperandLocator} (h : op ∈ encodeOperands decl) :
    decl.locator op.1 = some op.2 := by
  obtain ⟨opName, -, heq⟩ := List.mem_filterMap.mp h
  split at heq
  · cases heq
  · obtain ⟨locator, hlocator, rfl⟩ := Option.map_eq_some_iff.mp heq
    exact hlocator

theorem map_capture_encodeOperands (hcopy : CopyOf decl inst) :
    decl.namedOperands.map inst.capture =
      (encodeOperands decl).map fun op => (op.1, some op.2) := by
  rw [← map_fst_encodeOperands, List.map_map]
  apply List.map_congr_left
  intro op hop
  have hlocator := locator_of_mem_encodeOperands hop
  have heq : inst.locator op.1 = decl.locator op.1 := by
    rw [Instruction.locator, Instruction.locator, hcopy.locators]
  show (op.1, inst.locator op.1) = _
  rw [heq, hlocator]

theorem emitRegEx_eq_some_iff {p : List Item × List Name} :
    emitRegEx inst = some p ↔ inst.Quotable ∧ generateRegEx inst = some p := by
  unfold emitRegEx Instruction.Quotable
  split
  · rename_i hends
    obtain ⟨format, hformat, hfragment⟩ := List.any_eq_true.mp hends
    obtain ⟨fragment, hmem, hfragment⟩ := List.any_eq_true.mp hfragment
    constructor
    · intro h
      cases h
    · rintro ⟨hquotable, -⟩
      rw [hquotable format hformat fragment hmem] at hfragment
      cases hfragment
  · rename_i hends
    constructor
    · intro h
      refine ⟨?_, h⟩
      intro format hformat fragment hmem
      by_contra htrue
      apply hends
      exact List.any_eq_true.mpr ⟨format, hformat,
        List.any_eq_true.mpr ⟨fragment, hmem, by simpa using htrue⟩⟩
    · exact fun h => h.2

theorem capturesAgree_copy_iff (hcopy : CopyOf decl inst) :
    CapturesAgree inst decl ↔
      inst.Known ∧ inst.Quotable ∧ inst.operandNames = decl.namedOperands := by
  constructor
  · rintro ⟨items, names, hemit, -, hcaptures⟩
    obtain ⟨hquotable, hregex⟩ := emitRegEx_eq_some_iff.mp hemit
    have hknown : inst.Known := known_of_generateRegEx (by rw [hregex, Option.isSome_some])
    obtain ⟨items', hregex', -⟩ := generateRegEx_eq_some hknown
    rw [hregex] at hregex'
    cases hregex'
    refine ⟨hknown, hquotable, ?_⟩
    have hmap : inst.operandNames.map inst.capture =
        (encodeOperands decl).map fun op => (op.1, some op.2) := by
      apply List.ext_getElem?
      intro i
      rw [List.getElem?_map, List.getElem?_map]
      exact hcaptures i
    -- The names are the first components of both lists.
    have hnames := congrArg (List.map Prod.fst) hmap
    rw [List.map_map, List.map_map] at hnames
    have hleft : inst.operandNames.map (Prod.fst ∘ inst.capture) = inst.operandNames :=
      List.map_id _
    rw [hleft] at hnames
    rw [hnames, ← map_fst_encodeOperands]
    rfl
  · rintro ⟨hknown, hquotable, hnames⟩
    obtain ⟨items, hregex, hgroups⟩ := generateRegEx_eq_some hknown
    refine ⟨items, inst.operandNames, emitRegEx_eq_some_iff.mpr ⟨hquotable, hregex⟩, ?_, ?_⟩
    · rw [hgroups, hnames, ← map_fst_encodeOperands, List.length_map]
    · intro i
      rw [← List.getElem?_map, ← List.getElem?_map, hnames, map_capture_encodeOperands hcopy]

/-- **Captures and operands.** In every instruction set, for every instruction of every
    slot and the declared instruction of its name: the expression agrees with the `Encode`
    function exactly if the formats in the slot name only operands of the opcode, their
    text fits into the literal, and they have the operands of the declared formats in
    their order. -/
theorem capturesAgree_iff (order : List Override → List Override) (decls : List SlotDecl)
    (set : InstructionSet) (hset : visitSlots order decls = some set) :
    ∀ slot ∈ set.slots, ∀ inst ∈ slot.instructions,
      ∃ decl ∈ set.instructions, decl.name = inst.name ∧
        (∀ decl' ∈ set.instructions, decl'.name = inst.name → decl' = decl) ∧
        (CapturesAgree inst decl ↔
          inst.Known ∧ inst.Quotable ∧ inst.operandNames = decl.namedOperands) := by
  have hvalid := valid_visitSlots hset
  intro slot hslot inst hinst
  obtain ⟨decl, hdecl, hcopy⟩ := hvalid.copies slot hslot inst hinst
  refine ⟨decl, hdecl, hcopy.name, ?_, capturesAgree_copy_iff hcopy⟩
  intro decl' hdecl' hname
  exact List.inj_on_of_nodup_map hvalid.nodup hdecl' hdecl (hname.trans hcopy.name.symm)

/-! ### An override -/

/-- `disasm: "<mnemonic>", "%x, %y"` with two operand names. -/
def addFormats (mnemonic x y : Name) : List DisasmFormat :=
  [⟨-18, [mnemonic], [], by simp, by simp⟩,
    ⟨0, [[], ", ".toList], [⟨x, false, false⟩, ⟨y, false, false⟩], by simp, by simp⟩]

/-- `add{: rs : rd}, disasm: "add", "%rd, %rs"` -/
def addInstruction : Instruction where
  name := "add".toList
  locators := [("rs".toList, ⟨0, .source, false, 0⟩), ("rd".toList, ⟨0, .destination, false, 0⟩)]
  formats := addFormats "add".toList "rd".toList "rs".toList

/-- A slot with `add`, and one that inherits it and overrides its format. -/
def overriddenSlots (formats : List DisasmFormat) : List SlotDecl :=
  [⟨"base".toList, [], [.declared addInstruction]⟩,
    ⟨"derived".toList, ["base".toList], [.overridden "add".toList (some formats)]⟩]

/-- The instruction set of the two slots. -/
def overriddenSet (formats : List DisasmFormat) : InstructionSet where
  instructions := [addInstruction]
  slots := [⟨"base".toList, [], [addInstruction]⟩,
    ⟨"derived".toList, ["base".toList], [{ addInstruction with formats := formats }]⟩]

theorem visitSlots_overridden (formats : List DisasmFormat) :
    visitSlots id (overriddenSlots formats) = some (overriddenSet formats) := by
  rfl

/-- `add` under another mnemonic, with the operands in the declared order. -/
def renamedAdd : Instruction :=
  { addInstruction with formats := addFormats "c.add".toList "rd".toList "rs".toList }

/-- An override with the operands in the declared order agrees. -/
theorem capturesAgree_renamedAdd : CapturesAgree renamedAdd addInstruction := by
  obtain ⟨decl, hdecl, -, -, hagree⟩ := capturesAgree_iff id _ _
    (visitSlots_overridden renamedAdd.formats) _
    (List.mem_cons_of_mem _ (List.mem_singleton_self _)) renamedAdd (List.mem_singleton_self _)
  obtain rfl := List.mem_singleton.mp hdecl
  refine hagree.mpr ⟨?_, ?_, by decide +kernel⟩
  · unfold Instruction.Known
    decide +kernel
  · unfold Instruction.Quotable
    decide +kernel

/-- An override may name the operands in another order.  The captures of the derived slot are
    then the operands of `Encode` in the wrong order. -/
theorem not_capturesAgree_of_swapped :
    ¬ ∀ (order : List Override → List Override) (decls : List SlotDecl) (set : InstructionSet),
      visitSlots order decls = some set → ∀ slot ∈ set.slots, ∀ inst ∈ slot.instructions,
        ∃ decl ∈ set.instructions, decl.name = inst.name ∧ CapturesAgree inst decl := by
  intro h
  have hslots := visitSlots_overridden (addFormats "add".toList "rs".toList "rd".toList)
  obtain ⟨decl, hdecl, -, hagree⟩ := h id _ _ hslots _
    (List.mem_cons_of_mem _ (List.mem_singleton_self _)) _ (List.mem_singleton_self _)
  obtain rfl := List.mem_singleton.mp hdecl
  have hcopy : CopyOf addInstruction
      { addInstruction with formats := addFormats "add".toList "rs".toList "rd".toList } := ⟨rfl, rfl⟩
  have hnames := ((capturesAgree_copy_iff hcopy).mp hagree).2.2
  exact absurd hnames (by decide +kernel)

end MpactSim.Decoder
