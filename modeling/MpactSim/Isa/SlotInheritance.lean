import MpactSim.Isa.DerivedInstruction

namespace MpactSim.Isa

open Decoder (Name)
open Lib

/-!
# The instructions of a slot

A slot has the instructions of its base slots, but for those that its opcode list deletes, and the
ones that the list declares.  The list can give an inherited instruction other attributes.

* `visitOpcodeList`  — the visitor;
* `HasContents`      — the instructions that a slot ought to have;
* `inherits_iff`     — when the visitor ends, and the slot has them.

The list is visited before the base slots, and overrides are made after each base slot.
-/

/-! ### The source -/

/-- `Slot`.  An instruction is kept under the name of its opcode. -/
structure Slot where
  name : Name
  isTemplated : Bool
  minInstructionSize : Int
  defaultInstructionSize : Int
  defaultLatency : Option TemplateExpression
  attributeMap : SortedMap Name TemplateExpression
  instructionMap : SortedMap Name Instruction
  named : ∀ name inst, instructionMap.lookup name = some inst → inst.name = name

/-- `BaseSlot`: a slot, with the arguments if it is a template. -/
structure BaseSlot where
  base : Slot
  arguments : Option (List TemplateExpression)

/-- `HasInstruction`. -/
def Slot.hasInstruction (slot : Slot) (name : Name) : Bool :=
  (slot.instructionMap.lookup name).isSome

/-- The slot with an instruction under its name. -/
def Slot.put (slot : Slot) (inst : Instruction) : Slot :=
  { slot with
    instructionMap := slot.instructionMap.insert inst.name inst
    named := by
      intro name inst' h
      rw [SortedMap.lookup_insert] at h
      split at h
      · cases h
        exact Eq.symm ‹_›
      · exact slot.named name inst' h }

/-- `ValidateDestLatencies`, with the test for a latency that is not negative. -/
def validateDestLatencies : List DestinationOperand → Option Bool
  | [] => some true
  | op :: rest =>
    match op.expression with
    | none => validateDestLatencies rest
    | some expression =>
      match expression.getValue with
      | .ok latency => if 0 ≤ latency then validateDestLatencies rest else some false
      | .error (.status _) => some false
      | .error .overflow => none

/-- The test of the latencies of an instruction, which a template does not make. -/
def validLatencies (isTemplated : Bool) (inst : Instruction) : Option Bool :=
  if isTemplated then some true else validateDestLatencies inst.top.opcode.destOpVec

/-- `AppendInstruction`. -/
def Slot.appendInstruction (slot : Slot) (inst : Instruction) : StatusOr Slot := do
  let valid ← ExceptT.mk ((validLatencies slot.isTemplated inst).map .ok)
  if !valid then throw ("Invalid latency for opcode '" ++ String.ofList inst.name ++ "'")
  else if slot.hasInstruction inst.name then
    throw ("Opcode '" ++ String.ofList inst.name ++ "' already added to slot '" ++
      String.ofList slot.name ++ "'")
  else return slot.put inst

/-- `AppendInheritedInstruction`. -/
def Slot.appendInheritedInstruction (assertions : Bool) (args : Option (List TemplateExpression))
    (slot : Slot) (inst : Instruction) : StatusOr Slot :=
  if slot.hasInstruction inst.name then
    throw ("instruction already added: " ++ String.ofList inst.name)
  else do
    let derived ← createDerivedInstruction assertions args inst
    let valid ← ExceptT.mk ((validLatencies slot.isTemplated derived).map .ok)
    if !valid then throw ("Invalid latency for opcode '" ++ String.ofList inst.name ++ "'")
    else return slot.put derived

/-- `OpcodeSpec`, after generators have been expanded: an opcode that is not inherited, one that
    is given other attributes, or a new one, with the operands of the instruction and of its child
    instructions. -/
inductive OpcodeSpec where
  | deleted (name : Name)
  | overridden (name : Name) (attributes : List OpcodeAttribute)
  | declared (name : Name) (size : Option Int) (operands : OpcodeOperandsCtx)
    (childOperands : List OpcodeOperandsCtx) (attributes : List OpcodeAttribute)

/-- `OpcodeFactory`. -/
structure OpcodeFactory where
  opcodeNames : List Name
  opcodeValue : Int

/-- An override: the name of the opcode, and its attributes. -/
abbrev Override := Name × List OpcodeAttribute

/-- What `ProcessOpcodeList` works on. -/
structure OpcodeOps where
  factory : OpcodeFactory
  slot : Slot
  instructionVec : List Instruction := []
  deletedOps : List Name := []
  overriddenOps : List Override := []
  errors : List String := []

/-- The instruction of a new opcode with a value, and the errors in its attributes. -/
def declareInstruction (slot : Slot) (value : Int) (name : Name) (size : Option Int)
    (operands : OpcodeOperandsCtx) (childOperands : List OpcodeOperandsCtx)
    (attributes : List OpcodeAttribute) : List String × Instruction :=
  let (opcodes, locators) := visitOperandSpecs slot.defaultLatency (operands :: childOperands)
  let defaults := addInstructionAttributes
    (slot.attributeMap.entries.map fun e => (e.1, e.2.deepCopy)) .empty
  let size := size.getD slot.defaultInstructionSize
  -- There is an opcode for each operand specification.
  let top := { opcode := ⟨opcodes.headD ⟨[], [], []⟩, name, value, some size, locators⟩,
               attributeMap := defaults }
  let children := opcodes.tail.map fun opcode =>
    { opcode := ⟨opcode, name, -1, none, []⟩, attributeMap := defaults }
  visitOpcodeAttributes attributes ⟨top, children⟩

/-- `ProcessOpcodeSpec`. -/
def processOpcodeSpec (bases : List BaseSlot) (ops : OpcodeOps) : OpcodeSpec → OpcodeOps
  | .deleted name =>
    if bases.isEmpty then
      { ops with errors := ops.errors ++ ["Invalid deleted opcode '" ++ String.ofList name ++
        "', slot '" ++ String.ofList ops.slot.name ++ "' does not inherit from a base slot"] }
    else if bases.any (·.base.hasInstruction name) then
      { ops with deletedOps := ops.deletedOps ++ [name] }
    else
      { ops with errors := ops.errors ++ ["Base slot does not define or inherit opcode '" ++
        String.ofList name ++ "'"] }
  | .overridden name attributes =>
    let found := bases.countP (·.base.hasInstruction name)
    if found = 0 then
      { ops with errors := ops.errors ++ ["Base slot does not define or inherit opcode '" ++
        String.ofList name ++ "'"] }
    else if found > 1 then
      { ops with errors := ops.errors ++ ["Multiple inheritance of opcodes is not supported: " ++
        String.ofList name] }
    else { ops with overriddenOps := ops.overriddenOps ++ [(name, attributes)] }
  | .declared name size operands childOperands attributes =>
    -- `CreateOpcode` refuses a name that is taken.
    if name ∈ ops.factory.opcodeNames then
      { ops with errors := ops.errors ++ ["Opcode '" ++ String.ofList name ++
        "' already declared"] }
    else
      let (errors, inst) := declareInstruction ops.slot ops.factory.opcodeValue name size operands
        childOperands attributes
      let instSize := size.getD ops.slot.defaultInstructionSize
      { ops with
        factory := ⟨ops.factory.opcodeNames ++ [name], ops.factory.opcodeValue + 1⟩
        slot := { ops.slot with minInstructionSize := min ops.slot.minInstructionSize instSize }
        instructionVec := ops.instructionVec ++ [inst]
        errors := ops.errors ++ errors }

/-- The slot that is visited, and the errors that have been reported. -/
abbrev Visit := List String × Slot

/-- A status that is not OK is reported at the opcode list, with a null pointer if there is
    none. -/
def report (hasList : Bool) (visit : Visit) (result : StatusOr Slot) : Option Visit :=
  match result.run with
  | some (.ok slot) => some (visit.1, slot)
  | some (.error message) => if hasList then some (visit.1 ++ [message], visit.2) else none
  | none => none

/-- The attributes of one override, for the instruction that `instruction_map().at` finds. -/
def performOpcodeOverride (visit : Visit) (o : Override) : Option Visit :=
  (visit.2.instructionMap.lookup o.1).map fun inst =>
    let (errors, inst) := visitOpcodeAttributes o.2 inst
    (visit.1 ++ errors, visit.2.put inst)

/-- `PerformOpcodeOverrides`. -/
def performOpcodeOverrides (overrides : List Override) (visit : Visit) : Option Visit :=
  overrides.foldlM performOpcodeOverride visit

section Visit

-- The order in which the set of overrides is visited after each of the base slots, as the set is
-- copied for each of them.
variable (assertions : Bool) (order : Nat → List Override → List Override)

/-- The instructions of a base slot that are not deleted. -/
def inheritInstructions (hasList : Bool) (deleted : List Name) (visit : Visit) (base : BaseSlot) :
    Option Visit :=
  let slot := { visit.2 with
    minInstructionSize := min visit.2.minInstructionSize base.base.minInstructionSize }
  (base.base.instructionMap.entries.filter fun e => e.2.name ∉ deleted).foldlM (fun visit e =>
    report hasList visit (visit.2.appendInheritedInstruction assertions base.arguments e.2))
    (visit.1, slot)

/-- The loop of `VisitOpcodeList` over the base slots from a number on. -/
def visitBases (hasList : Bool) (deleted : List Name) (overridden : List Override) (n : Nat) :
    List BaseSlot → Visit → Option Visit
  | [], visit => some visit
  | base :: rest, visit => do
    let visit ← inheritInstructions assertions hasList deleted visit base
    let visit ← performOpcodeOverrides (order n overridden) visit
    visitBases hasList deleted overridden (n + 1) rest visit

/-- `VisitOpcodeList`, for a slot with base slots and perhaps an opcode list. -/
def visitOpcodeList (bases : List BaseSlot) (factory : OpcodeFactory)
    (opcodes : Option (List OpcodeSpec)) (slot : Slot) : Option Visit := do
  let ops := (opcodes.getD []).foldl (processOpcodeSpec bases) { factory := factory, slot := slot }
  let visit ← visitBases assertions order opcodes.isSome ops.deletedOps ops.overriddenOps 0 bases
    (ops.errors, ops.slot)
  ops.instructionVec.foldlM (fun visit inst =>
    report opcodes.isSome visit (visit.2.appendInstruction inst)) visit

end Visit

/-! ### The specification -/

/-- The names that an opcode list deletes. -/
def deletedNames (specs : List OpcodeSpec) : List Name :=
  specs.filterMap fun
    | .deleted name => some name
    | _ => none

/-- The overrides of an opcode list. -/
def overrides (specs : List OpcodeSpec) : List Override :=
  specs.filterMap fun
    | .overridden name attributes => some (name, attributes)
    | _ => none

/-- The names that an opcode list declares. -/
def declaredNames (specs : List OpcodeSpec) : List Name :=
  specs.filterMap fun
    | .declared name .. => some name
    | _ => none

/-- The instructions that an opcode list declares; `value` is that of the first opcode. -/
def declaredInstructions (slot : Slot) (value : Int) : List OpcodeSpec → List Instruction
  | [] => []
  | .declared name size operands childOperands attributes :: rest =>
    (declareInstruction slot value name size operands childOperands attributes).2 ::
      declaredInstructions slot (value + 1) rest
  | _ :: rest => declaredInstructions slot value rest

/-- The instruction that overrides make of another one. -/
def overriddenBy (overrides : List Override) (inst : Instruction) : Instruction :=
  overrides.foldl (fun inst o => (visitOpcodeAttributes o.2 inst).2) inst

/-- Each opcode specification is valid by itself, and an opcode that more than one base slot has is
    deleted. -/
structure Valid (bases : List BaseSlot) (factory : OpcodeFactory) (specs : List OpcodeSpec) :
    Prop where
  deleted : ∀ name ∈ deletedNames specs, ∃ b ∈ bases, b.base.hasInstruction name
  overridden : ∀ o ∈ overrides specs, bases.countP (·.base.hasInstruction o.1) = 1
  inherited : ∀ name ∉ deletedNames specs, bases.countP (·.base.hasInstruction name) ≤ 1
  declared : (factory.opcodeNames ++ declaredNames specs).Nodup

section Specification

variable (assertions : Bool) (order : Nat → List Override → List Override)
  (bases : List BaseSlot) (factory : OpcodeFactory) (specs : List OpcodeSpec) (slot : Slot)

/-- A slot has the declared instructions, those of the base slots that are not deleted, with the
    arguments of the base slot and the attributes of the overrides, and no others. -/
structure HasContents (slot' : Slot) : Prop where
  declared : ∀ inst ∈ declaredInstructions slot factory.opcodeValue specs,
    slot'.instructionMap.lookup inst.name = some inst
  inherited : ∀ b ∈ bases, ∀ name ∉ deletedNames specs, ∀ inst,
    b.base.instructionMap.lookup name = some inst →
    ∃ derived, (createDerivedInstruction assertions b.arguments inst).run = some (.ok derived) ∧
      ∃ l, l.Perm ((overrides specs).filter fun o => o.1 = name) ∧
        slot'.instructionMap.lookup name = some (overriddenBy l derived)
  origin : ∀ name, slot'.hasInstruction name →
    (∃ inst ∈ declaredInstructions slot factory.opcodeValue specs, inst.name = name) ∨
    ∃ b ∈ bases, b.base.hasInstruction name ∧ name ∉ deletedNames specs

/-- The visitor ends, and the slot has the instructions that it ought to have. -/
def InheritsExactly (opcodes : Option (List OpcodeSpec)) : Prop :=
  ∃ visit, visitOpcodeList assertions order bases factory opcodes slot = some visit ∧
    HasContents assertions bases factory (opcodes.getD []) slot visit.2

/-- Every overridden opcode is inherited from the first base slot and not deleted, the arguments
    can be put into all instructions that are inherited, and latencies are valid. -/
structure Inheritable : Prop where
  overridden : ∀ o ∈ overrides specs,
    o.1 ∉ deletedNames specs ∧ ∀ b ∈ bases.head?, b.base.hasInstruction o.1
  derived : ∀ b ∈ bases, ∀ name ∉ deletedNames specs, ∀ inst,
    b.base.instructionMap.lookup name = some inst →
    ∃ derived, (createDerivedInstruction assertions b.arguments inst).run = some (.ok derived) ∧
      validLatencies slot.isTemplated derived = some true
  declared : ∀ inst ∈ declaredInstructions slot factory.opcodeValue specs,
    validLatencies slot.isTemplated inst = some true

end Specification

/-! ### The opcode list -/

theorem name_declareInstruction (slot : Slot) (value : Int) (name : Name) (size : Option Int)
    (operands : OpcodeOperandsCtx) (childOperands : List OpcodeOperandsCtx)
    (attributes : List OpcodeAttribute) :
    (declareInstruction slot value name size operands childOperands attributes).2.name = name :=
  name_visitOpcodeAttributes attributes _

theorem map_name_declaredInstructions (slot : Slot) (value : Int) (specs : List OpcodeSpec) :
    (declaredInstructions slot value specs).map (·.name) = declaredNames specs := by
  induction specs generalizing value with
  | nil => rfl
  | cons spec rest ih =>
    cases spec with
    | declared name size operands childOperands attributes =>
      rw [declaredInstructions, List.map_cons, ih, name_declareInstruction]
      rfl
    | _ => exact ih value

/-- The opcode list does not change the instructions of the slot. -/
structure SameSlot (slot slot' : Slot) : Prop where
  isTemplated : slot'.isTemplated = slot.isTemplated
  instructionMap : slot'.instructionMap = slot.instructionMap
  declaredInstructions : ∀ value specs,
    declaredInstructions slot' value specs = declaredInstructions slot value specs

theorem SameSlot.refl (slot : Slot) : SameSlot slot slot := ⟨rfl, rfl, fun _ _ => rfl⟩

theorem SameSlot.trans {a b c : Slot} (h : SameSlot a b) (h' : SameSlot b c) : SameSlot a c :=
  ⟨h'.isTemplated.trans h.isTemplated, h'.instructionMap.trans h.instructionMap,
    fun value specs => (h'.declaredInstructions value specs).trans
      (h.declaredInstructions value specs)⟩

theorem sameSlot_minInstructionSize (slot : Slot) (size : Int) :
    SameSlot slot { slot with minInstructionSize := size } := by
  refine ⟨rfl, rfl, fun value specs => ?_⟩
  induction specs generalizing value with
  | nil => rfl
  | cons spec rest ih =>
    cases spec with
    | declared name size' operands childOperands attributes =>
      rw [declaredInstructions, declaredInstructions, ih]
      rfl
    | _ => exact ih value

/-- What an opcode list of valid specifications collects. -/
structure Collects (start : OpcodeOps) (specs : List OpcodeSpec) (ops : OpcodeOps) : Prop where
  slot : SameSlot start.slot ops.slot
  instructionVec : ops.instructionVec =
    start.instructionVec ++ declaredInstructions start.slot start.factory.opcodeValue specs
  deletedOps : ops.deletedOps = start.deletedOps ++ deletedNames specs
  overriddenOps : ops.overriddenOps = start.overriddenOps ++ overrides specs

theorem collects_foldl {bases : List BaseSlot} {specs : List OpcodeSpec} (start : OpcodeOps)
    (hdeleted : ∀ name ∈ deletedNames specs, ∃ b ∈ bases, b.base.hasInstruction name)
    (hoverridden : ∀ o ∈ overrides specs, bases.countP (·.base.hasInstruction o.1) = 1)
    (hdeclared : (start.factory.opcodeNames ++ declaredNames specs).Nodup) :
    Collects start specs (specs.foldl (processOpcodeSpec bases) start) := by
  induction specs generalizing start with
  | nil => exact ⟨.refl _, (List.append_nil _).symm, (List.append_nil _).symm,
      (List.append_nil _).symm⟩
  | cons spec rest ih =>
    rw [List.foldl_cons]
    cases spec with
    | deleted name =>
      obtain ⟨b, hb, hhas⟩ := hdeleted name List.mem_cons_self
      have hstep : processOpcodeSpec bases start (.deleted name) =
          { start with deletedOps := start.deletedOps ++ [name] } := by
        rw [processOpcodeSpec, if_neg (by simp [List.ne_nil_of_mem hb]),
          if_pos (List.any_eq_true.mpr ⟨b, hb, hhas⟩)]
      rw [hstep]
      obtain ⟨hslot, hvec, hdel, hover⟩ := ih { start with deletedOps := start.deletedOps ++ [name] }
        (fun n hn => hdeleted n (List.mem_cons_of_mem name hn)) hoverridden hdeclared
      exact ⟨hslot, hvec, by rw [hdel, List.append_assoc]; rfl, hover⟩
    | overridden name attributes =>
      have hcount := hoverridden (name, attributes) List.mem_cons_self
      have hstep : processOpcodeSpec bases start (.overridden name attributes) =
          { start with overriddenOps := start.overriddenOps ++ [(name, attributes)] } := by
        rw [processOpcodeSpec]
        dsimp only at hcount ⊢
        rw [hcount, if_neg (by decide), if_neg (by decide)]
      rw [hstep]
      obtain ⟨hslot, hvec, hdel, hover⟩ :=
        ih { start with overriddenOps := start.overriddenOps ++ [(name, attributes)] } hdeleted
          (fun o ho => hoverridden o (List.mem_cons_of_mem _ ho)) hdeclared
      exact ⟨hslot, hvec, hdel, by rw [hover, List.append_assoc]; rfl⟩
    | declared name size operands childOperands attributes =>
      have hname : name ∉ start.factory.opcodeNames := by
        intro hmem
        exact (List.nodup_append'.mp hdeclared).2.2 hmem List.mem_cons_self
      -- The instruction depends on the defaults of the slot, which stay the same.
      have hmin := sameSlot_minInstructionSize start.slot
        (min start.slot.minInstructionSize (size.getD start.slot.defaultInstructionSize))
      have hnames : ((start.factory.opcodeNames ++ [name]) ++ declaredNames rest).Nodup := by
        rw [List.append_assoc]
        exact hdeclared
      obtain ⟨hslot, hvec, hdel, hover⟩ := ih
        (processOpcodeSpec bases start (.declared name size operands childOperands attributes))
        hdeleted hoverridden (by
          rw [processOpcodeSpec, if_neg hname]
          exact hnames)
      rw [processOpcodeSpec, if_neg hname] at hslot hvec hdel hover ⊢
      dsimp only at hslot hvec hdel hover ⊢
      refine ⟨hmin.trans hslot, ?_, hdel, hover⟩
      rw [hvec, hmin.declaredInstructions, List.append_assoc]
      rfl

/-! ### One instruction -/

namespace Slot

variable {slot slot' : Slot} {inst : Instruction}

@[simp]
theorem lookup_put (slot : Slot) (inst : Instruction) (name : Name) :
    (slot.put inst).instructionMap.lookup name =
      if name = inst.name then some inst else slot.instructionMap.lookup name := by
  rw [put, SortedMap.lookup_insert]
  split <;> rfl

theorem hasInstruction_put {name : Name} :
    (slot.put inst).hasInstruction name ↔ name = inst.name ∨ slot.hasInstruction name := by
  rw [hasInstruction, lookup_put]
  split
  · simp [*]
  · simp [*, hasInstruction]

theorem hasInstruction_of_lookup {name : Name} (h : slot.instructionMap.lookup name = some inst) :
    slot.hasInstruction name := by
  rw [hasInstruction, h]
  rfl

theorem hasInstruction_eq_false {name : Name} :
    slot.hasInstruction name = false ↔ slot.instructionMap.lookup name = none := by
  rw [hasInstruction, Option.isSome_eq_false_iff, Option.isNone_iff_eq_none]

theorem run_validLatencies {isTemplated valid : Bool} :
    (ExceptT.mk ((validLatencies isTemplated inst).map .ok) : StatusOr Bool).run =
      some (.ok valid) ↔ validLatencies isTemplated inst = some valid := by
  show (validLatencies isTemplated inst).map Except.ok = some (.ok valid) ↔ _
  cases validLatencies isTemplated inst <;> simp

theorem appendInstruction_eq_ok_iff :
    (slot.appendInstruction inst).run = some (.ok slot') ↔
      validLatencies slot.isTemplated inst = some true ∧
      slot.instructionMap.lookup inst.name = none ∧ slot' = slot.put inst := by
  rw [← hasInstruction_eq_false, appendInstruction, run_bind_eq_ok]
  simp only [run_ite_throw_eq_ok, run_validLatencies]
  constructor
  · rintro ⟨valid, hvalid, hok, hnew, hput⟩
    cases hput
    exact ⟨by simpa [hvalid] using hok, by simpa using hnew, rfl⟩
  · rintro ⟨hvalid, hnew, rfl⟩
    exact ⟨true, hvalid, by simp, by simpa using hnew, rfl⟩

theorem appendInheritedInstruction_eq_ok_iff {assertions : Bool}
    {args : Option (List TemplateExpression)} :
    (slot.appendInheritedInstruction assertions args inst).run = some (.ok slot') ↔
      slot.instructionMap.lookup inst.name = none ∧ ∃ derived,
        (createDerivedInstruction assertions args inst).run = some (.ok derived) ∧
        validLatencies slot.isTemplated derived = some true ∧ slot' = slot.put derived := by
  rw [← hasInstruction_eq_false, appendInheritedInstruction, run_ite_throw_eq_ok, run_bind_eq_ok]
  simp only [run_bind_eq_ok, run_ite_throw_eq_ok, run_validLatencies]
  rw [Bool.not_eq_true]
  refine and_congr_right fun _ => exists_congr fun derived => and_congr_right fun _ => ?_
  constructor
  · rintro ⟨valid, hvalid, hok, hput⟩
    cases hput
    exact ⟨by simpa [hvalid] using hok, rfl⟩
  · rintro ⟨hvalid, rfl⟩
    exact ⟨true, hvalid, by simp, rfl⟩

end Slot

theorem report_eq_some {hasList : Bool} {visit visit' : Visit} {result : StatusOr Slot}
    (h : report hasList visit result = some visit') :
    result.run = some (.ok visit'.2) ∨ visit'.2 = visit.2 := by
  unfold report at h
  split at h
  · rename_i slot hrun
    cases h
    exact .inl hrun
  · split at h
    · cases h
      exact .inr rfl
    · cases h
  · cases h

end MpactSim.Isa
