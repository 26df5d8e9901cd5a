import MpactSim.Isa.DisasmSetters
import MpactSim.Lib.Overwrite
import MpactSim.Lib.SortedMap

namespace MpactSim.Isa

open Decoder (Name)
open Lib

/-!
# Derived instructions

A slot that inherits an instruction has a copy of it, in which the template arguments of the base
slot are put into the expressions.  The copy can be given other attributes.

* `createDerivedInstruction` — the copy;
* `visitOpcodeAttributes`    — the attributes of a declaration or an override;
* `overwrites_visitOpcodeAttributes` — an override sets fields of an instruction to what depends
  on the opcodes only, and leaves the other fields alone.
-/

/-! ### The source -/

/-- A result with a status.  There is none at all if an assertion fails or an `int` operation
    overflows. -/
abbrev StatusOr := ExceptT String Option

/-- The result of an evaluation, with another message for a status that is not OK. -/
def ofEvaluation {α : Type} (message : String) : Except Halt α → StatusOr α
  | .ok a => pure a
  | .error (.failure (.status _)) => throw message
  | .error _ => ExceptT.mk none

/-- `Opcode`.  The opcode of a child instruction has no size. -/
structure OpcodeObject extends Opcode where
  name : Name
  value : Int
  instructionSize : Option Int
  opLocatorMap : OpLocatorMap

/-- An `Instruction` without the instructions that it is the parent of. -/
structure InstructionNode where
  opcode : OpcodeObject
  disasmFormatVec : List DisasmFormat := []
  semfuncCodeString : Name := []
  resourceUseVec : List ResourceReference := []
  resourceAcquireVec : List ResourceReference := []
  attributeMap : SortedMap Name TemplateExpression := .empty

/-- `Instruction`, with the chain of its child instructions. -/
structure Instruction where
  top : InstructionNode
  children : List InstructionNode

/-- The name of the opcode. -/
def Instruction.name (inst : Instruction) : Name := inst.top.opcode.name

/-- The instruction and its child instructions. -/
def Instruction.nodes (inst : Instruction) : List InstructionNode := inst.top :: inst.children

def Instruction.opcodes (inst : Instruction) : List OpcodeObject := inst.nodes.map (·.opcode)

section Derive

variable (assertions : Bool) (args : Option (List TemplateExpression))

/-- The latency of a derived operand. -/
def createDerivedDestOp (opcodeName : Name) (op : DestinationOperand) :
    StatusOr DestinationOperand :=
  match op.expression with
  | none => pure op
  | some expression => do
    let expression ← ofEvaluation
      ("Failed to create derived opcode for '" ++ String.ofList opcodeName ++ "'")
      (expression.evaluate assertions args)
    return { op with expression := some expression }

/-- `CreateDerivedOpcode`. -/
def createDerivedOpcode (opcode : OpcodeObject) : StatusOr OpcodeObject := do
  let destOpVec ← opcode.destOpVec.mapM (createDerivedDestOp assertions args opcode.name)
  return { opcode with destOpVec := destOpVec }

/-- `CreateDerivedResourceRef`. -/
def createDerivedResourceRef (opcodeName : Name) (ref : ResourceReference) :
    StatusOr ResourceReference := do
  let message := "Failed to create derived instruction for '" ++ String.ofList opcodeName ++
    "': error evaluating begin expression"
  let beginExpression ← ofEvaluation message (ref.beginExpression.evaluate assertions args)
  let endExpression ← ofEvaluation message (ref.endExpression.evaluate assertions args)
  return { ref with beginExpression := beginExpression, endExpression := endExpression }

/-- `CreateDerivedInstruction` without the child instructions. -/
def createDerivedNode (node : InstructionNode) : StatusOr InstructionNode := do
  let name := node.opcode.name
  let opcode ← createDerivedOpcode assertions args node.opcode
  let uses ← node.resourceUseVec.mapM (createDerivedResourceRef assertions args name)
  let acquires ← node.resourceAcquireVec.mapM (createDerivedResourceRef assertions args name)
  let attributes ← node.attributeMap.entries.foldlM (fun attributes entry => do
    let expression ← ofEvaluation
      ("Failed to create derived instruction for '" ++ String.ofList name ++ "'")
      (entry.2.evaluate assertions args)
    return attributes.insert entry.1 expression) SortedMap.empty
  return ⟨opcode, node.disasmFormatVec, node.semfuncCodeString, uses, acquires, attributes⟩

/-- `CreateDerivedInstruction`. -/
def createDerivedInstruction (inst : Instruction) : StatusOr Instruction := do
  let top ← createDerivedNode assertions args inst.top
  let children ← inst.children.mapM (createDerivedNode assertions args)
  return ⟨top, children⟩

end Derive

/-- `ResourceSpec`. -/
structure ResourceSpec where
  useVec : List ResourceReference
  acquireVec : List ResourceReference

/-- An attribute of an opcode specification.  A disassembly format is what `ParseDisasmFormat`
    makes of its text.  Resources and expressions can refer to the destination operands of the
    opcodes, from which they are made, the resources with the errors that are found. -/
inductive OpcodeAttribute where
  | disasmSpec (formats : List (Except String DisasmFormat))
  | semfuncSpec (codes : List Name)
  | resourceSpec (details : List OpcodeObject → List String × ResourceSpec)
  | instructionAttributeSpec
    (list : List (Name × Option (List OpcodeObject → TemplateExpression)))

/-- The attributes that have been visited. -/
structure Seen where
  hasDisasm : Bool := false
  hasSemfunc : Bool := false
  hasResources : Bool := false
  hasAttributes : Bool := false

/-- A format that is not parsed does not count as a specification. -/
def Seen.after (seen : Seen) : OpcodeAttribute → Seen
  | .disasmSpec formats =>
    if seen.hasDisasm then seen else { seen with hasDisasm := formats.all (·.isOk) }
  | .semfuncSpec _ => { seen with hasSemfunc := true }
  | .resourceSpec _ => { seen with hasResources := true }
  | .instructionAttributeSpec _ => { seen with hasAttributes := true }

/-- The formats up to the first error, and the error. -/
def parsedFormats : List (Except String DisasmFormat) → List String × List DisasmFormat
  | [] => ([], [])
  | .ok format :: rest =>
    let (errors, formats) := parsedFormats rest
    (errors, format :: formats)
  | .error message :: _ => ([message], [])

/-- The attributes of a list, after those with some names; a name that comes again is an error.
    Without an expression the value is 0. -/
def instructionAttributes (opcodes : List OpcodeObject) (names : List Name) :
    List (Name × Option (List OpcodeObject → TemplateExpression)) →
      List String × List (Name × TemplateExpression)
  | [] => ([], [])
  | (name, expression) :: rest =>
    if name ∈ names then
      let (errors, attributes) := instructionAttributes opcodes names rest
      (("Duplicate attribute name '" ++ String.ofList name ++ "' in list") :: errors, attributes)
    else
      let (errors, attributes) := instructionAttributes opcodes (name :: names) rest
      let value := (expression.map fun e => e opcodes).getD (.constant 0)
      (errors, (name, value.deepCopy) :: attributes)

/-- The instruction with what a function makes of it and of each of its child instructions. -/
def Instruction.mapNodes (g : Nat → InstructionNode → InstructionNode) (inst : Instruction) :
    Instruction :=
  ⟨g 0 inst.top, inst.children.mapIdx fun i node => g (i + 1) node⟩

/-- Attributes are added to those that there are. -/
def addInstructionAttributes (attributes : List (Name × TemplateExpression))
    (map : SortedMap Name TemplateExpression) : SortedMap Name TemplateExpression :=
  attributes.foldl (fun map p => map.insert p.1 p.2) map

/-- One attribute in `VisitOpcodeAttributes`, with the errors that are reported.  What the
    instruction has is cleared first, as it may have been inherited. -/
def visitOpcodeAttribute (seen : Seen) (attr : OpcodeAttribute) (inst : Instruction) :
    List String × Instruction :=
  match attr with
  | .disasmSpec formats =>
    let (errors, parsed) :=
      if seen.hasDisasm then (["Multiple disasm specifications"], []) else parsedFormats formats
    (errors, inst.mapNodes fun i node =>
      if i = 0 then { node with disasmFormatVec := parsed } else node)
  | .semfuncSpec codes =>
    let (errors, codes) :=
      if seen.hasSemfunc then (["Multiple semfunc specifications"], [])
      else if codes.length < inst.nodes.length then
        (["Fewer semfunc specifiers than expected for opcode '" ++
          String.ofList inst.name ++ "'"], codes)
      else ([], codes)
    -- Only the string of the instruction itself is cleared.
    (errors, inst.mapNodes fun i node =>
      match codes[i]? with
      | some code => { node with semfuncCodeString := code }
      | none => if i = 0 then { node with semfuncCodeString := [] } else node)
  | .resourceSpec details =>
    let (errors, spec) :=
      if seen.hasResources then (["Multiple resource specifications"], ⟨[], []⟩)
      else details inst.opcodes
    (errors, inst.mapNodes fun i node =>
      if i = 0 then
        { node with resourceUseVec := spec.useVec, resourceAcquireVec := spec.acquireVec }
      else node)
  | .instructionAttributeSpec list =>
    let (errors, attributes) :=
      if seen.hasAttributes then (["Multiple attribute specifications"], [])
      else instructionAttributes inst.opcodes [] list
    -- Only the attributes of the instruction itself are cleared.
    (errors, inst.mapNodes fun i node =>
      let inherited := if i = 0 then .empty else node.attributeMap
      { node with attributeMap := addInstructionAttributes attributes inherited })

/-- The loop of `VisitOpcodeAttributes`. -/
def visitOpcodeAttributesFrom (seen : Seen) :
    List OpcodeAttribute → Instruction → List String × Instruction
  | [], inst => ([], inst)
  | attr :: rest, inst =>
    let (errors, inst) := visitOpcodeAttribute seen attr inst
    let (others, inst) := visitOpcodeAttributesFrom (seen.after attr) rest inst
    (errors ++ others, inst)

/-- `VisitOpcodeAttributes`. -/
def visitOpcodeAttributes (attributes : List OpcodeAttribute) (inst : Instruction) :
    List String × Instruction :=
  visitOpcodeAttributesFrom {} attributes inst

/-! ### What is kept -/

theorem run_bind_eq_ok {α β : Type} {x : StatusOr α} {f : α → StatusOr β} {b : β} :
    (x >>= f).run = some (.ok b) ↔ ∃ a, x.run = some (.ok a) ∧ (f a).run = some (.ok b) := by
  rw [ExceptT.run_bind]
  cases hx : x.run with
  | none => simp
  | some r =>
    cases r with
    | error e =>
      refine ⟨fun h => ?_, fun ⟨a, ha, _⟩ => by cases ha⟩
      cases h
    | ok a => simp

theorem run_ite_throw_eq_ok {α : Type} {c : Prop} [Decidable c] {message : String}
    {x : StatusOr α} {a : α} :
    (if c then throw message else x).run = some (.ok a) ↔ ¬ c ∧ x.run = some (.ok a) := by
  by_cases h : c
  · rw [if_pos h]
    exact iff_of_false (fun heq => by cases heq) fun heq => heq.1 h
  · rw [if_neg h]
    exact (and_iff_right h).symm

theorem name_of_createDerivedInstruction {assertions : Bool}
    {args : Option (List TemplateExpression)} {inst derived : Instruction}
    (h : (createDerivedInstruction assertions args inst).run = some (.ok derived)) :
    derived.name = inst.name := by
  obtain ⟨top, htop, h⟩ := run_bind_eq_ok.mp h
  obtain ⟨children, -, h⟩ := run_bind_eq_ok.mp h
  cases h
  obtain ⟨opcode, hopcode, htop⟩ := run_bind_eq_ok.mp htop
  obtain ⟨uses, -, htop⟩ := run_bind_eq_ok.mp htop
  obtain ⟨acquires, -, htop⟩ := run_bind_eq_ok.mp htop
  obtain ⟨attributes, -, htop⟩ := run_bind_eq_ok.mp htop
  cases htop
  obtain ⟨destOpVec, -, hopcode⟩ := run_bind_eq_ok.mp hopcode
  cases hopcode
  rfl

/-! ### What is overwritten -/

/-- A field of an instruction or of a child instruction, by its place in the chain. -/
inductive NodeField where
  | disasmFormatVec
  | semfuncCodeString
  | resourceUseVec
  | resourceAcquireVec
  | instructionAttribute (name : Name)

/-- What a field holds. -/
def NodeField.Value : NodeField → Type
  | .disasmFormatVec => List DisasmFormat
  | .semfuncCodeString => Name
  | .resourceUseVec => List ResourceReference
  | .resourceAcquireVec => List ResourceReference
  | .instructionAttribute _ => Option TemplateExpression

def InstructionNode.field (node : InstructionNode) : (field : NodeField) → field.Value
  | .disasmFormatVec => node.disasmFormatVec
  | .semfuncCodeString => node.semfuncCodeString
  | .resourceUseVec => node.resourceUseVec
  | .resourceAcquireVec => node.resourceAcquireVec
  | .instructionAttribute name => node.attributeMap.lookup name

/-- What the field of the instruction in a place holds. -/
def Instruction.field (key : Nat × NodeField) (inst : Instruction) : Option key.2.Value :=
  inst.nodes[key.1]?.map fun node => node.field key.2

theorem InstructionNode.eq_of_field {a b : InstructionNode} (hopcode : a.opcode = b.opcode)
    (h : ∀ field, a.field field = b.field field) : a = b := by
  obtain ⟨opcode, formats, semfunc, uses, acquires, attributes⟩ := a
  obtain ⟨opcode', formats', semfunc', uses', acquires', attributes'⟩ := b
  have hattributes : attributes = attributes' :=
    SortedMap.eq_of_lookup_eq fun name => h (.instructionAttribute name)
  have hformats : formats = formats' := h .disasmFormatVec
  have hsemfunc : semfunc = semfunc' := h .semfuncCodeString
  have huses : uses = uses' := h .resourceUseVec
  have hacquires : acquires = acquires' := h .resourceAcquireVec
  dsimp only at hopcode
  subst hopcode hattributes hformats hsemfunc huses hacquires
  rfl

/-- Instructions with the same opcodes and fields are equal. -/
theorem Instruction.eq_of_field {a b : Instruction} (hopcodes : a.opcodes = b.opcodes)
    (h : ∀ key, a.field key = b.field key) : a = b := by
  have hnodes : a.nodes = b.nodes := by
    apply List.ext_getElem?
    intro i
    have hopcode : (a.nodes[i]?).map (·.opcode) = (b.nodes[i]?).map (·.opcode) := by
      rw [← List.getElem?_map, ← List.getElem?_map]
      exact congrArg (·[i]?) hopcodes
    have hfield := fun field => h (i, field)
    unfold Instruction.field at hfield
    dsimp only at hfield
    cases ha : a.nodes[i]? with
    | none =>
      rw [ha] at hopcode
      exact (Option.map_eq_none_iff.mp hopcode.symm).symm
    | some node =>
      rw [ha] at hopcode hfield
      obtain ⟨node', hb, heq⟩ := Option.map_eq_some_iff.mp hopcode.symm
      rw [hb] at hfield ⊢
      rw [InstructionNode.eq_of_field heq.symm fun field => Option.some.inj (hfield field)]
  obtain ⟨top, children⟩ := a
  obtain ⟨top', children'⟩ := b
  obtain ⟨rfl, rfl⟩ := List.cons.inj hnodes
  rfl

theorem nodes_mapNodes (g : Nat → InstructionNode → InstructionNode) (inst : Instruction) :
    (inst.mapNodes g).nodes = inst.nodes.mapIdx g := by
  rw [Instruction.nodes, Instruction.nodes, List.mapIdx_cons]
  rfl

/-- A function that overwrites the fields of each instruction in the chain overwrites those of
    the whole. -/
theorem overwrites_mapNodes {g : Nat → InstructionNode → InstructionNode}
    (opcodes : List OpcodeObject)
    (hg : ∀ i, Overwrites (fun _ => True) (fun field node => node.field field) (g i))
    (hopcode : ∀ i node, (g i node).opcode = node.opcode) :
    Overwrites (fun inst => inst.opcodes = opcodes) Instruction.field
      (Instruction.mapNodes g) := by
  refine ⟨fun inst hinst => ?_, fun ⟨i, field⟩ => ?_⟩
  · rw [← hinst, Instruction.opcodes, Instruction.opcodes, nodes_mapNodes]
    apply List.ext_getElem?
    intro i
    rw [List.getElem?_map, List.getElem?_map, List.getElem?_mapIdx, Option.map_map]
    exact congrArg (fun f => inst.nodes[i]?.map f) (funext fun node => hopcode i node)
  · have hfield : ∀ inst : Instruction, (inst.mapNodes g).field (i, field) =
        inst.nodes[i]?.map fun node => (g i node).field field := by
      intro inst
      rw [Instruction.field, nodes_mapNodes, List.getElem?_mapIdx, Option.map_map]
      rfl
    rcases (hg i).effect field with hkeep | ⟨c, hc⟩
    · refine .inl fun inst _ => ?_
      rw [hfield, Instruction.field]
      exact congrArg (fun f => inst.nodes[i]?.map f) (funext fun node => hkeep node trivial)
    · refine .inr ⟨opcodes[i]?.map fun _ => c, fun inst hinst => ?_⟩
      rw [hfield, ← hinst, Instruction.opcodes, List.getElem?_map, Option.map_map]
      exact congrArg (fun f => inst.nodes[i]?.map f) (funext fun node => hc node trivial)

/-- A function that changes the first instruction of the chain only, to what does not depend on
    it. -/
theorem overwrites_top {g : InstructionNode → InstructionNode} (opcodes : List OpcodeObject)
    (hg : Overwrites (fun _ => True) (fun field node => node.field field) g)
    (hopcode : ∀ node, (g node).opcode = node.opcode) :
    Overwrites (fun inst => inst.opcodes = opcodes) Instruction.field
      (Instruction.mapNodes fun i node => if i = 0 then g node else node) := by
  refine overwrites_mapNodes opcodes (fun i => ?_) fun i node => ?_
  · by_cases hi : i = 0
    · simpa only [hi, if_true] using hg
    · simp only [hi, if_false]
      exact overwrites_id
  · split
    · exact hopcode node
    · rfl

theorem overwrites_addInstructionAttributes (attributes : List (Name × TemplateExpression)) :
    Overwrites (fun _ => True)
      (fun name (map : SortedMap Name TemplateExpression) => map.lookup name)
      (addInstructionAttributes attributes) := by
  refine overwrites_foldl fun p _ => ⟨fun _ _ => trivial, fun name => ?_⟩
  by_cases hname : name = p.1
  · exact .inr ⟨some p.2, fun map _ => by rw [SortedMap.lookup_insert, if_pos hname]⟩
  · exact .inl fun map _ => by rw [SortedMap.lookup_insert, if_neg hname]

/-- One attribute overwrites fields, with what depends on the opcodes only. -/
theorem overwrites_visitOpcodeAttribute (opcodes : List OpcodeObject) (seen : Seen)
    (attr : OpcodeAttribute) :
    Overwrites (fun inst => inst.opcodes = opcodes) Instruction.field
      fun inst => (visitOpcodeAttribute seen attr inst).2 := by
  cases attr with
  | disasmSpec formats =>
    refine overwrites_top (g := fun node => { node with disasmFormatVec := _ }) opcodes
      ⟨fun _ _ => trivial, fun field => ?_⟩ fun _ => rfl
    cases field with
    | disasmFormatVec => exact .inr ⟨_, fun _ _ => rfl⟩
    | _ => exact .inl fun _ _ => rfl
  | semfuncSpec codes =>
    refine (overwrites_mapNodes (g := fun i node =>
      match (if seen.hasSemfunc then [] else codes)[i]? with
      | some code => { node with semfuncCodeString := code }
      | none => if i = 0 then { node with semfuncCodeString := [] } else node)
      opcodes (fun i => ⟨fun _ _ => trivial, fun field => ?_⟩) fun i node => ?_).congr
      fun inst _ => ?_
    · cases (if seen.hasSemfunc then [] else codes)[i]? with
      | some code =>
        cases field with
        | semfuncCodeString => exact .inr ⟨code, fun _ _ => rfl⟩
        | _ => exact .inl fun _ _ => rfl
      | none =>
        dsimp only
        split
        · cases field with
          | semfuncCodeString => exact .inr ⟨[], fun _ _ => rfl⟩
          | _ => exact .inl fun _ _ => rfl
        · exact .inl fun _ _ => rfl
    · split
      · rfl
      · split <;> rfl
    · unfold visitOpcodeAttribute
      by_cases hlength : codes.length < inst.nodes.length <;> cases seen.hasSemfunc <;>
        simp [hlength]
  | resourceSpec details =>
    refine (overwrites_top (g := fun node =>
      let spec := if seen.hasResources then ⟨[], []⟩ else (details opcodes).2
      { node with resourceUseVec := spec.useVec, resourceAcquireVec := spec.acquireVec })
      opcodes ⟨fun _ _ => trivial, fun field => ?_⟩ fun _ => rfl).congr fun inst hinst => ?_
    · cases field with
      | resourceUseVec => exact .inr ⟨_, fun _ _ => rfl⟩
      | resourceAcquireVec => exact .inr ⟨_, fun _ _ => rfl⟩
      | _ => exact .inl fun _ _ => rfl
    · subst hinst
      unfold visitOpcodeAttribute
      cases seen.hasResources <;> rfl
  | instructionAttributeSpec list =>
    refine (overwrites_mapNodes (g := fun i node =>
      let attributes := if seen.hasAttributes then [] else (instructionAttributes opcodes [] list).2
      let inherited := if i = 0 then .empty else node.attributeMap
      { node with attributeMap := addInstructionAttributes attributes inherited })
      opcodes (fun i => ⟨fun _ _ => trivial, fun field => ?_⟩) fun _ _ => rfl).congr
      fun inst hinst => ?_
    · generalize (if seen.hasAttributes then [] else (instructionAttributes opcodes [] list).2) =
        attributes
      cases field with
      | instructionAttribute name =>
        by_cases hi : i = 0
        · subst hi
          exact .inr ⟨(addInstructionAttributes attributes .empty).lookup name, fun _ _ => rfl⟩
        · -- The names of the list are set, the others are kept.
          simp only [hi, if_false]
          rcases (overwrites_addInstructionAttributes attributes).effect name with hkeep | ⟨c, hc⟩
          · exact .inl fun node _ => hkeep node.attributeMap trivial
          · exact .inr ⟨c, fun node _ => hc node.attributeMap trivial⟩
      | _ => exact .inl fun _ _ => rfl
    · subst hinst
      unfold visitOpcodeAttribute
      cases seen.hasAttributes <;> rfl

theorem overwrites_visitOpcodeAttributes (opcodes : List OpcodeObject)
    (attributes : List OpcodeAttribute) :
    Overwrites (fun inst => inst.opcodes = opcodes) Instruction.field
      fun inst => (visitOpcodeAttributes attributes inst).2 := by
  unfold visitOpcodeAttributes
  generalize ({} : Seen) = seen
  induction attributes generalizing seen with
  | nil => exact overwrites_id
  | cons attr rest ih =>
    exact (ih (seen.after attr)).comp (overwrites_visitOpcodeAttribute opcodes seen attr)

/-- **Overriding again.** After the overrides of a list, it does not show that some of them had
    been made before. -/
theorem foldl_visitOpcodeAttributes {l l' : List (List OpcodeAttribute)} (hsub : l ⊆ l')
    (inst : Instruction) :
    l'.foldl (fun inst attributes => (visitOpcodeAttributes attributes inst).2)
      (l.foldl (fun inst attributes => (visitOpcodeAttributes attributes inst).2) inst) =
    l'.foldl (fun inst attributes => (visitOpcodeAttributes attributes inst).2) inst :=
  foldl_absorb (fun attributes _ => overwrites_visitOpcodeAttributes inst.opcodes attributes) hsub
    (fun _ _ hx hy h => Instruction.eq_of_field (hx.trans hy.symm) h) rfl

theorem opcodes_visitOpcodeAttributes (attributes : List OpcodeAttribute) (inst : Instruction) :
    (visitOpcodeAttributes attributes inst).2.opcodes = inst.opcodes :=
  (overwrites_visitOpcodeAttributes inst.opcodes attributes).preserves inst rfl

theorem name_visitOpcodeAttributes (attributes : List OpcodeAttribute) (inst : Instruction) :
    (visitOpcodeAttributes attributes inst).2.name = inst.name := by
  have h := congrArg (fun l => l.head?.map (·.name)) (opcodes_visitOpcodeAttributes attributes inst)
  exact Option.some.inj h

end MpactSim.Isa
