import MpactSim.Decoder.Disasm
import MpactSim.Isa.TemplateExpression

namespace MpactSim.Isa

open Decoder (Name OperandLocator OperandType)

/-!
# The operands of an opcode

An opcode has one or more operand specifications, one for the instruction and one for each of
its child instructions.  While they are parsed each operand is appended to the opcode of its
specification, and located under its name in a map of the first opcode.

* `visitOpcodeOperands`, `visitOperandSpecs` — the visitor;
* `entries`                                  — the locators in the order in which they are made;
* `locator_eq_lookup`                        — the map has the first locator of every name.
-/

/-! ### The source -/

/-- `SourceOperand`. -/
structure SourceOperand where
  name : Name
  isArray : Bool
  isReloc : Bool
  deriving DecidableEq, Repr

/-- `DestinationOperand`.  There is no expression if the latency is `*`. -/
structure DestinationOperand where
  name : Name
  isArray : Bool
  isReloc : Bool
  expression : Option TemplateExpression

/-- `GetLatency`. -/
def DestinationOperand.getLatency (op : DestinationOperand) : Value :=
  match op.expression with
  | none => .ok (-1)
  | some expression => expression.getValue

/-- The operands of an `Opcode`.  The name of the predicate is empty if there is none. -/
structure Opcode where
  predicateOpName : Name
  sourceOpVec : List SourceOperand
  destOpVec : List DestinationOperand

/-- `AppendSourceOp`. -/
def Opcode.appendSourceOp (opcode : Opcode) (op : SourceOperand) : Opcode :=
  { opcode with sourceOpVec := opcode.sourceOpVec ++ [op] }

/-- `AppendDestOp`. -/
def Opcode.appendDestOp (opcode : Opcode) (op : DestinationOperand) : Opcode :=
  { opcode with destOpVec := opcode.destOpVec ++ [op] }

/-- `OpLocatorMap`. -/
abbrev OpLocatorMap := List (Name × OperandLocator)

/-- `insert` keeps the locator that a name has. -/
def OpLocatorMap.insertEntry (map : OpLocatorMap) (entry : Name × OperandLocator) : OpLocatorMap :=
  if (map.lookup entry.1).isSome then map else map ++ [entry]

/-- A source operand, or a destination operand without its latency, as it is parsed. -/
inductive OperandCtx where
  | operand (opName : Name) (opAttribute : Option Name)
  | array (ident : Name)
  deriving DecidableEq, Repr

def OperandCtx.name : OperandCtx → Name
  | operand opName _ => opName
  | array ident => ident

def OperandCtx.isArray : OperandCtx → Bool
  | operand _ _ => false
  | array _ => true

/-- Another attribute is an error that is reported, and has no effect here. -/
def OperandCtx.isReloc : OperandCtx → Bool
  | operand _ opAttribute => opAttribute = some "%reloc".toList
  | array _ => false

/-- The latency of a destination operand as it is parsed. -/
inductive LatencyCtx where
  | expression (expr : TemplateExpression)
  | wildcard
  | omitted

/-- `DestOperandCtx`. -/
structure DestOperandCtx where
  operand : OperandCtx
  latency : LatencyCtx

/-- `OpcodeOperandsCtx`: an operand specification.  Names are not empty. -/
structure OpcodeOperandsCtx where
  pred : Option Name
  pred_ne : pred ≠ some []
  source : List OperandCtx
  destList : List DestOperandCtx

/-- The expression of a latency; `defaultLatency` is that of the slot. -/
def LatencyCtx.toExpression (defaultLatency : Option TemplateExpression) :
    LatencyCtx → Option TemplateExpression
  | expression expr => some expr
  | wildcard => none
  | omitted =>
    match defaultLatency with
    | some expr => some expr.deepCopy
    | none => some (.constant 1)

def OperandCtx.toSource (op : OperandCtx) : SourceOperand := ⟨op.name, op.isArray, op.isReloc⟩

def DestOperandCtx.toDestination (defaultLatency : Option TemplateExpression)
    (op : DestOperandCtx) : DestinationOperand :=
  ⟨op.operand.name, op.operand.isArray, op.operand.isReloc, op.latency.toExpression defaultLatency⟩

/-- The locator of a source operand. -/
def OperandCtx.sourceLocator (opSpecNumber : Nat) (op : OperandCtx) (inst : Nat) :
    Name × OperandLocator :=
  (op.name, ⟨opSpecNumber, if op.isArray then .sourceArray else .source, op.isReloc, inst⟩)

/-- The locator of a destination operand. -/
def DestOperandCtx.destLocator (opSpecNumber : Nat) (op : DestOperandCtx) (inst : Nat) :
    Name × OperandLocator :=
  (op.operand.name, ⟨opSpecNumber, if op.operand.isArray then .destinationArray else .destination,
    op.operand.isReloc, inst⟩)

section Visit

variable (defaultLatency : Option TemplateExpression) (opSpecNumber : Nat)

/-- The predicate in `VisitOpcodeOperands`. -/
def visitPredicate (child : Opcode) (map : OpLocatorMap) : Option Name → Opcode × OpLocatorMap
  | none => (child, map)
  | some name =>
    ({ child with predicateOpName := name },
      map.insertEntry (name, ⟨opSpecNumber, .predicate, false, 0⟩))

/-- The loop of `VisitOpcodeOperands` over the source operands. -/
def visitSources (child : Opcode) (map : OpLocatorMap) (inst : Nat) :
    List OperandCtx → Opcode × OpLocatorMap
  | [] => (child, map)
  | op :: rest =>
    visitSources (child.appendSourceOp op.toSource)
      (map.insertEntry (op.sourceLocator opSpecNumber inst)) (inst + 1) rest

/-- The loop of `VisitOpcodeOperands` over the destination operands. -/
def visitDestinations (child : Opcode) (map : OpLocatorMap) (inst : Nat) :
    List DestOperandCtx → Opcode × OpLocatorMap
  | [] => (child, map)
  | op :: rest =>
    visitDestinations (child.appendDestOp (op.toDestination defaultLatency))
      (map.insertEntry (op.destLocator opSpecNumber inst)) (inst + 1) rest

/-- `VisitOpcodeOperands`; `map` is the map of the parent's opcode. -/
def visitOpcodeOperands (map : OpLocatorMap) (ctx : OpcodeOperandsCtx) : Opcode × OpLocatorMap :=
  let (child, map) := visitPredicate opSpecNumber ⟨[], [], []⟩ map ctx.pred
  let (child, map) := visitSources opSpecNumber child map 0 ctx.source
  visitDestinations defaultLatency opSpecNumber child map 0 ctx.destList

end Visit

/-- The operand specifications in `ProcessOpcodeSpec`, from a number on. -/
def visitSpecsFrom (defaultLatency : Option TemplateExpression) (opSpecNumber : Nat)
    (map : OpLocatorMap) : List OpcodeOperandsCtx → List Opcode × OpLocatorMap
  | [] => ([], map)
  | ctx :: rest =>
    let (opcode, map) := visitOpcodeOperands defaultLatency opSpecNumber map ctx
    let (opcodes, map) := visitSpecsFrom defaultLatency (opSpecNumber + 1) map rest
    (opcode :: opcodes, map)

/-- The operand specifications in `ProcessOpcodeSpec`: the opcodes of the instruction and its
    chain of child instructions, and the locators of the first opcode. -/
def visitOperandSpecs (defaultLatency : Option TemplateExpression)
    (specs : List OpcodeOperandsCtx) : List Opcode × OpLocatorMap :=
  visitSpecsFrom defaultLatency 0 [] specs

/-! ### What the visitor makes -/

/-- The opcode of an operand specification. -/
def OpcodeOperandsCtx.opcode (defaultLatency : Option TemplateExpression)
    (ctx : OpcodeOperandsCtx) : Opcode where
  predicateOpName := ctx.pred.getD []
  sourceOpVec := ctx.source.map OperandCtx.toSource
  destOpVec := ctx.destList.map (DestOperandCtx.toDestination defaultLatency)

/-- The locators of an operand specification, in the order in which they are made. -/
def OpcodeOperandsCtx.entries (opSpecNumber : Nat) (ctx : OpcodeOperandsCtx) : OpLocatorMap :=
  ctx.pred.toList.map (fun name => (name, ⟨opSpecNumber, .predicate, false, 0⟩))
    ++ ctx.source.mapIdx (fun k op => op.sourceLocator opSpecNumber k)
    ++ ctx.destList.mapIdx (fun k op => op.destLocator opSpecNumber k)

/-- The locators of the operand specifications from a number on. -/
def entriesFrom (opSpecNumber : Nat) : List OpcodeOperandsCtx → OpLocatorMap
  | [] => []
  | ctx :: rest => ctx.entries opSpecNumber ++ entriesFrom (opSpecNumber + 1) rest

/-- The locators of an opcode, in the order in which they are made. -/
def entries (specs : List OpcodeOperandsCtx) : OpLocatorMap := entriesFrom 0 specs

section

variable {defaultLatency : Option TemplateExpression} {opSpecNumber : Nat}

theorem visitPredicate_eq (child : Opcode) (map : OpLocatorMap) (pred : Option Name)
    (h : child.predicateOpName = []) :
    visitPredicate opSpecNumber child map pred = ({ child with predicateOpName := pred.getD [] },
      (pred.toList.map fun name => (name, ⟨opSpecNumber, .predicate, false, 0⟩)).foldl
        OpLocatorMap.insertEntry map) := by
  cases pred with
  | none => simp [visitPredicate, ← h]
  | some name => rfl

theorem visitSources_eq (child : Opcode) (map : OpLocatorMap) (inst : Nat)
    (ops : List OperandCtx) :
    visitSources opSpecNumber child map inst ops
      = ({ child with sourceOpVec := child.sourceOpVec ++ ops.map OperandCtx.toSource },
        (ops.mapIdx fun k op => op.sourceLocator opSpecNumber (inst + k)).foldl
          OpLocatorMap.insertEntry map) := by
  induction ops generalizing child map inst with
  | nil => simp [visitSources]
  | cons op rest ih =>
    rw [visitSources, ih]
    simp [Opcode.appendSourceOp, List.mapIdx_cons, Nat.add_assoc, Nat.add_comm 1]

theorem visitDestinations_eq (child : Opcode) (map : OpLocatorMap) (inst : Nat)
    (ops : List DestOperandCtx) :
    visitDestinations defaultLatency opSpecNumber child map inst ops
      = ({ child with destOpVec :=
            child.destOpVec ++ ops.map (DestOperandCtx.toDestination defaultLatency) },
        (ops.mapIdx fun k op => op.destLocator opSpecNumber (inst + k)).foldl
          OpLocatorMap.insertEntry map) := by
  induction ops generalizing child map inst with
  | nil => simp [visitDestinations]
  | cons op rest ih =>
    rw [visitDestinations, ih]
    simp [Opcode.appendDestOp, List.mapIdx_cons, Nat.add_assoc, Nat.add_comm 1]

theorem visitOpcodeOperands_eq (map : OpLocatorMap) (ctx : OpcodeOperandsCtx) :
    visitOpcodeOperands defaultLatency opSpecNumber map ctx
      = (ctx.opcode defaultLatency,
        (ctx.entries opSpecNumber).foldl OpLocatorMap.insertEntry map) := by
  rw [visitOpcodeOperands, visitPredicate_eq _ _ _ rfl]
  dsimp only
  rw [visitSources_eq]
  dsimp only
  rw [visitDestinations_eq]
  simp [OpcodeOperandsCtx.opcode, OpcodeOperandsCtx.entries]

theorem visitSpecsFrom_eq (map : OpLocatorMap) (specs : List OpcodeOperandsCtx) :
    visitSpecsFrom defaultLatency opSpecNumber map specs
      = (specs.map (OpcodeOperandsCtx.opcode defaultLatency),
        (entriesFrom opSpecNumber specs).foldl OpLocatorMap.insertEntry map) := by
  induction specs generalizing opSpecNumber map with
  | nil => rfl
  | cons ctx rest ih =>
    rw [visitSpecsFrom, visitOpcodeOperands_eq]
    dsimp only
    rw [ih, entriesFrom, List.foldl_append, List.map_cons]

end

theorem opcodes_eq (defaultLatency : Option TemplateExpression) (specs : List OpcodeOperandsCtx) :
    (visitOperandSpecs defaultLatency specs).1
      = specs.map (OpcodeOperandsCtx.opcode defaultLatency) := by
  rw [visitOperandSpecs, visitSpecsFrom_eq]

theorem lookup_insertEntry (map : OpLocatorMap) (entry : Name × OperandLocator) (name : Name) :
    (map.insertEntry entry).lookup name = (map ++ [entry]).lookup name := by
  unfold OpLocatorMap.insertEntry
  split
  · rename_i hsome
    obtain ⟨l, hl⟩ := Option.isSome_iff_exists.mp hsome
    rw [List.lookup_append]
    by_cases hname : name = entry.1
    · rw [hname, hl, Option.some_or]
    · have hnone : List.lookup name [entry] = none := by simpa [List.lookup_cons] using hname
      rw [hnone, Option.or_none]
  · rfl

theorem lookup_foldl_insertEntry (map entries : OpLocatorMap) (name : Name) :
    (entries.foldl OpLocatorMap.insertEntry map).lookup name = (map ++ entries).lookup name := by
  induction entries generalizing map with
  | nil => simp
  | cons entry entries ih =>
    rw [List.foldl_cons, ih, List.lookup_append, lookup_insertEntry, ← List.lookup_append,
      List.append_assoc, List.singleton_append]

/-- **Locators.** The map has the first locator that was made for a name. -/
theorem locator_eq_lookup (defaultLatency : Option TemplateExpression)
    (specs : List OpcodeOperandsCtx) (name : Name) :
    (visitOperandSpecs defaultLatency specs).2.lookup name = (entries specs).lookup name := by
  rw [visitOperandSpecs, visitSpecsFrom_eq, lookup_foldl_insertEntry, List.nil_append, entries]

theorem mem_entriesFrom {n : Nat} {specs : List OpcodeOperandsCtx} {e : Name × OperandLocator} :
    e ∈ entriesFrom n specs ↔
      ∃ (j : Nat) (ctx : OpcodeOperandsCtx), specs[j]? = some ctx ∧ e ∈ ctx.entries (n + j) := by
  induction specs generalizing n with
  | nil => simp [entriesFrom]
  | cons ctx rest ih =>
    rw [entriesFrom, List.mem_append, ih]
    constructor
    · rintro (h | ⟨j, ctx', hj, h⟩)
      · exact ⟨0, ctx, rfl, h⟩
      · exact ⟨j + 1, ctx', hj, by rwa [show n + (j + 1) = n + 1 + j by omega]⟩
    · rintro ⟨j | j, ctx', hj, h⟩
      · obtain rfl : ctx = ctx' := by simpa using hj
        exact .inl h
      · exact .inr ⟨j, ctx', hj, by rwa [show n + (j + 1) = n + 1 + j by omega] at h⟩

theorem entriesFrom_append (n : Nat) (specs specs' : List OpcodeOperandsCtx) :
    entriesFrom n (specs ++ specs') = entriesFrom n specs ++ entriesFrom (n + specs.length) specs' := by
  induction specs generalizing n with
  | nil => rfl
  | cons ctx rest ih =>
    rw [List.cons_append, entriesFrom, entriesFrom, ih, List.append_assoc, List.length_cons,
      Nat.add_assoc, Nat.add_comm 1]

theorem opSpecNumber_of_mem {n : Nat} {ctx : OpcodeOperandsCtx} {e : Name × OperandLocator}
    (h : e ∈ ctx.entries n) : e.2.opSpecNumber = n := by
  rw [OpcodeOperandsCtx.entries, List.mem_append, List.mem_append, List.mem_map, List.mem_mapIdx,
    List.mem_mapIdx] at h
  obtain (⟨name, -, rfl⟩ | ⟨k, hk, rfl⟩) | ⟨k, hk, rfl⟩ := h
  · rfl
  · rfl
  · rfl

theorem lookup_map_snd {β γ : Type} (f : β → γ) (map : List (Name × β)) (name : Name) :
    (map.map fun e => (e.1, f e.2)).lookup name = (map.lookup name).map f := by
  induction map with
  | nil => rfl
  | cons e map ih =>
    rw [List.map_cons, List.lookup_cons, List.lookup_cons, ih]
    split <;> rfl

end MpactSim.Isa
