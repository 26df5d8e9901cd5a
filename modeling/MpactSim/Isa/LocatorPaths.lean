import MpactSim.Isa.OperandNumbers

namespace MpactSim.Isa

open Decoder (Name OperandLocator OperandType toPascalCase)

/-!
# The paths of operand locators

The disassembly setter finds the operands of an instruction through its child instructions:

* `translateLocator` — the path from the instruction to an operand, from the locator;
* `decode`           — the instructions that `Decode` makes, one for each specification.

`locators_resolve_iff` says when the paths lead to the operands.
-/

/-! ### The source -/

/-- `child()` and `next()`. -/
inductive Link where
  | child | next
  deriving DecidableEq, Repr

/-- `Predicate()`, `Source(i)` and `Destination(i)`. -/
inductive Operand where
  | predicate
  | source (i : Nat)
  | destination (i : Nat)
  deriving DecidableEq, Repr

/-- An expression that starts with `inst->`. -/
structure Path where
  links : List Link
  operand : Operand
  deriving DecidableEq, Repr

/-- `TranslateLocator`. -/
def translateLocator (locator : OperandLocator) : Path where
  links := (if 0 < locator.opSpecNumber then [.child] else [])
    ++ List.replicate (locator.opSpecNumber - 1) .next
  operand :=
    match locator.type with
    | .predicate => .predicate
    | .source | .sourceArray => .source locator.index
    | .destination | .destinationArray => .destination locator.index

/-- An `Instruction` of the simulator: its operands and links.  A link is the index of an
    instruction in the heap, or null. -/
structure Node (α : Type) where
  predicate : Option α
  sources : List α
  destinations : List α
  child : Option Nat
  next : Option Nat
  deriving DecidableEq, Repr

/-- The instructions that have been made. -/
abbrev Heap (α : Type) := List (Node α)

/-- What the encoding interface returns for an instruction, an operand and its number. -/
structure Encoder (α : Type) where
  getPredicate : Nat → Name → α
  getSource : Nat → Name → Nat → α
  getSources : Nat → Name → Nat → List α
  getDestination : Nat → Name → Nat → Latency → α
  getDestinations : Nat → Name → Nat → Latency → List α

variable {α : Type}

/-- `new Instruction` -/
def Node.new : Node α := ⟨none, [], [], none, none⟩

/-- `Append`, which goes to the end of the list.  The number of instructions is enough fuel. -/
def append : Nat → Heap α → Nat → Nat → Option (Heap α)
  | 0, _, _, _ => none
  | fuel + 1, heap, id, inst =>
    heap[id]?.bind fun node =>
      match node.next with
      | none => some (heap.set id { node with next := some inst })
      | some next => append fuel heap next inst

/-- `AppendChild`. -/
def appendChild (heap : Heap α) (id inst : Nat) : Option (Heap α) :=
  heap[id]?.bind fun node =>
    match node.child with
    | none => some (heap.set id { node with child := some inst })
    | some child => append heap.length heap child inst

section Decode

variable (enc : Encoder α)

/-- A statement of an operand setter for the instruction `inst`; there is no code that compiles
    if it is an error. -/
def Statement.run (inst : Nat) (node : Node α) : Statement → Option (Node α)
  | setPredicate enumerator =>
    some { node with predicate := some (enc.getPredicate inst enumerator) }
  | appendSource enumerator number =>
    some { node with sources := node.sources ++ [enc.getSource inst enumerator number] }
  | appendSources enumerator number =>
    some { node with sources := node.sources ++ enc.getSources inst enumerator number }
  | appendDestination enumerator number latency =>
    some { node with
      destinations := node.destinations ++ [enc.getDestination inst enumerator number latency] }
  | appendDestinations enumerator number latency =>
    some { node with
      destinations := node.destinations ++ enc.getDestinations inst enumerator number latency }
  | error _ => none

/-- A new instruction, with its operands set. -/
def runSetter (inst : Nat) (setter : List Statement) : Option (Node α) :=
  setter.foldlM (Statement.run enc inst) .new

/-- The loop of the emitted `Decode` over the setters of the child instructions. -/
def decodeChildren (heap : Heap α) (parent : Nat) : List (List Statement) → Option (Heap α)
  | [] => some heap
  | setter :: rest => do
    let child := heap.length
    let node ← runSetter enc child setter
    let heap ← appendChild (heap ++ [node]) parent child
    decodeChildren heap child rest

/-- The emitted `Decode`, which returns instruction 0. -/
def decode : List (List Statement) → Option (Heap α)
  | [] => none
  | setter :: rest => do
    let node ← runSetter enc 0 setter
    decodeChildren enc [node] 0 rest

end Decode

/-! ### Evaluation -/

/-- The target of a link. -/
def Link.target (node : Node α) : Link → Option Nat
  | child => node.child
  | next => node.next

/-- The operand of an instruction. -/
def Operand.get (node : Node α) : Operand → Option α
  | predicate => node.predicate
  | source i => node.sources[i]?
  | destination i => node.destinations[i]?

/-- The instruction behind a list of links; there is none if a null pointer is followed. -/
def follow (heap : Heap α) (id : Nat) (links : List Link) : Option (Node α) :=
  match links with
  | [] => heap[id]?
  | link :: rest => heap[id]?.bind fun node => (link.target node).bind fun id => follow heap id rest

/-- The value of a path of instruction 0. -/
def Path.eval (heap : Heap α) (path : Path) : Option α :=
  (follow heap 0 path.links).bind path.operand.get

/-! ### The specification -/

/-- The operand that a statement gets, if it is a single one. -/
def Statement.object (enc : Encoder α) (inst : Nat) : Statement → Option α
  | setPredicate enumerator => some (enc.getPredicate inst enumerator)
  | appendSource enumerator number => some (enc.getSource inst enumerator number)
  | appendDestination enumerator number latency =>
    some (enc.getDestination inst enumerator number latency)
  | _ => none

/-- The operands that instruction `inst` is given for the operand names of its opcode. -/
def appendedTo (enc : Encoder α) (inst : Nat) (defaultLatency : Option TemplateExpression)
    (ctx : OpcodeOperandsCtx) : List (Name × Option α) :=
  let opcode := ctx.opcode defaultLatency
  ctx.pred.toList.map (fun name => (name, some (enc.getPredicate inst (toPascalCase name))))
    ++ opcode.sourceOpVec.zipWith (fun op st => (op.name, st.object enc inst))
      (sourceStatements 0 opcode.sourceOpVec)
    ++ opcode.destOpVec.zipWith (fun op st => (op.name, st.object enc inst))
      (destStatements 0 opcode.destOpVec)

/-- The operands for all operand names, in the order of the specifications from `inst` on. -/
def appendedFrom (enc : Encoder α) (defaultLatency : Option TemplateExpression) (inst : Nat) :
    List OpcodeOperandsCtx → List (Name × Option α)
  | [] => []
  | ctx :: rest =>
    appendedTo enc inst defaultLatency ctx ++ appendedFrom enc defaultLatency (inst + 1) rest

/-- The setters of an instruction and its child instructions. -/
def setters (defaultLatency : Option TemplateExpression) (specs : List OpcodeOperandsCtx) :
    List (List Statement) :=
  (visitOperandSpecs defaultLatency specs).1.map generateOperandSetterFcn

/-- The path of every locator leads to the operand that was appended for its name. -/
def LocatorsResolve (enc : Encoder α) (defaultLatency : Option TemplateExpression)
    (specs : List OpcodeOperandsCtx) (heap : Heap α) : Prop :=
  ∀ name locator, (visitOperandSpecs defaultLatency specs).2.lookup name = some locator →
    ∃ object, (appendedFrom enc defaultLatency 0 specs).lookup name = some (some object) ∧
      (translateLocator locator).eval heap = some object

/-- There are no array operands. -/
def OpcodeOperandsCtx.Plain (ctx : OpcodeOperandsCtx) : Prop :=
  (∀ op ∈ ctx.source, op.isArray = false) ∧ ∀ op ∈ ctx.destList, op.operand.isArray = false

/-- The operand names of a specification. -/
def OpcodeOperandsCtx.names (ctx : OpcodeOperandsCtx) : List Name :=
  ctx.pred.toList ++ ctx.source.map OperandCtx.name ++ ctx.destList.map (·.operand.name)

/-! ### The instructions -/

/-- The instructions from `id` on, each with the next one as its child. -/
def chain (id : Nat) : List (Node α) → Heap α
  | [] => []
  | [node] => [node]
  | node :: next :: rest => { node with child := some (id + 1) } :: chain (id + 1) (next :: rest)

/-- The nodes that the setters make for the instructions from `inst` on. -/
def runSetters (enc : Encoder α) (inst : Nat) : List (List Statement) → Option (List (Node α))
  | [] => some []
  | setter :: rest =>
    (runSetter enc inst setter).bind fun node =>
      (runSetters enc (inst + 1) rest).map (node :: ·)

section

variable {enc : Encoder α} {inst : Nat}

variable {node : Node α} {nodes : List (Node α)} {ctx : OpcodeOperandsCtx}

theorem links_runSetter {setter : List Statement} (h : runSetter enc inst setter = some node) :
    node.child = none ∧ node.next = none := by
  refine Lib.foldlM_invariant (fun node : Node α => node.child = none ∧ node.next = none) ?_ h
    ⟨rfl, rfl⟩
  intro node st _ node' hnode hrun
  cases st <;> cases hrun <;> exact hnode

/-- The loop of `Decode` makes the last instruction the parent of the next one. -/
theorem decodeChildren_eq (heap : Heap α) (node : Node α) (hnode : node.child = none)
    (setters : List (List Statement)) :
    decodeChildren enc (heap ++ [node]) heap.length setters
      = (runSetters enc (heap.length + 1) setters).map fun nodes =>
          heap ++ chain heap.length (node :: nodes) := by
  induction setters generalizing heap node with
  | nil => rfl
  | cons setter rest ih =>
    rw [decodeChildren, runSetters]
    simp only [List.length_append, List.length_singleton]
    cases hrun : runSetter enc (heap.length + 1) setter with
    | none => rfl
    | some child =>
      have happend : appendChild (heap ++ [node] ++ [child]) heap.length (heap.length + 1)
          = some (heap ++ [{ node with child := some (heap.length + 1) }] ++ [child]) := by
        simp [appendChild, hnode]
      simp only [Option.bind_eq_bind, Option.bind_some, happend]
      have hih := ih (heap ++ [{ node with child := some (heap.length + 1) }]) child
        (links_runSetter hrun).1
      rw [List.length_append, List.length_singleton] at hih
      rw [hih, Option.map_map]
      refine congrArg (Option.map · _) (funext fun nodes => ?_)
      simp [chain]

theorem decode_eq (setters : List (List Statement)) (hne : setters ≠ []) :
    decode enc setters = (runSetters enc 0 setters).map (chain 0) := by
  cases setters with
  | nil => exact absurd rfl hne
  | cons setter rest =>
    rw [decode, runSetters]
    cases hrun : runSetter enc 0 setter with
    | none => rfl
    | some node =>
      have h := @decodeChildren_eq _ enc [] node (links_runSetter hrun).1 rest
      simp only [List.nil_append, List.length_nil, Nat.zero_add] at h
      simp only [Option.bind_eq_bind, Option.bind_some]
      rw [h, Option.map_map]
      rfl

theorem getElem?_runSetters {setters : List (List Statement)}
    (h : runSetters enc inst setters = some nodes) (j : Nat) :
    nodes[j]? = setters[j]?.bind fun setter => runSetter enc (inst + j) setter := by
  induction setters generalizing inst nodes j with
  | nil =>
    cases h
    rfl
  | cons setter rest ih =>
    obtain ⟨node, hnode, h⟩ := Option.bind_eq_some_iff.mp h
    obtain ⟨nodes', hnodes, rfl⟩ := Option.map_eq_some_iff.mp h
    cases j with
    | zero => exact hnode.symm
    | succ j =>
      rw [List.getElem?_cons_succ, List.getElem?_cons_succ, ih hnodes j,
        show inst + (j + 1) = inst + 1 + j by omega]

theorem length_runSetters {setters : List (List Statement)}
    (h : runSetters enc inst setters = some nodes) : nodes.length = setters.length := by
  induction setters generalizing inst nodes with
  | nil =>
    cases h
    rfl
  | cons setter rest ih =>
    obtain ⟨node, -, h⟩ := Option.bind_eq_some_iff.mp h
    obtain ⟨nodes', hnodes, rfl⟩ := Option.map_eq_some_iff.mp h
    rw [List.length_cons, List.length_cons, ih hnodes]

@[simp]
theorem get_child (operand : Operand) (node : Node α) (child : Option Nat) :
    operand.get { node with child := child } = operand.get node := by
  cases operand <;> rfl

/-- A path with at most one link leads to the instruction of its specification; a longer one
    follows a null pointer. -/
theorem eval_chain (hlinks : ∀ node ∈ nodes, node.child = none ∧ node.next = none)
    (locator : OperandLocator) :
    (translateLocator locator).eval (chain 0 nodes)
      = if locator.opSpecNumber ≤ 1 then
          nodes[locator.opSpecNumber]?.bind (translateLocator locator).operand.get
        else none := by
  obtain ⟨n, type, isReloc, k⟩ := locator
  unfold Path.eval
  match n, nodes, hlinks with
  | 0, [], _ => rfl
  | 0, [node], _ => rfl
  | 0, node :: next :: rest, _ =>
    simp [translateLocator, follow, chain]
  | 1, [], _ => rfl
  | 1, [node], h =>
    simp [translateLocator, follow, chain, Link.target, (h node (by simp)).1]
  | 1, node :: next :: [], h => simp [translateLocator, follow, chain, Link.target]
  | 1, node :: next :: third :: rest, h =>
    simp [translateLocator, follow, chain, Link.target]
  | n + 2, [], _ => simp [translateLocator, follow, chain]
  | n + 2, [node], h =>
    simp [translateLocator, follow, chain, Link.target, (h node (by simp)).1]
  | n + 2, node :: next :: [], h =>
    simp [translateLocator, follow, chain, Link.target, List.replicate_succ,
      (h next (by simp)).2]
  | n + 2, node :: next :: third :: rest, h =>
    simp [translateLocator, follow, chain, Link.target, List.replicate_succ,
      (h next (by simp)).2]

/-! ### The operands of an instruction -/

theorem foldlM_sources {ops : List SourceOperand} (hplain : ∀ op ∈ ops, op.isArray = false)
    (sourceNo : Nat) (node : Node α) :
    (sourceStatements sourceNo ops).foldlM (Statement.run enc inst) node
      = some { node with sources := node.sources
          ++ (sourceStatements sourceNo ops).filterMap (Statement.object enc inst) } := by
  induction ops generalizing sourceNo node with
  | nil => simp [sourceStatements]
  | cons op rest ih =>
    obtain ⟨hop, hrest⟩ := List.forall_mem_cons.mp hplain
    rw [sourceStatements, if_neg (by simp [hop]), List.foldlM_cons]
    simp only [Statement.run, Option.bind_eq_bind, Option.bind_some]
    rw [ih hrest]
    simp [Statement.object]

theorem foldlM_destinations {ops : List DestinationOperand}
    (hplain : ∀ op ∈ ops, op.isArray = false) (destNo : Nat) {node' : Node α}
    (h : (destStatements destNo ops).foldlM (Statement.run enc inst) node = some node') :
    node' = { node with destinations := node.destinations
      ++ (destStatements destNo ops).filterMap (Statement.object enc inst) } := by
  induction ops generalizing destNo node with
  | nil =>
    cases h
    simp [destStatements]
  | cons op rest ih =>
    obtain ⟨hop, hrest⟩ := List.forall_mem_cons.mp hplain
    rw [destStatements] at h ⊢
    cases hlatency : op.latency destNo with
    | none =>
      rw [hlatency] at h
      cases h
    | some latency =>
      rw [hlatency] at h
      simp only [hop, Bool.false_eq_true, if_false] at h ⊢
      rw [List.foldlM_cons] at h
      simp only [Statement.run, Option.bind_eq_bind, Option.bind_some] at h
      rw [ih hrest _ h]
      simp [Statement.object]

theorem isSome_object_sources {ops : List SourceOperand}
    (hplain : ∀ op ∈ ops, op.isArray = false) (sourceNo : Nat) :
    ∀ st ∈ sourceStatements sourceNo ops, (st.object enc inst).isSome = true := by
  induction ops generalizing sourceNo with
  | nil => simp [sourceStatements]
  | cons op rest ih =>
    obtain ⟨hop, hrest⟩ := List.forall_mem_cons.mp hplain
    rw [sourceStatements, if_neg (by simp [hop])]
    exact List.forall_mem_cons.mpr ⟨rfl, ih hrest _⟩

theorem isSome_object_destinations {ops : List DestinationOperand}
    (hplain : ∀ op ∈ ops, op.isArray = false) (destNo : Nat) {node' : Node α}
    (h : (destStatements destNo ops).foldlM (Statement.run enc inst) node = some node') :
    ∀ st ∈ destStatements destNo ops, (st.object enc inst).isSome = true := by
  induction ops generalizing destNo node with
  | nil => simp [destStatements]
  | cons op rest ih =>
    obtain ⟨hop, hrest⟩ := List.forall_mem_cons.mp hplain
    rw [destStatements] at h ⊢
    cases hlatency : op.latency destNo with
    | none =>
      rw [hlatency] at h
      cases h
    | some latency =>
      rw [hlatency] at h
      simp only [hop, Bool.false_eq_true, if_false] at h ⊢
      exact List.forall_mem_cons.mpr ⟨rfl, ih hrest _ h⟩

theorem length_sourceStatements (sourceNo : Nat) (ops : List SourceOperand) :
    (sourceStatements sourceNo ops).length = ops.length := by
  induction ops generalizing sourceNo with
  | nil => rfl
  | cons op rest ih =>
    rw [sourceStatements]
    split <;> rw [List.length_cons, ih, List.length_cons]

theorem length_destStatements (destNo : Nat) (ops : List DestinationOperand) :
    (destStatements destNo ops).length = ops.length := by
  induction ops generalizing destNo with
  | nil => rfl
  | cons op rest ih =>
    rw [destStatements]
    split
    · rw [List.length_cons, ih, List.length_cons]
    · split <;> rw [List.length_cons, ih, List.length_cons]

theorem zipWith_object {β : Type} (name : β → Name) (ops : List β) (sts : List Statement)
    (hlen : sts.length = ops.length)
    (hobject : ∀ st ∈ sts, (st.object enc inst).isSome = true) :
    ops.zipWith (fun op st => (name op, Statement.object enc inst st)) sts
      = ops.mapIdx fun k op => (name op, (sts.filterMap (Statement.object enc inst))[k]?) := by
  induction ops generalizing sts with
  | nil => rfl
  | cons op rest ih =>
    cases sts with
    | nil => cases hlen
    | cons st sts =>
      obtain ⟨hst, hsts⟩ := List.forall_mem_cons.mp hobject
      obtain ⟨object, hst⟩ := Option.isSome_iff_exists.mp hst
      rw [List.zipWith_cons_cons, List.mapIdx_cons, List.filterMap_cons_some hst,
        ih sts (Nat.succ.inj hlen) hsts]
      simp [hst]

theorem runSetter_eq {defaultLatency : Option TemplateExpression} (hplain : ctx.Plain)
    (h : runSetter enc inst (generateOperandSetterFcn (ctx.opcode defaultLatency)) = some node) :
    node = {
        predicate := ctx.pred.map fun name => enc.getPredicate inst (toPascalCase name)
        sources := (sourceStatements 0 (ctx.opcode defaultLatency).sourceOpVec).filterMap
          (Statement.object enc inst)
        destinations := (destStatements 0 (ctx.opcode defaultLatency).destOpVec).filterMap
          (Statement.object enc inst)
        child := none
        next := none } ∧
      ∀ st ∈ destStatements 0 (ctx.opcode defaultLatency).destOpVec,
        (st.object enc inst).isSome = true := by
  have hsources : ∀ op ∈ (ctx.opcode defaultLatency).sourceOpVec, op.isArray = false :=
    List.forall_mem_map.mpr hplain.1
  have hdests : ∀ op ∈ (ctx.opcode defaultLatency).destOpVec, op.isArray = false :=
    List.forall_mem_map.mpr hplain.2
  have hpred : (if (ctx.opcode defaultLatency).predicateOpName = [] then []
        else [Statement.setPredicate (toPascalCase (ctx.opcode defaultLatency).predicateOpName)]).foldlM
          (Statement.run enc inst) (Node.new (α := α))
      = some { (Node.new (α := α)) with
          predicate := ctx.pred.map fun name => enc.getPredicate inst (toPascalCase name) } := by
    obtain ⟨pred, hne, _, _⟩ := ctx
    cases pred with
    | none => rfl
    | some name =>
      rw [if_neg (by simpa [OpcodeOperandsCtx.opcode] using hne)]
      rfl
  rw [runSetter, generateOperandSetterFcn, List.foldlM_append, List.foldlM_append, hpred] at h
  simp only [Option.bind_eq_bind, Option.bind_some, foldlM_sources hsources] at h
  refine ⟨?_, isSome_object_destinations hdests 0 h⟩
  rw [foldlM_destinations hdests 0 h]
  simp [Node.new]

/-- An instruction has the operands of its specification: the locators name them by their
    positions. -/
theorem appendedTo_eq {defaultLatency : Option TemplateExpression} (hplain : ctx.Plain)
    (h : runSetter enc inst (generateOperandSetterFcn (ctx.opcode defaultLatency)) = some node) :
    appendedTo enc inst defaultLatency ctx
      = (ctx.entries inst).map (fun e => (e.1, (translateLocator e.2).operand.get node)) := by
  obtain ⟨rfl, hobject⟩ := runSetter_eq hplain h
  have hsources : ∀ op ∈ (ctx.opcode defaultLatency).sourceOpVec, op.isArray = false :=
    List.forall_mem_map.mpr hplain.1
  have hsource : ∀ (k : Nat) (op : OperandCtx),
      (translateLocator (op.sourceLocator inst k).2).operand = .source k := by
    intro k op
    cases op <;> rfl
  have hdest : ∀ (k : Nat) (op : DestOperandCtx),
      (translateLocator (op.destLocator inst k).2).operand = .destination k := by
    rintro k ⟨op, -⟩
    cases op <;> rfl
  rw [appendedTo, zipWith_object SourceOperand.name _ _ (length_sourceStatements _ _)
      (isSome_object_sources hsources 0),
    zipWith_object DestinationOperand.name _ _ (length_destStatements _ _) hobject]
  rw [OpcodeOperandsCtx.entries, List.map_append, List.map_append, List.map_map]
  congr 1
  · congr 1
    · cases hpred : ctx.pred <;> simp [translateLocator, Operand.get]
    · refine List.ext_getElem? fun k => ?_
      rw [List.getElem?_mapIdx, List.getElem?_map, List.getElem?_mapIdx, OpcodeOperandsCtx.opcode,
        List.getElem?_map, Option.map_map, Option.map_map]
      refine congrArg (Option.map · _) (funext fun op => Prod.ext rfl ?_)
      rw [Function.comp_apply, Function.comp_apply, hsource]
      rfl
  · refine List.ext_getElem? fun k => ?_
    rw [List.getElem?_mapIdx, List.getElem?_map, List.getElem?_mapIdx, OpcodeOperandsCtx.opcode,
      List.getElem?_map, Option.map_map, Option.map_map]
    refine congrArg (Option.map · _) (funext fun op => Prod.ext rfl ?_)
    rw [Function.comp_apply, Function.comp_apply, hdest]
    rfl

theorem isSome_appendedTo {defaultLatency : Option TemplateExpression} (hplain : ctx.Plain)
    (h : runSetter enc inst (generateOperandSetterFcn (ctx.opcode defaultLatency)) = some node) :
    ∀ p ∈ appendedTo enc inst defaultLatency ctx, p.2.isSome = true := by
  have hsources : ∀ op ∈ (ctx.opcode defaultLatency).sourceOpVec, op.isArray = false :=
    List.forall_mem_map.mpr hplain.1
  intro p hp
  rw [appendedTo, List.mem_append, List.mem_append, List.mem_map, ← List.map_uncurry_zip_eq_zipWith,
    ← List.map_uncurry_zip_eq_zipWith, List.mem_map, List.mem_map] at hp
  obtain (⟨name, -, rfl⟩ | ⟨⟨op, st⟩, hmem, rfl⟩) | ⟨⟨op, st⟩, hmem, rfl⟩ := hp
  · rfl
  · exact isSome_object_sources hsources 0 st (List.of_mem_zip hmem).2
  · exact (runSetter_eq hplain h).2 st (List.of_mem_zip hmem).2

end

/-! ### All operands -/

variable {enc : Encoder α} {defaultLatency : Option TemplateExpression}
  {specs : List OpcodeOperandsCtx}

/-- The operands for the names are those that the locators lead to, in the instructions that
    `instruction` gives for the numbers of the specifications. -/
theorem appendedFrom_eq {inst : Nat} (hplain : ∀ ctx ∈ specs, ctx.Plain)
    {instruction : Nat → Option (Node α)}
    (hmade : ∀ (j : Nat) (ctx : OpcodeOperandsCtx), specs[j]? = some ctx → ∃ node,
      instruction (inst + j) = some node ∧
        runSetter enc (inst + j) (generateOperandSetterFcn (ctx.opcode defaultLatency)) = some node) :
    appendedFrom enc defaultLatency inst specs = (entriesFrom inst specs).map (fun e =>
        (e.1, (instruction e.2.opSpecNumber).bind (translateLocator e.2).operand.get)) ∧
      ∀ p ∈ appendedFrom enc defaultLatency inst specs, p.2.isSome = true := by
  induction specs generalizing inst with
  | nil => exact ⟨rfl, nofun⟩
  | cons ctx rest ih =>
    obtain ⟨hctx, hrest⟩ := List.forall_mem_cons.mp hplain
    obtain ⟨node, hnode, hrun⟩ := hmade 0 ctx rfl
    obtain ⟨heq, hsome⟩ := @ih (inst + 1) hrest fun j ctx' hj => by
      rw [show inst + 1 + j = inst + (j + 1) by omega]
      exact hmade (j + 1) ctx' hj
    rw [Nat.add_zero] at hnode hrun
    refine ⟨?_, ?_⟩
    · rw [appendedFrom, entriesFrom, List.map_append, heq, appendedTo_eq hctx hrun]
      congr 1
      refine List.map_congr_left fun e he => ?_
      rw [opSpecNumber_of_mem he, hnode]
      rfl
    · intro p hp
      rcases List.mem_append.mp hp with hp | hp
      · exact isSome_appendedTo hctx hrun p hp
      · exact hsome p hp

variable {name : Name}

theorem mem_names_iff {ctx : OpcodeOperandsCtx} (n : Nat) :
    name ∈ ctx.names ↔ ∃ locator, (name, locator) ∈ ctx.entries n := by
  have hkeys : (ctx.entries n).map Prod.fst = ctx.names := by
    rw [OpcodeOperandsCtx.entries, OpcodeOperandsCtx.names, List.map_append, List.map_append,
      List.map_map]
    congr 1
    · congr 1
      · exact List.map_id _
      · refine List.ext_getElem? fun k => ?_
        rw [List.getElem?_map, List.getElem?_mapIdx, Option.map_map, List.getElem?_map]
        rfl
    · refine List.ext_getElem? fun k => ?_
      rw [List.getElem?_map, List.getElem?_mapIdx, Option.map_map, List.getElem?_map]
      rfl
  rw [← hkeys, List.mem_map]
  constructor
  · rintro ⟨e, he, rfl⟩
    exact ⟨e.2, he⟩
  · rintro ⟨locator, hmem⟩
    exact ⟨_, hmem, rfl⟩

theorem exists_mem_entriesFrom_iff (n : Nat) :
    (∃ locator, (name, locator) ∈ entriesFrom n specs) ↔ ∃ ctx ∈ specs, name ∈ ctx.names := by
  constructor
  · rintro ⟨locator, hmem⟩
    obtain ⟨j, ctx, hj, hmem⟩ := mem_entriesFrom.mp hmem
    exact ⟨ctx, List.mem_of_getElem? hj, (mem_names_iff _).mpr ⟨locator, hmem⟩⟩
  · rintro ⟨ctx, hctx, hname⟩
    obtain ⟨j, hj⟩ := List.mem_iff_getElem?.mp hctx
    obtain ⟨locator, hmem⟩ := (mem_names_iff (n + j)).mp hname
    exact ⟨locator, mem_entriesFrom.mpr ⟨j, ctx, hj, hmem⟩⟩

theorem mem_of_lookup {map : OpLocatorMap} {locator : OperandLocator}
    (h : map.lookup name = some locator) : (name, locator) ∈ map := by
  obtain ⟨_, _, rfl, -⟩ := List.lookup_eq_some_iff.mp h
  exact List.mem_append_right _ List.mem_cons_self

theorem exists_lookup {map : OpLocatorMap} {locator : OperandLocator} (h : (name, locator) ∈ map) :
    ∃ locator', map.lookup name = some locator' :=
  Option.isSome_iff_exists.mp (List.lookup_isSome_iff.mpr ⟨_, h, beq_self_eq_true _⟩)

/-- The locators are for the first two specifications exactly if these have all the names. -/
theorem opSpecNumber_le_one_iff (specs : List OpcodeOperandsCtx) :
    (∀ name locator, (entries specs).lookup name = some locator → locator.opSpecNumber ≤ 1) ↔
      ∀ ctx ∈ specs.drop 2, ∀ name ∈ ctx.names, ∃ ctx' ∈ specs.take 2, name ∈ ctx'.names := by
  have hsplit : entries specs
      = entriesFrom 0 (specs.take 2) ++ entriesFrom (specs.take 2).length (specs.drop 2) := by
    rw [entries, ← Nat.zero_add (specs.take 2).length, ← entriesFrom_append, List.take_append_drop]
  have hfirst : ∀ e ∈ entriesFrom 0 (specs.take 2), e.2.opSpecNumber ≤ 1 := by
    intro e he
    obtain ⟨j, ctx, hj, he⟩ := mem_entriesFrom.mp he
    have hlt := (List.getElem?_eq_some_iff.mp hj).1
    rw [List.length_take] at hlt
    rw [opSpecNumber_of_mem he]
    omega
  constructor
  · intro h ctx hctx name hname
    have hlen : (specs.take 2).length = 2 := by
      have := List.length_pos_of_mem hctx
      rw [List.length_drop] at this
      rw [List.length_take]
      omega
    by_contra hnot
    have hnone : (entriesFrom 0 (specs.take 2)).lookup name = none := by
      rw [List.lookup_eq_none_iff]
      intro e he
      refine bne_iff_ne.mpr fun hname => hnot ?_
      exact (exists_mem_entriesFrom_iff 0).mp ⟨e.2, by rw [hname]; exact he⟩
    obtain ⟨locator, hmem⟩ := (exists_mem_entriesFrom_iff 2).mpr ⟨ctx, hctx, hname⟩
    obtain ⟨first, hfirst⟩ := exists_lookup hmem
    have hle := h name first (by rw [hsplit, List.lookup_append, hnone, hlen, hfirst]; rfl)
    obtain ⟨j, ctx', -, he⟩ := mem_entriesFrom.mp (mem_of_lookup hfirst)
    have := opSpecNumber_of_mem he
    dsimp only at this
    omega
  · intro h name locator hlookup
    rw [hsplit, List.lookup_append, Option.or_eq_some_iff] at hlookup
    obtain hlookup | ⟨hnone, hlookup⟩ := hlookup
    · exact hfirst _ (mem_of_lookup hlookup)
    · -- The name is one of the first two specifications, which have no locator for it.
      obtain ⟨ctx, hctx, hname⟩ := (exists_mem_entriesFrom_iff _).mp ⟨locator, mem_of_lookup hlookup⟩
      obtain ⟨other, hmem⟩ := (exists_mem_entriesFrom_iff 0).mpr (h ctx hctx name hname)
      obtain ⟨_, hsome⟩ := exists_lookup hmem
      rw [hnone] at hsome
      cases hsome

/-- **Operand paths.** In the instructions that `Decode` makes, the paths of the locators lead to
    the operands exactly if every operand name occurs in one of the first two specifications. -/
theorem locators_resolve_iff (enc : Encoder α) (defaultLatency : Option TemplateExpression)
    (specs : List OpcodeOperandsCtx) (hplain : ∀ ctx ∈ specs, ctx.Plain) (heap : Heap α)
    (hdecode : decode enc (setters defaultLatency specs) = some heap) :
    LocatorsResolve enc defaultLatency specs heap ↔
      ∀ ctx ∈ specs.drop 2, ∀ name ∈ ctx.names, ∃ ctx' ∈ specs.take 2, name ∈ ctx'.names := by
  have hne : setters defaultLatency specs ≠ [] := by
    intro hnil
    rw [hnil] at hdecode
    cases hdecode
  rw [decode_eq _ hne] at hdecode
  obtain ⟨nodes, hnodes, rfl⟩ := Option.map_eq_some_iff.mp hdecode
  have hsetters : setters defaultLatency specs
      = specs.map fun ctx => generateOperandSetterFcn (ctx.opcode defaultLatency) := by
    rw [setters, opcodes_eq, List.map_map]
    rfl
  have hget : ∀ j : Nat, nodes[j]? = specs[j]?.bind fun ctx =>
      runSetter enc j (generateOperandSetterFcn (ctx.opcode defaultLatency)) := by
    intro j
    rw [getElem?_runSetters hnodes, hsetters, List.getElem?_map, Nat.zero_add]
    cases specs[j]? <;> rfl
  have hmade : ∀ (j : Nat) (ctx : OpcodeOperandsCtx), specs[j]? = some ctx → ∃ node,
      nodes[0 + j]? = some node ∧
        runSetter enc (0 + j) (generateOperandSetterFcn (ctx.opcode defaultLatency)) = some node := by
    intro j ctx hj
    have hlt : j < nodes.length := by
      rw [length_runSetters hnodes, hsetters, List.length_map]
      exact (List.getElem?_eq_some_iff.mp hj).1
    have hnode := hget j
    rw [List.getElem?_eq_getElem hlt, hj, Option.bind_some] at hnode
    exact ⟨nodes[j], by rw [Nat.zero_add, List.getElem?_eq_getElem hlt],
      by rw [Nat.zero_add, ← hnode]⟩
  have hlinks : ∀ node ∈ nodes, node.child = none ∧ node.next = none := by
    intro node hnode
    obtain ⟨j, hj⟩ := List.mem_iff_getElem?.mp hnode
    rw [hget j] at hj
    obtain ⟨ctx, -, hrun⟩ := Option.bind_eq_some_iff.mp hj
    exact links_runSetter hrun
  obtain ⟨happended, hsome⟩ := appendedFrom_eq hplain hmade
  rw [← opSpecNumber_le_one_iff]
  refine forall_congr' fun name => forall_congr' fun locator => ?_
  rw [locator_eq_lookup]
  refine forall_congr' fun hlookup => ?_
  have hobject : (appendedFrom enc defaultLatency 0 specs).lookup name
      = some (nodes[locator.opSpecNumber]?.bind (translateLocator locator).operand.get) := by
    rw [happended]
    have h := lookup_map_snd (fun l : OperandLocator =>
      nodes[l.opSpecNumber]?.bind (translateLocator l).operand.get) (entriesFrom 0 specs) name
    rw [h, show (entriesFrom 0 specs).lookup name = some locator from hlookup, Option.map_some]
  rw [hobject, eval_chain hlinks]
  constructor
  · rintro ⟨object, -, heval⟩
    by_contra hnot
    rw [if_neg hnot] at heval
    cases heval
  · intro hle
    rw [if_pos hle]
    obtain ⟨_, _, hmem, -⟩ := List.lookup_eq_some_iff.mp hobject
    have := hsome _ (by rw [hmem]; exact List.mem_append_right _ List.mem_cons_self)
    obtain ⟨object, hobj⟩ := Option.isSome_iff_exists.mp this
    exact ⟨object, congrArg some hobj, hobj⟩

/-- An instruction and a child instruction, with a source each. -/
theorem paths_of_two :
    let ctx (name : String) : OpcodeOperandsCtx := ⟨none, nofun, [.operand name.toList none], []⟩
    let enc : Encoder Nat := ⟨fun i _ => i, fun i _ _ => i, fun _ _ _ => [], fun i _ _ _ => i,
      fun _ _ _ _ => []⟩
    LocatorsResolve enc none [ctx "rs1", ctx "rs2"]
        [⟨none, [0], [], some 1, none⟩, ⟨none, [1], [], none, none⟩] ↔
      ∀ c ∈ [ctx "rs1", ctx "rs2"].drop 2, ∀ name ∈ c.names,
        ∃ c' ∈ [ctx "rs1", ctx "rs2"].take 2, name ∈ c'.names :=
  locators_resolve_iff _ none _ (by simp [OpcodeOperandsCtx.Plain, OperandCtx.isArray]) _
    (by decide +kernel)

/-- With three specifications the path `inst->child()->next()->Source(0)` of the operand of the
    third follows a null pointer: the third instruction is the child of the second. -/
theorem path_of_third :
    let ctx (name : String) : OpcodeOperandsCtx := ⟨none, nofun, [.operand name.toList none], []⟩
    let enc : Encoder Nat := ⟨fun i _ => i, fun i _ _ => i, fun _ _ _ => [], fun i _ _ _ => i,
      fun _ _ _ _ => []⟩
    let heap : Heap Nat := [⟨none, [0], [], some 1, none⟩, ⟨none, [1], [], some 2, none⟩,
      ⟨none, [2], [], none, none⟩]
    decode enc (setters none [ctx "rs1", ctx "rs2", ctx "rs3"]) = some heap ∧
      (visitOperandSpecs none [ctx "rs1", ctx "rs2", ctx "rs3"]).2.lookup "rs3".toList
        = some ⟨2, .source, false, 0⟩ ∧
      translateLocator ⟨2, .source, false, 0⟩ = ⟨[.child, .next], .source 0⟩ ∧
      (translateLocator ⟨2, .source, false, 0⟩).eval heap = none ∧
      ¬ LocatorsResolve enc none [ctx "rs1", ctx "rs2", ctx "rs3"] heap := by
  intro ctx enc heap
  have hlookup : (visitOperandSpecs none [ctx "rs1", ctx "rs2", ctx "rs3"]).2.lookup "rs3".toList
      = some ⟨2, .source, false, 0⟩ := by decide +kernel
  have heval : (translateLocator ⟨2, .source, false, 0⟩).eval heap = none := by decide
  refine ⟨by decide +kernel, hlookup, by decide, heval, fun h => ?_⟩
  obtain ⟨object, -, hobject⟩ := h _ _ hlookup
  rw [heval] at hobject
  cases hobject

end MpactSim.Isa
