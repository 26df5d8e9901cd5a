import MpactSim.Isa.OpcodeOperands

namespace MpactSim.Isa

open Decoder (Name OperandLocator OperandType toPascalCase)

/-!
# Operand numbers

Where an operand name occurs more than once, user code tells the operands apart by their
numbers.  Three loops number them:

* the visitor, in the locators of the opcode;
* `generateOperandSetterFcn`, in the requests that the decoder makes;
* `generateOperandEncoder`, which passes the number of the locator on.

`numbersAgree_iff` says when all of them are the positions of the operands in their lists.
-/

/-! ### The source -/

/-- The latency that is passed to `GetDestination` or `GetDestinations`: `enc->GetLatency(…)`
    with an operand and its number, or a constant. -/
inductive Latency where
  | getLatency (enumerator : Name) (number : Nat)
  | value (v : Int)
  deriving DecidableEq, Repr

/-- A statement of an operand setter.  An operand is named by its enumerator, which is one of
    the enumeration that fits the statement. -/
inductive Statement where
  | setPredicate (enumerator : Name)
  | appendSource (enumerator : Name) (number : Nat)
  | appendSources (enumerator : Name) (number : Nat)
  | appendDestination (enumerator : Name) (number : Nat) (latency : Latency)
  | appendDestinations (enumerator : Name) (number : Nat) (latency : Latency)
  /-- `#error "Failed to get latency for operand …"` -/
  | error (opName : Name)
  deriving DecidableEq, Repr

/-- The latency of a destination operand with a number; there is none if the expression has no
    value. -/
def DestinationOperand.latency (op : DestinationOperand) (destNo : Nat) : Option Latency :=
  match op.expression with
  | none => some (.getLatency (toPascalCase op.name) destNo)
  | some _ =>
    match op.getLatency with
    | .ok v => some (.value v)
    | .error _ => none

/-- The loop of `GenerateOperandSetterFcn` over the source operands. -/
def sourceStatements (sourceNo : Nat) : List SourceOperand → List Statement
  | [] => []
  | op :: rest =>
    if op.isArray then
      .appendSources (toPascalCase op.name) sourceNo :: sourceStatements sourceNo rest
    else
      .appendSource (toPascalCase op.name) sourceNo :: sourceStatements (sourceNo + 1) rest

/-- The loop of `GenerateOperandSetterFcn` over the destination operands. -/
def destStatements (destNo : Nat) : List DestinationOperand → List Statement
  | [] => []
  | op :: rest =>
    match op.latency destNo with
    | none => .error op.name :: destStatements (destNo + 1) rest
    | some latency =>
      if op.isArray then
        .appendDestinations (toPascalCase op.name) destNo latency :: destStatements (destNo + 1) rest
      else
        -- The number is advanced behind the statement and once more at the end of the loop.
        .appendDestination (toPascalCase op.name) destNo latency ::
          destStatements (destNo + 1 + 1) rest

/-- `GenerateOperandSetterFcn`: the statements of the function. -/
def generateOperandSetterFcn (opcode : Opcode) : List Statement :=
  (if opcode.predicateOpName = [] then []
    else [.setPredicate (toPascalCase opcode.predicateOpName)])
  ++ sourceStatements 0 opcode.sourceOpVec
  ++ destStatements 0 opcode.destOpVec

/-- The functions of the encoder interface. -/
inductive EncoderFcn where
  | getPredOpEncoding
  | appendSrcOpRelocation | getSrcOpEncoding | getListSrcOpEncoding
  | appendDestOpRelocation | getDestOpEncoding | getListDestOpEncoding
  deriving DecidableEq, Repr

/-- A call of an `Encode` function: the function, the position of the text among the operands of
    the assembly line, the enumerator, and the number of the operand if one is passed. -/
structure EncoderCall where
  fcn : EncoderFcn
  position : Nat
  enumerator : Name
  number : Option Nat
  deriving DecidableEq, Repr

/-- `GenerateOperandEncoder`: the calls that it emits. -/
def generateOperandEncoder (position : Nat) (opName : Name) (locator : OperandLocator) :
    List EncoderCall :=
  let call (fcn : EncoderFcn) (number : Option Nat) : EncoderCall :=
    ⟨fcn, position, toPascalCase opName, number⟩
  match locator.type with
  | .predicate => [call .getPredOpEncoding none]
  | .source =>
    (if locator.isReloc then [call .appendSrcOpRelocation (some locator.index)] else [])
      ++ [call .getSrcOpEncoding (some locator.index)]
  | .sourceArray => [call .getListSrcOpEncoding (some locator.index)]
  | .destination =>
    (if locator.isReloc then [call .appendDestOpRelocation (some locator.index)] else [])
      ++ [call .getDestOpEncoding (some locator.index)]
  | .destinationArray => [call .getListDestOpEncoding (some locator.index)]

/-! ### The specification -/

/-- A request for an operand: for an array or not, the operand and its number. -/
structure Request where
  isArray : Bool
  enumerator : Name
  number : Nat
  deriving DecidableEq, Repr

/-- The source operand that a statement requests. -/
def Statement.source? : Statement → Option Request
  | appendSource enumerator number => some ⟨false, enumerator, number⟩
  | appendSources enumerator number => some ⟨true, enumerator, number⟩
  | _ => none

/-- The destination operand that a statement requests. -/
def Statement.destination? : Statement → Option Request
  | appendDestination enumerator number _ => some ⟨false, enumerator, number⟩
  | appendDestinations enumerator number _ => some ⟨true, enumerator, number⟩
  | _ => none

/-- The operand `name` has position `k` in the list of source or of destination operands. -/
def Opcode.HasOperand (opcode : Opcode) (name : Name) (k : Nat) : Prop :=
  opcode.sourceOpVec[k]?.map SourceOperand.name = some name ∨
    opcode.destOpVec[k]?.map DestinationOperand.name = some name

/-- The operand setters request operand `k` of a list with number `k`.  The locator of its name
    has that number, and so has every call of the encoder for the operand. -/
structure NumbersAgree (defaultLatency : Option TemplateExpression)
    (specs : List OpcodeOperandsCtx) : Prop where
  sources : ∀ opcode ∈ (visitOperandSpecs defaultLatency specs).1,
    (generateOperandSetterFcn opcode).filterMap Statement.source?
      = opcode.sourceOpVec.mapIdx fun k op => ⟨op.isArray, toPascalCase op.name, k⟩
  destinations : ∀ opcode ∈ (visitOperandSpecs defaultLatency specs).1,
    (generateOperandSetterFcn opcode).filterMap Statement.destination?
      = opcode.destOpVec.mapIdx fun k op => ⟨op.isArray, toPascalCase op.name, k⟩
  located : ∀ opcode ∈ (visitOperandSpecs defaultLatency specs).1, ∀ name k,
    opcode.HasOperand name k → ∃ locator,
      (visitOperandSpecs defaultLatency specs).2.lookup name = some locator ∧ locator.index = k ∧
        ∀ position, ∀ call ∈ generateOperandEncoder position name locator, call.number = some k

/-- The operand names of a specification, each with its position in its list; a predicate has
    none. -/
def OpcodeOperandsCtx.places (ctx : OpcodeOperandsCtx) : List (Name × Option Nat) :=
  ctx.pred.toList.map (fun name => (name, none))
    ++ ctx.source.mapIdx (fun k op => (op.name, some k))
    ++ ctx.destList.mapIdx (fun k op => (op.operand.name, some k))

/-- No array source comes before another source, and no plain destination before another
    destination; all latencies have values; and a name that occurs more than once is an
    operand at the same position where it occurs first. -/
structure Numbered (defaultLatency : Option TemplateExpression)
    (specs : List OpcodeOperandsCtx) : Prop where
  sources : ∀ ctx ∈ specs, ∀ op ∈ ctx.source.dropLast, op.isArray = false
  destinations : ∀ ctx ∈ specs, ∀ op ∈ ctx.destList.dropLast, op.operand.isArray = true
  latencies : ∀ ctx ∈ specs, ∀ op ∈ ctx.destList, ∀ expr,
    op.latency.toExpression defaultLatency = some expr → expr.getValue.isOk = true
  places : ∀ name k, (name, some k) ∈ specs.flatMap OpcodeOperandsCtx.places →
    (specs.flatMap OpcodeOperandsCtx.places).lookup name = some (some k)

/-! ### The requests -/

/-- The numbers of the source operands from a number on. -/
theorem sources_iff (sourceNo : Nat) (ops : List SourceOperand) :
    (sourceStatements sourceNo ops).filterMap Statement.source?
        = ops.mapIdx (fun k op => ⟨op.isArray, toPascalCase op.name, sourceNo + k⟩) ↔
      ∀ op ∈ ops.dropLast, op.isArray = false := by
  induction ops generalizing sourceNo with
  | nil => simp [sourceStatements]
  | cons op rest ih =>
    have hshift : (rest.mapIdx fun k (op : SourceOperand) =>
          (⟨op.isArray, toPascalCase op.name, sourceNo + (k + 1)⟩ : Request))
        = rest.mapIdx fun k op => ⟨op.isArray, toPascalCase op.name, sourceNo + 1 + k⟩ := by
      simp only [Nat.add_assoc, Nat.add_comm 1]
    rw [sourceStatements, List.mapIdx_cons, hshift]
    cases harray : op.isArray with
    | false =>
      rw [if_neg Bool.false_ne_true]
      simp only [List.filterMap_cons, Statement.source?, Nat.add_zero, List.cons.injEq, true_and]
      rw [ih (sourceNo + 1)]
      cases rest with
      | nil => simp
      | cons next rest => simp [harray]
    | true =>
      rw [if_pos rfl]
      cases rest with
      | nil => simp [sourceStatements, Statement.source?]
      | cons next rest =>
        -- The next operand has the number of this one.
        refine iff_of_false (fun h => ?_) (fun h => ?_)
        · have hnext := congrArg (fun l : List Request => l[1]?.map Request.number) h
          rw [sourceStatements] at hnext
          split at hnext <;> simp [Statement.source?] at hnext
        · have := h op (by simp)
          rw [harray] at this
          cases this

theorem length_destRequests (destNo : Nat) (ops : List DestinationOperand) :
    ((destStatements destNo ops).filterMap Statement.destination?).length ≤ ops.length := by
  induction ops generalizing destNo with
  | nil => simp [destStatements]
  | cons op rest ih =>
    rw [destStatements]
    split
    · exact (ih (destNo + 1)).trans (by simp)
    · split
      · simpa [Statement.destination?] using ih (destNo + 1)
      · simpa [Statement.destination?] using ih (destNo + 1 + 1)

theorem le_destRequests (destNo : Nat) (ops : List DestinationOperand) :
    ∀ r ∈ (destStatements destNo ops).filterMap Statement.destination?, destNo ≤ r.number := by
  induction ops generalizing destNo with
  | nil => simp [destStatements]
  | cons op rest ih =>
    intro r hr
    rw [destStatements] at hr
    split at hr
    · exact (Nat.le_succ destNo).trans (ih _ r hr)
    · split at hr
      · rcases List.mem_cons.mp hr with rfl | hr
        · exact le_rfl
        · exact (Nat.le_succ destNo).trans (ih _ r hr)
      · rcases List.mem_cons.mp hr with rfl | hr
        · exact le_rfl
        · exact (show destNo ≤ destNo + 1 + 1 by omega).trans (ih _ r hr)

theorem latency_isSome {op : DestinationOperand} (destNo : Nat) :
    (op.latency destNo).isSome = true ↔
      ∀ expr, op.expression = some expr → expr.getValue.isOk = true := by
  unfold DestinationOperand.latency DestinationOperand.getLatency
  cases op.expression with
  | none => simp
  | some expr =>
    cases hvalue : expr.getValue with
    | ok v => simp [hvalue, Except.isOk, Except.toBool]
    | error e => simp [hvalue, Except.isOk, Except.toBool]

theorem destinations_iff (destNo : Nat) (ops : List DestinationOperand) :
    (destStatements destNo ops).filterMap Statement.destination?
        = ops.mapIdx (fun k op => ⟨op.isArray, toPascalCase op.name, destNo + k⟩) ↔
      (∀ op ∈ ops.dropLast, op.isArray = true) ∧
        ∀ op ∈ ops, ∀ expr, op.expression = some expr → expr.getValue.isOk = true := by
  induction ops generalizing destNo with
  | nil => simp [destStatements]
  | cons op rest ih =>
    have hshift : (rest.mapIdx fun k (op : DestinationOperand) =>
          (⟨op.isArray, toPascalCase op.name, destNo + (k + 1)⟩ : Request))
        = rest.mapIdx fun k op => ⟨op.isArray, toPascalCase op.name, destNo + 1 + k⟩ := by
      simp only [Nat.add_assoc, Nat.add_comm 1]
    rw [destStatements, List.mapIdx_cons, hshift, List.forall_mem_cons, ← latency_isSome destNo]
    cases hlatency : op.latency destNo with
    | none =>
      refine iff_of_false (fun h => ?_) (by simp)
      have hle := length_destRequests (destNo + 1) rest
      have hlen := congrArg List.length h
      rw [List.filterMap_cons_none rfl, List.length_cons, List.length_mapIdx] at hlen
      omega
    | some latency =>
      dsimp only
      cases harray : op.isArray with
      | true =>
        rw [if_pos rfl]
        simp only [List.filterMap_cons, Statement.destination?, Nat.add_zero, List.cons.injEq,
          true_and, Option.isSome_some]
        rw [ih (destNo + 1)]
        cases rest with
        | nil => simp
        | cons next rest => simp [harray]
      | false =>
        rw [if_neg Bool.false_ne_true]
        cases rest with
        | nil => simp [destStatements, Statement.destination?]
        | cons next rest =>
          -- A number is left out before the next operand.
          refine iff_of_false (fun h => ?_) (fun h => ?_)
          · have htail := (List.cons.inj h).2
            have hmem : (⟨next.isArray, toPascalCase next.name, destNo + 1⟩ : Request)
                ∈ (destStatements (destNo + 1 + 1) (next :: rest)).filterMap
                  Statement.destination? := by
              rw [htail, List.mapIdx_cons]
              exact List.mem_cons_self
            have := le_destRequests _ _ _ hmem
            dsimp only at this
            omega
          · have := h.1 op (by simp)
            rw [harray] at this
            cases this

theorem source?_destStatements (destNo : Nat) (ops : List DestinationOperand) :
    (destStatements destNo ops).filterMap Statement.source? = [] := by
  induction ops generalizing destNo with
  | nil => rfl
  | cons op rest ih =>
    rw [destStatements]
    split
    · exact ih _
    · split
      · exact ih _
      · exact ih _

theorem destination?_sourceStatements (sourceNo : Nat) (ops : List SourceOperand) :
    (sourceStatements sourceNo ops).filterMap Statement.destination? = [] := by
  induction ops generalizing sourceNo with
  | nil => rfl
  | cons op rest ih =>
    rw [sourceStatements]
    split
    · exact ih _
    · exact ih _

theorem sourceRequests_eq (opcode : Opcode) :
    (generateOperandSetterFcn opcode).filterMap Statement.source?
      = (sourceStatements 0 opcode.sourceOpVec).filterMap Statement.source? := by
  rw [generateOperandSetterFcn, List.filterMap_append, List.filterMap_append,
    source?_destStatements]
  split <;> simp [Statement.source?]

theorem destRequests_eq (opcode : Opcode) :
    (generateOperandSetterFcn opcode).filterMap Statement.destination?
      = (destStatements 0 opcode.destOpVec).filterMap Statement.destination? := by
  rw [generateOperandSetterFcn, List.filterMap_append, List.filterMap_append,
    destination?_sourceStatements]
  split <;> simp [Statement.destination?]

/-! ### The locators -/

/-- The position that a locator has: none if it is for a predicate. -/
def place (locator : OperandLocator) : Option Nat :=
  if locator.type = .predicate then none else some locator.index

theorem number_of_mem_encoder {position : Nat} {opName : Name} {locator : OperandLocator}
    {call : EncoderCall} (h : call ∈ generateOperandEncoder position opName locator) :
    call.number = place locator := by
  obtain ⟨n, type, isReloc, k⟩ := locator
  cases type <;> cases isReloc <;> simp [generateOperandEncoder, place] at h ⊢ <;> grind

theorem exists_mem_encoder (position : Nat) (opName : Name) (locator : OperandLocator) :
    ∃ call, call ∈ generateOperandEncoder position opName locator := by
  obtain ⟨n, type, isReloc, k⟩ := locator
  cases type <;> cases isReloc <;> exact ⟨_, List.mem_of_getLast? rfl⟩

theorem places_eq (opSpecNumber : Nat) (ctx : OpcodeOperandsCtx) :
    (ctx.entries opSpecNumber).map (fun e => (e.1, place e.2)) = ctx.places := by
  have hsource : ∀ (k : Nat) (op : OperandCtx),
      place (op.sourceLocator opSpecNumber k).2 = some k := by
    intro k op
    cases op <;> rfl
  have hdest : ∀ (k : Nat) (op : DestOperandCtx),
      place (op.destLocator opSpecNumber k).2 = some k := by
    rintro k ⟨op, -⟩
    cases op <;> rfl
  rw [OpcodeOperandsCtx.entries, OpcodeOperandsCtx.places, List.map_append, List.map_append,
    List.map_map]
  simp only [List.mapIdx_eq_zipIdx_map, List.map_map]
  congr 1
  · congr 1
    exact List.map_congr_left fun p _ => Prod.ext rfl (hsource p.2 p.1)
  · exact List.map_congr_left fun p _ => Prod.ext rfl (hdest p.2 p.1)

theorem flatMap_places (opSpecNumber : Nat) (specs : List OpcodeOperandsCtx) :
    (entriesFrom opSpecNumber specs).map (fun e => (e.1, place e.2))
      = specs.flatMap OpcodeOperandsCtx.places := by
  induction specs generalizing opSpecNumber with
  | nil => rfl
  | cons ctx rest ih =>
    rw [entriesFrom, List.map_append, places_eq, ih, List.flatMap_cons]

theorem mem_places_iff {defaultLatency : Option TemplateExpression} {ctx : OpcodeOperandsCtx}
    {name : Name} {k : Nat} :
    (name, some k) ∈ ctx.places ↔ (ctx.opcode defaultLatency).HasOperand name k := by
  simp [OpcodeOperandsCtx.places, Opcode.HasOperand, OpcodeOperandsCtx.opcode, List.mem_mapIdx,
    OperandCtx.toSource, DestOperandCtx.toDestination, List.getElem?_eq_some_iff]

/-- The locator of a name has number `k`, and so has every call of the encoder for it, exactly
    if the name is first an operand at position `k`. -/
theorem located_iff (defaultLatency : Option TemplateExpression) (specs : List OpcodeOperandsCtx)
    (name : Name) (k : Nat) :
    (∃ locator, (visitOperandSpecs defaultLatency specs).2.lookup name = some locator ∧
        locator.index = k ∧
        ∀ position, ∀ call ∈ generateOperandEncoder position name locator, call.number = some k) ↔
      (specs.flatMap OpcodeOperandsCtx.places).lookup name = some (some k) := by
  rw [locator_eq_lookup, entries, ← flatMap_places 0, lookup_map_snd, Option.map_eq_some_iff]
  refine exists_congr fun locator => and_congr_right fun _ => ?_
  constructor
  · rintro ⟨-, hcalls⟩
    obtain ⟨call, hcall⟩ := exists_mem_encoder 0 name locator
    rw [← number_of_mem_encoder hcall, hcalls 0 call hcall]
  · intro hplace
    refine ⟨?_, fun position call hcall => by rw [number_of_mem_encoder hcall, hplace]⟩
    unfold place at hplace
    split at hplace
    · cases hplace
    · exact Option.some.inj hplace

/-- **Operand numbers.** Setters, locators and encoder number the operands of an opcode by their
    positions exactly if no array source comes before another source, no plain destination
    before another destination, all latencies have values, and every operand has the position
    at which its name occurs first. -/
theorem numbersAgree_iff (defaultLatency : Option TemplateExpression)
    (specs : List OpcodeOperandsCtx) :
    NumbersAgree defaultLatency specs ↔ Numbered defaultLatency specs := by
  have hsources : ∀ ctx : OpcodeOperandsCtx,
      (generateOperandSetterFcn (ctx.opcode defaultLatency)).filterMap Statement.source?
          = (ctx.opcode defaultLatency).sourceOpVec.mapIdx
            (fun k op => ⟨op.isArray, toPascalCase op.name, k⟩) ↔
        ∀ op ∈ ctx.source.dropLast, op.isArray = false := by
    intro ctx
    have h := sources_iff 0 (ctx.opcode defaultLatency).sourceOpVec
    simp only [Nat.zero_add] at h
    rw [sourceRequests_eq, h, OpcodeOperandsCtx.opcode, ← List.map_dropLast, List.forall_mem_map]
    rfl
  have hdests : ∀ ctx : OpcodeOperandsCtx,
      (generateOperandSetterFcn (ctx.opcode defaultLatency)).filterMap Statement.destination?
          = (ctx.opcode defaultLatency).destOpVec.mapIdx
            (fun k op => ⟨op.isArray, toPascalCase op.name, k⟩) ↔
        (∀ op ∈ ctx.destList.dropLast, op.operand.isArray = true) ∧
          ∀ op ∈ ctx.destList, ∀ expr, op.latency.toExpression defaultLatency = some expr →
            expr.getValue.isOk = true := by
    intro ctx
    have h := destinations_iff 0 (ctx.opcode defaultLatency).destOpVec
    simp only [Nat.zero_add] at h
    rw [destRequests_eq, h, OpcodeOperandsCtx.opcode, ← List.map_dropLast, List.forall_mem_map,
      List.forall_mem_map]
    rfl
  have hopcodes := opcodes_eq defaultLatency specs
  constructor
  · rintro ⟨hs, hd, hl⟩
    rw [hopcodes, List.forall_mem_map] at hs hd hl
    refine ⟨fun ctx hctx => (hsources ctx).mp (hs ctx hctx),
      fun ctx hctx => ((hdests ctx).mp (hd ctx hctx)).1,
      fun ctx hctx => ((hdests ctx).mp (hd ctx hctx)).2, fun name k hmem => ?_⟩
    obtain ⟨ctx, hctx, hplace⟩ := List.mem_flatMap.mp hmem
    exact (located_iff defaultLatency specs name k).mp (hl ctx hctx name k (mem_places_iff.mp hplace))
  · rintro ⟨hs, hd, hlat, hp⟩
    refine ⟨?_, ?_, ?_⟩
    · rw [hopcodes, List.forall_mem_map]
      exact fun ctx hctx => (hsources ctx).mpr (hs ctx hctx)
    · rw [hopcodes, List.forall_mem_map]
      exact fun ctx hctx => (hdests ctx).mpr ⟨hd ctx hctx, hlat ctx hctx⟩
    · rw [hopcodes, List.forall_mem_map]
      intro ctx hctx name k hoperand
      exact (located_iff defaultLatency specs name k).mpr
        (hp name k (List.mem_flatMap.mpr ⟨ctx, hctx, mem_places_iff.mpr hoperand⟩))

/-- `: rs1 : rd, cc`: the second destination is requested with number 2, and its locator has
    number 1. -/
theorem second_destination_number :
    let ctx : OpcodeOperandsCtx := ⟨none, nofun, [.operand "rs1".toList none],
      [⟨.operand "rd".toList none, .omitted⟩, ⟨.operand "cc".toList none, .omitted⟩]⟩
    (generateOperandSetterFcn (ctx.opcode none)).filterMap Statement.destination?
        = [⟨false, "Rd".toList, 0⟩, ⟨false, "Cc".toList, 2⟩] ∧
      (visitOperandSpecs none [ctx]).2.lookup "cc".toList
        = some ⟨0, .destination, false, 1⟩ ∧
      ¬ NumbersAgree none [ctx] := by
  intro ctx
  have hrequests : (generateOperandSetterFcn (ctx.opcode none)).filterMap Statement.destination?
      = [⟨false, "Rd".toList, 0⟩, ⟨false, "Cc".toList, 2⟩] := by decide +kernel
  refine ⟨hrequests, by decide +kernel, fun h => ?_⟩
  have hagree := h.destinations (ctx.opcode none) (by rw [opcodes_eq]; exact List.mem_singleton_self _)
  rw [hrequests] at hagree
  exact absurd hagree (by decide +kernel)

end MpactSim.Isa
