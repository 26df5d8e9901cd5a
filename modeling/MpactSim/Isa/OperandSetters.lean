import Mathlib
import MpactSim.Isa.DisasmSetters
import MpactSim.Lib.Separators

namespace MpactSim.Isa

open Decoder (Name toPascalCase)
open Lib

/-!
# Operand setters

The operands of an instruction are set by a generated function, which opcodes share if their keys
are equal.

* `createOperandLookupKey` — the key: the operand names, the arrays and the latencies;
* `operandSetterText`      — the text of the function.

`operandSetterText_of_key_eq` says that a key determines its text.
-/

/-! ### The source -/

/-- A number in a text. -/
def natText (n : Nat) : Name := (toString n).toList

/-- The argument that is passed with version 2 of the generator. -/
def optionalInst (version : Nat) : Name := if version = 2 then "inst, ".toList else []

/-- The text of a latency: a call of the encoding, or a value, which is in braces for an array. -/
def Latency.text (version : Nat) (isArray : Bool) (destOpEnum : Name) : Latency → Name
  | getLatency _ number =>
    "enc->GetLatency(".toList ++ optionalInst version ++ "slot, entry, opcode, ".toList ++
      destOpEnum ++ ", ".toList ++ natText number ++ ")".toList
  | value v =>
    if isArray then "\x7b".toList ++ intText v ++ "\x7d".toList else intText v

/-- The text of a statement. -/
def Statement.text (version : Nat) : Statement → Name
  | setPredicate enumerator =>
    "  inst->SetPredicate(enc->GetPredicate(".toList ++ optionalInst version ++
      "slot, entry, opcode, PredOpEnum::k".toList ++ enumerator ++ "));\n".toList
  | appendSources enumerator number =>
    "  \x7b\n    auto vec = enc->GetSources(".toList ++ optionalInst version ++
      "slot, entry, opcode, ListSourceOpEnum::k".toList ++ enumerator ++ ", ".toList ++
      natText number ++ ");\n    for (auto *op : vec) inst->AppendSource(op);\n  \x7d\n".toList
  | appendSource enumerator number =>
    "  inst->AppendSource(enc->GetSource(".toList ++ optionalInst version ++
      "slot, entry, opcode, SourceOpEnum::k".toList ++ enumerator ++ ", ".toList ++
      natText number ++ "));\n".toList
  | appendDestinations enumerator number latency =>
    let destOpEnum := "ListDestOpEnum::k".toList ++ enumerator
    "  \x7b\n    auto vec = enc->GetDestinations(".toList ++ optionalInst version ++
      "slot, entry, opcode, ".toList ++ destOpEnum ++ ", ".toList ++ natText number ++
      ", ".toList ++ latency.text version true destOpEnum ++
      ");\n    for (auto *op : vec) inst->AppendDestination(op);\n  \x7d".toList
  | appendDestination enumerator number latency =>
    let destOpEnum := "DestOpEnum::k".toList ++ enumerator
    "  inst->AppendDestination(enc->GetDestination(".toList ++ optionalInst version ++
      "slot, entry, opcode, ".toList ++ destOpEnum ++ ", ".toList ++ natText number ++
      ", ".toList ++ latency.text version false destOpEnum ++ "));\n".toList
  | error opName =>
    "#error \"Failed to get latency for operand '".toList ++ opName ++ "'\"".toList

/-- The body of the function that `GenerateOperandSetterFcn` emits. -/
def operandSetterBody (version : Nat) (opcode : Opcode) : Name :=
  (generateOperandSetterFcn opcode).flatMap (Statement.text version)

/-- `GenerateOperandSetterFcn`. -/
def operandSetterText (version : Nat) (getterName encodingType : Name) (opcode : Opcode) : Name :=
  "void ".toList ++ getterName ++ "(Instruction *inst, ".toList ++ encodingType ++
    " *enc, OpcodeEnum opcode, SlotEnum slot, int entry) \x7b\n".toList ++
    operandSetterBody version opcode ++ "\x7d\n\n".toList

/-! ### The specification -/

/-- A character of an identifier. -/
def IdentChar (c : Char) : Prop := c.isAlphanum ∨ c = '_'

/-- A name is an identifier, of which the first character may be any. -/
def IsIdent (name : Name) : Prop := name ≠ [] ∧ ∀ c ∈ name, IdentChar c

instance (c : Char) : Decidable (IdentChar c) := inferInstanceAs (Decidable (_ ∨ _))

instance (name : Name) : Decidable (IsIdent name) := inferInstanceAs (Decidable (_ ∧ _))

/-- All operands have identifiers for names, and all latencies that are not `*` have a value. -/
structure Opcode.WellNamed (opcode : Opcode) : Prop where
  predicate : opcode.predicateOpName = [] ∨ IsIdent opcode.predicateOpName
  sources : ∀ op ∈ opcode.sourceOpVec, IsIdent op.name
  destinations : ∀ op ∈ opcode.destOpVec, IsIdent op.name
  latencies : ∀ op ∈ opcode.destOpVec, ∀ expr, op.expression = some expr →
    expr.getValue.isOk = true

/-! ### Names and numbers -/

section Characters

variable {name : Name} {c : Char}

theorem IsIdent.notMem (h : IsIdent name) (hc : ¬IdentChar c) : c ∉ name :=
  fun hmem => hc (h.2 c hmem)

theorem notMem_intText (v : Int) (hdigit : c.isDigit = false) (hsign : c ≠ '-') :
    c ∉ intText v := by
  have hnat : ∀ n : Nat, c ∉ n.repr.toList := by
    intro n hmem
    rw [Nat.toList_repr] at hmem
    rw [Nat.isDigit_of_mem_toDigits (by decide) (by decide) hmem] at hdigit
    cases hdigit
  unfold intText
  rw [Int.toString_eq_repr, Int.repr_eq_if]
  split
  · exact hnat _
  · rw [String.toList_append, List.mem_append, not_or]
    exact ⟨by simpa using hsign, hnat _⟩

theorem intText_injective : Function.Injective intText := by
  intro v w h
  exact Int.repr_injective (String.toList_inj.mp h)

theorem notMem_operandKey (isArray : Bool) (h : IsIdent name) (hc : ¬IdentChar c) (hopen : c ≠ '[')
    (hclose : c ≠ ']') : c ∉ operandKey isArray name := by
  unfold operandKey
  cases isArray with
  | false => exact h.notMem hc
  | true =>
    simp only [if_true, List.mem_append, not_or]
    refine ⟨⟨?_, h.notMem hc⟩, ?_⟩
    · simpa using hopen
    · simpa using hclose

theorem operandKey_ne_nil {isArray : Bool} (h : IsIdent name) : operandKey isArray name ≠ [] := by
  unfold operandKey
  cases isArray with
  | false => exact h.1
  | true => simp

theorem operandKey_inj {isArray isArray' : Bool} {name' : Name} (h : IsIdent name)
    (h' : IsIdent name') (heq : operandKey isArray name = operandKey isArray' name') :
    isArray = isArray' ∧ name = name' := by
  have hopen : ¬IdentChar '[' := by decide
  unfold operandKey at heq
  cases isArray with
  | false =>
    cases isArray' with
    | false => exact ⟨rfl, heq⟩
    | true =>
      exfalso
      apply h.notMem hopen
      rw [if_neg Bool.false_ne_true, if_pos rfl] at heq
      rw [heq]
      simp
  | true =>
    cases isArray' with
    | true => exact ⟨rfl, by simpa using heq⟩
    | false =>
      exfalso
      apply h'.notMem hopen
      rw [if_neg Bool.false_ne_true, if_pos rfl] at heq
      rw [← heq]
      simp

end Characters

/-! ### Latencies -/

/-- The value of a latency; there is none for `*`. -/
def DestinationOperand.constantLatency (op : DestinationOperand) : Option Int :=
  op.expression.bind fun expr => expr.getValue.toOption

/-- A latency in a key, without the parentheses. -/
def latencyBody (isArray : Bool) : Option Int → Name
  | none => "*".toList
  | some v => if isArray then "\x7b".toList ++ intText v ++ "\x7d".toList else intText v

section Latencies

variable {op : DestinationOperand}
  (hvalue : ∀ expr, op.expression = some expr → expr.getValue.isOk = true)

include hvalue in
theorem latencyKey_eq :
    latencyKey op = some ("(".toList ++ (latencyBody op.isArray op.constantLatency ++
      ")".toList)) := by
  unfold latencyKey DestinationOperand.getLatency DestinationOperand.constantLatency
  cases hexpr : op.expression with
  | none => rfl
  | some expr =>
    have hok := eq_ok_getD (hvalue expr hexpr) 0
    rw [Option.bind_some]
    dsimp only
    rw [hok]
    cases harray : op.isArray with
    | false => rfl
    | true => simp [latencyBody, Except.toOption]

include hvalue in
theorem latency_eq (destNo : Nat) :
    op.latency destNo = some (match op.constantLatency with
      | none => .getLatency (toPascalCase op.name) destNo
      | some v => .value v) := by
  unfold DestinationOperand.latency DestinationOperand.getLatency
    DestinationOperand.constantLatency
  cases hexpr : op.expression with
  | none => rfl
  | some expr =>
    have hok := eq_ok_getD (hvalue expr hexpr) 0
    rw [Option.bind_some]
    dsimp only
    rw [hok]
    rfl

theorem notMem_latencyBody (isArray : Bool) (latency : Option Int) :
    ')' ∉ latencyBody isArray latency := by
  have hnumber := fun v => notMem_intText (c := ')') v (by decide) (by decide)
  cases latency with
  | none => simp [latencyBody]
  | some v =>
    unfold latencyBody
    cases isArray with
    | false => exact hnumber v
    | true => simpa using hnumber v

theorem latencyBody_injective (isArray : Bool) : Function.Injective (latencyBody isArray) := by
  have hstar := fun v => notMem_intText (c := '*') v (by decide) (by decide)
  have hne : ∀ v, latencyBody isArray (some v) ≠ latencyBody isArray none := by
    intro v h
    have hmem : '*' ∈ latencyBody isArray (some v) := by
      rw [h]
      simp [latencyBody]
    revert hmem
    unfold latencyBody
    cases isArray with
    | false => exact hstar v
    | true => simpa using hstar v
  intro l l' h
  cases l with
  | none =>
    cases l' with
    | none => rfl
    | some w => exact absurd h.symm (hne w)
  | some v =>
    cases l' with
    | none => exact absurd h (hne v)
    | some w =>
      refine congrArg some (intText_injective ?_)
      unfold latencyBody at h
      cases isArray with
      | false => exact h
      | true => simpa using h

end Latencies

/-! ### The key -/

/-- What a key has of a source operand. -/
def SourceOperand.shape (op : SourceOperand) : Name × Bool := (op.name, op.isArray)

/-- What a key has of a destination operand. -/
def DestinationOperand.shape (op : DestinationOperand) : Name × Bool × Option Int :=
  (op.name, op.isArray, op.constantLatency)

variable {ops : List SourceOperand} {a b : Opcode}

/-- The source operands are read back from their text in a key. -/
theorem sources_of_key_eq {ops' : List SourceOperand} (h : ∀ op ∈ ops, IsIdent op.name)
    (h' : ∀ op ∈ ops', IsIdent op.name)
    (heq : "/".toList.intercalate (ops.map fun op => operandKey op.isArray op.name) =
      "/".toList.intercalate (ops'.map fun op => operandKey op.isArray op.name)) :
    ops.map SourceOperand.shape = ops'.map SourceOperand.shape := by
  have hparts : ∀ ops : List SourceOperand, (∀ op ∈ ops, IsIdent op.name) →
      ∀ x ∈ ops.map fun op => operandKey op.isArray op.name, x ≠ [] ∧ '/' ∉ x := by
    intro ops h x hx
    obtain ⟨op, hop, rfl⟩ := List.mem_map.mp hx
    exact ⟨operandKey_ne_nil (h op hop),
      notMem_operandKey op.isArray (h op hop) (by decide) (by decide) (by decide)⟩
  have hlist := intercalate_inj (hparts ops h) (hparts ops' h') heq
  -- The parts are the same one by one.
  induction ops generalizing ops' with
  | nil =>
    cases ops' with
    | nil => rfl
    | cons op' rest' => cases hlist
  | cons op rest ih =>
    cases ops' with
    | nil => cases hlist
    | cons op' rest' =>
      obtain ⟨hop, hrest⟩ := List.forall_mem_cons.mp h
      obtain ⟨hop', hrest'⟩ := List.forall_mem_cons.mp h'
      obtain ⟨hhead, htail⟩ := List.cons.inj hlist
      obtain ⟨harray, hname⟩ := operandKey_inj hop hop' hhead
      rw [List.map_cons, List.map_cons, ih hrest hrest' (congrArg _ htail) htail]
      unfold SourceOperand.shape
      rw [harray, hname]

theorem destinations_of_key_eq {sep : Name} (hsep : '(' ∉ sep) {ops ops' : List DestinationOperand}
    (h : ∀ op ∈ ops, IsIdent op.name) (h' : ∀ op ∈ ops', IsIdent op.name)
    (hvalue : ∀ op ∈ ops, ∀ expr, op.expression = some expr → expr.getValue.isOk = true)
    (hvalue' : ∀ op ∈ ops', ∀ expr, op.expression = some expr → expr.getValue.isOk = true)
    (heq : destKey sep ops = destKey sep ops') :
    ops.map DestinationOperand.shape = ops'.map DestinationOperand.shape := by
  induction ops generalizing sep ops' with
  | nil =>
    cases ops' with
    | nil => rfl
    | cons op' rest' =>
      rw [destKey, destKey, latencyKey_eq (hvalue' op' List.mem_cons_self)] at heq
      simp at heq
  | cons op rest ih =>
    obtain ⟨hop, hrest⟩ := List.forall_mem_cons.mp h
    obtain ⟨hv, hvrest⟩ := List.forall_mem_cons.mp hvalue
    cases ops' with
    | nil =>
      rw [destKey, destKey, latencyKey_eq hv] at heq
      simp at heq
    | cons op' rest' =>
      obtain ⟨hop', hrest'⟩ := List.forall_mem_cons.mp h'
      obtain ⟨hv', hvrest'⟩ := List.forall_mem_cons.mp hvalue'
      rw [destKey, destKey, latencyKey_eq hv, latencyKey_eq hv'] at heq
      dsimp only at heq
      have hkey : ∀ op : DestinationOperand, IsIdent op.name →
          '(' ∉ operandKey op.isArray op.name ++ sep ++ operandKey op.isArray op.name := by
        intro op hop
        have hname := notMem_operandKey op.isArray hop (by decide : ¬IdentChar '(')
          (by decide) (by decide)
        simp only [List.mem_append, not_or]
        exact ⟨⟨hname, hsep⟩, hname⟩
      have hcut : (operandKey op.isArray op.name ++ sep ++ operandKey op.isArray op.name) ++
          '(' :: (latencyBody op.isArray op.constantLatency ++ ')' :: destKey "/".toList rest) =
          (operandKey op'.isArray op'.name ++ sep ++ operandKey op'.isArray op'.name) ++
          '(' :: (latencyBody op'.isArray op'.constantLatency ++
            ')' :: destKey "/".toList rest') := by
        simpa [List.append_assoc] using heq
      obtain ⟨hnames, hcut⟩ := cut_inj (hkey op hop) (hkey op' hop') hcut
      obtain ⟨harray, hname⟩ := operandKey_inj hop hop' (doubled_inj hnames)
      rw [harray] at hcut
      obtain ⟨hbody, htail⟩ :=
        cut_inj (notMem_latencyBody _ _) (notMem_latencyBody _ _) hcut
      have hlatency := latencyBody_injective _ hbody
      rw [List.map_cons, List.map_cons,
        ih (by decide : '(' ∉ "/".toList) hrest hrest' hvrest hvrest' htail]
      unfold DestinationOperand.shape
      rw [harray, hname, hlatency]

theorem colon_notMem_sources (h : ∀ op ∈ ops, IsIdent op.name) :
    ':' ∉ "/".toList.intercalate (ops.map fun op => operandKey op.isArray op.name) := by
  refine notMem_intercalate (by decide) fun x hx => ?_
  obtain ⟨op, hop, rfl⟩ := List.mem_map.mp hx
  exact notMem_operandKey op.isArray (h op hop) (by decide) (by decide) (by decide)

theorem colon_notMem_latencyBody (isArray : Bool) (latency : Option Int) :
    ':' ∉ latencyBody isArray latency := by
  have hnumber := fun v => notMem_intText (c := ':') v (by decide) (by decide)
  cases latency with
  | none => simp [latencyBody]
  | some v =>
    unfold latencyBody
    cases isArray with
    | false => exact hnumber v
    | true => simpa using hnumber v

theorem colon_notMem_destKey {sep : Name} (hsep : ':' ∉ sep) {ops : List DestinationOperand}
    (h : ∀ op ∈ ops, IsIdent op.name)
    (hvalue : ∀ op ∈ ops, ∀ expr, op.expression = some expr → expr.getValue.isOk = true) :
    ':' ∉ destKey sep ops := by
  induction ops generalizing sep with
  | nil => exact List.not_mem_nil
  | cons op rest ih =>
    obtain ⟨hop, hrest⟩ := List.forall_mem_cons.mp h
    obtain ⟨hv, hvrest⟩ := List.forall_mem_cons.mp hvalue
    have hname := notMem_operandKey op.isArray hop (by decide : ¬IdentChar ':') (by decide)
      (by decide)
    have htail := ih (by decide : ':' ∉ "/".toList) hrest hvrest
    have hbody := colon_notMem_latencyBody op.isArray op.constantLatency
    rw [destKey, latencyKey_eq hv]
    simp only [List.mem_append, not_or]
    exact ⟨⟨⟨⟨⟨hsep, hname⟩, hsep⟩, hname⟩, by decide, hbody, by decide⟩, htail⟩

theorem key_of_predicate (h : a.predicateOpName ≠ []) :
    createOperandLookupKey a = a.predicateOpName ++ ':' ::
      ("/".toList.intercalate (a.sourceOpVec.map fun op => operandKey op.isArray op.name) ++
        ':' :: destKey [] a.destOpVec) := by
  unfold createOperandLookupKey
  rw [if_neg h]
  simp [List.append_assoc]

theorem key_of_no_predicate (h : a.predicateOpName = []) :
    createOperandLookupKey a =
      "/".toList.intercalate (a.sourceOpVec.map fun op => operandKey op.isArray op.name) ++
        ':' :: destKey [] a.destOpVec := by
  unfold createOperandLookupKey
  rw [if_pos h]
  simp [List.append_assoc]

theorem key_ne (ha : a.WellNamed) (hb : b.WellNamed) (hpred : a.predicateOpName ≠ [])
    (hnone : b.predicateOpName = []) : createOperandLookupKey a ≠ createOperandLookupKey b := by
  intro heq
  rw [key_of_predicate hpred, key_of_no_predicate hnone] at heq
  have hname := (ha.predicate.resolve_left hpred).notMem (by decide : ¬IdentChar ':')
  obtain ⟨-, htail⟩ := cut_inj hname (colon_notMem_sources hb.sources) heq
  exact cut_ne (colon_notMem_destKey List.not_mem_nil hb.destinations hb.latencies) htail

/-- **Keys.** A key determines the operands of the opcode. -/
theorem shapes_of_key_eq (ha : a.WellNamed) (hb : b.WellNamed)
    (heq : createOperandLookupKey a = createOperandLookupKey b) :
    a.predicateOpName = b.predicateOpName ∧
      a.sourceOpVec.map SourceOperand.shape = b.sourceOpVec.map SourceOperand.shape ∧
      a.destOpVec.map DestinationOperand.shape = b.destOpVec.map DestinationOperand.shape := by
  have hlists : ∀ {s s' : Name}, ':' ∉ s → ':' ∉ s' →
      s ++ ':' :: destKey [] a.destOpVec = s' ++ ':' :: destKey [] b.destOpVec →
      s = s' ∧ a.destOpVec.map DestinationOperand.shape =
        b.destOpVec.map DestinationOperand.shape := by
    intro s s' hs hs' heq
    obtain ⟨hsources, hdest⟩ := cut_inj hs hs' heq
    exact ⟨hsources, destinations_of_key_eq List.not_mem_nil ha.destinations hb.destinations
      ha.latencies hb.latencies hdest⟩
  have hcolon := colon_notMem_sources ha.sources
  have hcolon' := colon_notMem_sources hb.sources
  by_cases hpred : a.predicateOpName = []
  · have hpred' : b.predicateOpName = [] := by
      by_contra hne
      exact key_ne hb ha hne hpred heq.symm
    rw [key_of_no_predicate hpred, key_of_no_predicate hpred'] at heq
    obtain ⟨hsources, hdest⟩ := hlists hcolon hcolon' heq
    exact ⟨hpred.trans hpred'.symm, sources_of_key_eq ha.sources hb.sources hsources, hdest⟩
  · have hpred' : b.predicateOpName ≠ [] := fun hnone => key_ne ha hb hpred hnone heq
    have hname := (ha.predicate.resolve_left hpred).notMem (by decide : ¬IdentChar ':')
    have hname' := (hb.predicate.resolve_left hpred').notMem (by decide : ¬IdentChar ':')
    rw [key_of_predicate hpred, key_of_predicate hpred'] at heq
    obtain ⟨hsame, htail⟩ := cut_inj hname hname' heq
    obtain ⟨hsources, hdest⟩ := hlists hcolon hcolon' htail
    exact ⟨hsame, sources_of_key_eq ha.sources hb.sources hsources, hdest⟩

/-! ### The function -/

theorem sourceStatements_congr {ops' : List SourceOperand}
    (h : ops.map SourceOperand.shape = ops'.map SourceOperand.shape) (sourceNo : Nat) :
    sourceStatements sourceNo ops = sourceStatements sourceNo ops' := by
  induction ops generalizing sourceNo ops' with
  | nil =>
    cases ops' with
    | nil => rfl
    | cons op' rest' => cases h
  | cons op rest ih =>
    cases ops' with
    | nil => cases h
    | cons op' rest' =>
      obtain ⟨hhead, htail⟩ := List.cons.inj h
      obtain ⟨hname, harray⟩ := Prod.mk.inj hhead
      rw [sourceStatements, sourceStatements, hname, harray, ih htail, ih htail]

theorem destStatements_congr {ops ops' : List DestinationOperand}
    (hvalue : ∀ op ∈ ops, ∀ expr, op.expression = some expr → expr.getValue.isOk = true)
    (hvalue' : ∀ op ∈ ops', ∀ expr, op.expression = some expr → expr.getValue.isOk = true)
    (h : ops.map DestinationOperand.shape = ops'.map DestinationOperand.shape) (destNo : Nat) :
    destStatements destNo ops = destStatements destNo ops' := by
  induction ops generalizing destNo ops' with
  | nil =>
    cases ops' with
    | nil => rfl
    | cons op' rest' => cases h
  | cons op rest ih =>
    cases ops' with
    | nil => cases h
    | cons op' rest' =>
      obtain ⟨hv, hvrest⟩ := List.forall_mem_cons.mp hvalue
      obtain ⟨hv', hvrest'⟩ := List.forall_mem_cons.mp hvalue'
      obtain ⟨hhead, htail⟩ := List.cons.inj h
      obtain ⟨hname, hhead⟩ := Prod.mk.inj hhead
      obtain ⟨harray, hlatency⟩ := Prod.mk.inj hhead
      rw [destStatements, destStatements, latency_eq hv, latency_eq hv', hname, harray, hlatency]
      dsimp only
      rw [ih hvrest hvrest' htail, ih hvrest hvrest' htail]

theorem operandSetterBody_of_key_eq (ha : a.WellNamed) (hb : b.WellNamed)
    (heq : createOperandLookupKey a = createOperandLookupKey b) (version : Nat) :
    operandSetterBody version a = operandSetterBody version b := by
  obtain ⟨hpred, hsources, hdestinations⟩ := shapes_of_key_eq ha hb heq
  unfold operandSetterBody generateOperandSetterFcn
  rw [hpred, sourceStatements_congr hsources,
    destStatements_congr ha.latencies hb.latencies hdestinations]

/-- **Operand setters.** For opcodes with the same key the same function is emitted: its text is
    the same for every version, name and encoding type. -/
theorem operandSetterText_of_key_eq {a b : Opcode} (ha : a.WellNamed) (hb : b.WellNamed)
    (heq : createOperandLookupKey a = createOperandLookupKey b) (version : Nat)
    (getterName encodingType : Name) :
    operandSetterText version getterName encodingType a =
      operandSetterText version getterName encodingType b := by
  unfold operandSetterText
  rw [operandSetterBody_of_key_eq ha hb heq]

/-- Two opcodes that differ in a relocation only. -/
theorem operandSetterText_reloc :
    operandSetterText 2 "SetOperands0".toList "Encoding".toList
        ⟨['p'], [⟨['r'], false, false⟩, ⟨['s'], true, false⟩],
          [⟨['d'], false, false, some (.constant 1)⟩, ⟨['v'], true, false, none⟩]⟩ =
      operandSetterText 2 "SetOperands0".toList "Encoding".toList
        ⟨['p'], [⟨['r'], false, true⟩, ⟨['s'], true, false⟩],
          [⟨['d'], false, false, some (.constant 1)⟩, ⟨['v'], true, false, none⟩]⟩ := by
  have hnamed : ∀ reloc, Opcode.WellNamed
      ⟨['p'], [⟨['r'], false, reloc⟩, ⟨['s'], true, false⟩],
        [⟨['d'], false, false, some (.constant 1)⟩, ⟨['v'], true, false, none⟩]⟩ := by
    intro reloc
    have hident : ∀ c, IdentChar c → IsIdent [c] :=
      fun c hc => ⟨List.cons_ne_nil c [], by simpa using hc⟩
    have hp := hident 'p' (by decide)
    have hr := hident 'r' (by decide)
    have hs := hident 's' (by decide)
    have hd := hident 'd' (by decide)
    have hv := hident 'v' (by decide)
    refine ⟨.inr hp, ?_, ?_, ?_⟩
    · simpa using ⟨hr, hs⟩
    · simpa using ⟨hd, hv⟩
    · simp only [List.forall_mem_cons, List.not_mem_nil, false_imp_iff, implies_true, and_true]
      refine ⟨?_, nofun⟩
      rintro expr ⟨⟩
      rfl
  exact operandSetterText_of_key_eq (hnamed false) (hnamed true) rfl 2 "SetOperands0".toList
    "Encoding".toList

end MpactSim.Isa
