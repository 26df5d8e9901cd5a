import MpactSim.Decoder.AccessorsCorrect
import MpactSim.Decoder.DecoderScope

namespace MpactSim.Decoder

open Cpp Lib

/-!
# Running the statements of a leaf

The statement for an encoding is a piece of text with braces, which may not match.  It is run
line by line, with the blocks that are open.

* `Line.run`, `runLines`   — the meaning of the text, `none` where it is undefined;
* `Operand.read`           — what the extraction of an operand computes on a word;
* `ConstrainedOpcode.holds` — whether a word satisfies the constraints of an opcode;
* `run_emitExtractions`    — the variables after the extractions.
-/

/-! ### Variables -/

/-- A variable has a type, and a value once it has been assigned. -/
structure Variable where
  ty : IntTy
  value : Option Val

/-- The variables that are declared. -/
abbrev Variables := String → Option Variable

namespace Variables

/-- The variables that can be read. -/
def env (vars : Variables) : Env := fun x => (vars x).bind (·.value)

/-- Declare or overwrite a variable. -/
def set (vars : Variables) (x : String) (v : Variable) : Variables :=
  fun y => if y = x then some v else vars y

@[simp]
theorem set_self (vars : Variables) (x : String) (v : Variable) : vars.set x v x = some v := if_pos rfl

@[simp]
theorem set_set (vars : Variables) (x : String) (v w : Variable) :
    (vars.set x v).set x w = vars.set x w := by
  funext y
  simp only [set]
  split <;> rfl

theorem env_set_self (vars : Variables) (x : String) (v : Variable) :
    (vars.set x v).env x = v.value := by
  rw [env, set_self, Option.bind_some]

theorem env_set_of_ne (vars : Variables) {x y : String} (v : Variable) (h : y ≠ x) :
    (vars.set x v).env y = vars.env y := by
  rw [env, env, set, if_neg h]

end Variables

/-! ### Conditions -/

/-- The relation of a constraint. -/
def ConstraintType.holds : ConstraintType → Int → Int → Bool
  | .kEq, a, b => a = b
  | .kNe, a, b => a ≠ b
  | .kLt, a, b => a < b
  | .kLe, a, b => a ≤ b
  | .kGt, a, b => a > b
  | .kGe, a, b => a ≥ b

/-- A comparison converts both sides to their common type. -/
def Comparison.eval (env : Env) (c : Comparison) : Option Bool := do
  let a ← c.lhs.eval env
  let b ← c.rhs.eval env
  return c.type.holds ((IntTy.common a.ty b.ty).wrap a.val) ((IntTy.common a.ty b.ty).wrap b.val)

/-- A conjunction, which stops at the first part that is false. -/
def allHold : List (Option Bool) → Option Bool
  | [] => some true
  | part :: rest => part.bind fun b => if b then allHold rest else some false

/-- The condition of an `if`. -/
def evalConditions (env : Env) (conditions : List Comparison) : Option Bool :=
  allHold (conditions.map (·.eval env))

theorem allHold_eq_true {parts : List (Option Bool)} :
    allHold parts = some true ↔ ∀ part ∈ parts, part = some true := by
  induction parts with
  | nil => simp [allHold]
  | cons part rest ih =>
    rw [List.forall_mem_cons, ← ih, allHold]
    cases part with
    | none => simp
    | some b => cases b <;> simp

/-! ### Lines -/

/-- A block is executed, or waits for an `else` because its condition did not hold, or is skipped
    up to its end. -/
inductive Block where
  | active | waiting | done
  deriving DecidableEq, Repr

/-- Where a run is: its variables, the open blocks with the innermost first, and whether an `if`
    without braces skips the statement that follows. -/
structure RunState where
  vars : Variables
  blocks : List Block
  skip : Bool

/-- What comes of a piece of text. -/
inductive Outcome where
  | goesOn (state : RunState)
  | returns (opcode : Option OpcodeFormat)

/-- The block of a condition. -/
def Block.of (condition : Bool) : Block := if condition then .active else .waiting

/-- A line in blocks that are all executed.  The lines of tables, switches and calls are not part
    of a statement for an encoding. -/
def Line.runActive (vars : Variables) (blocks : List Block) : Line → Option Outcome
  | .declare ty x none => some (.goesOn ⟨vars.set x ⟨ty, none⟩, blocks, false⟩)
  | .declare ty x (some e) => (e.eval vars.env).map fun v =>
    .goesOn ⟨vars.set x ⟨ty, some (.of ty v.val)⟩, blocks, false⟩
  | .assign x e => (vars x).bind fun old => (e.eval vars.env).map fun v =>
    .goesOn ⟨vars.set x ⟨old.ty, some (.of old.ty v.val)⟩, blocks, false⟩
  | .orAssign x e => (vars x).bind fun old => ((Expr.bin .or (.var x) e).eval vars.env).map fun v =>
    .goesOn ⟨vars.set x ⟨old.ty, some (.of old.ty v.val)⟩, blocks, false⟩
  | .openIf conditions => (evalConditions vars.env conditions).map fun b =>
    .goesOn ⟨vars, .of b :: blocks, false⟩
  | .bareIf conditions => (evalConditions vars.env conditions).map fun b =>
    .goesOn ⟨vars, blocks, !b⟩
  | .elseIf _ => blocks.tail?.map fun rest => .goesOn ⟨vars, .done :: rest, false⟩
  | .elseLine => blocks.tail?.map fun rest => .goesOn ⟨vars, .done :: rest, false⟩
  | .close => blocks.tail?.map fun rest => .goesOn ⟨vars, rest, false⟩
  | .ret opcode => some (.returns opcode)
  | _ => none

/-- A line in blocks that are not all executed.  Only the innermost block can wait, and then the
    blocks around it are executed. -/
def Line.runInactive (vars : Variables) (blocks : List Block) : Line → Option Outcome
  | .elseIf conditions =>
    match blocks with
    | .waiting :: rest => (evalConditions vars.env conditions).map fun b =>
      .goesOn ⟨vars, .of b :: rest, false⟩
    | _ => blocks.tail?.map fun rest => .goesOn ⟨vars, .done :: rest, false⟩
  | .elseLine =>
    match blocks with
    | .waiting :: rest => some (.goesOn ⟨vars, .active :: rest, false⟩)
    | _ => blocks.tail?.map fun rest => .goesOn ⟨vars, .done :: rest, false⟩
  | .close => blocks.tail?.map fun rest => .goesOn ⟨vars, rest, false⟩
  | line => some (.goesOn ⟨vars, if line.opens then .done :: blocks else blocks, false⟩)

/-- One line. -/
def Line.run (state : RunState) (line : Line) : Option Outcome :=
  if state.skip then some (.goesOn { state with skip := false })
  else if ∀ b ∈ state.blocks, b = .active then line.runActive state.vars state.blocks
  else line.runInactive state.vars state.blocks

/-- Several lines, up to a `return`. -/
def runLines : RunState → List Line → Option Outcome
  | state, [] => some (.goesOn state)
  | state, line :: rest => (line.run state).bind fun
    | .goesOn state => runLines state rest
    | .returns opcode => some (.returns opcode)

/-! ### The values of operands -/

/-- The instruction word alone. -/
def instWordEnv (word : Val) : Env := fun x => if x = "inst_word" then some word else none

/-- Values or-ed into a variable that has one. -/
def orTerms (env : Env) : Val → List Expr → Option Val
  | acc, [] => some acc
  | acc, e :: rest => (e.eval env).bind fun v =>
    orTerms env (.of acc.ty (Val.arith Int.lor acc v).val) rest

/-- The variable that several values are accumulated into. -/
def accumulated (ty : IntTy) (env : Env) : List Expr → Option Variable
  | [] => some ⟨ty, none⟩
  | first :: rest => (first.eval env).bind fun v =>
    (orTerms env (.of ty v.val) rest).map fun v => ⟨ty, some v⟩

namespace Operand

/-- The type of the operand's variable. -/
def ty (groupWidth : Nat) (operand : Operand) : IntTy :=
  uintType (if operand.width > groupWidth then operand.width else groupWidth)

/-- The operand's variable after its extraction; without a value if nothing is assigned. -/
def read (groupWidth : Nat) (word : Val) (operand : Operand) : Option Variable :=
  match operand with
  | .field f =>
    (Expr.eval (instWordEnv word) (.bin .and (shifted .shr (.var "inst_word") f.low)
      (.lit (.hex (2 ^ f.width - 1))))).map fun v =>
        ⟨operand.ty groupWidth, some (.of (operand.ty groupWidth) v.val)⟩
  | .overlay o => accumulated (operand.ty groupWidth) (instWordEnv word)
    ((o.writeSimpleValueExtractor (.var "inst_word")).getD [])

/-- The value of an operand in a word. -/
def valueOf (groupWidth : Nat) (word : Val) (operand : Operand) : Option Val :=
  (operand.read groupWidth word).bind (·.value)

end Operand

/-- Whether a word satisfies a constraint with a value. -/
def Constraint.holdsValue (groupWidth : Nat) (word : Val) (c : Constraint) : Option Bool :=
  (c.lhs.valueOf groupWidth word).map fun v => c.type.holds v.val c.value.toNat

/-- Whether a word satisfies a constraint with a value or another operand. -/
def Constraint.holds (groupWidth : Nat) (word : Val) (c : Constraint) : Option Bool :=
  match c.rhs with
  | some rhs => (c.lhs.valueOf groupWidth word).bind fun a =>
    (rhs.valueOf groupWidth word).map fun b => c.type.holds a.val b.val
  | none => c.holdsValue groupWidth word

/-- Whether a word satisfies all constraints of an opcode. -/
def ConstrainedOpcode.holds (groupWidth : Nat) (word : Val) (opcode : ConstrainedOpcode) :
    Option Bool :=
  allHold ((opcode.equalConstraints ++ opcode.equalExtractedConstraints).map
    (·.holdsValue groupWidth word) ++ opcode.otherConstraints.map (·.holds groupWidth word))

/-! ### Runs -/

theorem runLines_cons (state : RunState) (line : Line) (rest : List Line) :
    runLines state (line :: rest) = (line.run state).bind fun
      | .goesOn state => runLines state rest
      | .returns opcode => some (.returns opcode) := rfl

theorem runLines_cons_of {state state' : RunState} {line : Line}
    (h : line.run state = some (.goesOn state')) (rest : List Line) :
    runLines state (line :: rest) = runLines state' rest := by
  rw [runLines_cons, h, Option.bind_some]

variable {vars : Variables} {blocks : List Block} {env : Env} {word : Val} {groupWidth : Nat}

theorem run_active (h : ∀ b ∈ blocks, b = .active) (line : Line) :
    line.run ⟨vars, blocks, false⟩ = line.runActive vars blocks := by
  rw [Line.run, if_neg Bool.false_ne_true, if_pos h]

theorem run_waiting (vars : Variables) (blocks : List Block) (line : Line) :
    line.run ⟨vars, .waiting :: blocks, false⟩ = line.runInactive vars (.waiting :: blocks) := by
  rw [Line.run, if_neg Bool.false_ne_true, if_neg]
  intro h
  cases h .waiting List.mem_cons_self

/-! ### Extractions -/

theorem eval_congr {env' : Env} {e : Expr} (h : ∀ x ∈ exprVars e, env x = env' x) :
    e.eval env = e.eval env' := by
  induction e with
  | var x => exact h x List.mem_cons_self
  | lit l => rfl
  | not e ih => rw [Expr.eval, Expr.eval, ih h]
  | low64 e ih => rw [Expr.eval, Expr.eval, ih h]
  | bin op lhs rhs ihl ihr =>
    rw [Expr.eval, Expr.eval, ihl fun x hx => h x (List.mem_append_left _ hx),
      ihr fun x hx => h x (List.mem_append_right _ hx)]

theorem eval_instWordEnv (hword : vars.env "inst_word" = some word) {e : Expr}
    (he : ∀ x ∈ exprVars e, x = "inst_word") : e.eval vars.env = e.eval (instWordEnv word) := by
  refine eval_congr fun x hx => ?_
  rw [he x hx, hword]
  rfl

theorem run_orAssigns {v : Val} {x : String} (hactive : ∀ b ∈ blocks, b = .active)
    {terms : List Expr} (hterms : ∀ e ∈ terms, ∀ y ∈ exprVars e, y ≠ x ∧ vars.env y = env y)
    (hv : vars x = some ⟨v.ty, some v⟩) (lines : List Line) :
    runLines ⟨vars, blocks, false⟩ (terms.map (.orAssign x) ++ lines) =
      (orTerms env v terms).bind fun v' =>
        runLines ⟨vars.set x ⟨v.ty, some v'⟩, blocks, false⟩ lines := by
  induction terms generalizing vars v with
  | nil =>
    have hset : vars.set x ⟨v.ty, some v⟩ = vars := by
      funext y
      by_cases hy : y = x
      · rw [hy, Variables.set_self, hv]
      · rw [Variables.set, if_neg hy]
    rw [orTerms, Option.bind_some, hset]
    rfl
  | cons e rest ih =>
    obtain ⟨he, hrest⟩ := List.forall_mem_cons.mp hterms
    have henv : vars.env x = some v := by rw [Variables.env, hv, Option.bind_some]
    have hline : (Line.orAssign x e).runActive vars blocks =
        (e.eval env).map fun u => .goesOn
          ⟨vars.set x ⟨v.ty, some (.of v.ty (Val.arith Int.lor v u).val)⟩, blocks, false⟩ := by
      simp only [Line.runActive, hv, Option.bind_some, Expr.eval, henv,
        eval_congr fun y hy => (he y hy).2, BinOp.eval, Option.bind_eq_bind]
      cases e.eval env <;> rfl
    rw [List.map_cons, List.cons_append, runLines_cons, run_active hactive, hline, orTerms]
    cases e.eval env with
    | none => rfl
    | some u =>
      rw [Option.map_some, Option.bind_some, Option.bind_some]
      refine (ih (v := .of v.ty (Val.arith Int.lor v u).val) (fun e he y hy => ?_)
        (Variables.set_self ..)).trans ?_
      · obtain ⟨hne, hy⟩ := hrest e he y hy
        exact ⟨hne, (Variables.env_set_of_ne _ _ hne).trans hy⟩
      · simp only [Val.of_ty, Variables.set_set]

theorem run_accumulate {ty : IntTy} {x : String} (hactive : ∀ b ∈ blocks, b = .active)
    {terms : List Expr} (hterms : ∀ e ∈ terms, ∀ y ∈ exprVars e, y ≠ x ∧ vars.env y = env y)
    (lines : List Line) :
    runLines ⟨vars.set x ⟨ty, none⟩, blocks, false⟩ (accumulate x terms ++ lines) =
      (accumulated ty env terms).bind fun v =>
        runLines ⟨vars.set x v, blocks, false⟩ lines := by
  have hterms' : ∀ v : Variable, ∀ e ∈ terms, ∀ y ∈ exprVars e,
      y ≠ x ∧ (vars.set x v).env y = env y := by
    intro v e he y hy
    obtain ⟨hne, hy⟩ := hterms e he y hy
    exact ⟨hne, (Variables.env_set_of_ne _ _ hne).trans hy⟩
  cases terms with
  | nil => rfl
  | cons e rest =>
    have he := fun v y hy => (hterms' v e List.mem_cons_self y hy).2
    rw [accumulate, List.cons_append, runLines_cons, run_active hactive, Line.runActive,
      Variables.set_self, Option.bind_some, eval_congr (he _), accumulated]
    cases e.eval env with
    | none => rfl
    | some u =>
      rw [Option.map_some, Option.bind_some, Option.bind_some, Variables.set_set]
      refine (run_orAssigns (v := .of ty u.val) hactive
        (fun e he => hterms' _ e (List.mem_cons_of_mem _ he)) (Variables.set_self ..) lines).trans ?_
      rw [Option.bind_map]
      simp only [Variables.set_set]
      rfl

/-- An extraction declares the operand's variable and gives it its value. -/
theorem run_extraction {operand : Operand} (hactive : ∀ b ∈ blocks, b = .active)
    (hword : vars.env "inst_word" = some word) (lines : List Line) :
    runLines ⟨vars, blocks, false⟩ (operand.extraction groupWidth ++ lines) =
      (operand.read groupWidth word).bind fun v =>
        runLines ⟨vars.set operand.valueName v, blocks, false⟩ lines := by
  have hname := valueName_ne_inst_word operand
  cases operand with
  | field f =>
    rw [Operand.extraction, List.singleton_append, runLines_cons, run_active hactive, Line.runActive,
      eval_instWordEnv hword (by simp [shifted, exprVars]), Operand.read]
    simp only [Option.bind_map]
    rfl
  | overlay o =>
    have hterms : ∀ e ∈ (o.writeSimpleValueExtractor (.var "inst_word")).getD [],
        ∀ x ∈ exprVars e, x = "inst_word" := by
      intro e he x hx
      cases hlist : o.writeSimpleValueExtractor (.var "inst_word") with
      | none =>
        rw [hlist] at he
        cases he
      | some terms =>
        rw [hlist] at he
        exact exprVars_overlay hlist he hx
    rw [Operand.extraction, List.cons_append, runLines_cons, run_active hactive, Line.runActive,
      Option.bind_some]
    refine run_accumulate hactive (fun e he x hx => ?_) lines
    rw [hterms e he x hx]
    exact ⟨Ne.symm hname, hword⟩

/-- The variables that have been extracted hold the values of the operands of their names. -/
structure Extracted (groupWidth : Nat) (word : Val) (operands : List Operand)
    (extracted : List String) (vars : Variables) : Prop where
  holdsWord : vars.env "inst_word" = some word
  values : ∀ operand ∈ operands, operand.valueName ∈ extracted →
    vars.env operand.valueName = operand.valueOf groupWidth word

/-- Operands with one name are one operand, as those of a format are. -/
def NamesDistinct (operands : List Operand) : Prop :=
  ∀ a ∈ operands, ∀ b ∈ operands, a.valueName = b.valueName → a = b

section Extractions

variable {groupWidth : Nat} {word : Val} {all operands : List Operand} {extracted : List String}
  {vars : Variables} {blocks : List Block}

theorem Extracted.set (h : Extracted groupWidth word all extracted vars) (hnames : NamesDistinct all)
    {operand : Operand} (hmem : operand ∈ all) {v : Variable}
    (hread : operand.read groupWidth word = some v) :
    Extracted groupWidth word all (operand.valueName :: extracted)
      (vars.set operand.valueName v) where
  holdsWord := by
    rw [Variables.env_set_of_ne _ _ (Ne.symm (valueName_ne_inst_word operand)), h.holdsWord]
  values := by
    intro other hother hname
    by_cases heq : other.valueName = operand.valueName
    · rw [hnames other hother operand hmem heq, Variables.env_set_self, Operand.valueOf, hread,
        Option.bind_some]
    · rw [Variables.env_set_of_ne _ _ heq]
      exact h.values other hother ((List.mem_cons.mp hname).resolve_left heq)

/-- The extractions give the operands their values, if they are defined. -/
theorem run_emitExtractions (hnames : NamesDistinct all) (hactive : ∀ b ∈ blocks, b = .active)
    (hsub : ∀ operand ∈ operands, operand ∈ all)
    (h : Extracted groupWidth word all extracted vars)
    (hread : ∀ operand ∈ operands, operand.valueName ∉ extracted →
      (operand.read groupWidth word).isSome) :
    let result := emitExtractions groupWidth operands extracted
    ∃ vars', Extracted groupWidth word all result.2 vars' ∧ ∀ lines,
      runLines ⟨vars, blocks, false⟩ (result.1 ++ lines) =
        runLines ⟨vars', blocks, false⟩ lines := by
  induction operands generalizing extracted vars with
  | nil => exact ⟨vars, h, fun _ => rfl⟩
  | cons operand rest ih =>
    obtain ⟨hmem, hsub⟩ := List.forall_mem_cons.mp hsub
    obtain ⟨hfirst, hread⟩ := List.forall_mem_cons.mp hread
    rw [emitExtractions]
    split
    · exact ih hsub h hread
    · rename_i hnew
      obtain ⟨v, hv⟩ := Option.isSome_iff_exists.mp (hfirst hnew)
      obtain ⟨vars', hextracted, hrun⟩ := ih hsub (h.set hnames hmem hv) fun other hother hname =>
        hread other hother fun hin => hname (List.mem_cons_of_mem _ hin)
      refine ⟨vars', hextracted, fun lines => ?_⟩
      dsimp only
      rw [List.append_assoc, run_extraction hactive h.holdsWord, hv, Option.bind_some, hrun]

theorem run_emitExtractions_eq_none (hnames : NamesDistinct all)
    (hactive : ∀ b ∈ blocks, b = .active) (hsub : ∀ operand ∈ operands, operand ∈ all)
    (h : Extracted groupWidth word all extracted vars)
    (hread : ∃ operand ∈ operands, operand.valueName ∉ extracted ∧
      operand.read groupWidth word = none) (lines : List Line) :
    runLines ⟨vars, blocks, false⟩ ((emitExtractions groupWidth operands extracted).1 ++ lines) =
      none := by
  induction operands generalizing extracted vars with
  | nil => simp at hread
  | cons operand rest ih =>
    obtain ⟨hmem, hsub⟩ := List.forall_mem_cons.mp hsub
    obtain ⟨bad, hbad, hnew, hnone⟩ := hread
    rw [emitExtractions]
    split
    · rename_i hin
      refine ih hsub h ⟨bad, ?_, hnew, hnone⟩
      exact (List.mem_cons.mp hbad).resolve_left fun heq => hnew (heq ▸ hin)
    · dsimp only
      rw [List.append_assoc, run_extraction hactive h.holdsWord]
      cases hv : operand.read groupWidth word with
      | none => rfl
      | some v =>
        rw [Option.bind_some]
        have hne : bad ≠ operand := by
          rintro rfl
          rw [hv] at hnone
          cases hnone
        have hbad := (List.mem_cons.mp hbad).resolve_left hne
        refine ih hsub (h.set hnames hmem hv) ⟨bad, hbad, fun hin => ?_, hnone⟩
        rcases List.mem_cons.mp hin with heq | hin
        · exact hne (hnames bad (hsub bad hbad) operand hmem heq)
        · exact hnew hin

end Extractions

/-! ### Constraints -/

theorem Operand.valueOf_nonneg {v : Val} {operand : Operand}
    (h : operand.valueOf groupWidth word = some v) : 0 ≤ v.val := by
  have hunsigned : ∀ t : IntTy, t.signed = false → ∀ u : Val, u.ty = t → 0 ≤ u.val := by
    rintro t ht u rfl
    have := u.ty.neg_bias_le_wrap u.val
    rwa [u.inRange, IntTy.bias_unsigned ht, neg_zero] at this
  have hor : ∀ (env : Env) (terms : List Expr) (acc v : Val), orTerms env acc terms = some v →
      v.ty = acc.ty := by
    intro env terms acc
    induction terms generalizing acc with
    | nil =>
      intro v h
      cases h
      rfl
    | cons e rest ih =>
      intro v h
      obtain ⟨u, -, h⟩ := Option.bind_eq_some_iff.mp h
      have hty := ih _ v h
      exact hty
  refine hunsigned (operand.ty groupWidth) rfl v ?_
  obtain ⟨w, hread, hv⟩ := Option.bind_eq_some_iff.mp h
  cases operand with
  | field f =>
    obtain ⟨u, -, rfl⟩ := Option.map_eq_some_iff.mp hread
    cases hv
    rfl
  | overlay o =>
    rw [Operand.read] at hread
    generalize (o.writeSimpleValueExtractor (.var "inst_word")).getD [] = terms at hread
    cases terms with
    | nil =>
      cases hread
      cases hv
    | cons e rest =>
      obtain ⟨u, -, hread⟩ := Option.bind_eq_some_iff.mp hread
      obtain ⟨u', hu', rfl⟩ := Option.map_eq_some_iff.mp hread
      cases hv
      rw [hor _ _ _ _ hu']
      rfl

theorem Operand.valueOf_field {groupWidth low : Nat} {word : Val} {f : Field}
    (hlow : f.low = low) (hw : f.width < 64) (hfit : low + f.width ≤ groupWidth)
    (h128 : groupWidth ≤ 128) (hty : word.ty = uintType groupWidth)
    (hshift : low < (uintType groupWidth).promote.width) (h0 : 0 ≤ word.val) :
    ∃ v, Operand.valueOf groupWidth word (.field f) = some v ∧
      v.val = Cpp.field word.val low f.width := by
  have hwide := (intTypeShift_spec groupWidth h128).1
  have hty' : (Operand.field f).ty groupWidth = typeOf false groupWidth := by
    rw [Operand.ty, Operand.width, if_neg (by omega)]
    rfl
  obtain ⟨m, -, hmask⟩ := widthMask_eq hw
  have hword : (Expr.var "inst_word").Yields (instWordEnv word) word.val
      word.ty.promote.width := Expr.yields_var rfl h0 le_rfl
  obtain ⟨a, ha, hval, ha0, -⟩ :=
    yields_field (yields_shifted low hword (by rw [hty]; omega) (by omega)).1 hmask
  rw [hmask] at ha
  refine ⟨.of (typeOf false groupWidth) a.val, ?_, ?_⟩
  · rw [Operand.valueOf, Operand.read, hlow, ha, hty']
    rfl
  · have hlt : Cpp.field word.val low f.width < 2 ^ f.width := by
      refine lt_two_pow_of_testBit ha0 fun i hi => ?_
      rw [testBit_field, decide_eq_false (by omega), Bool.false_and]
    have hpow : (2 : Int) ^ f.width ≤ 2 ^ 2 ^ intTypeShift groupWidth :=
      pow_le_pow_right₀ (by norm_num) (by omega)
    rw [Val.of_val, hval]
    exact wrap_word ha0 (by omega)

theorem Operand.valueOf_field_eq_none {groupWidth low : Nat} {word : Val} {f : Field}
    (hlow : f.low = low) (h63 : low < 2 ^ 63) (hty : word.ty = uintType groupWidth)
    (hshift : (uintType groupWidth).promote.width ≤ low) :
    Operand.valueOf groupWidth word (.field f) = none := by
  have hword : (Expr.var "inst_word").eval (instWordEnv word) = some word := rfl
  have hnone : (shifted .shr (.var "inst_word") f.low).eval (instWordEnv word) = none := by
    rw [shifted, hlow]
    exact Expr.eval_shr_eq_none hword (by rw [hty]; omega) (by omega)
  rw [Operand.valueOf, Operand.read]
  simp only [Expr.eval, hnone, Option.bind_eq_bind, Option.bind_none, Option.map_none]

theorem Comparison.eval_of_nonneg {c : Comparison} {a b : Val} (ha : c.lhs.eval env = some a)
    (hb : c.rhs.eval env = some b) (ha0 : 0 ≤ a.val) (hb0 : 0 ≤ b.val) :
    c.eval env = some (c.type.holds a.val b.val) := by
  simp only [Comparison.eval, ha, hb, Option.bind_eq_bind, Option.bind_some,
    Val.wrap_common_left b ha0, Val.wrap_common_right a hb0]
  rfl

theorem Constraint.eval_valueComparison {c : Constraint}
    (h : env c.lhs.valueName = c.lhs.valueOf groupWidth word) :
    c.valueComparison.eval env = c.holdsValue groupWidth word := by
  have hlit : (Expr.lit (.hex c.value.toNat)).eval env = some (.of _ (c.value.toNat : Int)) := rfl
  have hval := Literal.hex_val c.value.isLt
  rw [Constraint.holdsValue]
  cases hv : c.lhs.valueOf groupWidth word with
  | none => simp [Constraint.valueComparison, Comparison.eval, Expr.eval, h, hv]
  | some v =>
    rw [Comparison.eval_of_nonneg (c := c.valueComparison) (h.trans hv) hlit
      (Operand.valueOf_nonneg hv) (by rw [Val.of_val, hval]; omega), Val.of_val, hval]
    rfl

theorem Constraint.eval_comparison {c : Constraint}
    (h : ∀ operand ∈ c.operands, env operand.valueName = operand.valueOf groupWidth word) :
    c.comparison.eval env = c.holds groupWidth word := by
  have hlhs := h c.lhs List.mem_cons_self
  rw [Constraint.comparison, Constraint.holds]
  cases hrhs : c.rhs with
  | none => exact c.eval_valueComparison hlhs
  | some rhs =>
    have hr := h rhs (by simp [Constraint.operands, hrhs])
    dsimp only
    cases hv : c.lhs.valueOf groupWidth word with
    | none => simp [Comparison.eval, Expr.eval, hlhs, hv]
    | some v =>
      cases hw : rhs.valueOf groupWidth word with
      | none => simp [Comparison.eval, Expr.eval, hlhs, hv, hr, hw]
      | some w =>
        exact Comparison.eval_of_nonneg (c := ⟨.var c.lhs.valueName, c.type, .var rhs.valueName⟩)
          (hlhs.trans hv) (hr.trans hw) (Operand.valueOf_nonneg hv) (Operand.valueOf_nonneg hw)

theorem evalConditions_conditions {opcode : ConstrainedOpcode} {equals : List Constraint}
    (h : ∀ operand ∈ (opcode.tested equals).flatMap Constraint.operands,
      env operand.valueName = operand.valueOf groupWidth word) :
    evalConditions env (opcode.conditions equals) =
      allHold ((equals ++ opcode.equalExtractedConstraints).map (·.holdsValue groupWidth word) ++
        opcode.otherConstraints.map (·.holds groupWidth word)) := by
  have hconstraint : ∀ c ∈ opcode.tested equals, ∀ operand ∈ c.operands,
      env operand.valueName = operand.valueOf groupWidth word := fun c hc operand ho =>
    h operand (List.mem_flatMap.mpr ⟨c, hc, ho⟩)
  rw [evalConditions, ConstrainedOpcode.conditions, List.map_append, List.map_map, List.map_map]
  congr 2
  · refine List.map_congr_left fun c hc => Constraint.eval_valueComparison ?_
    exact hconstraint c (List.mem_append_left _ hc) _ List.mem_cons_self
  · refine List.map_congr_left fun c hc => Constraint.eval_comparison ?_
    exact hconstraint c (List.mem_append_right _ hc)

end MpactSim.Decoder
