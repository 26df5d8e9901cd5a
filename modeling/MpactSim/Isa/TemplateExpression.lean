import MpactSim.Lib.Monad

namespace MpactSim.Isa

/-!
# Template expressions

Slots and bundles of an instruction set can be templates.  The expressions of a template are
trees with references to the template's parameters, which `Evaluate` replaces by arguments; what
is constant it folds on the way.

* `getValue`, `evaluate`, `deepCopy` — the operations of the nodes;
* `meaning`                           — the value of a tree for given values of its parameters;
* `InRange`                           — no intermediate value overflows.
-/

/-! ### Values -/

/-- Why there is no value: a status that is not OK, or an `int` operation that overflows. -/
inductive Failure where
  | status (message : String)
  | overflow
  deriving DecidableEq, Repr

/-- `absl::StatusOr<TemplateValue>`. -/
abbrev Value := Except Failure Int

/-- The result of an `int` operation. -/
def toInt (v : Int) : Value := if -2 ^ 31 ≤ v ∧ v < 2 ^ 31 then .ok v else .error .overflow

/-- The unary minus of a value. -/
def negated (value : Value) : Value := value.bind fun v => toInt (-v)

inductive BinaryOp where
  | multiply | divide | add | subtract
  deriving DecidableEq, Repr

/-- `Operator` of the binary nodes. -/
def BinaryOp.operator (op : BinaryOp) (lhs rhs : Value) : Value :=
  lhs.bind fun a => rhs.bind fun b =>
    match op with
    | .multiply => toInt (a * b)
    | .divide => if b = 0 then .error (.status "Divide by zero") else toInt (a.tdiv b)
    | .add => toInt (a + b)
    | .subtract => toInt (a - b)

/-- The value is an error. -/
def Errs (value : Value) : Prop := ∃ m, value = .error (.status m)

/-- `TemplateFunction::Evaluator`, as a function of what its arguments' `GetValue` returns: an
    error of an argument is returned as an error. -/
structure Evaluator where
  call : List Value → Value
  strict : ∀ values, .error .overflow ∉ values → (∃ v ∈ values, Errs v) → Errs (call values)

/-- `AbsoluteValueTemplateFunc`. -/
def absoluteValueTemplateFunc (args : List Value) : Value :=
  match args with
  | [value] => value.bind fun v => if v < 0 then toInt (-v) else .ok v
  | _ => .error (.status s!"Wrong number of arguments, expected 1, was given {args.length}")

/-- The only function there is. -/
def abs : Evaluator where
  call := absoluteValueTemplateFunc
  strict := by
    rintro values - ⟨v, hv, m, rfl⟩
    match values, hv with
    | [_], hv =>
      rw [← List.mem_singleton.mp hv]
      exact ⟨m, rfl⟩
    | _ :: _ :: _, _ => exact ⟨_, rfl⟩

/-! ### Expressions -/

/-- `TemplateExpression`. -/
inductive TemplateExpression where
  | constant (value : Int)
  | slotConstant (expr : TemplateExpression)
  | param (position : Nat)
  | negate (expr : TemplateExpression)
  | binary (op : BinaryOp) (lhs rhs : TemplateExpression)
  | function (evaluator : Evaluator) (args : List TemplateExpression)

/-- What ends an evaluation: a failure, or an assertion that does not hold. -/
inductive Halt where
  | failure (f : Failure)
  | abort
  deriving DecidableEq, Repr

/-- A `StatusOr` that is made from an OK status: an assertion fails, or, in a build without
    assertions, it becomes an error. -/
def statusOrOfOk {α : Type} (assertions : Bool) : Except Halt α :=
  if assertions then .error .abort
  else .error (.failure (.status "An OK status is not a valid constructor argument to StatusOr<T>"))

/-- A value as the result of an evaluation. -/
def ofValue {α : Type} (f : Int → α) : Value → Except Halt α
  | .ok v => .ok (f v)
  | .error e => .error (.failure e)

namespace TemplateExpression

mutual

/-- `IsConstant`. -/
def isConstant : TemplateExpression → Bool
  | constant _ => true
  | slotConstant expr => isConstant expr
  | param _ => false
  | negate expr => isConstant expr
  | binary _ lhs rhs => isConstant lhs && isConstant rhs
  | function _ args => areConstant args

def areConstant : List TemplateExpression → Bool
  | [] => true
  | arg :: args => isConstant arg && areConstant args

end

mutual

/-- `GetValue`. -/
def getValue : TemplateExpression → Value
  | constant value => .ok value
  | slotConstant expr => getValue expr
  | param _ => .error (.status "Cannot return value of template parameter")
  | negate expr => negated (getValue expr)
  | binary op lhs rhs => op.operator (getValue lhs) (getValue rhs)
  | function evaluator args =>
    if areConstant args then evaluator.call (getValues args)
    else .error (.status "Cannot evaluate function with unbound arguments")

def getValues : List TemplateExpression → List Value
  | [] => []
  | arg :: args => getValue arg :: getValues args

end

section

variable (assertions : Bool) (ofParam : Nat → Except Halt TemplateExpression)

mutual

/-- `Evaluate`, with what it does for a parameter. -/
def evaluateWith : TemplateExpression → Except Halt TemplateExpression
  | constant value => .ok (constant value)
  | slotConstant expr => evaluateWith expr
  | param position => ofParam position
  | negate expr => (evaluateWith expr).bind fun expr =>
    if expr.isConstant then
      match negated expr.getValue with
      | .ok v => .ok (constant v)
      | .error .overflow => .error (.failure .overflow)
      -- The status that is returned is that of the operand, which is OK.
      | .error (.status _) => statusOrOfOk assertions
    else .ok (negate expr)
  | binary op lhs rhs => (evaluateWith lhs).bind fun lhs => (evaluateWith rhs).bind fun rhs =>
    if lhs.isConstant && rhs.isConstant then
      ofValue constant (op.operator lhs.getValue rhs.getValue)
    else .ok (binary op lhs rhs)
  | function evaluator args => (evaluateAll args).map (function evaluator)

def evaluateAll : List TemplateExpression → Except Halt (List TemplateExpression)
  | [] => .ok []
  | arg :: args => (evaluateWith arg).bind fun arg => (evaluateAll args).map (arg :: ·)

end

end

/-- What `TemplateParam::Evaluate` does. -/
def evaluateParam (assertions : Bool) (args : Option (List TemplateExpression)) (position : Nat) :
    Except Halt TemplateExpression :=
  match args with
  | none => .ok (param position)
  | some args =>
    match args[position]? with
    | none => .error (.failure (.status "Template parameter position out of range"))
    | some expr => if expr.isConstant then ofValue constant expr.getValue
      else expr.evaluateWith assertions fun position => .ok (param position)

/-- `Evaluate`. -/
def evaluate (assertions : Bool) (args : Option (List TemplateExpression))
    (expr : TemplateExpression) : Except Halt TemplateExpression :=
  expr.evaluateWith assertions (evaluateParam assertions args)

/-- The value after an evaluation. -/
def valueOf (result : Except Halt TemplateExpression) : Except Halt Int :=
  result.bind fun expr => ofValue id expr.getValue

mutual

/-- `DeepCopy`. -/
def deepCopy : TemplateExpression → TemplateExpression
  | constant value => constant value
  | slotConstant expr => deepCopy expr
  | param position => param position
  | negate expr => negate (deepCopy expr)
  | binary op lhs rhs => binary op (deepCopy lhs) (deepCopy rhs)
  | function evaluator args => function evaluator (deepCopies args)

def deepCopies : List TemplateExpression → List TemplateExpression
  | [] => []
  | arg :: args => deepCopy arg :: deepCopies args

end

@[elab_as_elim]
theorem induct {P : TemplateExpression → Prop} (constant : ∀ value, P (constant value))
    (slotConstant : ∀ expr, P expr → P (slotConstant expr)) (param : ∀ i, P (param i))
    (negate : ∀ expr, P expr → P (negate expr))
    (binary : ∀ op lhs rhs, P lhs → P rhs → P (binary op lhs rhs))
    (function : ∀ evaluator args, (∀ arg ∈ args, P arg) → P (function evaluator args))
    (expr : TemplateExpression) : P expr :=
  @TemplateExpression.rec P (fun args => ∀ arg ∈ args, P arg) constant slotConstant param negate
    binary function (fun _ h => nomatch h) (fun _ _ h hs => List.forall_mem_cons.mpr ⟨h, hs⟩) expr

/-! ### The meaning of an expression -/

mutual

/-- The value of a tree whose parameters have values. -/
def meaning (value : Nat → Value) : TemplateExpression → Value
  | constant v => .ok v
  | slotConstant expr => meaning value expr
  | param position => value position
  | negate expr => negated (meaning value expr)
  | binary op lhs rhs => op.operator (meaning value lhs) (meaning value rhs)
  | function evaluator args => evaluator.call (meanings value args)

def meanings (value : Nat → Value) : List TemplateExpression → List Value
  | [] => []
  | arg :: args => meaning value arg :: meanings value args

end

/-- What the parameters stand for: their values, and whether none of them overflows on the way. -/
structure Scope where
  value : Nat → Value
  inRange : Nat → Prop

/-- No parameter has a value. -/
def Scope.unbound : Scope where
  value _ := .error (.status "Cannot return value of template parameter")
  inRange _ := True

mutual

/-- No intermediate value overflows. -/
def InRange (σ : Scope) : TemplateExpression → Prop
  | constant _ => True
  | slotConstant expr => InRange σ expr
  | param position => σ.inRange position ∧ σ.value position ≠ .error .overflow
  | negate expr => InRange σ expr ∧ negated (meaning σ.value expr) ≠ .error .overflow
  | binary op lhs rhs => InRange σ lhs ∧ InRange σ rhs ∧
      op.operator (meaning σ.value lhs) (meaning σ.value rhs) ≠ .error .overflow
  | function evaluator args => AllInRange σ args ∧
      evaluator.call (meanings σ.value args) ≠ .error .overflow

def AllInRange (σ : Scope) : List TemplateExpression → Prop
  | [] => True
  | arg :: args => InRange σ arg ∧ AllInRange σ args

end

/-- The parameters are replaced by arguments. -/
def Scope.bind (σ : Scope) (args : List TemplateExpression) : Scope where
  value position := match args[position]? with
    | none => .error (.status "Template parameter position out of range")
    | some arg => arg.meaning σ.value
  inRange position := ∀ arg, args[position]? = some arg → arg.InRange σ

theorem meanings_eq (value : Nat → Value) (args : List TemplateExpression) :
    meanings value args = args.map (meaning value) := by
  induction args with
  | nil => rfl
  | cons arg args ih => rw [meanings, ih, List.map_cons]

theorem getValues_eq (args : List TemplateExpression) : getValues args = args.map getValue := by
  induction args with
  | nil => rfl
  | cons arg args ih => rw [getValues, ih, List.map_cons]

theorem areConstant_iff {args : List TemplateExpression} :
    areConstant args = true ↔ ∀ arg ∈ args, arg.isConstant = true := by
  induction args with
  | nil => simp [areConstant]
  | cons arg args ih => simp [areConstant, ih]

theorem allInRange_iff {σ : Scope} {args : List TemplateExpression} :
    AllInRange σ args ↔ ∀ arg ∈ args, arg.InRange σ := by
  induction args with
  | nil => simp [AllInRange]
  | cons arg args ih => simp [AllInRange, ih]

theorem meaning_of_isConstant (value : Nat → Value) {expr : TemplateExpression}
    (h : expr.isConstant = true) : expr.meaning value = expr.getValue := by
  induction expr using induct with
  | constant v => rfl
  | slotConstant expr ih => exact ih h
  | param i => cases h
  | negate expr ih => rw [meaning, getValue, ih h]
  | binary op lhs rhs ihl ihr =>
    obtain ⟨hl, hr⟩ := Bool.and_eq_true_iff.mp h
    rw [meaning, getValue, ihl hl, ihr hr]
  | function evaluator args ih =>
    have hargs := areConstant_iff.mp h
    rw [meaning, getValue, if_pos (show areConstant args = true from h), meanings_eq, getValues_eq]
    exact congrArg _ (List.map_congr_left fun arg harg => ih arg harg (hargs arg harg))

theorem ne_overflow {σ : Scope} {expr : TemplateExpression} (h : expr.InRange σ) :
    expr.meaning σ.value ≠ .error .overflow := by
  induction expr using induct with
  | constant v => exact nofun
  | slotConstant expr ih => exact ih h
  | param i => exact h.2
  | negate expr => exact h.2
  | binary op lhs rhs => exact h.2.2
  | function evaluator args => exact h.2

end TemplateExpression

end MpactSim.Isa
