import MpactSim.Isa.TemplateExpression

namespace MpactSim.Isa

/-!
# Evaluation of template expressions

Evaluation returns a constant or a residual tree, which is evaluated again when the template around
it is instantiated.

* `good_evaluateWith`      — evaluation keeps the meaning;
* `ReachesFailedNegation`  — where it returns a `StatusOr` made from an OK status;
* `evaluate_preserves_iff` — when evaluation, in one stage or two, preserves the value.
-/

/-! ### Agreement -/

/-- The same value, or two errors. -/
def Agree (x y : Value) : Prop := (∃ v, x = .ok v ∧ y = .ok v) ∨ Errs x ∧ Errs y

variable {x y : Value}

theorem agree_self (h : x ≠ .error .overflow) : Agree x x := by
  match x with
  | .ok v => exact Or.inl ⟨v, rfl, rfl⟩
  | .error (.status m) => exact Or.inr ⟨⟨m, rfl⟩, m, rfl⟩
  | .error .overflow => exact absurd rfl h

theorem Agree.trans {z : Value} (h : Agree x y) (h' : Agree y z) : Agree x z := by
  rcases h with ⟨v, rfl, rfl⟩ | ⟨hx, m, rfl⟩
  · exact h'
  · rcases h' with ⟨v, hy, -⟩ | ⟨-, hz⟩
    · cases hy
    · exact Or.inr ⟨hx, hz⟩

theorem Agree.ne_overflow (h : Agree x y) : x ≠ .error .overflow := by
  rcases h with ⟨v, rfl, -⟩ | ⟨⟨m, rfl⟩, -⟩ <;> exact nofun

theorem Errs.bind (h : Errs x) (f : Int → Value) : Errs (x.bind f) := by
  obtain ⟨m, rfl⟩ := h
  exact ⟨m, rfl⟩

theorem Agree.negated (h : Agree x y) (hy : negated y ≠ .error .overflow) :
    Agree (Isa.negated x) (Isa.negated y) := by
  rcases h with ⟨v, rfl, rfl⟩ | ⟨hx, hy⟩
  · exact agree_self hy
  · exact Or.inr ⟨hx.bind _, hy.bind _⟩

theorem Agree.operator {x' y' : Value} {op : BinaryOp} (h : Agree x y) (h' : Agree x' y')
    (hop : op.operator y y' ≠ .error .overflow) : Agree (op.operator x x') (op.operator y y') := by
  rcases h with ⟨v, rfl, rfl⟩ | ⟨hx, hy⟩
  · rcases h' with ⟨v', rfl, rfl⟩ | ⟨hx', hy'⟩
    · exact agree_self hop
    · exact Or.inr ⟨hx'.bind _, hy'.bind _⟩
  · exact Or.inr ⟨hx.bind _, hy.bind _⟩

theorem Agree.call {evaluator : Evaluator} {xs ys : List Value} (h : List.Forall₂ Agree xs ys)
    (hys : .error .overflow ∉ ys) (hcall : evaluator.call ys ≠ .error .overflow) :
    Agree (evaluator.call xs) (evaluator.call ys) := by
  have hxs : .error .overflow ∉ xs := by
    intro hmem
    obtain ⟨y, -, hxy⟩ := Lib.exists_of_forall₂ h.flip hmem
    exact Agree.ne_overflow hxy rfl
  -- The lists are the same, or both have an error.
  have hlists : xs = ys ∨ (∃ x ∈ xs, Errs x) ∧ ∃ y ∈ ys, Errs y := by
    clear hxs hys hcall
    induction h with
    | nil => exact Or.inl rfl
    | @cons x y xs ys hxy _ ih =>
      rcases hxy with ⟨v, rfl, rfl⟩ | ⟨hx, hy⟩
      · rcases ih with rfl | ⟨⟨x, hx, hxe⟩, y, hy, hye⟩
        · exact Or.inl rfl
        · exact Or.inr ⟨⟨x, List.mem_cons_of_mem _ hx, hxe⟩, y, List.mem_cons_of_mem _ hy, hye⟩
      · exact Or.inr ⟨⟨x, List.mem_cons_self, hx⟩, y, List.mem_cons_self, hy⟩
  rcases hlists with rfl | ⟨hx, hy⟩
  · exact agree_self hcall
  · exact Or.inr ⟨evaluator.strict xs hxs hx, evaluator.strict ys hys hy⟩

namespace TemplateExpression

variable {x y : Value} {σ : Scope}

theorem errs_operator (op : BinaryOp) (hx : x ≠ .error .overflow) (h : Errs x ∨ Errs y) :
    Errs (op.operator x y) := by
  rcases h with h | ⟨m, rfl⟩
  · exact h.bind _
  · match x with
    | .ok v => exact ⟨m, rfl⟩
    | .error (.status n) => exact ⟨n, rfl⟩
    | .error .overflow => exact absurd rfl hx

theorem overflow_not_mem {args : List TemplateExpression} (h : AllInRange σ args) :
    .error .overflow ∉ args.map (meaning σ.value) := by
  intro hmem
  obtain ⟨arg, harg, heq⟩ := List.mem_map.mp hmem
  exact ne_overflow (allInRange_iff.mp h arg harg) heq

theorem errs_of_not_isConstant {expr : TemplateExpression} (h : expr.InRange .unbound)
    (hconst : expr.isConstant = false) : Errs (expr.meaning Scope.unbound.value) := by
  induction expr using induct with
  | constant v => cases hconst
  | slotConstant expr ih => exact ih h hconst
  | param i => exact ⟨_, rfl⟩
  | negate expr ih => exact (ih h.1 hconst).bind _
  | binary op lhs rhs ihl ihr =>
    refine errs_operator op (ne_overflow h.1) ?_
    rcases Bool.and_eq_false_iff.mp hconst with hl | hr
    · exact Or.inl (ihl h.1 hl)
    · exact Or.inr (ihr h.2.1 hr)
  | function evaluator args ih =>
    have hopen : ¬ areConstant args = true := by
      rw [show areConstant args = false from hconst]
      exact Bool.false_ne_true
    rw [areConstant_iff] at hopen
    push Not at hopen
    obtain ⟨arg, harg, hnot⟩ := hopen
    rw [meaning, meanings_eq]
    refine evaluator.strict _ (overflow_not_mem h.1) ⟨_, List.mem_map_of_mem harg, ?_⟩
    exact ih arg harg (allInRange_iff.mp h.1 arg harg) (Bool.not_eq_true _ ▸ hnot)

theorem agree_getValue {expr : TemplateExpression} (h : expr.InRange .unbound) :
    Agree expr.getValue (expr.meaning Scope.unbound.value) := by
  induction expr using induct with
  | constant v => exact agree_self nofun
  | slotConstant expr ih => exact ih h
  | param i => exact agree_self nofun
  | negate expr ih => exact (ih h.1).negated h.2
  | binary op lhs rhs ihl ihr => exact (ihl h.1).operator (ihr h.2.1) h.2.2
  | function evaluator args ih =>
    have hargs := allInRange_iff.mp h.1
    rw [getValue]
    by_cases hconst : areConstant args = true
    · have hcall := h.2
      rw [meanings_eq] at hcall
      rw [if_pos hconst, meaning, meanings_eq, getValues_eq]
      refine Agree.call (List.forall₂_map_left_iff.mpr (List.forall₂_map_right_iff.mpr ?_))
        (overflow_not_mem h.1) hcall
      exact List.forall₂_same.mpr fun arg harg => ih arg harg (hargs arg harg)
    · rw [if_neg hconst]
      exact Or.inr ⟨⟨_, rfl⟩, errs_of_not_isConstant h (Bool.not_eq_true _ ▸ hconst)⟩

/-! ### Evaluation keeps the meaning -/

/-- What an evaluation has to return for a tree with a value: a tree with that value, or an error
    for an error. -/
def Good (σ : Scope) (result : Except Halt TemplateExpression) (value : Value) : Prop :=
  match result with
  | .ok expr => expr.InRange σ ∧ Agree (expr.meaning σ.value) value
  | .error (.failure f) => (∃ m, f = .status m) ∧ Errs value
  | .error .abort => True

theorem good_constant (h : Agree x y) : Good σ (ofValue constant x) y := by
  rcases h with ⟨v, rfl, rfl⟩ | ⟨⟨m, rfl⟩, hy⟩
  · exact ⟨trivial, agree_self nofun⟩
  · exact ⟨⟨m, rfl⟩, hy⟩

theorem good_statusOrOfOk {assertions : Bool} (h : Errs y) :
    Good σ (statusOrOfOk assertions) y := by
  cases assertions
  · exact ⟨⟨_, rfl⟩, h⟩
  · trivial

section Evaluate

variable {assertions : Bool} {ofParam : Nat → Except Halt TemplateExpression} {inner outer : Scope}

/-- The arguments of a function. -/
theorem good_evaluateAll {args : List TemplateExpression}
    (h : ∀ arg ∈ args, Good outer (arg.evaluateWith assertions ofParam) (arg.meaning inner.value)) :
    match evaluateAll assertions ofParam args with
    | .ok results => AllInRange outer results ∧
        List.Forall₂ Agree (results.map (meaning outer.value)) (args.map (meaning inner.value))
    | .error (.failure f) => (∃ m, f = .status m) ∧ ∃ arg ∈ args, Errs (arg.meaning inner.value)
    | .error .abort => True := by
  induction args with
  | nil => exact ⟨trivial, .nil⟩
  | cons arg args ih =>
    obtain ⟨harg, hrest⟩ := List.forall_mem_cons.mp h
    have ih := ih hrest
    rw [evaluateAll]
    match heq : arg.evaluateWith assertions ofParam with
    | .error .abort => trivial
    | .error (.failure f) =>
      rw [heq] at harg
      exact ⟨harg.1, arg, List.mem_cons_self, harg.2⟩
    | .ok r =>
      rw [heq] at harg
      match hall : evaluateAll assertions ofParam args with
      | .error .abort => trivial
      | .error (.failure f) =>
        rw [hall] at ih
        obtain ⟨hf, a, ha, herr⟩ := ih
        exact ⟨hf, a, List.mem_cons_of_mem _ ha, herr⟩
      | .ok results =>
        rw [hall] at ih
        exact ⟨⟨harg.1, ih.1⟩, .cons harg.2 ih.2⟩

/-- **Evaluation keeps the meaning**, as long as no assertion fails. -/
theorem good_evaluateWith
    (hparam : ∀ i, inner.inRange i → inner.value i ≠ .error .overflow →
      Good outer (ofParam i) (inner.value i))
    {expr : TemplateExpression} (h : expr.InRange inner) :
    Good outer (expr.evaluateWith assertions ofParam) (expr.meaning inner.value) := by
  induction expr using induct with
  | constant v => exact ⟨trivial, agree_self nofun⟩
  | slotConstant expr ih => exact ih h
  | param i => exact hparam i h.1 h.2
  | negate expr ih =>
    have hgood := ih h.1
    rw [evaluateWith, meaning]
    rcases hexpr : expr.evaluateWith assertions ofParam with (f | _) | r
    · rw [hexpr] at hgood
      exact ⟨hgood.1, hgood.2.bind _⟩
    · trivial
    · rw [hexpr] at hgood
      obtain ⟨hrange, hagree⟩ := hgood
      have hneg := hagree.negated h.2
      simp only [Except.bind]
      split_ifs with hconst
      · rw [meaning_of_isConstant _ hconst] at hneg
        split
        · next v hv => exact good_constant (hv ▸ hneg)
        · next hv => exact absurd hv hneg.ne_overflow
        · next m hv =>
          rcases hneg with ⟨v, hok, -⟩ | ⟨-, hy⟩
          · rw [hv] at hok
            cases hok
          · exact good_statusOrOfOk hy
      · exact ⟨⟨hrange, hneg.ne_overflow⟩, hneg⟩
  | binary op lhs rhs ihl ihr =>
    have hgl := ihl h.1
    have hgr := ihr h.2.1
    rw [evaluateWith, meaning]
    rcases hlhs : lhs.evaluateWith assertions ofParam with (f | _) | l
    · rw [hlhs] at hgl
      exact ⟨hgl.1, errs_operator op (ne_overflow h.1) (Or.inl hgl.2)⟩
    · trivial
    · rw [hlhs] at hgl
      rcases hrhs : rhs.evaluateWith assertions ofParam with (f | _) | r
      · rw [hrhs] at hgr
        exact ⟨hgr.1, errs_operator op (ne_overflow h.1) (Or.inr hgr.2)⟩
      · trivial
      · rw [hrhs] at hgr
        have hop := hgl.2.operator hgr.2 h.2.2
        simp only [Except.bind]
        split_ifs with hconst
        · obtain ⟨hl, hr⟩ := Bool.and_eq_true_iff.mp hconst
          rw [meaning_of_isConstant _ hl, meaning_of_isConstant _ hr] at hop
          exact good_constant hop
        · exact ⟨⟨hgl.1, hgr.1, hop.ne_overflow⟩, hop⟩
  | function evaluator args ih =>
    have hargs := allInRange_iff.mp h.1
    have hall := good_evaluateAll fun arg harg => ih arg harg (hargs arg harg)
    rw [evaluateWith, meaning, meanings_eq]
    rcases heq : evaluateAll assertions ofParam args with (f | _) | results
    · rw [heq] at hall
      obtain ⟨hf, arg, harg, herr⟩ := hall
      exact ⟨hf, evaluator.strict _ (overflow_not_mem h.1) ⟨_, List.mem_map_of_mem harg, herr⟩⟩
    · trivial
    · rw [heq] at hall
      have hcall := h.2
      rw [meanings_eq] at hcall
      have hagree := Agree.call hall.2 (overflow_not_mem h.1) hcall
      rw [← meanings_eq] at hagree
      exact ⟨⟨hall.1, hagree.ne_overflow⟩, hagree⟩

theorem good_evaluate_none {σ : Scope} {expr : TemplateExpression} (h : expr.InRange σ) :
    Good σ (expr.evaluate assertions none) (expr.meaning σ.value) := by
  refine good_evaluateWith (fun i hrange hvalue => ?_) h
  exact ⟨⟨hrange, hvalue⟩, agree_self hvalue⟩

theorem good_evaluate {σ : Scope} {expr : TemplateExpression} {args : List TemplateExpression}
    (h : expr.InRange (σ.bind args)) :
    Good σ (expr.evaluate assertions (some args)) (expr.meaning (σ.bind args).value) := by
  refine good_evaluateWith (fun i hrange hvalue => ?_) h
  simp only [Scope.bind] at hrange hvalue ⊢
  rw [evaluateParam]
  match hget : args[i]? with
  | none => exact ⟨⟨_, rfl⟩, _, rfl⟩
  | some arg =>
    have harg := hrange arg hget
    rw [hget] at hvalue
    simp only
    split_ifs with hconst
    · rw [← meaning_of_isConstant σ.value hconst]
      exact good_constant (agree_self hvalue)
    · exact good_evaluate_none harg

end Evaluate

/-! ### Failed assertions -/

section Reaches

variable (ofParam : Nat → Except Halt TemplateExpression) (inParam : Nat → Prop)

mutual

/-- The evaluation reaches a negation whose operand, once it is evaluated, is constant and has no
    value: a call that fails. -/
def ReachesFailedNegation : TemplateExpression → Prop
  | constant _ => False
  | slotConstant expr => ReachesFailedNegation expr
  | param position => inParam position
  | negate expr => ReachesFailedNegation expr ∨
      ∃ r m, expr.evaluateWith false ofParam = .ok r ∧ r.isConstant = true ∧
        negated r.getValue = .error (.status m)
  | binary _ lhs rhs => ReachesFailedNegation lhs ∨
      (∃ r, lhs.evaluateWith false ofParam = .ok r) ∧ ReachesFailedNegation rhs
  | function _ args => SomeReachesFailedNegation args

def SomeReachesFailedNegation : List TemplateExpression → Prop
  | [] => False
  | arg :: args => ReachesFailedNegation arg ∨
      (∃ r, arg.evaluateWith false ofParam = .ok r) ∧ SomeReachesFailedNegation args

end

variable {ofParam inParam} {checked : Nat → Except Halt TemplateExpression}

/-- Assertions make a difference only there. -/
theorem evaluateWith_assertions
    (hparam : ∀ i, (inParam i → checked i = .error .abort) ∧
      (¬ inParam i → checked i = ofParam i)) (expr : TemplateExpression) :
    (expr.ReachesFailedNegation ofParam inParam →
      expr.evaluateWith true checked = .error .abort) ∧
    (¬ expr.ReachesFailedNegation ofParam inParam →
      expr.evaluateWith true checked = expr.evaluateWith false ofParam) := by
  induction expr using induct with
  | constant v => exact ⟨nofun, fun _ => rfl⟩
  | slotConstant expr ih => exact ih
  | param i => exact hparam i
  | negate expr ih =>
    rw [evaluateWith, evaluateWith, ReachesFailedNegation]
    refine ⟨fun h => ?_, fun h => ?_⟩
    · by_cases hinner : expr.ReachesFailedNegation ofParam inParam
      · rw [ih.1 hinner]
        rfl
      · obtain ⟨r, m, hr, hconst, hneg⟩ := h.resolve_left hinner
        rw [ih.2 hinner, hr]
        simp only [Except.bind, hconst, if_true, hneg]
        rfl
    · rw [not_or] at h
      rw [ih.2 h.1]
      match hr : expr.evaluateWith false ofParam with
      | .error e => rfl
      | .ok r =>
        simp only [Except.bind]
        split_ifs with hconst
        · split
          · rfl
          · rfl
          · next m hneg => exact absurd ⟨r, m, hr, hconst, hneg⟩ h.2
        · rfl
  | binary op lhs rhs ihl ihr =>
    rw [evaluateWith, evaluateWith, ReachesFailedNegation]
    by_cases hl : lhs.ReachesFailedNegation ofParam inParam
    · refine ⟨fun _ => ?_, fun h => absurd (Or.inl hl) h⟩
      rw [ihl.1 hl]
      rfl
    · rw [ihl.2 hl]
      match hlhs : lhs.evaluateWith false ofParam with
      | .error e =>
        refine ⟨fun h => ?_, fun _ => rfl⟩
        obtain ⟨⟨r, hr⟩, -⟩ := h.resolve_left hl
        cases hr
      | .ok l =>
        refine ⟨fun h => ?_, fun h => ?_⟩
        · have hr := (h.resolve_left hl).2
          rw [ihr.1 hr]
          rfl
        · rw [ihr.2 fun hr => h (Or.inr ⟨⟨l, rfl⟩, hr⟩)]
  | function evaluator args ih =>
    rw [evaluateWith, evaluateWith, ReachesFailedNegation]
    suffices h : (SomeReachesFailedNegation ofParam inParam args →
          evaluateAll true checked args = .error .abort) ∧
        (¬ SomeReachesFailedNegation ofParam inParam args →
          evaluateAll true checked args = evaluateAll false ofParam args) by
      exact ⟨fun hr => by rw [h.1 hr]; rfl, fun hr => by rw [h.2 hr]⟩
    induction args with
    | nil => exact ⟨nofun, fun _ => rfl⟩
    | cons arg args ihargs =>
      obtain ⟨harg, hrest⟩ := List.forall_mem_cons.mp ih
      have ihargs := ihargs hrest
      rw [evaluateAll, evaluateAll, SomeReachesFailedNegation]
      by_cases ha : arg.ReachesFailedNegation ofParam inParam
      · refine ⟨fun _ => ?_, fun h => absurd (Or.inl ha) h⟩
        rw [harg.1 ha]
        rfl
      · rw [harg.2 ha]
        match heq : arg.evaluateWith false ofParam with
        | .error e =>
          refine ⟨fun h => ?_, fun _ => rfl⟩
          obtain ⟨⟨r, hr⟩, -⟩ := h.resolve_left ha
          cases hr
        | .ok r =>
          refine ⟨fun h => ?_, fun h => ?_⟩
          · rw [ihargs.1 (h.resolve_left ha).2]
            rfl
          · rw [ihargs.2 fun hr => h (Or.inr ⟨⟨r, rfl⟩, hr⟩)]

theorem bind_ne_abort {α β : Type} {x : Except Halt α} {f : α → Except Halt β}
    (hx : x ≠ .error .abort) (hf : ∀ r, x = .ok r → f r ≠ .error .abort) :
    x.bind f ≠ .error .abort := by
  match x with
  | .error e => exact fun h => hx (congrArg _ (Except.error.inj h))
  | .ok r => exact hf r rfl

theorem map_ne_abort {α β : Type} {x : Except Halt α} {f : α → β} (hx : x ≠ .error .abort) :
    x.map f ≠ .error .abort := by
  match x with
  | .error e => exact fun h => hx (congrArg _ (Except.error.inj h))
  | .ok r => exact nofun

theorem evaluateWith_ne_abort (hparam : ∀ i, ofParam i ≠ .error .abort)
    (expr : TemplateExpression) : expr.evaluateWith false ofParam ≠ .error .abort := by
  induction expr using induct with
  | constant v => exact nofun
  | slotConstant expr ih => exact ih
  | param i => exact hparam i
  | negate expr ih =>
    refine bind_ne_abort ih fun r _ => ?_
    split_ifs
    · split <;> exact nofun
    · exact nofun
  | binary op lhs rhs ihl ihr =>
    refine bind_ne_abort ihl fun l _ => bind_ne_abort ihr fun r _ => ?_
    split_ifs
    · cases op.operator l.getValue r.getValue <;> exact nofun
    · exact nofun
  | function evaluator args ih =>
    refine map_ne_abort ?_
    induction args with
    | nil => exact nofun
    | cons arg args ihargs =>
      obtain ⟨harg, hrest⟩ := List.forall_mem_cons.mp ih
      exact bind_ne_abort harg fun r _ => map_ne_abort (ihargs hrest)

end Reaches

/-- An evaluation with arguments reaches a failed negation. -/
def Reaches (args : List TemplateExpression) (expr : TemplateExpression) : Prop :=
  expr.ReachesFailedNegation (evaluateParam false (some args)) fun i =>
    ∃ arg, args[i]? = some arg ∧ arg.isConstant = false ∧
      arg.ReachesFailedNegation (fun position => .ok (param position)) fun _ => False

theorem evaluate_assertions (args : List TemplateExpression) (expr : TemplateExpression) :
    (expr.Reaches args → expr.evaluate true (some args) = .error .abort) ∧
    (¬ expr.Reaches args →
      expr.evaluate true (some args) = expr.evaluate false (some args)) := by
  refine evaluateWith_assertions (fun i => ?_) expr
  have hnone := @evaluateWith_assertions (fun i => .ok (param i)) (fun _ => False)
    (fun i => .ok (param i)) fun i => ⟨nofun, fun _ => rfl⟩
  simp only [evaluateParam]
  match args[i]? with
  | none => exact ⟨fun h => (nomatch h.choose_spec.1), fun _ => rfl⟩
  | some arg =>
    refine ⟨?_, fun h => ?_⟩
    · rintro ⟨arg', h, hconst, hreaches⟩
      cases h
      simp only [hconst, Bool.false_eq_true, if_false]
      exact (hnone arg).1 hreaches
    · simp only
      split_ifs with hconst
      · rfl
      · exact (hnone arg).2 fun hreaches => h ⟨arg, rfl, Bool.not_eq_true _ ▸ hconst, hreaches⟩

theorem evaluate_ne_abort (args : Option (List TemplateExpression)) (expr : TemplateExpression) :
    expr.evaluate false args ≠ .error .abort := by
  refine evaluateWith_ne_abort (fun i => ?_) expr
  unfold evaluateParam
  split
  · exact nofun
  · split
    · exact nofun
    · next arg _ =>
      split_ifs
      · cases arg.getValue <;> exact nofun
      · refine evaluateWith_ne_abort (fun i => ?_) arg
        exact nofun

/-! ### The value after evaluation -/

/-- The evaluation returns an error. -/
def Fails (result : Except Halt Int) : Prop := ∃ m, result = .error (.failure (.status m))

/-- The same value, or two errors that are returned. -/
def SameResult (x y : Except Halt Int) : Prop :=
  (∃ v, x = .ok v ∧ y = .ok v) ∨ Fails x ∧ Fails y

theorem SameResult.symm {x y : Except Halt Int} (h : SameResult x y) : SameResult y x := by
  rcases h with ⟨v, hx, hy⟩ | ⟨hx, hy⟩
  · exact Or.inl ⟨v, hy, hx⟩
  · exact Or.inr ⟨hy, hx⟩

theorem SameResult.trans {x y z : Except Halt Int} (h : SameResult x y) (h' : SameResult y z) :
    SameResult x z := by
  rcases h with ⟨v, rfl, rfl⟩ | ⟨hx, m, rfl⟩
  · exact h'
  · rcases h' with ⟨v, hy, -⟩ | ⟨-, hz⟩
    · cases hy
    · exact Or.inr ⟨hx, hz⟩

theorem not_sameResult_abort {x : Except Halt Int} : ¬ SameResult (.error .abort) x := by
  rintro (⟨v, h, -⟩ | ⟨⟨m, h⟩, -⟩) <;> cases h

theorem Good.sameResult {result : Except Halt TemplateExpression} {value : Value}
    (h : Good .unbound result value) (hresult : result ≠ .error .abort) :
    SameResult (valueOf result) (ofValue id value) := by
  match result with
  | .error .abort => exact absurd rfl hresult
  | .error (.failure f) =>
    obtain ⟨⟨m, rfl⟩, n, rfl⟩ := h
    exact Or.inr ⟨⟨m, rfl⟩, n, rfl⟩
  | .ok expr =>
    rcases (agree_getValue h.1).trans h.2 with ⟨v, hx, rfl⟩ | ⟨⟨m, hx⟩, n, rfl⟩
    · exact Or.inl ⟨v, by rw [valueOf, Except.bind, hx]; rfl, rfl⟩
    · exact Or.inr ⟨⟨m, by rw [valueOf, Except.bind, hx]; rfl⟩, n, rfl⟩

theorem Good.trans {result : Except Halt TemplateExpression} (h : Good σ result x) (hxy : Agree x y) : Good σ result y := by
  match result with
  | .error .abort => trivial
  | .error (.failure f) =>
    obtain ⟨hf, m, rfl⟩ := h
    rcases hxy with ⟨v, hx, -⟩ | ⟨-, hy⟩
    · cases hx
    · exact ⟨hf, hy⟩
  | .ok expr => exact ⟨h.1, h.2.trans hxy⟩

section Stages

variable {assertions : Bool} {expr : TemplateExpression} {args outer : List TemplateExpression}

theorem good_twoStages (h : expr.InRange ((Scope.unbound.bind outer).bind args)) :
    Good .unbound ((expr.evaluate assertions (some args)).bind (evaluate assertions (some outer)))
      (expr.meaning ((Scope.unbound.bind outer).bind args).value) := by
  have hfirst := @good_evaluate assertions _ _ _ h
  match heq : expr.evaluate assertions (some args) with
  | .error .abort => trivial
  | .error (.failure f) =>
    rw [heq] at hfirst
    exact hfirst
  | .ok r =>
    rw [heq] at hfirst
    exact (good_evaluate hfirst.1).trans hfirst.2

/-- Evaluation in one stage, with arguments that are evaluated before. -/
theorem good_oneStage {args' : List TemplateExpression}
    (hargs : args.mapM (evaluate assertions (some outer)) = .ok args')
    (h : expr.InRange ((Scope.unbound.bind outer).bind args)) :
    Good .unbound (expr.evaluate assertions (some args'))
      (expr.meaning ((Scope.unbound.bind outer).bind args).value) := by
  refine good_evaluateWith (fun i hrange hvalue => ?_) h
  have hget := Lib.getElem?_of_mapM_eq_ok hargs i
  rw [evaluateParam]
  simp only [Scope.bind] at hrange hvalue ⊢
  match harg : args[i]? with
  | none =>
    rw [harg] at hget
    rw [hget]
    exact ⟨⟨_, rfl⟩, _, rfl⟩
  | some arg =>
    rw [harg] at hget
    obtain ⟨arg', hget, heq⟩ := hget
    have hgood := @good_evaluate assertions .unbound _ _ (hrange arg harg)
    rw [heq] at hgood
    rw [hget]
    simp only
    split_ifs with hconst
    · have hagree := hgood.2
      rw [meaning_of_isConstant _ hconst] at hagree
      exact good_constant hagree
    · exact (good_evaluate_none hgood.1).trans hgood.2

theorem deepCopy_eq (expr : TemplateExpression) : expr.deepCopy.getValue = expr.getValue ∧
    expr.deepCopy.isConstant = expr.isConstant ∧
    ∀ assertions ofParam, expr.deepCopy.evaluateWith assertions ofParam =
      expr.evaluateWith assertions ofParam := by
  induction expr using induct with
  | constant v => exact ⟨rfl, rfl, fun _ _ => rfl⟩
  | slotConstant expr ih => exact ih
  | param i => exact ⟨rfl, rfl, fun _ _ => rfl⟩
  | negate expr ih =>
    obtain ⟨hvalue, hconst, heval⟩ := ih
    refine ⟨?_, hconst, fun assertions ofParam => ?_⟩
    · rw [deepCopy, getValue, getValue, hvalue]
    · rw [deepCopy, evaluateWith, evaluateWith, heval]
  | binary op lhs rhs ihl ihr =>
    obtain ⟨hvl, hcl, hel⟩ := ihl
    obtain ⟨hvr, hcr, her⟩ := ihr
    refine ⟨?_, ?_, fun assertions ofParam => ?_⟩
    · rw [deepCopy, getValue, getValue, hvl, hvr]
    · rw [deepCopy, isConstant, isConstant, hcl, hcr]
    · rw [deepCopy, evaluateWith, evaluateWith, hel, her]
  | function evaluator args ih =>
    suffices h : getValues (deepCopies args) = getValues args ∧
        areConstant (deepCopies args) = areConstant args ∧
        ∀ assertions ofParam, evaluateAll assertions ofParam (deepCopies args) =
          evaluateAll assertions ofParam args by
      refine ⟨?_, h.2.1, fun assertions ofParam => ?_⟩
      · rw [deepCopy, getValue, getValue, h.1, h.2.1]
      · rw [deepCopy, evaluateWith, evaluateWith, h.2.2]
    induction args with
    | nil => exact ⟨rfl, rfl, fun _ _ => rfl⟩
    | cons arg args ihargs =>
      obtain ⟨⟨hvalue, hconst, heval⟩, hrest⟩ := List.forall_mem_cons.mp ih
      obtain ⟨hvalues, hconsts, hall⟩ := ihargs hrest
      refine ⟨?_, ?_, fun assertions ofParam => ?_⟩
      · rw [deepCopies, getValues, getValues, hvalue, hvalues]
      · rw [deepCopies, areConstant, areConstant, hconst, hconsts]
      · rw [deepCopies, evaluateAll, evaluateAll, heval, hall]

/-! ### Evaluation preserves the value -/

/-- Evaluation gives the value of the tree with the arguments in place of the parameters, in one
    stage or in two, an error is returned as an error, and a copy is evaluated alike. -/
structure Preserves (assertions : Bool) (expr : TemplateExpression)
    (args outer : List TemplateExpression) : Prop where
  value : SameResult (valueOf (expr.evaluate assertions (some args)))
    (ofValue id (expr.meaning (Scope.unbound.bind args).value))
  twoStages : SameResult
    (valueOf ((expr.evaluate assertions (some args)).bind (evaluate assertions (some outer))))
    (ofValue id (expr.meaning ((Scope.unbound.bind outer).bind args).value))
  oneStage : ∀ args', args.mapM (evaluate assertions (some outer)) = .ok args' → SameResult
    (valueOf ((expr.evaluate assertions (some args)).bind (evaluate assertions (some outer))))
    (valueOf (expr.evaluate assertions (some args')))
  copy : expr.deepCopy.getValue = expr.getValue ∧
    ∀ args, expr.deepCopy.evaluate assertions args = expr.evaluate assertions args

/-- No evaluation reaches a failed negation: that with the arguments, the second one with the
    outer arguments, and the one with arguments that have been evaluated before. -/
structure NoFailedNegation (expr : TemplateExpression) (args outer : List TemplateExpression) :
    Prop where
  first : ¬ expr.Reaches args
  second : ∀ r, expr.evaluate false (some args) = .ok r → ¬ r.Reaches outer
  evaluated : ∀ args', args.mapM (evaluate true (some outer)) = .ok args' → ¬ expr.Reaches args'

theorem preserves_of_ne_abort (h : expr.InRange (Scope.unbound.bind args))
    (hnested : expr.InRange ((Scope.unbound.bind outer).bind args))
    (hfirst : expr.evaluate assertions (some args) ≠ .error .abort)
    (hsecond : (expr.evaluate assertions (some args)).bind (evaluate assertions (some outer)) ≠
      .error .abort)
    (honce : ∀ args', args.mapM (evaluate assertions (some outer)) = .ok args' →
      expr.evaluate assertions (some args') ≠ .error .abort) :
    Preserves assertions expr args outer := by
  have htwo := (good_twoStages hnested).sameResult hsecond
  exact ⟨(good_evaluate h).sameResult hfirst, htwo,
    fun args' hargs => htwo.trans ((good_oneStage hargs hnested).sameResult (honce args' hargs)).symm,
    (deepCopy_eq expr).1, fun args => (deepCopy_eq expr).2.2 _ _⟩

/-- **Evaluation.**  For expressions and arguments whose intermediate values do not overflow,
    evaluation preserves the value exactly if the build has no assertions or no evaluation reaches
    a failed negation. -/
theorem evaluate_preserves_iff (assertions : Bool) (expr : TemplateExpression)
    (args outer : List TemplateExpression) (h : expr.InRange (Scope.unbound.bind args))
    (hnested : expr.InRange ((Scope.unbound.bind outer).bind args)) :
    Preserves assertions expr args outer ↔
      (assertions = true → NoFailedNegation expr args outer) := by
  cases assertions with
  | false =>
    refine iff_of_true (preserves_of_ne_abort h hnested (evaluate_ne_abort _ _) ?_
      fun _ _ => evaluate_ne_abort _ _) nofun
    exact bind_ne_abort (evaluate_ne_abort _ _) fun r _ => evaluate_ne_abort _ r
  | true =>
    refine ⟨fun hp _ => ?_, fun hcond => ?_⟩
    · have hfirst : ¬ expr.Reaches args := by
        intro hreaches
        have hvalue := hp.value
        rw [(evaluate_assertions args expr).1 hreaches] at hvalue
        exact not_sameResult_abort hvalue
      refine ⟨hfirst, fun r hr hreaches => ?_, fun args' hargs hreaches => ?_⟩
      · have htwo := hp.twoStages
        rw [(evaluate_assertions args expr).2 hfirst, hr] at htwo
        rw [Except.bind, (evaluate_assertions outer r).1 hreaches] at htwo
        exact not_sameResult_abort htwo
      · have hone := hp.oneStage args' hargs
        rw [(evaluate_assertions args' expr).1 hreaches] at hone
        exact not_sameResult_abort hone.symm
    · obtain ⟨hfirst, hsecond, hevaluated⟩ := hcond rfl
      have heq := (evaluate_assertions args expr).2 hfirst
      refine preserves_of_ne_abort h hnested (heq ▸ evaluate_ne_abort _ _) ?_ fun args' hargs => ?_
      · rw [heq]
        refine bind_ne_abort (evaluate_ne_abort _ _) fun r hr => ?_
        rw [(evaluate_assertions outer r).2 (hsecond r hr)]
        exact evaluate_ne_abort _ r
      · rw [(evaluate_assertions args' expr).2 (hevaluated args' hargs)]
        exact evaluate_ne_abort _ _

end Stages

/-- The negative of a distance, and three. -/
def distance : TemplateExpression :=
  .binary .add (.negate (.function abs [.param 0])) (.constant 3)

theorem distance_preserves : Preserves true distance [.param 0] [.constant (-4)] := by
  refine (evaluate_preserves_iff true distance [.param 0] [.constant (-4)] ?_ ?_).mpr fun _ =>
    ⟨?_, fun r hr => ?_, fun args' hargs => ?_⟩
  · simp [distance, InRange, AllInRange, Scope.bind, Scope.unbound, meaning, meanings, abs,
      absoluteValueTemplateFunc, negated, BinaryOp.operator, Except.bind]
  · simp [distance, InRange, AllInRange, Scope.bind, Scope.unbound, meaning, meanings, abs,
      absoluteValueTemplateFunc, negated, BinaryOp.operator, Except.bind, toInt]
  · simp [distance, Reaches, ReachesFailedNegation, SomeReachesFailedNegation, evaluateWith,
      evaluateAll, evaluateParam, isConstant, areConstant, Except.bind, Except.map]
  · cases hr
    simp [Reaches, ReachesFailedNegation, SomeReachesFailedNegation, evaluateWith, evaluateAll,
      evaluateParam, isConstant, areConstant, Except.bind, Except.map, getValue, getValues,
      ofValue, abs, absoluteValueTemplateFunc, negated, toInt]
  · cases hargs
    simp [distance, Reaches, ReachesFailedNegation, SomeReachesFailedNegation, evaluateWith,
      evaluateAll, evaluateParam, isConstant, areConstant, Except.bind, Except.map, getValue,
      getValues, ofValue, abs, absoluteValueTemplateFunc, negated, toInt]

/-- A negated call with one argument too many. -/
def negatedCall : TemplateExpression := .negate (.function abs [.constant 1, .constant 2])

theorem negatedCall_aborts :
    negatedCall.getValue = .error (.status "Wrong number of arguments, expected 1, was given 2") ∧
      negatedCall.evaluate true (some []) = .error .abort ∧
      ¬ Preserves true negatedCall [] [] := by
  have habort : negatedCall.evaluate true (some []) = .error .abort := rfl
  refine ⟨rfl, habort, fun h => ?_⟩
  have hvalue := h.value
  rw [habort] at hvalue
  exact not_sameResult_abort hvalue

end TemplateExpression

end MpactSim.Isa
