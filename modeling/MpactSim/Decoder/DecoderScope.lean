import MpactSim.Decoder.DecoderText
import MpactSim.Lib.Hex

namespace MpactSim.Decoder

open Cpp Lib

/-!
# Scopes of the emitted decoders

Whether an emitted function compiles is decided by the names that it declares and by its
braces.

* `Line.check`, `checkLines` — the scopes that are open before and after a piece of text;
* `balance`                  — the braces that it opens more than it closes;
* `emitDecoderCode_wellScoped_iff` — the instruction groups whose decoders are well scoped.
-/

/-! ### Scopes -/

/-- The names that are declared in the open scopes, with the innermost scope first. -/
abbrev Scopes := List (List String)

/-- The variables of an expression. -/
def exprVars : Expr → List String
  | .var name => [name]
  | .lit _ => []
  | .not e => exprVars e
  | .bin _ lhs rhs => exprVars lhs ++ exprVars rhs
  | .low64 e => exprVars e

/-- The variables of a condition. -/
def conditionVars (conditions : List Comparison) : List String :=
  conditions.flatMap fun c => exprVars c.lhs ++ exprVars c.rhs

namespace Line

/-- The variables that a line uses. -/
def uses : Line → List String
  | declare _ _ value => value.elim [] exprVars
  | assign name value => name :: exprVars value
  | orAssign name value => name :: exprVars value
  | openIf conditions => conditionVars conditions
  | bareIf conditions => conditionVars conditions
  | elseIf conditions => conditionVars conditions
  | openSwitch name => [name]
  | retEntry => ["opcodes", "index"]
  | retTable _ => ["index", "inst_word"]
  | declareCall _ _ => ["inst_word"]
  | retUnlessNone name => [name]
  | retVar name => [name]
  | _ => []

/-- The variable that it declares. -/
def declared : Line → Option String
  | declare _ name _ => some name
  | declareCall name _ => some name
  | opcodeTable _ => some "opcodes"
  | _ => none

/-- Whether it starts with a closing brace. -/
def closes : Line → Bool
  | elseIf _ => true
  | elseLine => true
  | close => true
  | _ => false

/-- Whether it ends with an opening brace. -/
def opens : Line → Bool
  | openIf _ => true
  | elseIf _ => true
  | elseLine => true
  | openSwitch _ => true
  | openCase _ => true
  | _ => false

/-- The functions that it calls. -/
def callees : Line → List String
  | declareCall _ callee => [callee]
  | _ => []

end Line

/-- Leave the innermost scope; the function's own scope stays open up to the end of its body. -/
def leaveScope : Scopes → Option Scopes
  | _ :: scope :: rest => some (scope :: rest)
  | _ => none

/-- Declare a name that the innermost scope does not have. -/
def declareName : Option String → Scopes → Option Scopes
  | none, scopes => some scopes
  | some name, scope :: rest => if name ∈ scope then none else some ((name :: scope) :: rest)
  | some _, [] => none

/-- The scopes after a line, if it is well scoped. -/
def Line.check (scopes : Scopes) (line : Line) : Option Scopes :=
  (if line.closes then leaveScope scopes else some scopes).bind fun scopes =>
    if ∀ name ∈ line.uses, name ∈ scopes.flatten then
      (declareName line.declared scopes).map fun scopes =>
        if line.opens then [] :: scopes else scopes
    else none

/-- The scopes after several lines. -/
def checkLines (scopes : Scopes) (lines : List Line) : Option Scopes :=
  lines.foldlM Line.check scopes

/-- A function uses what is declared, declares nothing twice in a scope, and closes each scope
    that it opens. -/
def DecodeFunction.WellScoped (f : DecodeFunction) : Prop :=
  ∃ scope, checkLines [["inst_word"]] f.body = some [scope]

namespace DecoderCode

/-- The names of the functions that are defined. -/
def defined (code : DecoderCode) : List String := code.functions.map (·.name)

/-- The functions that are called, by name or through a table. -/
def called (code : DecoderCode) : List String :=
  code.functions.flatMap (fun f => f.body.flatMap Line.callees) ++
    code.initializers.flatMap (·.entries)

/-- All functions are well scoped, and those that are called are defined exactly once. -/
structure WellScoped (code : DecoderCode) : Prop where
  functions : ∀ f ∈ code.functions, f.WellScoped
  called : ∀ callee ∈ code.called, code.defined.count callee = 1

end DecoderCode

/-! ### Pieces of text -/

@[simp]
theorem checkLines_nil (scopes : Scopes) : checkLines scopes [] = some scopes := rfl

theorem checkLines_cons (scopes : Scopes) (line : Line) (lines : List Line) :
    checkLines scopes (line :: lines) = (line.check scopes).bind (checkLines · lines) := rfl

theorem checkLines_append (scopes : Scopes) (lines lines' : List Line) :
    checkLines scopes (lines ++ lines') = (checkLines scopes lines).bind (checkLines · lines') :=
  List.foldlM_append

variable {scopes scopes' rest : Scopes} {lines : List Line} {line : Line} {scope : List String}
  {name : String} {conditions : List Comparison} {terms : List Expr} {groupWidth : Nat}
  {g : GroupData} {encodings : List InstructionEncoding} {tree : EncodingGroup}
  {groups : List EncodingGroup}

theorem checkLines_append_of (h : checkLines scopes lines = some scopes') (lines' : List Line) :
    checkLines scopes (lines ++ lines') = checkLines scopes' lines' := by
  rw [checkLines_append, h, Option.bind_some]

theorem check_plain (hcloses : line.closes = false) (hopens : line.opens = false)
    (hdeclared : line.declared = none) (huses : ∀ name ∈ line.uses, name ∈ scopes.flatten) :
    line.check scopes = some scopes := by
  simp only [Line.check, hcloses, hopens, hdeclared, declareName, if_pos huses, Option.bind_some,
    Option.map_some, Bool.false_eq_true, if_false]

theorem check_ret (scopes : Scopes) (opcode : Option OpcodeFormat) :
    (Line.ret opcode).check scopes = some scopes :=
  check_plain rfl rfl rfl (by simp [Line.uses])

theorem check_declare {ty : IntTy} {value : Option Expr} (hnew : name ∉ scope)
    (huses : ∀ x ∈ value.elim [] exprVars, x ∈ (scope :: rest).flatten) :
    (Line.declare ty name value).check (scope :: rest) = some ((name :: scope) :: rest) := by
  simp only [Line.check, Line.closes, Line.opens, Line.uses, Line.declared, declareName,
    if_pos huses, if_neg hnew, Option.bind_some, Option.map_some, Bool.false_eq_true,
    if_false]

theorem check_openIf (huses : ∀ x ∈ conditionVars conditions, x ∈ scopes.flatten) :
    (Line.openIf conditions).check scopes = some ([] :: scopes) := by
  simp only [Line.check, Line.closes, Line.opens, Line.uses, Line.declared, declareName,
    if_pos huses, Option.bind_some, Option.map_some, Bool.false_eq_true, if_false, if_true]

theorem check_elseIf {scope' : List String}
    (huses : ∀ x ∈ conditionVars conditions, x ∈ (scope' :: rest).flatten) :
    (Line.elseIf conditions).check (scope :: scope' :: rest) = some ([] :: scope' :: rest) := by
  simp only [Line.check, Line.closes, Line.opens, Line.uses, Line.declared, declareName, leaveScope,
    if_pos huses, Option.bind_some, Option.map_some, if_true]

/-! ### Braces -/

/-- The braces that a line opens more than it closes. -/
def Line.delta (line : Line) : Int := (if line.opens then 1 else 0) - if line.closes then 1 else 0

/-- The braces that a text opens more than it closes. -/
def balance (lines : List Line) : Int := (lines.map Line.delta).sum

@[simp]
theorem balance_nil : balance [] = 0 := rfl

@[simp]
theorem balance_cons (line : Line) (lines : List Line) :
    balance (line :: lines) = line.delta + balance lines := by
  simp [balance]

@[simp]
theorem balance_append (lines lines' : List Line) :
    balance (lines ++ lines') = balance lines + balance lines' := by
  simp [balance]

theorem declareName_length {name : Option String} (h : declareName name scopes = some scopes') :
    scopes'.length = scopes.length := by
  cases name with
  | none =>
    cases h
    rfl
  | some name =>
    cases scopes with
    | nil => cases h
    | cons scope rest =>
      rw [declareName] at h
      split at h
      · cases h
      · cases h
        rfl

theorem leaveScope_length (h : leaveScope scopes = some scopes') :
    scopes.length = scopes'.length + 1 := by
  match scopes, h with
  | _ :: _ :: _, h =>
    cases h
    rfl

theorem check_length (h : line.check scopes = some scopes') :
    (scopes'.length : Int) = scopes.length + line.delta := by
  obtain ⟨left, hleft, h⟩ := Option.bind_eq_some_iff.mp h
  have hcloses : (scopes.length : Int) = left.length + if line.closes then 1 else 0 := by
    split at hleft
    · rw [if_pos ‹_›, leaveScope_length hleft]
      push_cast
      rfl
    · rw [if_neg ‹_›, Option.some.inj hleft, add_zero]
  split at h
  · obtain ⟨declared, hdeclared, rfl⟩ := Option.map_eq_some_iff.mp h
    have hlength := declareName_length hdeclared
    unfold Line.delta
    cases line.opens
    · simp only [Bool.false_eq_true, if_false]
      omega
    · simp only [if_true, List.length_cons]
      omega
  · cases h

theorem checkLines_length (h : checkLines scopes lines = some scopes') :
    (scopes'.length : Int) = scopes.length + balance lines := by
  induction lines generalizing scopes with
  | nil =>
    cases h
    simp
  | cons line rest ih =>
    rw [checkLines_cons] at h
    obtain ⟨mid, hmid, h⟩ := Option.bind_eq_some_iff.mp h
    rw [ih h, check_length hmid, balance_cons]
    ring

theorem DecodeFunction.WellScoped.balance {f : DecodeFunction} (h : f.WellScoped) :
    balance f.body = 0 := by
  obtain ⟨scope, h⟩ := h
  have := checkLines_length h
  simp only [List.length_cons, List.length_nil] at this
  omega

/-! ### Extractions -/

/-- The only variable of the terms of an overlay is the instruction word. -/
theorem exprVars_overlay {o : Overlay} {word : String}
    (h : o.writeSimpleValueExtractor (.var word) = some terms) {e : Expr} (he : e ∈ terms)
    {x : String} (hx : x ∈ exprVars e) : x = word := by
  obtain ⟨lists, hlists, rfl⟩ := Option.map_eq_some_iff.mp h
  obtain ⟨list, hlist, he⟩ := List.mem_flatten.mp he
  obtain ⟨c, -, hc⟩ := exists_of_mapM_eq_some hlists hlist
  cases c with
  | binNum num position =>
    cases hc
    split at he
    · cases he
    · split at he
      · obtain rfl := List.mem_singleton.mp he
        cases hx
      · obtain rfl := List.mem_singleton.mp he
        cases hx
  | bits high low width position =>
    simp only [Overlay.simpleValueTerm, Option.bind_eq_bind, Option.bind_eq_some_iff] at hc
    obtain ⟨_, -, mask, -, hc⟩ := hc
    cases hc
    obtain rfl := List.mem_singleton.mp he
    split at hx
    · simpa [shifted, exprVars] using hx
    · split at hx <;> simpa [shifted, exprVars] using hx

theorem check_orAssigns (hname : name ∈ scopes.flatten)
    (hterms : ∀ e ∈ terms, ∀ x ∈ exprVars e, x ∈ scopes.flatten) :
    checkLines scopes (terms.map (.orAssign name)) = some scopes := by
  induction terms with
  | nil => rfl
  | cons e rest ih =>
    obtain ⟨he, hrest⟩ := List.forall_mem_cons.mp hterms
    have hline : (Line.orAssign name e).check scopes = some scopes :=
      check_plain rfl rfl rfl (List.forall_mem_cons.mpr ⟨hname, he⟩)
    rw [List.map_cons, checkLines_cons, hline, Option.bind_some, ih hrest]

theorem check_accumulate (hname : name ∈ scopes.flatten)
    (hterms : ∀ e ∈ terms, ∀ x ∈ exprVars e, x ∈ scopes.flatten) :
    checkLines scopes (accumulate name terms) = some scopes := by
  cases terms with
  | nil => rfl
  | cons e rest =>
    obtain ⟨he, hrest⟩ := List.forall_mem_cons.mp hterms
    have hline : (Line.assign name e).check scopes = some scopes :=
      check_plain rfl rfl rfl (List.forall_mem_cons.mpr ⟨hname, he⟩)
    rw [accumulate, checkLines_cons, hline, Option.bind_some, check_orAssigns hname hrest]

theorem check_extraction {operand : Operand} (hnew : operand.valueName ∉ scope)
    (hword : "inst_word" ∈ (scope :: rest).flatten) :
    checkLines (scope :: rest) (operand.extraction groupWidth) =
      some ((operand.valueName :: scope) :: rest) := by
  cases operand with
  | field f =>
    rw [Operand.valueName] at hnew
    rw [Operand.extraction, checkLines_cons, check_declare hnew]
    · rfl
    · intro x hx
      have : x = "inst_word" := by simpa [shifted, exprVars] using hx
      rwa [this]
  | overlay o =>
    rw [Operand.valueName] at hnew
    rw [Operand.extraction, checkLines_cons, check_declare hnew (by simp), Option.bind_some]
    refine check_accumulate (by simp) fun e he x hx => ?_
    cases hterms : o.writeSimpleValueExtractor (.var "inst_word") with
    | none =>
      rw [hterms] at he
      cases he
    | some terms =>
      rw [hterms] at he
      rw [exprVars_overlay hterms he hx]
      simpa using Or.inr hword

/-- The names that are extracted are those of the innermost scope, apart from some that are
    declared for other purposes. -/
theorem check_emitExtractions (groupWidth : Nat) {base : List String} {rest : Scopes}
    (hbase : ∀ operand : Operand, operand.valueName ∉ base)
    (hword : "inst_word" ∈ (base :: rest).flatten) (operands : List Operand)
    (extracted : List String) :
    let result := emitExtractions groupWidth operands extracted
    checkLines ((extracted ++ base) :: rest) result.1 = some ((result.2 ++ base) :: rest) ∧
      (∀ operand ∈ operands, operand.valueName ∈ result.2) ∧ extracted ⊆ result.2 := by
  induction operands generalizing extracted with
  | nil => exact ⟨rfl, by simp, List.Subset.refl _⟩
  | cons operand others ih =>
    rw [emitExtractions]
    split
    · rename_i hmem
      obtain ⟨hcheck, hnames, hsub⟩ := ih extracted
      exact ⟨hcheck, List.forall_mem_cons.mpr ⟨hsub hmem, hnames⟩, hsub⟩
    · rename_i hnew
      obtain ⟨hcheck, hnames, hsub⟩ := ih (operand.valueName :: extracted)
      refine ⟨?_, List.forall_mem_cons.mpr ⟨hsub List.mem_cons_self, hnames⟩,
        fun x hx => hsub (List.mem_cons_of_mem _ hx)⟩
      have hword' : "inst_word" ∈ ((extracted ++ base) :: rest).flatten := by
        simp only [List.flatten_cons, List.mem_append] at hword ⊢
        tauto
      rw [checkLines_append_of (check_extraction (by simp [hnew, hbase]) hword')]
      exact hcheck

/-! ### The statement for one encoding -/

theorem mem_conditionVars {opcode : ConstrainedOpcode} {equals : List Constraint} {x : String}
    (hx : x ∈ conditionVars (opcode.conditions equals)) :
    ∃ operand ∈ (opcode.tested equals).flatMap Constraint.operands, x = operand.valueName := by
  obtain ⟨c, hc, hx⟩ := List.mem_flatMap.mp hx
  rcases List.mem_append.mp hc with hc | hc
  · obtain ⟨constraint, hmem, rfl⟩ := List.mem_map.mp hc
    refine ⟨constraint.lhs, List.mem_flatMap.mpr ⟨constraint, ?_, List.mem_cons_self⟩, ?_⟩
    · exact List.mem_append_left _ hmem
    · simpa [Constraint.valueComparison, exprVars] using hx
  · obtain ⟨constraint, hmem, rfl⟩ := List.mem_map.mp hc
    have hmem' : constraint ∈ opcode.tested equals := List.mem_append_right _ hmem
    rcases List.mem_append.mp hx with hx | hx
    · refine ⟨constraint.lhs, List.mem_flatMap.mpr ⟨constraint, hmem', List.mem_cons_self⟩, ?_⟩
      simpa [Constraint.comparison, exprVars] using hx
    · cases hrhs : constraint.rhs with
      | none => simp [Constraint.comparison, hrhs, exprVars] at hx
      | some rhs =>
        refine ⟨rhs, List.mem_flatMap.mpr ⟨constraint, hmem', ?_⟩, ?_⟩
        · simp [Constraint.operands, hrhs]
        · simpa [Constraint.comparison, hrhs, exprVars] using hx

theorem check_laterSpecializations {specs : List ConstrainedOpcode}
    (huses : ∀ s ∈ specs, ∀ x ∈ conditionVars s.allConditions, x ∈ (scope :: rest).flatten) :
    checkLines ([] :: scope :: rest) (emitSpecializations false specs) =
      some ([] :: scope :: rest) := by
  induction specs with
  | nil => rfl
  | cons s others ih =>
    obtain ⟨hs, hothers⟩ := List.forall_mem_cons.mp huses
    rw [emitSpecializations]
    split
    · rw [List.nil_append, checkLines_cons, check_ret, Option.bind_some, ih hothers]
    · simp only [Bool.false_eq_true, if_false]
      rw [List.singleton_append, checkLines_cons, check_elseIf hs, Option.bind_some,
        checkLines_cons, check_ret, Option.bind_some, ih hothers]

/-- An encoding with specializations is tested, and so is its first specialization. -/
def ChainTested (enc : InstructionEncoding) (conditions : List Comparison) : Prop :=
  enc.specializations = [] ∨
    conditions ≠ [] ∧ ∀ s ∈ enc.specializations.head?, s.allConditions ≠ []

/-- The statement closes what it opens if everything that it needs is tested. -/
theorem check_emitIf {enc : InstructionEncoding} (htested : ChainTested enc conditions)
    (huses : ∀ x ∈ conditionVars conditions, x ∈ (scope :: rest).flatten)
    (hspecs : ∀ s ∈ enc.specializations, ∀ x ∈ conditionVars s.allConditions,
      x ∈ (scope :: rest).flatten) :
    checkLines (scope :: rest) (emitIf enc conditions) = some (scope :: rest) := by
  unfold emitIf
  cases hlist : enc.specializations with
  | nil =>
    rw [if_pos rfl]
    split
    · rw [List.nil_append, checkLines_cons, check_ret]
      rfl
    · have hline : (Line.bareIf conditions).check (scope :: rest) = some (scope :: rest) :=
        check_plain rfl rfl rfl huses
      rw [List.singleton_append, checkLines_cons, hline, Option.bind_some, checkLines_cons,
        check_ret]
      rfl
  | cons s others =>
    rcases htested with hnil | ⟨hconditions, hfirst⟩
    · rw [hlist] at hnil
      cases hnil
    rw [hlist] at hfirst hspecs
    have hs := hfirst s rfl
    obtain ⟨huses₁, huses₂⟩ := List.forall_mem_cons.mp hspecs
    have hopen : checkLines ([] :: scope :: rest) (emitSpecializations true (s :: others)) =
        some ([] :: [] :: scope :: rest) := by
      rw [emitSpecializations, if_neg hs, if_pos rfl, List.singleton_append, checkLines_cons,
        check_openIf (by simpa using huses₁), Option.bind_some, checkLines_cons, check_ret,
        Option.bind_some, check_laterSpecializations (by simpa using huses₂)]
    rw [if_neg (List.cons_ne_nil _ _), if_neg hconditions, List.append_assoc,
      List.singleton_append, checkLines_cons, check_openIf huses, Option.bind_some,
      checkLines_append_of hopen]
    -- `} else {`, the return, and two closing braces.
    rfl

/-- The closing braces that an encoding misses. -/
def missingBraces (enc : InstructionEncoding) (conditions : List Comparison) : Nat :=
  if enc.specializations = [] then 0
  else (if conditions = [] then 1 else 0) +
    if ∀ s ∈ enc.specializations.head?, s.allConditions ≠ [] then 0 else 1

theorem missingBraces_eq_zero {enc : InstructionEncoding} :
    missingBraces enc conditions = 0 ↔ ChainTested enc conditions := by
  unfold missingBraces ChainTested
  split
  · simp [*]
  · rw [Nat.add_eq_zero_iff]
    simp [*]

theorem balance_laterSpecializations (specs : List ConstrainedOpcode) :
    balance (emitSpecializations false specs) = 0 := by
  induction specs with
  | nil => rfl
  | cons s others ih =>
    rw [emitSpecializations]
    split <;> simp [ih, Line.delta, Line.opens, Line.closes]

theorem balance_emitIf (enc : InstructionEncoding) (conditions : List Comparison) :
    balance (emitIf enc conditions) = -missingBraces enc conditions := by
  unfold emitIf missingBraces
  cases hlist : enc.specializations with
  | nil =>
    rw [if_pos rfl, if_pos rfl]
    split <;> simp [Line.delta, Line.opens, Line.closes]
  | cons s others =>
    rw [if_neg (List.cons_ne_nil _ _), if_neg (List.cons_ne_nil _ _), emitSpecializations]
    by_cases hconditions : conditions = [] <;> by_cases hs : s.allConditions = [] <;>
      simp [hconditions, hs, balance_laterSpecializations, Line.delta, Line.opens, Line.closes]

/-! ### The statements of a leaf -/

theorem emitIfSequence_cons (groupWidth : Nat) (g : GroupData) (extracted : List String)
    (enc : InstructionEncoding) (rest : List InstructionEncoding) :
    let result := emitExtractions groupWidth (enc.operands (g.testedEquals extracted enc)) extracted
    (emitIfSequence groupWidth g extracted (enc :: rest)).1 =
      result.1 ++ (emitIf enc (enc.conditions (g.testedEquals extracted enc)) ++
        (emitIfSequence groupWidth g result.2 rest).1) :=
  List.append_assoc ..

/-- Everything that the statements of several encodings need is tested. -/
def SequenceTested (groupWidth : Nat) (g : GroupData) :
    List String → List InstructionEncoding → Prop
  | _, [] => True
  | extracted, enc :: rest =>
    ChainTested enc (enc.conditions (g.testedEquals extracted enc)) ∧
      SequenceTested groupWidth g
        (emitExtractions groupWidth (enc.operands (g.testedEquals extracted enc)) extracted).2 rest

/-- The closing braces that are missing for several encodings. -/
def missingInSequence (groupWidth : Nat) (g : GroupData) :
    List String → List InstructionEncoding → Nat
  | _, [] => 0
  | extracted, enc :: rest =>
    missingBraces enc (enc.conditions (g.testedEquals extracted enc)) +
      missingInSequence groupWidth g
        (emitExtractions groupWidth (enc.operands (g.testedEquals extracted enc)) extracted).2 rest

theorem missingInSequence_eq_zero {extracted : List String} :
    missingInSequence groupWidth g extracted encodings = 0 ↔
      SequenceTested groupWidth g extracted encodings := by
  induction encodings generalizing extracted with
  | nil => simp [missingInSequence, SequenceTested]
  | cons enc rest ih =>
    rw [missingInSequence, SequenceTested, Nat.add_eq_zero_iff, missingBraces_eq_zero, ih]

theorem balance_accumulate (name : String) (terms : List Expr) :
    balance (accumulate name terms) = 0 := by
  have hrest : ∀ rest : List Expr, balance (rest.map (.orAssign name)) = 0 := by
    intro rest
    induction rest with
    | nil => rfl
    | cons e rest ih =>
      rw [List.map_cons, balance_cons, ih]
      rfl
  cases terms with
  | nil => rfl
  | cons e rest =>
    rw [accumulate, balance_cons, hrest]
    rfl

theorem balance_extraction (groupWidth : Nat) (operand : Operand) :
    balance (operand.extraction groupWidth) = 0 := by
  cases operand with
  | field f => rfl
  | overlay o =>
    rw [Operand.extraction, balance_cons, balance_accumulate]
    rfl

theorem balance_emitExtractions (groupWidth : Nat) (operands : List Operand)
    (extracted : List String) : balance (emitExtractions groupWidth operands extracted).1 = 0 := by
  induction operands generalizing extracted with
  | nil => rfl
  | cons operand rest ih =>
    rw [emitExtractions]
    split
    · exact ih extracted
    · change balance (operand.extraction groupWidth ++ _) = 0
      rw [balance_append, balance_extraction, ih, add_zero]

theorem balance_emitIfSequence (groupWidth : Nat) (g : GroupData)
    (encodings : List InstructionEncoding) (extracted : List String) :
    balance (emitIfSequence groupWidth g extracted encodings).1 =
      -missingInSequence groupWidth g extracted encodings := by
  induction encodings generalizing extracted with
  | nil => rfl
  | cons enc rest ih =>
    rw [emitIfSequence_cons, balance_append, balance_append, balance_emitExtractions,
      balance_emitIf, ih, missingInSequence]
    push_cast
    ring

/-- The statements leave the scopes as they are, up to the names that they extract. -/
theorem check_emitIfSequence (base : List String) (rest : Scopes)
    (hbase : ∀ operand : Operand, operand.valueName ∉ base)
    (hword : "inst_word" ∈ (base :: rest).flatten) {extracted : List String}
    (htested : SequenceTested groupWidth g extracted encodings) :
    ∃ names, checkLines ((extracted ++ base) :: rest)
      (emitIfSequence groupWidth g extracted encodings).1 = some ((names ++ base) :: rest) := by
  -- Induction on the encodings; the names that one extracts are there for the next.
  induction encodings generalizing extracted with
  | nil => exact ⟨extracted, rfl⟩
  | cons enc others ih =>
    obtain ⟨henc, hothers⟩ := htested
    obtain ⟨hcheck, hnames, -⟩ := check_emitExtractions groupWidth hbase hword
      (enc.operands (g.testedEquals extracted enc)) extracted
    obtain ⟨names, hresult⟩ := ih hothers
    refine ⟨names, ?_⟩
    have hin : ∀ operand ∈ enc.operands (g.testedEquals extracted enc), operand.valueName ∈
        ((_ ++ base) :: rest : Scopes).flatten := fun operand hmem =>
      List.mem_append_left _ (List.mem_append_left _ (hnames operand hmem))
    rw [emitIfSequence_cons, checkLines_append_of hcheck,
      checkLines_append_of (check_emitIf henc (fun x hx => ?_) fun s hs x hx => ?_)]
    · exact hresult
    · obtain ⟨operand, hmem, rfl⟩ := mem_conditionVars hx
      exact hin operand (List.mem_append_left _ hmem)
    · obtain ⟨operand, hmem, rfl⟩ := mem_conditionVars hx
      exact hin operand (List.mem_append_right _ (List.mem_flatMap.mpr ⟨s, hs, hmem⟩))

/-- Everything that the statements of a leaf need is tested. -/
def GroupData.LeafTested (groupWidth : Nat) (g : GroupData) : Prop :=
  if g.discriminatorRecipe = [] then SequenceTested groupWidth g [] g.encodings
  else ∀ index ∈ g.encodings.map g.indexOf,
    SequenceTested groupWidth g [] (g.encodings.filter fun enc => g.indexOf enc = index)

theorem valueName_ne_inst_word (operand : Operand) : operand.valueName ≠ "inst_word" := by
  have hlast : ∀ name : String, name ++ "_value" ≠ "inst_word" := by
    intro name h
    have := congrArg (fun s => s.toList.getLast?) h
    simp at this
  cases operand with
  | field f => exact hlast f.name
  | overlay o => exact hlast o.name

theorem check_constantTest (g : GroupData) (hword : "inst_word" ∈ scopes.flatten) :
    checkLines scopes g.constantTest = some scopes := by
  unfold GroupData.constantTest
  split
  · rfl
  · have hline : Line.check scopes (.bareIf
        [⟨.bin .and (.var "inst_word") (.lit (.hex g.constant.toNat)), .kNe,
          .lit (.hex (g.firstValue &&& g.constant).toNat)⟩]) = some scopes :=
      check_plain rfl rfl rfl (by simpa [Line.uses, conditionVars, exprVars] using hword)
    rw [checkLines_cons, hline, Option.bind_some, checkLines_cons, check_ret]
    rfl

/-- The names of the function's own scope before the statements of a group. -/
def GroupData.functionScope (g : GroupData) : List String :=
  if g.discriminatorRecipe = [] then ["inst_word"] else ["index", "inst_word"]

theorem check_indexExtraction (groupWidth : Nat) (g : GroupData) :
    checkLines [["inst_word"]] (g.indexExtraction groupWidth) = some [g.functionScope] := by
  unfold GroupData.indexExtraction GroupData.functionScope
  split
  · rfl
  · rw [checkLines_cons, check_declare (by decide) (by simp), Option.bind_some]
    refine check_accumulate (by simp) fun e he x hx => ?_
    obtain ⟨step, -, rfl⟩ := List.mem_map.mp he
    have : x = "inst_word" := by simpa [shifted, exprVars] using hx
    simp [this]

theorem check_prologue (groupWidth : Nat) (g : GroupData) (lines : List Line) :
    checkLines [["inst_word"]] (g.constantTest ++ g.indexExtraction groupWidth ++ lines) =
      checkLines [g.functionScope] lines := by
  rw [List.append_assoc, checkLines_append_of (check_constantTest g (by simp)),
    checkLines_append_of (check_indexExtraction groupWidth g)]

theorem emitCase_eq (groupWidth : Nat) (g : GroupData) (index : Nat) :
    let result := emitIfSequence groupWidth g []
      (g.encodings.filter fun enc => g.indexOf enc = index)
    g.emitCase groupWidth index = .openCase index ::
      (result.1 ++ ((if result.2 then [.breakLine] else []) ++ [.close])) := by
  simp [GroupData.emitCase]

theorem check_case {index : Nat} (hword : "inst_word" ∈ (scope :: rest).flatten)
    (htested : SequenceTested groupWidth g []
      (g.encodings.filter fun enc => g.indexOf enc = index)) :
    checkLines (scope :: rest) (g.emitCase groupWidth index) = some (scope :: rest) := by
  obtain ⟨names, hnames⟩ := check_emitIfSequence [] (scope :: rest) (by simp)
    (by simpa using hword) htested
  rw [List.append_nil, List.append_nil] at hnames
  have hopen : (Line.openCase index).check (scope :: rest) = some ([] :: scope :: rest) := by
    simp [Line.check, Line.closes, Line.uses, Line.declared, declareName, Line.opens]
  rw [emitCase_eq, checkLines_cons, hopen, Option.bind_some, checkLines_append_of hnames]
  -- What is left is a `break;`, perhaps, and the closing brace.
  split <;> rfl

theorem check_cases (hword : "inst_word" ∈ (scope :: rest).flatten) {indices : List Nat}
    (htested : ∀ index ∈ indices, SequenceTested groupWidth g []
      (g.encodings.filter fun enc => g.indexOf enc = index)) :
    checkLines (scope :: rest) (indices.flatMap (g.emitCase groupWidth)) =
      some (scope :: rest) := by
  induction indices with
  | nil => rfl
  | cons index others ih =>
    obtain ⟨hindex, hothers⟩ := List.forall_mem_cons.mp htested
    rw [List.flatMap_cons, checkLines_append_of (check_case hword hindex), ih hothers]

theorem leaf_wellScoped (hcomplex : g.simpleDecoding = false) (htested : g.LeafTested groupWidth) :
    DecodeFunction.WellScoped ⟨name, g.emitLeaf groupWidth⟩ := by
  unfold DecodeFunction.WellScoped GroupData.emitLeaf
  simp only [hcomplex, Bool.false_eq_true, if_false, check_prologue]
  unfold GroupData.LeafTested at htested
  unfold GroupData.functionScope GroupData.emitComplexDecoderBody
  by_cases hrecipe : g.discriminatorRecipe = []
  · rw [if_pos hrecipe] at htested
    rw [if_pos hrecipe, if_pos hrecipe]
    obtain ⟨names, hnames⟩ := check_emitIfSequence ["inst_word"] []
      (fun operand => by simpa using valueName_ne_inst_word operand) (by simp) htested
    refine ⟨names ++ ["inst_word"], ?_⟩
    change checkLines [["inst_word"]] _ = _ at hnames
    rw [checkLines_append_of hnames]
    split
    · rw [checkLines_cons, check_ret]
      rfl
    · rfl
  · rw [if_neg hrecipe] at htested
    rw [if_neg hrecipe, if_neg hrecipe]
    refine ⟨["index", "inst_word"], ?_⟩
    have hopen : (Line.openSwitch "index").check [["index", "inst_word"]] =
        some [[], ["index", "inst_word"]] := by decide
    rw [List.cons_append, checkLines_cons, hopen, Option.bind_some, checkLines_append_of
      (check_cases (by simp) fun index hindex => htested index (mem_keys.mp hindex))]
    rfl

/-- The closing braces that a leaf misses. -/
def GroupData.missingInLeaf (groupWidth : Nat) (g : GroupData) : Nat :=
  if g.discriminatorRecipe = [] then missingInSequence groupWidth g [] g.encodings
  else ((keys (g.encodings.map g.indexOf)).map fun index => missingInSequence groupWidth g []
    (g.encodings.filter fun enc => g.indexOf enc = index)).sum

theorem missingInLeaf_eq_zero : g.missingInLeaf groupWidth = 0 ↔ g.LeafTested groupWidth := by
  unfold GroupData.missingInLeaf GroupData.LeafTested
  split
  · exact missingInSequence_eq_zero
  · rw [List.sum_eq_zero_iff]
    constructor
    · intro h index hindex
      exact missingInSequence_eq_zero.mp (h _ (List.mem_map_of_mem (mem_keys.mpr hindex)))
    · intro h n hn
      obtain ⟨index, hindex, rfl⟩ := List.mem_map.mp hn
      exact missingInSequence_eq_zero.mpr (h index (mem_keys.mp hindex))

theorem balance_constantTest (g : GroupData) : balance g.constantTest = 0 := by
  unfold GroupData.constantTest
  split <;> rfl

theorem balance_indexExtraction (groupWidth : Nat) (g : GroupData) :
    balance (g.indexExtraction groupWidth) = 0 := by
  unfold GroupData.indexExtraction
  split
  · rfl
  · rw [balance_cons, balance_accumulate]
    rfl

theorem balance_cases (groupWidth : Nat) (g : GroupData) (indices : List Nat) :
    balance (indices.flatMap (g.emitCase groupWidth)) =
      -((indices.map fun index => missingInSequence groupWidth g []
        (g.encodings.filter fun enc => g.indexOf enc = index)).sum : Nat) := by
  induction indices with
  | nil => rfl
  | cons index others ih =>
    have hcase : balance (g.emitCase groupWidth index) = -missingInSequence groupWidth g []
        (g.encodings.filter fun enc => g.indexOf enc = index) := by
      rw [emitCase_eq, balance_cons, balance_append, balance_append, balance_emitIfSequence]
      split <;> simp [Line.delta, Line.opens, Line.closes]
    rw [List.flatMap_cons, balance_append, hcase, ih, List.map_cons, List.sum_cons]
    push_cast
    ring

theorem balance_emitLeaf (hcomplex : g.simpleDecoding = false) :
    balance (g.emitLeaf groupWidth) = -g.missingInLeaf groupWidth := by
  unfold GroupData.emitLeaf GroupData.emitComplexDecoderBody GroupData.missingInLeaf
  rw [hcomplex, if_neg Bool.false_ne_true, balance_append, balance_append, balance_constantTest,
    balance_indexExtraction, zero_add, zero_add]
  split
  · rw [balance_append, balance_emitIfSequence]
    split <;> simp [Line.delta, Line.opens, Line.closes]
  · rw [balance_append, balance_cons, balance_cases]
    simp [Line.delta, Line.opens, Line.closes]

theorem leaf_wellScoped_iff (groupWidth : Nat) (name : String) (hcomplex : g.simpleDecoding = false) :
    DecodeFunction.WellScoped ⟨name, g.emitLeaf groupWidth⟩ ↔ g.LeafTested groupWidth := by
  refine ⟨fun h => ?_, leaf_wellScoped hcomplex⟩
  have hbalance := h.balance
  rw [balance_emitLeaf hcomplex] at hbalance
  exact missingInLeaf_eq_zero.mp (by omega)

theorem node_wellScoped {table : String} (hrecipe : g.discriminatorRecipe ≠ []) :
    DecodeFunction.WellScoped
      ⟨name, g.constantTest ++ g.indexExtraction groupWidth ++ [.retTable table]⟩ := by
  refine ⟨["index", "inst_word"], ?_⟩
  rw [check_prologue, GroupData.functionScope, if_neg hrecipe]
  have hline : Line.check [["index", "inst_word"]] (.retTable table) =
      some [["index", "inst_word"]] := check_plain rfl rfl rfl (by simp [Line.uses])
  rw [checkLines_cons, hline]
  rfl

/-! ### The functions of a tree -/

theorem emitGroups_eq (groupWidth : Nat) (name : String) (parent : GroupData)
    (groups : List EncodingGroup) :
    emitGroups groupWidth name parent groups = groups.flatMap fun g => g.emitDecoders groupWidth
      (subName name (extractValue g.data.firstValue parent.discriminatorRecipe).toNat) := by
  induction groups with
  | nil => rfl
  | cons g rest ih => rw [emitGroups, ih, List.flatMap_cons]

theorem initGroups_eq (groupName name : String) (parent : GroupData)
    (groups : List EncodingGroup) :
    initGroups groupName name parent groups = groups.flatMap fun g =>
      if g.groups.isEmpty then [] else g.emitInitializers groupName
        (subName name (extractValue g.data.firstValue parent.discriminatorRecipe).toNat) := by
  induction groups with
  | nil => rfl
  | cons g rest ih => rw [initGroups, ih, List.flatMap_cons]

namespace EncodingGroup

/-- The values of the discriminator that the subgroups are for. -/
def subIndices (tree : EncodingGroup) : List Nat :=
  tree.groups.map fun g => (extractValue g.data.firstValue tree.data.discriminatorRecipe).toNat

/-- What the text needs of a group: it is not simple, and subgroups have an index of their own. -/
structure Regular (tree : EncodingGroup) : Prop where
  complex : tree.data.simpleDecoding = false
  indexed : tree.groups ≠ [] → tree.data.discriminatorRecipe ≠ []
  distinct : tree.subIndices.Nodup

/-- If it is a leaf, everything that its statements need is tested. -/
def Tested (groupWidth : Nat) (tree : EncodingGroup) : Prop :=
  tree.groups = [] → tree.data.LeafTested groupWidth

theorem all_mk {P : EncodingGroup → Prop} {data : GroupData} :
    (mk data groups).All P ↔ P (mk data groups) ∧ ∀ g ∈ groups, g.All P := by
  constructor
  · rintro ⟨self, below⟩
    exact ⟨self, below⟩
  · rintro ⟨self, below⟩
    exact .mk self below

theorem emitDecoders_wellScoped_iff (h : tree.All Regular) (groupWidth : Nat) (name : String) :
    (∀ f ∈ tree.emitDecoders groupWidth name, f.WellScoped) ↔ tree.All (Tested groupWidth) := by
  induction h generalizing name with
  | @mk data groups self below ih =>
    rw [emitDecoders, emitGroups_eq, List.forall_mem_cons, all_mk]
    refine and_congr ?_ ?_
    · unfold Tested
      cases groups with
      | nil =>
        have hleaf := leaf_wellScoped_iff groupWidth ("Decode" ++ name) self.complex
        exact ⟨fun h _ => hleaf.mp h, fun h => hleaf.mpr (h rfl)⟩
      | cons g rest =>
        refine iff_of_true (node_wellScoped (self.indexed (List.cons_ne_nil g rest))) ?_
        intro h
        cases h
    · simp only [List.mem_flatMap, forall_exists_index, and_imp]
      constructor
      · intro h g hg
        exact (ih g hg _).mp fun f hf => h f g hg hf
      · intro h f g hg hf
        exact (ih g hg _).mpr (h g hg) f hf

mutual

/-- The paths from a group to the groups below it. -/
def paths : EncodingGroup → List (List Nat)
  | .mk data groups => [] :: subPaths data groups

/-- The paths through the given subgroups. -/
def subPaths (parent : GroupData) : List EncodingGroup → List (List Nat)
  | [] => []
  | g :: rest =>
    g.paths.map ((extractValue g.data.firstValue parent.discriminatorRecipe).toNat :: ·) ++
      subPaths parent rest

end

theorem subPaths_eq (parent : GroupData) (groups : List EncodingGroup) :
    subPaths parent groups = groups.flatMap fun g => g.paths.map
      ((extractValue g.data.firstValue parent.discriminatorRecipe).toNat :: ·) := by
  induction groups with
  | nil => rfl
  | cons g rest ih => rw [subPaths, ih, List.flatMap_cons]

theorem nil_mem_paths (tree : EncodingGroup) : [] ∈ tree.paths := by
  cases tree
  rw [paths]
  exact List.mem_cons_self

theorem nodup_paths (h : tree.All Regular) : tree.paths.Nodup := by
  induction h with
  | @mk data groups self below ih =>
    rw [paths, subPaths_eq, List.nodup_cons, List.nodup_flatMap]
    refine ⟨?_, fun g hg => (ih g hg).map (List.cons_injective), ?_⟩
    · intro hmem
      obtain ⟨g, -, hmem⟩ := List.mem_flatMap.mp hmem
      obtain ⟨p, -, hp⟩ := List.mem_map.mp hmem
      cases hp
    · refine (List.pairwise_map.mp self.distinct).imp fun {g g'} hne => ?_
      intro p hp hp'
      obtain ⟨q, -, rfl⟩ := List.mem_map.mp hp
      obtain ⟨q', -, hq'⟩ := List.mem_map.mp hp'
      exact hne (List.cons.inj hq').1.symm

end EncodingGroup

/-- The name of a group by its path. -/
def pathName (name : String) (path : List Nat) : String := name ++ String.ofList (hexPath path)

theorem pathName_subName (name : String) (value : Nat) (path : List Nat) :
    pathName (subName name value) path = pathName name (value :: path) := by
  rw [← String.toList_inj]
  simp [pathName, subName, hexText, hexPath]

theorem subName_eq_pathName (name : String) (value : Nat) :
    subName name value = pathName name [value] := by
  rw [← pathName_subName, pathName]
  simp [hexPath]

theorem emitDecoders_names (h : tree.All EncodingGroup.Regular) (groupWidth : Nat) (name : String) :
    (tree.emitDecoders groupWidth name).map (·.name) =
      tree.paths.map fun path => "Decode" ++ pathName name path := by
  induction h generalizing name with
  | @mk data groups self below ih =>
    rw [EncodingGroup.emitDecoders, emitGroups_eq, EncodingGroup.paths, EncodingGroup.subPaths_eq,
      List.map_cons, List.map_cons, List.map_flatMap, List.map_flatMap]
    congr 1
    · simp [pathName, hexPath]
    · refine List.flatMap_congr fun g hg => ?_
      rw [ih g hg, List.map_map]
      refine List.map_congr_left fun path _ => ?_
      rw [Function.comp, pathName_subName]

/-! ### Tables -/

theorem mem_tableEntries {groupName entry : String} {values indices : List Nat}
    (h : entry ∈ tableEntries groupName name values indices) :
    entry = "Decode" ++ groupName ++ "None" ∨
      ∃ value ∈ values, entry = "Decode" ++ subName name value := by
  induction indices generalizing values with
  | nil => cases values <;> cases h
  | cons i rest ih =>
    cases values with
    | nil =>
      rcases List.mem_cons.mp h with rfl | h
      · exact .inl rfl
      · exact ih h
    | cons value values =>
      rw [tableEntries] at h
      split at h
      · rename_i heq
        rcases List.mem_cons.mp h with rfl | h
        · exact .inr ⟨value, List.mem_cons_self, by rw [heq]⟩
        · rcases ih h with h | ⟨v, hv, h⟩
          · exact .inl h
          · exact .inr ⟨v, List.mem_cons_of_mem value hv, h⟩
      · rcases List.mem_cons.mp h with rfl | h
        · exact .inl rfl
        · exact ih h

/-- The entries of the tables are functions of the tree, or the one for no instruction. -/
theorem mem_emitInitializers (h : tree.All EncodingGroup.Regular) {groupName : String}
    {table : DecodeTable} (htable : table ∈ tree.emitInitializers groupName name) {entry : String}
    (hentry : entry ∈ table.entries) :
    entry = "Decode" ++ groupName ++ "None" ∨
      ∃ path ∈ tree.paths, entry = "Decode" ++ pathName name path := by
  induction h generalizing name with
  | @mk data groups self below ih =>
    rw [EncodingGroup.emitInitializers] at htable
    rw [EncodingGroup.paths, EncodingGroup.subPaths_eq]
    split at htable
    · cases htable
    · rcases List.mem_cons.mp htable with rfl | htable
      · rcases mem_tableEntries hentry with hentry | ⟨value, hvalue, hentry⟩
        · exact .inl hentry
        · obtain ⟨g, hg, rfl⟩ := List.mem_map.mp hvalue
          refine .inr ⟨_, List.mem_cons_of_mem _ (List.mem_flatMap.mpr ⟨g, hg,
            List.mem_map.mpr ⟨[], g.nil_mem_paths, rfl⟩⟩), ?_⟩
          rw [hentry, subName_eq_pathName]
      · rw [initGroups_eq] at htable
        obtain ⟨g, hg, htable⟩ := List.mem_flatMap.mp htable
        split at htable
        · cases htable
        · rcases ih g hg htable with hentry | ⟨path, hpath, hentry⟩
          · exact .inl hentry
          · refine .inr ⟨_, List.mem_cons_of_mem _ (List.mem_flatMap.mpr ⟨g, hg,
              List.mem_map.mpr ⟨path, hpath, rfl⟩⟩), ?_⟩
            rw [hentry, pathName_subName]

/-! ### Calls -/

/-- Text that calls no function by its name. -/
def CallFree (lines : List Line) : Prop := ∀ line ∈ lines, line.callees = []

/-- The table that a line looks a function up in. -/
def Line.tables : Line → List String
  | retTable table => [table]
  | _ => []

/-- Text that calls no function at all. -/
def LocalText (lines : List Line) : Prop := ∀ line ∈ lines, line.callees = [] ∧ line.tables = []

@[simp]
theorem localText_nil : LocalText [] := by simp [LocalText]

@[simp]
theorem localText_cons :
    LocalText (line :: lines) ↔ (line.callees = [] ∧ line.tables = []) ∧ LocalText lines :=
  List.forall_mem_cons

@[simp]
theorem localText_append {lines' : List Line} :
    LocalText (lines ++ lines') ↔ LocalText lines ∧ LocalText lines' :=
  List.forall_mem_append

theorem localText_accumulate (name : String) (terms : List Expr) :
    LocalText (accumulate name terms) := by
  cases terms with
  | nil => exact localText_nil
  | cons e rest =>
    refine localText_cons.mpr ⟨⟨rfl, rfl⟩, fun line hline => ?_⟩
    obtain ⟨e', -, rfl⟩ := List.mem_map.mp hline
    exact ⟨rfl, rfl⟩

theorem localText_emitExtractions (groupWidth : Nat) (operands : List Operand)
    (extracted : List String) : LocalText (emitExtractions groupWidth operands extracted).1 := by
  induction operands generalizing extracted with
  | nil => exact localText_nil
  | cons operand rest ih =>
    rw [emitExtractions]
    split
    · exact ih extracted
    · refine localText_append.mpr ⟨?_, ih _⟩
      cases operand with
      | field f => exact localText_cons.mpr ⟨⟨rfl, rfl⟩, localText_nil⟩
      | overlay o => exact localText_cons.mpr ⟨⟨rfl, rfl⟩, localText_accumulate _ _⟩

theorem localText_emitSpecializations (first : Bool) (specs : List ConstrainedOpcode) :
    LocalText (emitSpecializations first specs) := by
  induction specs generalizing first with
  | nil => exact localText_nil
  | cons s rest ih =>
    rw [emitSpecializations, localText_append, localText_cons]
    refine ⟨?_, ⟨rfl, rfl⟩, ih false⟩
    cases first <;> split <;> simp [Line.callees, Line.tables]

theorem localText_emitIf (enc : InstructionEncoding) (conditions : List Comparison) :
    LocalText (emitIf enc conditions) := by
  unfold emitIf
  split <;> split <;> simp [Line.callees, Line.tables, localText_emitSpecializations]

theorem localText_emitIfSequence (groupWidth : Nat) (g : GroupData)
    (encodings : List InstructionEncoding) (extracted : List String) :
    LocalText (emitIfSequence groupWidth g extracted encodings).1 := by
  induction encodings generalizing extracted with
  | nil => exact localText_nil
  | cons enc rest ih =>
    rw [emitIfSequence_cons, localText_append, localText_append]
    exact ⟨localText_emitExtractions _ _ _, localText_emitIf _ _, ih _⟩

theorem localText_prologue (groupWidth : Nat) (g : GroupData) :
    LocalText (g.constantTest ++ g.indexExtraction groupWidth) := by
  rw [localText_append]
  unfold GroupData.constantTest GroupData.indexExtraction
  constructor
  · split <;> simp [Line.callees, Line.tables]
  · split
    · exact localText_nil
    · exact localText_cons.mpr ⟨⟨rfl, rfl⟩, localText_accumulate _ _⟩

theorem localText_emitLeaf (groupWidth : Nat) (hcomplex : g.simpleDecoding = false) :
    LocalText (g.emitLeaf groupWidth) := by
  unfold GroupData.emitLeaf GroupData.emitComplexDecoderBody
  rw [hcomplex, if_neg Bool.false_ne_true, localText_append]
  refine ⟨localText_prologue groupWidth g, ?_⟩
  split
  · rw [localText_append]
    refine ⟨localText_emitIfSequence _ _ _ _, ?_⟩
    split <;> simp [Line.callees, Line.tables]
  · rw [localText_append, localText_cons]
    refine ⟨⟨⟨rfl, rfl⟩, fun line hline => ?_⟩, by simp [Line.callees, Line.tables]⟩
    obtain ⟨index, -, hline⟩ := List.mem_flatMap.mp hline
    have hcase : LocalText (g.emitCase groupWidth index) := by
      rw [emitCase_eq, localText_cons, localText_append]
      refine ⟨⟨rfl, rfl⟩, localText_emitIfSequence _ _ _ _, ?_⟩
      split <;> simp [Line.callees, Line.tables]
    exact hcase line hline

theorem LocalText.callFree (h : LocalText lines) : CallFree lines :=
  fun line hline => (h line hline).1

theorem callFree_emitDecoders (h : tree.All EncodingGroup.Regular) {f : DecodeFunction}
    (hf : f ∈ tree.emitDecoders groupWidth name) : CallFree f.body := by
  induction h generalizing name with
  | @mk data groups self below ih =>
    rw [EncodingGroup.emitDecoders, emitGroups_eq] at hf
    rcases List.mem_cons.mp hf with rfl | hf
    · dsimp only
      split
      · exact (localText_emitLeaf groupWidth self.complex).callFree
      · refine List.forall_mem_append.mpr ⟨(localText_prologue groupWidth data).callFree, ?_⟩
        simp [Line.callees]
    · obtain ⟨g, hg, hf⟩ := List.mem_flatMap.mp hf
      exact ih g hg hf

/-! ### The code of an instruction group -/

theorem topLevelBody_wellScoped_iff {function opcode : String} {count : Nat} (hcount : count ≠ 0)
    (hopcode : opcode ≠ "inst_word") :
    DecodeFunction.WellScoped ⟨function, topLevelBody name opcode count⟩ ↔ count ≤ 1 := by
  have hdeclare : ∀ callee, (Line.declareCall opcode callee).check [["inst_word"]] =
      some [[opcode, "inst_word"]] := by
    intro callee
    simp [Line.check, Line.closes, Line.uses, Line.declared, declareName, Line.opens, hopcode]
  match count, hcount with
  | 1, _ =>
    refine iff_of_true ⟨[opcode, "inst_word"], ?_⟩ le_rfl
    have hret : (Line.retVar opcode).check [[opcode, "inst_word"]] =
        some [[opcode, "inst_word"]] := check_plain rfl rfl rfl (by simp [Line.uses])
    change checkLines _ [.declareCall opcode _, .retVar opcode] = _
    rw [checkLines_cons, hdeclare, Option.bind_some, checkLines_cons, hret]
    rfl
  | count + 2, _ =>
    refine iff_of_false ?_ (by omega)
    rintro ⟨scope, h⟩
    -- The second declaration is in the scope of the first one.
    have hagain : ∀ callee, (Line.declareCall opcode callee).check [[opcode, "inst_word"]] =
        none := by
      intro callee
      simp [Line.check, Line.closes, Line.uses, Line.declared, declareName]
    have huse : (Line.retUnlessNone opcode).check [[opcode, "inst_word"]] =
        some [[opcode, "inst_word"]] := check_plain rfl rfl rfl (by simp [Line.uses])
    unfold topLevelBody at h
    rw [List.range_succ_eq_map, List.range_succ_eq_map, List.map_cons, List.flatMap_cons,
      List.flatMap_cons, if_pos (by omega)] at h
    simp only [List.cons_append, List.nil_append, checkLines_cons, hdeclare, huse, hagain,
      Option.bind_some, Option.bind_none] at h
    cases h

/-- The part of a function's name after that of the instruction group. -/
def functionName (name : String) (suffix : List Char) : String :=
  "Decode" ++ name ++ String.ofList suffix

theorem functionName_injective (name : String) : Function.Injective (functionName name) := by
  intro a b h
  have := congrArg String.toList h
  simpa [functionName] using this

/-- The endings of the names of the functions of an instruction group. -/
def suffixes (groups : List (EncodingGroup × Nat)) : List (List Char) :=
  "None".toList :: (groups.flatMap fun g => g.1.paths.map fun path => hexPath (g.2 :: path)) ++
    [[], "WithFormat".toList]

theorem defined_emitSortedGroups (h : ∀ g ∈ groups, g.All EncodingGroup.Regular) :
    (emitSortedGroups name groupWidth groups).defined =
      (suffixes groups.zipIdx).map (functionName name) := by
  unfold DecoderCode.defined emitSortedGroups suffixes
  simp only [List.map_append, List.map_cons, List.map_nil, List.map_flatMap]
  congr 1
  · congr 1
    refine List.flatMap_congr fun g hg => ?_
    rw [emitDecoders_names (h g.1 (List.fst_mem_of_mem_zipIdx hg)), List.map_map]
    refine List.map_congr_left fun path _ => ?_
    rw [Function.comp, pathName_subName, functionName, pathName, String.append_assoc]
  · simp [functionName]

theorem nodup_suffixes (h : ∀ g ∈ groups, g.All EncodingGroup.Regular) :
    (suffixes groups.zipIdx).Nodup := by
  have hpaths : (groups.zipIdx.flatMap fun g => g.1.paths.map fun path =>
      hexPath (g.2 :: path)).Nodup := by
    rw [List.nodup_flatMap]
    refine ⟨fun g hg => ?_, ?_⟩
    · exact (EncodingGroup.nodup_paths (h g.1 (List.fst_mem_of_mem_zipIdx hg))).map
        fun a b hab => (List.cons.inj (hexPath_injective hab)).2
    · have hindex : (groups.zipIdx.map Prod.snd).Nodup := by
        rw [List.zipIdx_map_snd]
        exact List.nodup_range'
      refine (List.pairwise_map.mp hindex).imp fun {g g'} hne => ?_
      intro s hs hs'
      obtain ⟨p, -, rfl⟩ := List.mem_map.mp hs
      obtain ⟨p', -, hp'⟩ := List.mem_map.mp hs'
      exact hne (List.cons.inj (hexPath_injective hp')).1.symm
  -- The names of groups start with an underscore.
  have hunderscore : ∀ s ∈ groups.zipIdx.flatMap (fun g => g.1.paths.map fun path =>
      hexPath (g.2 :: path)), s.head? = some '_' := by
    intro s hs
    obtain ⟨g, -, hs⟩ := List.mem_flatMap.mp hs
    obtain ⟨p, -, rfl⟩ := List.mem_map.mp hs
    rfl
  unfold suffixes
  rw [List.cons_append, List.nodup_cons, List.nodup_append]
  refine ⟨?_, hpaths, by decide, ?_⟩
  · intro hmem
    rcases List.mem_append.mp hmem with hmem | hmem
    · exact absurd (hunderscore _ hmem) (by decide)
    · exact absurd hmem (by decide)
  · intro s hs s' hs' heq
    subst heq
    have := hunderscore s hs
    rcases List.mem_cons.mp hs' with rfl | hs'
    · cases this
    · rw [List.mem_singleton.mp hs'] at this
      exact absurd this (by decide)

/-- Every function that is called is defined. -/
theorem called_subset_defined (h : ∀ g ∈ groups, g.All EncodingGroup.Regular) {callee : String}
    (hcallee : callee ∈ (emitSortedGroups name groupWidth groups).called) :
    callee ∈ (emitSortedGroups name groupWidth groups).defined := by
  rw [defined_emitSortedGroups h]
  have hpath : ∀ g ∈ groups.zipIdx, ∀ path ∈ g.1.paths,
      "Decode" ++ pathName (subName name g.2) path ∈
        (suffixes groups.zipIdx).map (functionName name) := by
    intro g hg path hpath
    refine List.mem_map.mpr ⟨hexPath (g.2 :: path), ?_, ?_⟩
    · exact List.mem_append_left _ (List.mem_cons_of_mem _ (List.mem_flatMap.mpr
        ⟨g, hg, List.mem_map.mpr ⟨path, hpath, rfl⟩⟩))
    · rw [pathName_subName, functionName, pathName, String.append_assoc]
  have htop : ∀ opcode, ∀ callee ∈ (topLevelBody name opcode groups.length).flatMap Line.callees,
      callee ∈ (suffixes groups.zipIdx).map (functionName name) := by
    intro opcode callee hcallee
    obtain ⟨line, hline, hcallee⟩ := List.mem_flatMap.mp hcallee
    rcases List.mem_append.mp hline with hline | hline
    · obtain ⟨i, hi, hline⟩ := List.mem_flatMap.mp hline
      rcases List.mem_cons.mp hline with rfl | hline
      · obtain rfl := List.mem_singleton.mp hcallee
        have hlt := List.mem_range.mp hi
        have hmem : (groups[i], i) ∈ groups.zipIdx := List.mk_mem_zipIdx_iff_getElem?.mpr
          (List.getElem?_eq_getElem hlt)
        have := hpath _ hmem [] (EncodingGroup.nil_mem_paths _)
        rwa [pathName, hexPath, String.ofList_nil, String.append_empty] at this
      · split at hline
        · obtain rfl := List.mem_singleton.mp hline
          cases hcallee
        · cases hline
    · obtain rfl := List.mem_singleton.mp hline
      cases hcallee
  rcases List.mem_append.mp hcallee with hcallee | hcallee
  · obtain ⟨f, hf, hcallee⟩ := List.mem_flatMap.mp hcallee
    rcases List.mem_append.mp hf with hf | hf
    · rcases List.mem_cons.mp hf with rfl | hf
      · simp [Line.callees] at hcallee
      · obtain ⟨g, hg, hf⟩ := List.mem_flatMap.mp hf
        obtain ⟨line, hline, hcallee⟩ := List.mem_flatMap.mp hcallee
        rw [callFree_emitDecoders (h g.1 (List.fst_mem_of_mem_zipIdx hg)) hf line hline] at hcallee
        cases hcallee
    · rcases List.mem_cons.mp hf with rfl | hf
      · exact htop _ callee hcallee
      · obtain rfl := List.mem_singleton.mp hf
        exact htop _ callee hcallee
  · obtain ⟨table, htable, hentry⟩ := List.mem_flatMap.mp hcallee
    obtain ⟨g, hg, htable⟩ := List.mem_flatMap.mp htable
    rcases mem_emitInitializers (h g.1 (List.fst_mem_of_mem_zipIdx hg)) htable hentry with
      rfl | ⟨path, hmem, rfl⟩
    · exact List.mem_map.mpr ⟨"None".toList, List.mem_append_left _ List.mem_cons_self, rfl⟩
    · exact hpath g hg path hmem

/-- The code of regular groups is well scoped if and only if there is one group, and its leaves
    are tested. -/
theorem emitSortedGroups_wellScoped_iff (h : ∀ g ∈ groups, g.All EncodingGroup.Regular)
    (hne : groups ≠ []) :
    (emitSortedGroups name groupWidth groups).WellScoped ↔
      groups.length ≤ 1 ∧ ∀ g ∈ groups, g.All (EncodingGroup.Tested groupWidth) := by
  have hlength : groups.length ≠ 0 := by simpa using hne
  have hnone : DecodeFunction.WellScoped ⟨"Decode" ++ name ++ "None", [.ret none]⟩ :=
    ⟨["inst_word"], rfl⟩
  have hcalled : ∀ callee ∈ (emitSortedGroups name groupWidth groups).called,
      (emitSortedGroups name groupWidth groups).defined.count callee = 1 := by
    intro callee hcallee
    refine List.count_eq_one_of_mem ?_ (called_subset_defined h hcallee)
    rw [defined_emitSortedGroups h]
    exact (nodup_suffixes h).map (functionName_injective name)
  have hfunctions : (∀ f ∈ (emitSortedGroups name groupWidth groups).functions, f.WellScoped) ↔
      groups.length ≤ 1 ∧ ∀ g ∈ groups, g.All (EncodingGroup.Tested groupWidth) := by
    simp only [emitSortedGroups, List.forall_mem_append, List.forall_mem_cons,
      topLevelBody_wellScoped_iff hlength (show "opcode" ≠ "inst_word" by decide),
      topLevelBody_wellScoped_iff hlength (show "opcode_format" ≠ "inst_word" by decide)]
    constructor
    · rintro ⟨⟨-, hgroups⟩, hone, -⟩
      refine ⟨hone, fun g hg => ?_⟩
      obtain ⟨i, hi⟩ := List.mem_iff_getElem?.mp hg
      refine (EncodingGroup.emitDecoders_wellScoped_iff (h g hg) groupWidth (subName name i)).mp
        fun f hf => ?_
      exact hgroups f (List.mem_flatMap.mpr ⟨(g, i), List.mk_mem_zipIdx_iff_getElem?.mpr hi, hf⟩)
    · rintro ⟨hone, htested⟩
      refine ⟨⟨hnone, fun f hf => ?_⟩, hone, hone, by simp⟩
      obtain ⟨g, hg, hf⟩ := List.mem_flatMap.mp hf
      have hmem := List.fst_mem_of_mem_zipIdx hg
      exact (EncodingGroup.emitDecoders_wellScoped_iff (h g.1 hmem) _ _).mpr (htested g.1 hmem) f hf
  exact ⟨fun hcode => hfunctions.mp hcode.functions, fun hgroups =>
    ⟨hfunctions.mpr hgroups, hcalled⟩⟩

/-! ### Trees with specializations -/

/-- An encoding as it was before specializations were attached to it. -/
def InstructionEncoding.strip (enc : InstructionEncoding) : InstructionEncoding :=
  { enc with specializations := [] }

mutual

/-- A tree as it was built, before specializations were attached to its encodings. -/
def EncodingGroup.strip : EncodingGroup → EncodingGroup
  | .mk data groups =>
    .mk { data with encodings := data.encodings.map InstructionEncoding.strip } (stripGroups groups)

/-- Several trees as they were built. -/
def stripGroups : List EncodingGroup → List EncodingGroup
  | [] => []
  | g :: rest => g.strip :: stripGroups rest

end

theorem stripGroups_eq (groups : List EncodingGroup) :
    stripGroups groups = groups.map EncodingGroup.strip := by
  induction groups with
  | nil => rfl
  | cons g rest ih => rw [stripGroups, ih, List.map_cons]

theorem strip_firstValue (tree : EncodingGroup) :
    tree.strip.data.firstValue = tree.data.firstValue := by
  cases tree with
  | mk data groups =>
    rw [EncodingGroup.strip]
    unfold GroupData.firstValue
    dsimp only [EncodingGroup.data]
    cases data.encodings <;> rfl

theorem strip_subIndices (tree : EncodingGroup) : tree.strip.subIndices = tree.subIndices := by
  cases tree with
  | mk data groups =>
    unfold EncodingGroup.subIndices
    rw [EncodingGroup.strip, stripGroups_eq]
    change ((groups.map EncodingGroup.strip).map _ : List Nat) = groups.map _
    rw [List.map_map]
    refine List.map_congr_left fun g _ => ?_
    change (extractValue g.strip.data.firstValue data.discriminatorRecipe).toNat =
      (extractValue g.data.firstValue data.discriminatorRecipe).toNat
    rw [strip_firstValue]

theorem IsSubGroup.index {discriminator : BitVec 64} {i : Nat} {sub : EncodingGroup}
    (h : IsSubGroup encodings discriminator i sub) (hne : sub.data.encodings ≠ []) :
    extractValue sub.data.firstValue (getExtractionRecipe discriminator) = i := by
  obtain ⟨enc, rest, hlist⟩ := List.exists_cons_of_ne_nil hne
  have hmem := h.perm.subset (hlist ▸ List.mem_cons_self)
  have := (List.mem_filter.mp hmem).2
  rw [decide_eq_true_eq] at this
  rw [GroupData.firstValue, hlist]
  exact this

namespace EncodingGroup

variable {tree : EncodingGroup}

theorem Divided.subIndices_sublist (h : tree.Divided)
    (hbelow : ∀ g ∈ tree.groups, g.data.encodings ≠ []) :
    tree.subIndices.Sublist (List.range (2 ^ popcount64 tree.data.discriminator)) := by
  obtain ⟨-, indices, hsub, hforall⟩ := h
  have hbound : ∀ i ∈ indices, i < 2 ^ 64 := by
    intro i hi
    have hpop : popcount64 tree.data.discriminator ≤ 64 := BitVec.toNat_cpop_le _
    exact lt_of_lt_of_le (List.mem_range.mp (hsub.subset hi))
      (Nat.pow_le_pow_right (by decide) hpop)
  have heq : tree.subIndices = indices := by
    clear hsub
    unfold subIndices
    revert hforall hbelow
    generalize tree.groups = groups
    intro hbelow hforall
    induction hforall with
    | nil => rfl
    | @cons i g indices groups hi hrest ih =>
      obtain ⟨hg, hothers⟩ := List.forall_mem_cons.mp hbelow
      obtain ⟨hlt, hbounds⟩ := List.forall_mem_cons.mp hbound
      rw [List.map_cons, ih hbounds hothers, GroupData.discriminatorRecipe, hi.index hg]
      congr 1
      simpa using Nat.mod_eq_of_lt hlt
  rw [heq]
  exact hsub

theorem Divided.indexed (h : tree.Divided) (hne : tree.groups ≠ [])
    (hbelow : ∀ g ∈ tree.groups, g.data.encodings ≠ []) : tree.data.discriminatorRecipe ≠ [] := by
  intro hrecipe
  obtain ⟨g, rest, hgroups⟩ := List.exists_cons_of_ne_nil hne
  have hg : g ∈ tree.groups := hgroups ▸ List.mem_cons_self
  obtain ⟨-, indices, -, hforall⟩ := h
  obtain ⟨i, -, hi⟩ := exists_of_forall₂ hforall hg
  have hindex := hi.index (hbelow g hg)
  change getExtractionRecipe tree.data.discriminator = [] at hrecipe
  refine hi.fewer ?_
  rw [hi.perm.length_eq, List.filter_eq_self.mpr]
  intro enc _
  rw [hrecipe] at hindex ⊢
  exact decide_eq_true hindex

theorem regular_of_strip (h : tree.strip.All Divided) : tree.All Regular := by
  -- Induction on the tree that was built, with the attached tree in step.
  generalize hstrip : tree.strip = built at h
  induction h generalizing tree with
  | @mk data groups self below ih =>
    cases tree with
    | mk data' groups' =>
      rw [strip, stripGroups_eq] at hstrip
      obtain ⟨rfl, rfl⟩ := mk.inj hstrip
      have hbelow : ∀ g ∈ groups'.map strip, g.data.encodings ≠ [] := fun g hg =>
        (below g hg).self.1.nonempty
      have hindices := strip_subIndices (mk data' groups')
      rw [strip, stripGroups_eq] at hindices
      refine .mk ⟨?_, fun hne => ?_, ?_⟩ fun g hg => ih g.strip (List.mem_map_of_mem hg) rfl
      · refine self.1.not_simple fun enc henc => ?_
        obtain ⟨enc', -, rfl⟩ := List.mem_map.mp henc
        rfl
      · refine self.indexed (fun hnil => hne ?_) hbelow
        exact List.map_eq_nil_iff.mp hnil
      · rw [← hindices]
        exact (self.subIndices_sublist hbelow).nodup List.nodup_range

end EncodingGroup

/-- **Well-scoped text.** Take the groups that are built for any encodings, and attach any
    specializations to the encodings.  The code is well scoped if and only if there is at most
    one group, and each encoding with specializations in a leaf is tested and so is its first
    specialization. -/
theorem emitDecoderCode_wellScoped_iff {encodings : List InstructionEncoding}
    {groups : List EncodingGroup} (h : processEncodings encodings = some (groups.map (·.strip)))
    (name : String) (groupWidth : Nat) :
    (emitDecoderCode name groupWidth groups).WellScoped ↔
      groups.length ≤ 1 ∧ ∀ g ∈ groups, g.All (EncodingGroup.Tested groupWidth) := by
  have hregular : ∀ g ∈ groups, g.All EncodingGroup.Regular := fun g hg =>
    EncodingGroup.regular_of_strip (processEncodings_spec h (List.mem_map_of_mem hg)).1
  unfold emitDecoderCode
  split
  · rename_i hnil
    refine iff_of_true ⟨by simp, fun callee hcallee => ?_⟩ (by simp [hnil])
    cases hcallee
  · rename_i hne
    have hperm := List.perm_insertionSort
      (fun a b : EncodingGroup => ¬ instructionGroupLess b a) groups
    rw [emitSortedGroups_wellScoped_iff (fun g hg => hregular g (hperm.subset hg)), hperm.length_eq]
    · refine and_congr Iff.rfl ⟨fun htested g hg => ?_, fun htested g hg => ?_⟩
      · exact htested g (hperm.symm.subset hg)
      · exact htested g (hperm.subset hg)
    · intro hnil
      rw [hnil] at hperm
      exact hne (List.nil_perm.mp hperm)

/-- The encodings of instructions with one function code each. -/
def funcEncodings (funcs : List (String × BitVec 64)) : List InstructionEncoding :=
  (funcs.mapM fun f => newEncoding (funcOpcode f.1 f.2)).getD []

/-- Two instructions with the same field make one group. -/
theorem emitDecoderCode_wellScoped_iff_func :
    let groups := (processEncodings (funcEncodings [("add", 1), ("sub", 2)])).getD []
    (emitDecoderCode "alu" 8 groups).WellScoped ↔
      groups.length ≤ 1 ∧ ∀ g ∈ groups, g.All (EncodingGroup.Tested 8) :=
  emitDecoderCode_wellScoped_iff
    (show processEncodings (funcEncodings [("add", 1), ("sub", 2)]) = some _ from rfl) "alu" 8

/-- The other half of the 8-bit format. -/
def classField : Field := ⟨"class", false, 7, 4, 4⟩

/-- An instruction that is told by the other half. -/
def classOpcode : ConstrainedOpcode := ⟨"jump", "Inst8", [⟨.kEq, .field classField, none, 3⟩], [], []⟩

/-- Instructions that have no bit in common make two groups, and the variable of the top-level
    decoder is declared twice. -/
theorem two_groups_not_wellScoped :
    ∃ groups, ([funcOpcode "add" 1, classOpcode].mapM newEncoding).bind processEncodings =
      some groups ∧ ¬ (emitDecoderCode "isa" 8 groups).WellScoped := by
  have hcode : (([funcOpcode "add" 1, classOpcode].mapM newEncoding).bind processEncodings).map
      (fun groups => decide (∃ f ∈ (emitDecoderCode "isa" 8 groups).functions,
        checkLines [["inst_word"]] f.body = none)) = some true := by decide +kernel
  obtain ⟨groups, hgroups, hbad⟩ := Option.map_eq_some_iff.mp hcode
  refine ⟨groups, hgroups, fun h => ?_⟩
  obtain ⟨f, hf, hnone⟩ := of_decide_eq_true hbad
  obtain ⟨scope, hscope⟩ := h.functions f hf
  rw [hnone] at hscope
  cases hscope

end MpactSim.Decoder
