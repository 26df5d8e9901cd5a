import MpactSim.Decoder.DecoderRun

namespace MpactSim.Decoder

open Cpp Lib

/-!
# Specializations in a leaf

The statement for an encoding with specializations is a chain of `if`s inside the `if` of the
encoding itself.

* `choose`                        — the opcode that a word should get;
* `StatementReturns`              — what the statement for one encoding has to do;
* `statementReturns_iff`          — when it does;
* `specializations_returned_iff`  — when all leaves of an instruction group do.
-/

/-! ### The opcode of a word -/

/-- The instruction word of a group, from its bits. -/
def instWord (groupWidth bits : Nat) : Val := .of (uintType groupWidth) bits

/-- A word satisfies the constraints of an encoding. -/
def InstructionEncoding.Satisfied (groupWidth : Nat) (word : Val) (enc : InstructionEncoding) :
    Prop :=
  enc.holds groupWidth word = some true

/-- The first specialization that a word satisfies, and otherwise the base. -/
def choose (groupWidth : Nat) (word : Val) (base : ConstrainedOpcode) :
    List ConstrainedOpcode → Option ConstrainedOpcode
  | [] => some base
  | s :: rest => (s.holds groupWidth word).bind fun b =>
    if b then some s else choose groupWidth word base rest

/-- What the chain of the emitted text chooses: a specialization without constraints is not part
    of it. -/
def chainChoice (groupWidth : Nat) (word : Val) (base : ConstrainedOpcode) :
    List ConstrainedOpcode → Option ConstrainedOpcode
  | [] => some base
  | s :: rest =>
    if s.allConditions = [] then chainChoice groupWidth word base rest
    else (s.holds groupWidth word).bind fun b =>
      if b then some s else chainChoice groupWidth word base rest

section Choice

variable {groupWidth : Nat} {word : Val} {base opcode : ConstrainedOpcode}
  {specs : List ConstrainedOpcode}

theorem conditions_eq_nil {equals : List Constraint} :
    opcode.conditions equals = [] ↔ opcode.tested equals = [] := by
  simp [ConstrainedOpcode.conditions, ConstrainedOpcode.tested]

theorem holds_of_untested (h : opcode.allConditions = []) :
    opcode.holds groupWidth word = some true := by
  have htested := conditions_eq_nil.mp h
  simp only [ConstrainedOpcode.tested, List.append_eq_nil_iff] at htested
  obtain ⟨⟨hequal, hextracted⟩, hother⟩ := htested
  simp [ConstrainedOpcode.holds, hequal, hextracted, hother, allHold]

theorem chainChoice_of_choose (h : choose groupWidth word base specs = some opcode)
    (htested : opcode ∈ specs → opcode.allConditions ≠ []) :
    chainChoice groupWidth word base specs = some opcode := by
  induction specs with
  | nil => exact h
  | cons s rest ih =>
    rw [choose] at h
    rw [chainChoice]
    split
    · rename_i huntested
      -- A specialization without constraints would have been chosen.
      rw [holds_of_untested huntested, Option.bind_some, if_pos rfl] at h
      cases h
      exact absurd huntested (htested List.mem_cons_self)
    · obtain ⟨b, hb, h⟩ := Option.bind_eq_some_iff.mp h
      rw [hb, Option.bind_some]
      cases b with
      | true => exact h
      | false => exact ih h fun hmem => htested (List.mem_cons_of_mem _ hmem)

theorem chainChoice_tested (h : chainChoice groupWidth word base specs = some opcode) :
    opcode = base ∨ opcode ∈ specs ∧ opcode.allConditions ≠ [] := by
  induction specs with
  | nil =>
    cases h
    exact .inl rfl
  | cons s rest ih =>
    have hrest : chainChoice groupWidth word base rest = some opcode →
        opcode = base ∨ opcode ∈ s :: rest ∧ opcode.allConditions ≠ [] := fun hr =>
      (ih hr).imp id fun hmem => ⟨List.mem_cons_of_mem _ hmem.1, hmem.2⟩
    rw [chainChoice] at h
    split at h
    · exact hrest h
    · rename_i htested
      obtain ⟨b, -, h⟩ := Option.bind_eq_some_iff.mp h
      cases b with
      | true =>
        cases h
        exact .inr ⟨List.mem_cons_self, htested⟩
      | false => exact hrest h

end Choice

/-! ### Running a statement -/

section Statement

variable {groupWidth : Nat} {word : Val} {vars : Variables} {blocks : List Block}

/-- What the text returns for an opcode. -/
def returned (opcode : ConstrainedOpcode) : Outcome := .returns (some opcode.opcodeFormat)

theorem run_ret (h : ∀ b ∈ blocks, b = .active) (opcode : ConstrainedOpcode) (lines : List Line) :
    runLines ⟨vars, blocks, false⟩ (.ret opcode.opcodeFormat :: lines) =
      some (returned opcode) := by
  rw [runLines_cons, run_active h]
  rfl

theorem run_skipped_ret (opcode : Option OpcodeFormat) (lines : List Line) :
    runLines ⟨vars, .waiting :: blocks, false⟩ (.ret opcode :: lines) =
      runLines ⟨vars, .waiting :: blocks, false⟩ lines :=
  runLines_cons_of (run_waiting vars blocks (.ret opcode)) lines

/-- The variables hold the values of the operands of an opcode. -/
def Holds (groupWidth : Nat) (word : Val) (vars : Variables) (opcode : ConstrainedOpcode)
    (equals : List Constraint) : Prop :=
  ∀ operand ∈ (opcode.tested equals).flatMap Constraint.operands,
    vars.env operand.valueName = operand.valueOf groupWidth word

/-- The later specializations, after none of the earlier ones was taken, and the `else`. -/
theorem run_laterSpecializations (hactive : ∀ b ∈ blocks, b = .active) (base : ConstrainedOpcode)
    (lines : List Line) {specs : List ConstrainedOpcode}
    (hspecs : ∀ s ∈ specs, Holds groupWidth word vars s s.equalConstraints) :
    runLines ⟨vars, .waiting :: blocks, false⟩
        (emitSpecializations false specs ++ .elseLine :: .ret base.opcodeFormat :: lines) =
      (chainChoice groupWidth word base specs).map returned := by
  have hactive' : ∀ b ∈ Block.active :: blocks, b = .active := by simpa using hactive
  induction specs with
  | nil =>
    rw [emitSpecializations, List.nil_append, runLines_cons, run_waiting]
    exact run_ret hactive' base lines
  | cons s rest ih =>
    obtain ⟨hs, hrest⟩ := List.forall_mem_cons.mp hspecs
    rw [emitSpecializations, chainChoice]
    split
    · rw [List.nil_append, List.cons_append, run_skipped_ret, ih hrest]
    · rw [if_neg Bool.false_ne_true, List.singleton_append, List.cons_append, List.cons_append,
        runLines_cons, run_waiting, Line.runInactive, evalConditions_conditions hs,
        ← ConstrainedOpcode.holds]
      cases s.holds groupWidth word with
      | none => rfl
      | some b =>
        cases b with
        | true => exact run_ret hactive' s _
        | false => exact (run_skipped_ret (some s.opcodeFormat) _).trans (ih hrest)

/-- The statement of an encoding that is satisfied returns what its chain chooses. -/
theorem run_emitIf (hactive : ∀ b ∈ blocks, b = .active) {enc : InstructionEncoding}
    {equals : List Constraint} (hequals : ∀ c ∈ equals, c ∈ enc.equalConstraints)
    (htested : ChainTested enc (enc.conditions equals))
    (hbase : Holds groupWidth word vars enc.toConstrainedOpcode equals)
    (hspecs : ∀ s ∈ enc.specializations, Holds groupWidth word vars s s.equalConstraints)
    (hsatisfied : enc.Satisfied groupWidth word) :
    runLines ⟨vars, blocks, false⟩ (emitIf enc (enc.conditions equals)) =
      (chainChoice groupWidth word enc.toConstrainedOpcode enc.specializations).map returned := by
  have hconditions : evalConditions vars.env (enc.conditions equals) = some true := by
    rw [evalConditions_conditions hbase, allHold_eq_true]
    intro part hpart
    refine allHold_eq_true.mp hsatisfied part ?_
    simp only [List.map_append, List.mem_append, List.mem_map] at hpart ⊢
    rcases hpart with (⟨c, hc, rfl⟩ | hpart) | hpart
    · exact .inl (.inl ⟨c, hequals c hc, rfl⟩)
    · exact .inl (.inr hpart)
    · exact .inr hpart
  unfold emitIf
  cases hlist : enc.specializations with
  | nil =>
    rw [if_pos rfl]
    split
    · exact run_ret hactive enc.toConstrainedOpcode []
    · rw [List.singleton_append, runLines_cons, run_active hactive, Line.runActive, hconditions]
      exact run_ret hactive enc.toConstrainedOpcode []
  | cons s rest =>
    rcases htested with hnil | ⟨hne, hfirst⟩
    · rw [hlist] at hnil
      cases hnil
    rw [hlist] at hspecs hfirst
    obtain ⟨hs, hrest⟩ := List.forall_mem_cons.mp hspecs
    have hs' := hfirst s rfl
    have hactive' : ∀ b ∈ Block.active :: blocks, b = .active := by simpa using hactive
    rw [if_neg (List.cons_ne_nil _ _), if_neg hne, List.append_assoc, List.singleton_append,
      runLines_cons, run_active hactive, Line.runActive, hconditions]
    change runLines ⟨vars, .active :: blocks, false⟩ _ = _
    rw [emitSpecializations, if_neg hs', if_pos rfl, List.singleton_append, List.cons_append,
      List.cons_append, runLines_cons, run_active hactive', Line.runActive,
      evalConditions_conditions hs, ← ConstrainedOpcode.holds, chainChoice, if_neg hs']
    cases s.holds groupWidth word with
    | none => rfl
    | some b =>
      cases b with
      | true =>
        have hinner : ∀ b ∈ Block.active :: Block.active :: blocks, b = .active := by
          simpa using hactive
        exact run_ret hinner s _
      | false =>
        exact (run_skipped_ret (some s.opcodeFormat) _).trans
          (run_laterSpecializations hactive' enc.toConstrainedOpcode _ hrest)

end Statement

/-! ### What a statement has to do -/

/-- No prefix of the text closes a brace that it has not opened, and all are closed at the end. -/
def BracesMatch (lines : List Line) : Prop :=
  balance lines = 0 ∧ ∀ n, 0 ≤ balance (lines.take n)

/-- The operands of an encoding and of its specializations, tested or not. -/
def InstructionEncoding.allOperands (enc : InstructionEncoding) : List Operand :=
  enc.operands enc.equalConstraints

/-- The statement that is emitted for an encoding where the names `extracted` have been extracted:
    its braces match, and on every word that satisfies the encoding it returns the opcode of the
    first specialization that the word satisfies, or else of the encoding. -/
structure StatementReturns (groupWidth : Nat) (g : GroupData) (extracted : List String)
    (enc : InstructionEncoding) : Prop where
  braces : BracesMatch (emitEncodingIfStatement groupWidth g extracted enc).1
  returns : ∀ bits vars, Extracted groupWidth (instWord groupWidth bits) enc.allOperands extracted vars →
    enc.Satisfied groupWidth (instWord groupWidth bits) → ∃ opcode,
      choose groupWidth (instWord groupWidth bits) enc.toConstrainedOpcode enc.specializations =
          some opcode ∧
        runLines ⟨vars, [], false⟩ (emitEncodingIfStatement groupWidth g extracted enc).1 =
          some (returned opcode)

/-- Something is tested wherever a brace is needed; and for every word that satisfies the
    encoding the extractions are defined, and the specialization that it satisfies first is not
    one without constraints. -/
structure StatementTested (groupWidth : Nat) (g : GroupData) (extracted : List String)
    (enc : InstructionEncoding) : Prop where
  chain : ChainTested enc (enc.conditions (g.testedEquals extracted enc))
  readable : ∀ bits, enc.Satisfied groupWidth (instWord groupWidth bits) →
    ∀ operand ∈ enc.operands (g.testedEquals extracted enc), operand.valueName ∉ extracted →
      (operand.read groupWidth (instWord groupWidth bits)).isSome
  chosen : ∀ bits, enc.Satisfied groupWidth (instWord groupWidth bits) → ∃ opcode,
    choose groupWidth (instWord groupWidth bits) enc.toConstrainedOpcode enc.specializations =
        some opcode ∧
      (opcode ∈ enc.specializations → opcode.allConditions ≠ [])

/-- Operands of one format, and specializations with names of their own, as `AddSpecialization`
    demands. -/
structure InstructionEncoding.Named (enc : InstructionEncoding) : Prop where
  operands : NamesDistinct enc.allOperands
  base : ∀ s ∈ enc.specializations, s.name ≠ enc.name
  specializations : (enc.specializations.map (·.name)).Nodup

instance (operands : List Operand) : Decidable (NamesDistinct operands) :=
  inferInstanceAs (Decidable (∀ a ∈ operands, ∀ b ∈ operands, a.valueName = b.valueName → a = b))

instance (enc : InstructionEncoding) : Decidable enc.Named :=
  decidable_of_iff (NamesDistinct enc.allOperands ∧ (∀ s ∈ enc.specializations, s.name ≠ enc.name) ∧
      (enc.specializations.map (·.name)).Nodup)
    ⟨fun h => ⟨h.1, h.2.1, h.2.2⟩, fun h => ⟨h.operands, h.base, h.specializations⟩⟩

variable {g : GroupData} {extracted : List String} {enc : InstructionEncoding} {groupWidth : Nat}

theorem testedEquals_subset :
    ∀ c ∈ g.testedEquals extracted enc, c ∈ enc.equalConstraints := fun _ hc =>
  List.mem_of_mem_filter hc

theorem operands_subset :
    ∀ operand ∈ enc.operands (g.testedEquals extracted enc), operand ∈ enc.allOperands := by
  intro operand hmem
  rcases List.mem_append.mp hmem with hmem | hmem
  · obtain ⟨c, hc, ho⟩ := List.mem_flatMap.mp hmem
    refine List.mem_append_left _ (List.mem_flatMap.mpr ⟨c, ?_, ho⟩)
    simp only [ConstrainedOpcode.tested, List.mem_append] at hc ⊢
    exact hc.imp_left (Or.imp_left (testedEquals_subset c))
  · exact List.mem_append_right _ hmem

theorem InstructionEncoding.Named.eq_of_returned (h : enc.Named) {a b : ConstrainedOpcode}
    (ha : a = enc.toConstrainedOpcode ∨ a ∈ enc.specializations)
    (hb : b = enc.toConstrainedOpcode ∨ b ∈ enc.specializations) (heq : returned a = returned b) :
    a = b := by
  have hname : a.name = b.name := by
    simp only [returned, Outcome.returns.injEq, Option.some.injEq, ConstrainedOpcode.opcodeFormat,
      OpcodeFormat.mk.injEq] at heq
    exact heq.1
  rcases ha with rfl | ha <;> rcases hb with rfl | hb
  · rfl
  · exact absurd hname.symm (h.base b hb)
  · exact absurd hname (h.base a ha)
  · exact List.inj_on_of_nodup_map h.specializations ha hb hname

theorem exists_extracted (groupWidth : Nat) {operands : List Operand}
    (hnames : NamesDistinct operands) (word : Val) (extracted : List String) :
    ∃ vars, Extracted groupWidth word operands extracted vars := by
  refine ⟨fun x => if x = "inst_word" then some ⟨word.ty, some word⟩ else
    (operands.find? (·.valueName = x)).map fun o => ⟨o.ty groupWidth, o.valueOf groupWidth word⟩,
    ⟨rfl, fun operand hmem _ => ?_⟩⟩
  rw [Variables.env, if_neg (valueName_ne_inst_word operand)]
  cases hfind : operands.find? (·.valueName = operand.valueName) with
  | none => exact absurd (List.find?_eq_none.mp hfind operand hmem) (by simp)
  | some other =>
    have hname : other.valueName = operand.valueName := by simpa using List.find?_some hfind
    rw [hnames other (List.mem_of_find?_eq_some hfind) operand hmem hname]
    rfl

theorem check_ne_nil {scopes scopes' : Scopes} {line : Line} (hne : scopes ≠ [])
    (h : line.check scopes = some scopes') : scopes' ≠ [] := by
  obtain ⟨left, hleft, h⟩ := Option.bind_eq_some_iff.mp h
  have hleft' : left ≠ [] := by
    split at hleft
    · match scopes, hleft with
      | _ :: _ :: _, hleft =>
        cases hleft
        exact List.cons_ne_nil _ _
    · cases hleft
      exact hne
  split at h
  · obtain ⟨declared, hdeclared, rfl⟩ := Option.map_eq_some_iff.mp h
    have hdeclared' : declared ≠ [] := by
      rintro rfl
      exact hleft' (List.length_eq_zero_iff.mp (declareName_length hdeclared).symm)
    split
    · exact List.cons_ne_nil _ _
    · exact hdeclared'
  · cases h

theorem checkLines_ne_nil {scopes scopes' : Scopes} {lines : List Line} (hne : scopes ≠ [])
    (h : checkLines scopes lines = some scopes') : scopes' ≠ [] := by
  induction lines generalizing scopes with
  | nil =>
    cases h
    exact hne
  | cons line rest ih =>
    rw [checkLines_cons] at h
    obtain ⟨mid, hmid, h⟩ := Option.bind_eq_some_iff.mp h
    exact ih (check_ne_nil hne hmid) h

theorem bracesMatch_of_check {scope scope' : List String} {lines : List Line}
    (h : checkLines [scope] lines = some [scope']) : BracesMatch lines := by
  constructor
  · have hlength := checkLines_length h
    simp only [List.length_cons, List.length_nil] at hlength
    omega
  · intro n
    rw [← List.take_append_drop n lines, checkLines_append] at h
    obtain ⟨mid, hmid, h⟩ := Option.bind_eq_some_iff.mp h
    have hlength := checkLines_length hmid
    simp only [List.length_cons, List.length_nil] at hlength
    have hpos : mid.length ≠ 0 := by
      intro hnil
      exact checkLines_ne_nil (List.cons_ne_nil _ _) hmid (List.length_eq_zero_iff.mp hnil)
    omega

theorem check_statement (h : ChainTested enc (enc.conditions (g.testedEquals extracted enc))) :
    ∃ scope scope', checkLines [scope] (emitEncodingIfStatement groupWidth g extracted enc).1 =
      some [scope'] := by
  obtain ⟨hcheck, hnames, -⟩ := @check_emitExtractions groupWidth ["inst_word"] []
      (fun operand => by simpa using valueName_ne_inst_word operand) (by simp)
      (enc.operands (g.testedEquals extracted enc)) extracted
  refine ⟨_, _, (checkLines_append_of hcheck _).trans (check_emitIf h (fun x hx => ?_)
    fun s hs x hx => ?_)⟩
  · obtain ⟨operand, hmem, rfl⟩ := mem_conditionVars hx
    exact List.mem_append_left _ (List.mem_append_left _
      (hnames operand (List.mem_append_left _ hmem)))
  · obtain ⟨operand, hmem, rfl⟩ := mem_conditionVars hx
    exact List.mem_append_left _ (List.mem_append_left _ (hnames operand
      (List.mem_append_right _ (List.mem_flatMap.mpr ⟨s, hs, hmem⟩))))

theorem run_statement (hnamed : enc.Named)
    (hchain : ChainTested enc (enc.conditions (g.testedEquals extracted enc))) {word : Val}
    {vars : Variables} (hvars : Extracted groupWidth word enc.allOperands extracted vars)
    (hsatisfied : enc.Satisfied groupWidth word)
    (hread : ∀ operand ∈ enc.operands (g.testedEquals extracted enc),
      operand.valueName ∉ extracted → (operand.read groupWidth word).isSome) :
    runLines ⟨vars, [], false⟩ (emitEncodingIfStatement groupWidth g extracted enc).1 =
      (chainChoice groupWidth word enc.toConstrainedOpcode enc.specializations).map returned := by
  obtain ⟨vars', hvars', hrun⟩ := @run_emitExtractions _ _ _ _ _ _ [] hnamed.operands (by simp)
      operands_subset hvars hread
  obtain ⟨-, hnames, -⟩ := @check_emitExtractions groupWidth ["inst_word"] []
      (fun operand => by simpa using valueName_ne_inst_word operand) (by simp)
      (enc.operands (g.testedEquals extracted enc)) extracted
  have hvalues : ∀ operand ∈ enc.operands (g.testedEquals extracted enc),
      vars'.env operand.valueName = operand.valueOf groupWidth word := fun operand hmem =>
    hvars'.values operand (operands_subset operand hmem) (hnames operand hmem)
  refine (hrun _).trans (run_emitIf (by simp) testedEquals_subset hchain ?_ ?_ hsatisfied)
  · exact fun operand hmem => hvalues operand (List.mem_append_left _ hmem)
  · exact fun s hs operand hmem => hvalues operand
      (List.mem_append_right _ (List.mem_flatMap.mpr ⟨s, hs, hmem⟩))

/-- **One statement.** It does what it has to if and only if everything is tested. -/
theorem statementReturns_iff (hnamed : enc.Named) :
    StatementReturns groupWidth g extracted enc ↔ StatementTested groupWidth g extracted enc := by
  constructor
  · intro h
    have hchain : ChainTested enc (enc.conditions (g.testedEquals extracted enc)) := by
      have hbalance := h.braces.1
      change balance (_ ++ _) = 0 at hbalance
      rw [balance_append, balance_emitExtractions, balance_emitIf] at hbalance
      exact missingBraces_eq_zero.mp (by omega)
    have hread : ∀ bits, enc.Satisfied groupWidth (instWord groupWidth bits) →
        ∀ operand ∈ enc.operands (g.testedEquals extracted enc), operand.valueName ∉ extracted →
          (operand.read groupWidth (instWord groupWidth bits)).isSome := by
      intro bits hsatisfied operand hmem hnew
      obtain ⟨vars, hvars⟩ := exists_extracted groupWidth hnamed.operands
        (instWord groupWidth bits) extracted
      obtain ⟨opcode, -, hrun⟩ := h.returns bits vars hvars hsatisfied
      rw [Option.isSome_iff_ne_none]
      intro hnone
      have hbad := @run_emitExtractions_eq_none _ _ _ _ _ _ [] hnamed.operands (by simp)
          operands_subset hvars ⟨operand, hmem, hnew, hnone⟩
      cases hrun.symm.trans (hbad _)
    refine ⟨hchain, hread, fun bits hsatisfied => ?_⟩
    obtain ⟨vars, hvars⟩ := exists_extracted groupWidth hnamed.operands
      (instWord groupWidth bits) extracted
    obtain ⟨opcode, hchoose, hrun⟩ := h.returns bits vars hvars hsatisfied
    rw [run_statement hnamed hchain hvars hsatisfied (hread bits hsatisfied)] at hrun
    obtain ⟨other, hother, heq⟩ := Option.map_eq_some_iff.mp hrun
    refine ⟨opcode, hchoose, fun hmem => ?_⟩
    -- The chain returns the base or a specialization with constraints.
    have htested := chainChoice_tested hother
    obtain rfl := hnamed.eq_of_returned (htested.imp id And.left) (.inr hmem) heq
    rcases htested with rfl | ⟨-, htested⟩
    · exact absurd rfl (hnamed.base _ hmem)
    · exact htested
  · intro h
    obtain ⟨scope, scope', hcheck⟩ := check_statement h.chain
    refine ⟨bracesMatch_of_check hcheck, fun bits vars hvars hsatisfied => ?_⟩
    obtain ⟨opcode, hchoose, htested⟩ := h.chosen bits hsatisfied
    refine ⟨opcode, hchoose, ?_⟩
    rw [run_statement hnamed h.chain hvars hsatisfied (h.readable bits hsatisfied),
      chainChoice_of_choose hchoose htested]
    rfl

/-! ### The leaves of an instruction group -/

/-- A property of each encoding of a sequence of statements, with the names that have been
    extracted before it. -/
def EachStatement (groupWidth : Nat) (g : GroupData)
    (p : List String → InstructionEncoding → Prop) : List String → List InstructionEncoding → Prop
  | _, [] => True
  | extracted, enc :: rest =>
    p extracted enc ∧ EachStatement groupWidth g p
      (emitEncodingIfStatement groupWidth g extracted enc).2.1 rest

theorem eachStatement_congr {p q : List String → InstructionEncoding → Prop}
    {encodings : List InstructionEncoding}
    (h : ∀ enc ∈ encodings, ∀ extracted, p extracted enc ↔ q extracted enc)
    (extracted : List String) :
    EachStatement groupWidth g p extracted encodings ↔
      EachStatement groupWidth g q extracted encodings := by
  induction encodings generalizing extracted with
  | nil => rfl
  | cons enc rest ih =>
    obtain ⟨henc, hrest⟩ := List.forall_mem_cons.mp h
    exact and_congr (henc extracted) (ih hrest _)

/-- A property of each statement of a leaf that is not simple: one sequence, or one for each case
    of the switch. -/
def GroupData.EachStatement (groupWidth : Nat) (g : GroupData)
    (p : List String → InstructionEncoding → Prop) : Prop :=
  if g.discriminatorRecipe = [] then Decoder.EachStatement groupWidth g p [] g.encodings
  else ∀ index ∈ g.encodings.map g.indexOf, Decoder.EachStatement groupWidth g p []
    (g.encodings.filter fun enc => g.indexOf enc = index)

theorem GroupData.eachStatement_congr {p q : List String → InstructionEncoding → Prop}
    (h : ∀ enc ∈ g.encodings, ∀ extracted, p extracted enc ↔ q extracted enc) :
    g.EachStatement groupWidth p ↔ g.EachStatement groupWidth q := by
  unfold GroupData.EachStatement
  split
  · exact Decoder.eachStatement_congr h []
  · exact forall₂_congr fun index _ =>
      Decoder.eachStatement_congr (fun enc henc => h enc (List.mem_of_mem_filter henc)) []

namespace EncodingGroup

/-- In a leaf, every encoding gets its specializations.  A simple leaf always returns the opcode
    of the encoding itself. -/
def Returns (groupWidth : Nat) (tree : EncodingGroup) : Prop :=
  tree.groups = [] →
    if tree.data.simpleDecoding then
      ∀ enc ∈ tree.data.encodings, ∀ bits, enc.Satisfied groupWidth (instWord groupWidth bits) →
        choose groupWidth (instWord groupWidth bits) enc.toConstrainedOpcode enc.specializations =
          some enc.toConstrainedOpcode
    else tree.data.EachStatement groupWidth (StatementReturns groupWidth tree.data)

/-- In a leaf, every statement is tested. -/
def StatementsTested (groupWidth : Nat) (tree : EncodingGroup) : Prop :=
  tree.groups = [] → tree.data.EachStatement groupWidth (StatementTested groupWidth tree.data)

/-- The encodings of a group are named. -/
def Named (tree : EncodingGroup) : Prop := ∀ enc ∈ tree.data.encodings, enc.Named

variable {tree : EncodingGroup}

theorem returns_iff (hregular : tree.Regular) (hnamed : tree.Named) (groupWidth : Nat) :
    tree.Returns groupWidth ↔ tree.StatementsTested groupWidth := by
  unfold Returns StatementsTested
  rw [hregular.complex, if_neg Bool.false_ne_true]
  exact imp_congr_right fun _ => GroupData.eachStatement_congr fun enc henc extracted =>
    statementReturns_iff (hnamed enc henc)

theorem all_congr {p q r : EncodingGroup → Prop} (hr : tree.All r) (h : ∀ t, r t → (p t ↔ q t)) :
    tree.All p ↔ tree.All q := by
  induction hr with
  | @mk data groups self below ih =>
    rw [all_mk, all_mk]
    exact and_congr (h _ self) (forall₂_congr fun g hg => ih g hg)

theorem All.and {p q : EncodingGroup → Prop} (hp : tree.All p) (hq : tree.All q) :
    tree.All fun t => p t ∧ q t := by
  induction hp with
  | @mk data groups self below ih =>
    rw [all_mk] at hq ⊢
    exact ⟨⟨self, hq.1⟩, fun g hg => ih g hg (hq.2 g hg)⟩

end EncodingGroup

/-- **Specializations.** Take the groups that are built for any encodings, and attach any
    specializations to the encodings.  In all leaves every encoding gets its specializations if
    and only if in all leaves every statement is tested. -/
theorem specializations_returned_iff {encodings : List InstructionEncoding}
    {groups : List EncodingGroup} (h : processEncodings encodings = some (groups.map (·.strip)))
    (hnamed : ∀ g ∈ groups, g.All EncodingGroup.Named) (groupWidth : Nat) :
    (∀ g ∈ groups, g.All (EncodingGroup.Returns groupWidth)) ↔
      ∀ g ∈ groups, g.All (EncodingGroup.StatementsTested groupWidth) := by
  refine forall₂_congr fun g hg => ?_
  have hregular := EncodingGroup.regular_of_strip
    (processEncodings_spec h (List.mem_map_of_mem hg)).1
  exact EncodingGroup.all_congr (hregular.and (hnamed g hg)) fun t ht =>
    EncodingGroup.returns_iff ht.1 ht.2 groupWidth

/-! ### Attaching specializations -/

/-- An encoding with specializations attached to it. -/
def InstructionEncoding.attach (specs : String → List ConstrainedOpcode)
    (enc : InstructionEncoding) : InstructionEncoding :=
  { enc with specializations := specs enc.name }

mutual

/-- A tree with specializations attached to its encodings by their names. -/
def EncodingGroup.attach (specs : String → List ConstrainedOpcode) : EncodingGroup → EncodingGroup
  | .mk data groups =>
    .mk { data with encodings := data.encodings.map (·.attach specs) } (attachGroups specs groups)

/-- Several trees with specializations attached. -/
def attachGroups (specs : String → List ConstrainedOpcode) :
    List EncodingGroup → List EncodingGroup
  | [] => []
  | g :: rest => g.attach specs :: attachGroups specs rest

end

theorem attachGroups_eq (specs : String → List ConstrainedOpcode) (groups : List EncodingGroup) :
    attachGroups specs groups = groups.map (·.attach specs) := by
  induction groups with
  | nil => rfl
  | cons g rest ih => rw [attachGroups, ih, List.map_cons]

theorem EncodingGroup.named_attach {specs : String → List ConstrainedOpcode} {tree : EncodingGroup}
    (h : tree.All Divided) (hnamed : ∀ enc ∈ tree.data.encodings, (enc.attach specs).Named) :
    (tree.attach specs).All Named := by
  induction h with
  | @mk data groups self below ih =>
    rw [attach, attachGroups_eq, all_mk]
    refine ⟨fun attached hmem => ?_, fun attached hmem => ?_⟩
    · obtain ⟨enc, henc, rfl⟩ := List.mem_map.mp hmem
      exact hnamed enc henc
    · obtain ⟨g, hg, rfl⟩ := List.mem_map.mp hmem
      exact ih g hg fun enc henc => hnamed enc (self.mem_of_mem hg henc)

theorem named_of_processEncodings {specs : String → List ConstrainedOpcode}
    {encodings : List InstructionEncoding} {groups : List EncodingGroup}
    (h : processEncodings encodings = some groups)
    (hnamed : ∀ enc ∈ encodings, (enc.attach specs).Named) :
    ∀ g ∈ groups.map (·.attach specs), g.All EncodingGroup.Named := by
  intro attached hattached
  obtain ⟨g, hg, rfl⟩ := List.mem_map.mp hattached
  obtain ⟨hdivided, hmem⟩ := processEncodings_spec h hg
  exact EncodingGroup.named_attach hdivided fun enc henc => hnamed enc (hmem enc henc)

/-- A specialization of the first instruction, for one value of the other half of the format. -/
def incOpcode : ConstrainedOpcode := ⟨"inc", "Inst8", [⟨.kEq, .field classField, none, 3⟩], [], []⟩

/-- The groups of instructions with one function code each; `inc` specializes `add`. -/
def specializedGroups (funcs : List (String × BitVec 64)) : List EncodingGroup :=
  ((processEncodings (funcEncodings funcs)).getD []).map
    (·.attach fun name => if name = "add" then [incOpcode] else [])

theorem specializedGroups_named {funcs : List (String × BitVec 64)}
    (h : processEncodings (funcEncodings funcs) ≠ none)
    (hnamed : ∀ enc ∈ funcEncodings funcs,
      (enc.attach fun name => if name = "add" then [incOpcode] else []).Named) :
    ∀ g ∈ specializedGroups funcs, g.All EncodingGroup.Named := by
  obtain ⟨groups, hgroups⟩ := Option.ne_none_iff_exists'.mp h
  rw [specializedGroups, hgroups]
  exact named_of_processEncodings hgroups hnamed

/-- A single instruction is tested, so its specialization is returned. -/
theorem specializations_returned_iff_single :
    (∀ g ∈ specializedGroups [("add", 1)], g.All (EncodingGroup.Returns 8)) ↔
      ∀ g ∈ specializedGroups [("add", 1)], g.All (EncodingGroup.StatementsTested 8) :=
  specializations_returned_iff
    (show processEncodings (funcEncodings [("add", 1)]) = some _ from rfl)
    (specializedGroups_named (by decide +kernel) (by decide +kernel)) 8

/-- Of two instructions the first is told by the discriminator alone; its specialization is
    emitted with a closing brace too many. -/
theorem specialization_mismatched_braces :
    ∃ groups : List EncodingGroup, processEncodings (funcEncodings [("add", 1), ("sub", 2)]) =
        some (groups.map (·.strip)) ∧
      (∀ g ∈ groups, g.All EncodingGroup.Named) ∧
        ¬ ∀ g ∈ groups, g.All (EncodingGroup.Returns 8) := by
  refine ⟨specializedGroups [("add", 1), ("sub", 2)], rfl,
    specializedGroups_named (by decide +kernel) (by decide +kernel), fun h => ?_⟩
  have hbad : ∃ g ∈ specializedGroups [("add", 1), ("sub", 2)], ∃ leaf ∈ g.groups,
      leaf.groups.isEmpty ∧ leaf.data.simpleDecoding = false ∧
        leaf.data.discriminatorRecipe = [] ∧ ∃ enc ∈ leaf.data.encodings.head?,
          balance (emitEncodingIfStatement 8 leaf.data [] enc).1 ≠ 0 := by decide +kernel
  obtain ⟨⟨data, groups⟩, hg, leaf, hleaf, hempty, hcomplex, hrecipe, enc, hhead, hbalance⟩ := hbad
  have hreturns := ((EncodingGroup.all_mk.mp (h _ hg)).2 leaf hleaf).self
    (List.isEmpty_iff.mp hempty)
  rw [hcomplex, if_neg Bool.false_ne_true, GroupData.EachStatement, if_pos hrecipe] at hreturns
  obtain ⟨rest, hrest⟩ := List.head?_eq_some_iff.mp hhead
  rw [hrest] at hreturns
  exact hbalance hreturns.1.braces.1

end MpactSim.Decoder
