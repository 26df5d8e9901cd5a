import MpactSim.Asm.UndefinedSymbols

namespace MpactSim.Asm

open Lib

/-!
# Labels

A label may stand alone on a line, in front of a directive or in front of a statement; the first
pass adds it to the symbol table in three places.  In front of a directive the status of `AddSymbol`
is dropped, and the address is not divided by the unit of the data sections.

* `LabelsConsistent`     — labels are unique, and have the value of the place that they stand at;
* `parseLine_adds`       — what a line adds to the symbol table;
* `labelsConsistent_iff` — when the labels of a source are consistent.
-/

variable {cfg : Config} {resolver : Resolver} {s s' : State} {name : Text}
  {line label statement : Text} {lines before after : List Text}

/-! ### The specification -/

/-- The label of a line. -/
def lineLabel (line : Text) : Option Text :=
  match asmLine line with
  | some (c :: label, _) => some (c :: label)
  | _ => none

/-- What is defined by the lines, after the names of the sections. -/
def definitions (lines : List Text) : List Text :=
  [.text, .data, .bss].map Section.name ++ lines.filterMap lineLabel

/-- If a label is defined twice then `Parse` returns an error; otherwise every label has the value
    that it has alone on a line: the one of its section and of the address in it. -/
structure LabelsConsistent (cfg : Config) (zero : Option (Text → Except Error UInt64))
    (source : List Text) : Prop where
  unique : ∀ lines, logicalLines cfg [] source = some lines → ¬(definitions lines).Nodup →
    ∃ e, parse cfg zero source .initial = .error e
  consistent : ∀ lines s, logicalLines cfg [] source = some lines → (definitions lines).Nodup →
    parse cfg zero source .initial = .ok s →
    ∀ before line after label, lines = before ++ line :: after → lineLabel line = some label →
      ∃ s₁ sym, before.foldlM (parseLine cfg (zeroResolver zero)) .initial = .ok s₁ ∧
        s.lookup label = some sym ∧ sym.section_ = s₁.currentSection ∧
        sym.value = cfg.elfFileClass.truncate (labelAddress cfg s₁ (lineAddress s₁))

/-! ### The target assembler -/

/-- The call does not add symbols. -/
def Encoding.AddsNone : Encoding → Prop
  | .done _ _ _ => True
  | .resolve _ next => ∀ answer, (next answer).AddsNone
  | .addSymbol .. => False

/-- What is known of `Encode`: it adds the label of the line with the address that it is given, and
    no other symbol.  It fails if that does; it may fail anyway. -/
def Config.AddsLabels (cfg : Config) : Prop :=
  ∀ line label statement, asmLine line = some (label, statement) → statement ≠ [] →
    statement.head? ≠ some '.' → ∀ address, (cfg.encode address line).Fails ∨
      if label = [] then (cfg.encode address line).AddsNone
      else ∃ size type binding other next,
        cfg.encode address line = .addSymbol label address size type binding other next ∧
        (next (.ok ())).AddsNone ∧ ∀ e, (next (.error e)).Fails

/-! ### The conditions -/

/-- A line that `Parse` refuses, whatever its label is: a directive that is not read, or that has a
    label outside of a section, or a statement that the target assembler refuses. -/
def Malformed (cfg : Config) (resolver : Resolver) (s : State) (line : Text) : Prop :=
  match asmLine line with
  | none => True
  | some (label, statement) =>
    if statement.head? = some '.' then
      ¬∃ keyword remainder d, directiveLine statement = some (keyword, remainder) ∧
        readDirective s statement keyword remainder = .ok d ∧
        (label ≠ [] → s.currentSection ≠ none)
    else statement ≠ [] ∧
      ∃ e, ((cfg.encode (lineAddress s) line).perform cfg resolver s).status = .error e

/-- A label alone on a line, or in front of a statement, that is defined before. -/
def Repeats (before : List Text) (line : Text) : Prop :=
  ∃ label statement, asmLine line = some (label, statement) ∧ statement.head? ≠ some '.' ∧
    label ∈ definitions before

/-- `Parse` comes to a line that is refused, or to its end with the note that a symbol is undefined
    that is in the symbol table. -/
def Halts (cfg : Config) (resolver : Resolver) (lines : List Text) : Prop :=
  (∃ before line after s₁, lines = before ++ line :: after ∧
    before.foldlM (parseLine cfg resolver) .initial = .ok s₁ ∧
    (Malformed cfg resolver s₁ line ∨ Repeats before line)) ∨
  ∃ s₁, lines.foldlM (parseLine cfg resolver) .initial = .ok s₁ ∧
    ∃ name ∈ s₁.undefinedSymbols, name ∈ s₁.names.defined

/-- In the data sections, the address of a label in front of a directive or a statement is the
    quotient that the label would have alone on a line. -/
def Aligned (cfg : Config) (resolver : Resolver) (lines : List Text) : Prop :=
  ∀ before line after label statement s₁, lines = before ++ line :: after →
    before.foldlM (parseLine cfg resolver) .initial = .ok s₁ →
    asmLine line = some (label, statement) → label ≠ [] → statement ≠ [] →
    s₁.currentSection = some .data ∨ s₁.currentSection = some .bss →
    cfg.elfFileClass.truncate (lineAddress s₁ / cfg.dataAddressUnit) =
      cfg.elfFileClass.truncate (lineAddress s₁)

/-! ### One line -/

theorem lineLabel_eq_some : lineLabel line = some label ↔
    ∃ statement, asmLine line = some (label, statement) ∧ label ≠ [] := by
  unfold lineLabel
  split
  · rename_i c rest statement hline
    rw [hline]
    constructor
    · intro h
      cases h
      exact ⟨statement, rfl, List.cons_ne_nil _ _⟩
    · rintro ⟨_, h, -⟩
      cases h
      rfl
  · rename_i hnot
    apply iff_of_false
    · rintro ⟨⟩
    · rintro ⟨statement, hline, hlabel⟩
      obtain ⟨c, rest, rfl⟩ := List.exists_cons_of_ne_nil hlabel
      exact hnot c rest statement hline

/-- The value that a line gives to its label. -/
def definedValue (cfg : Config) (s : State) (statement : Text) : UInt64 :=
  if statement = [] then labelAddress cfg s (lineAddress s) else lineAddress s

/-- What a line adds to the symbol table: its label, if that is new. -/
structure Adds (cfg : Config) (s : State) (label : Text) (value : UInt64) (out : State) : Prop where
  old : label = [] ∨ label ∈ s.names.defined → out.symtab = s.symtab
  new : label ≠ [] → label ∉ s.names.defined → ∃ size type binding other,
    out.symtab = s.symtab ++
      [⟨label, cfg.elfFileClass.truncate value, size, type, binding, other, s.currentSection⟩]

theorem lookup_eq_none : s.lookup name = none ↔ name ∉ s.names.defined := by
  rw [← lookup_isSome]
  simp

theorem adds_addSymbol {out : State} (hout : out.symtab = s.symtab) (hlabel : label ≠ [])
    (value size : UInt64) (type binding other : UInt8) :
    Adds cfg s label value
      (out.addSymbol cfg label value size type binding other s.currentSection).1 := by
  have hlookup : out.lookup label = s.lookup label := by rw [State.lookup, State.lookup, hout]
  constructor
  · rintro (hnil | hmem)
    · exact absurd hnil hlabel
    · obtain ⟨sym, hsym⟩ := Option.isSome_iff_exists.mp (lookup_isSome.mpr hmem)
      rw [State.addSymbol, hlookup, hsym]
      exact hout
  · intro _ hnew
    refine ⟨size, type, binding, other, ?_⟩
    rw [State.addSymbol, hlookup, lookup_eq_none.mpr hnew, hout]

theorem Encoding.symtab_perform {encoding : Encoding} (h : encoding.AddsNone) :
    (encoding.perform cfg resolver s).state.symtab = s.symtab := by
  induction encoding generalizing s with
  | done result bytes relocations => rfl
  | resolve name next ih =>
    obtain ⟨us, hus⟩ := Encoding.resolve_state resolver s name
    show ((next (resolver.resolve s name).2).perform cfg resolver
      (resolver.resolve s name).1).state.symtab = _
    rw [ih _ (h _), hus]
  | addSymbol name value size type binding other next ih => exact h.elim

theorem parseAsmStatement_adds (hcfg : cfg.AddsLabels) {address : UInt64}
    (hline : asmLine line = some (label, statement)) (hstatement : statement ≠ [])
    (hhead : statement.head? ≠ some '.')
    (h : (parseAsmStatement cfg resolver s line address).status = .ok ()) :
    Adds cfg s label address (parseAsmStatement cfg resolver s line address).state := by
  obtain ⟨count, hstatus⟩ := parseAsmStatement_status_ok.mp h
  have hstate : (parseAsmStatement cfg resolver s line address).state.symtab =
      ((cfg.encode address line).perform cfg resolver s).state.symtab := by
    unfold parseAsmStatement
    simp only [hstatus]
    rfl
  suffices hadds : Adds cfg s label address
      ((cfg.encode address line).perform cfg resolver s).state from
    ⟨fun hold => hstate.trans (hadds.old hold), fun hlabel hnew => hstate ▸ hadds.new hlabel hnew⟩
  rcases hcfg line label statement hline hstatement hhead address with hfails | hadds
  · obtain ⟨e, he⟩ := Encoding.perform_fails cfg resolver s hfails
    rw [hstatus] at he
    cases he
  by_cases hlabel : label = []
  · rw [if_pos hlabel] at hadds
    exact ⟨fun _ => Encoding.symtab_perform hadds, fun hne => absurd hlabel hne⟩
  rw [if_neg hlabel] at hadds
  obtain ⟨size, type, binding, other, next, hencode, hnext, herror⟩ := hadds
  rw [hencode, Encoding.perform] at hstatus ⊢
  have hadded : Adds cfg s label address
      (s.addSymbol cfg label address size type binding other s.currentSection).1 :=
    adds_addSymbol rfl hlabel address size type binding other
  cases hanswer : (s.addSymbol cfg label address size type binding other s.currentSection).2 with
  | error e =>
    -- `Encode` is told that the label is taken, and fails.
    obtain ⟨e', he'⟩ := Encoding.perform_fails cfg resolver
      (s.addSymbol cfg label address size type binding other s.currentSection).1 (herror e)
    simp only [hanswer] at hstatus
    rw [he'] at hstatus
    cases hstatus
  | ok _ =>
    simp only [hanswer] at hstatus ⊢
    have hsymtab : ((next (.ok ())).perform cfg resolver (s.addSymbol cfg label address size type
        binding other s.currentSection).1).state.symtab = _ := Encoding.symtab_perform hnext
    exact ⟨fun hold => hsymtab.trans (hadded.old hold),
      fun hlabel hnew => hsymtab ▸ hadded.new hlabel hnew⟩

/-- **Step lemma.** A line that is accepted adds its label, if that is new. -/
theorem parseLine_adds (hcfg : cfg.AddsLabels) (hline : asmLine line = some (label, statement))
    (h : parseLine cfg resolver s line = .ok s') :
    Adds cfg s label (definedValue cfg s statement) s' := by
  obtain ⟨label', statement', hline', htext | hlabel | hblank⟩ := parseLine_cases h
  · obtain ⟨hstatement, hok, rfl⟩ := htext
    cases hline.symm.trans hline'
    rw [definedValue, if_neg hstatement]
    suffices hadds : Adds cfg s label (lineAddress s)
        (parseText cfg resolver s statement line (lineAddress s)).state from ⟨hadds.old, hadds.new⟩
    unfold parseText at hok ⊢
    by_cases hhead : statement.head? = some '.'
    · rw [if_pos hhead] at hok ⊢
      obtain ⟨keyword, remainder, d, -, -, hsection, hstate⟩ := parseAsmDirective_ok hline hok
      rw [hstate]
      by_cases hempty : label = []
      · rw [if_pos hempty]
        exact ⟨fun _ => d.apply_symtab s, fun hne => absurd hempty hne⟩
      · rw [if_neg hempty]
        exact adds_addSymbol (d.apply_symtab s) hempty _ _ _ _ _
    · rw [if_neg hhead] at hok ⊢
      exact parseAsmStatement_adds hcfg hline hstatement hhead hok
  · obtain ⟨rfl, hne, -, rfl⟩ := hlabel
    cases hline.symm.trans hline'
    rw [definedValue, if_pos rfl]
    exact adds_addSymbol rfl hne _ _ _ _ _
  · obtain ⟨rfl, rfl, rfl⟩ := hblank
    cases hline.symm.trans hline'
    exact ⟨fun _ => rfl, fun hne => absurd rfl hne⟩

/-! ### Which lines are refused -/

theorem parseLine_text (hline : asmLine line = some (label, statement)) (hne : statement ≠ []) :
    (∃ e, parseLine cfg resolver s line = .error e) ↔
      ¬(parseText cfg resolver s statement line (lineAddress s)).status = .ok () := by
  have hnil : line ≠ [] := by
    rintro rfl
    cases hline
    exact hne rfl
  unfold parseLine lineAddress
  rw [if_neg hnil]
  simp only [hline, if_pos hne]
  generalize (if s.currentSection = none then 0 else s.sectionAddress s.currentSection) = address
  cases hstatus : (parseText cfg resolver s statement line address).status with
  | error e => simp
  | ok _ => simp

theorem nil_not_mem_definitions : [] ∉ definitions lines := by
  intro hmem
  rcases List.mem_append.mp hmem with hmem | hmem
  · simp [Section.name] at hmem
  · obtain ⟨line, -, hline⟩ := List.mem_filterMap.mp hmem
    obtain ⟨statement, -, hne⟩ := lineLabel_eq_some.mp hline
    exact hne rfl

theorem perform_taken (hcfg : cfg.AddsLabels) (hline : asmLine line = some (label, statement))
    (hstatement : statement ≠ []) (hhead : statement.head? ≠ some '.') (hlabel : label ≠ [])
    (hold : label ∈ s.names.defined) (address : UInt64) :
    ∃ e, ((cfg.encode address line).perform cfg resolver s).status = .error e := by
  rcases hcfg line label statement hline hstatement hhead address with hfails | hadds
  · exact Encoding.perform_fails cfg resolver s hfails
  rw [if_neg hlabel] at hadds
  obtain ⟨size, type, binding, other, next, hencode, -, herror⟩ := hadds
  rw [hencode, Encoding.perform]
  cases hanswer : (s.addSymbol cfg label address size type binding other s.currentSection).2 with
  | error e =>
    simp only [hanswer]
    exact Encoding.perform_fails cfg resolver _ (herror e)
  | ok _ => exact absurd hold ((addSymbol_isOk ..).mp hanswer)

/-- A line is refused if it is malformed, or if it repeats a label and is not a directive. -/
theorem parseLine_eq_error (hcfg : cfg.AddsLabels)
    (hdefined : ∀ name, name ∈ s.names.defined ↔ name ∈ definitions before) :
    (∃ e, parseLine cfg resolver s line = .error e) ↔
      Malformed cfg resolver s line ∨ Repeats before line := by
  cases hline : asmLine line with
  | none =>
    have hnil : line ≠ [] := by
      rintro rfl
      cases hline
    unfold parseLine Malformed
    rw [if_neg hnil]
    simp [hline]
  | some p =>
    obtain ⟨label, statement⟩ := p
    have hrepeats : Repeats before line ↔
        statement.head? ≠ some '.' ∧ label ∈ s.names.defined := by
      rw [Repeats, hdefined]
      constructor
      · rintro ⟨label', statement', hline', h⟩
        cases hline.symm.trans hline'
        exact h
      · exact fun h => ⟨label, statement, hline, h⟩
    rw [hrepeats, Malformed]
    simp only [hline]
    by_cases hnil : statement = []
    · -- The label stands alone.
      subst hnil
      simp only [List.head?_nil, reduceCtorEq, if_false, ne_eq, not_true, not_false_iff, true_and,
        false_and, false_or]
      by_cases hlabel : label = []
      · subst hlabel
        rw [hdefined]
        apply iff_of_false
        · rintro ⟨e, he⟩
          unfold parseLine at he
          simp [hline] at he
        · exact nil_not_mem_definitions
      · have hnil : line ≠ [] := by
          rintro rfl
          cases hline
          exact hlabel rfl
        unfold parseLine
        rw [if_neg hnil]
        simp only [hline, ne_eq, not_true, if_false, if_pos hlabel]
        generalize labelAddress cfg s _ = value
        have hadded : (s.addSymbol cfg label value 0 sttNotype 0 0 s.currentSection).2 = .ok () ↔
          label ∉ s.names.defined := addSymbol_isOk value 0 sttNotype 0 0 s.currentSection
        rw [← not_iff_not, not_not] at hadded
        rw [← hadded]
        cases (s.addSymbol cfg label value 0 sttNotype 0 0 s.currentSection).2 with
        | error e => simp
        | ok _ => simp
    · rw [parseLine_text hline hnil, parseText]
      by_cases hhead : statement.head? = some '.'
      · rw [if_pos hhead, if_pos hhead, parseAsmDirective_status_ok,
          or_iff_left fun h => h.1 hhead, not_iff_not]
        constructor
        · rintro ⟨label', directive, keyword, remainder, d, hline', h⟩
          cases hline.symm.trans hline'
          exact ⟨keyword, remainder, d, h⟩
        · rintro ⟨keyword, remainder, d, h⟩
          exact ⟨label, statement, keyword, remainder, d, hline, h⟩
      · rw [if_neg hhead, if_neg hhead, parseAsmStatement_status_ok, ← exists_error_iff,
          and_iff_right hnil, iff_comm]
        apply or_iff_left_of_imp
        rintro ⟨-, hold⟩
        have hlabel : label ≠ [] := by
          rintro rfl
          exact nil_not_mem_definitions ((hdefined []).mp hold)
        exact perform_taken hcfg hline hnil hhead hlabel hold _

/-! ### The loop of the first pass -/

theorem mem_defined_parseLine (hcfg : cfg.AddsLabels) (h : parseLine cfg resolver s line = .ok s') :
    name ∈ s'.names.defined ↔ name ∈ s.names.defined ∨ lineLabel line = some name := by
  obtain ⟨label, statement, hline, -⟩ := parseLine_cases h
  have hadds := parseLine_adds hcfg hline h
  have hname : lineLabel line = some name ↔ name = label ∧ label ≠ [] := by
    rw [lineLabel_eq_some, hline]
    constructor
    · rintro ⟨_, heq, hne⟩
      cases heq
      exact ⟨rfl, hne⟩
    · rintro ⟨rfl, hne⟩
      exact ⟨statement, rfl, hne⟩
  rw [hname]
  by_cases hold : label = [] ∨ label ∈ s.names.defined
  · show name ∈ s'.symtab.map Symbol.name ↔ _
    rw [hadds.old hold]
    apply Iff.symm
    apply or_iff_left_of_imp
    rintro ⟨rfl, hne⟩
    exact hold.resolve_left hne
  · -- The symbol table grows by the label.
    rw [not_or] at hold
    obtain ⟨size, type, binding, other, hsymtab⟩ := hadds.new hold.1 hold.2
    show name ∈ s'.symtab.map Symbol.name ↔ name ∈ s.symtab.map Symbol.name ∨ _
    rw [hsymtab, List.map_append, List.mem_append]
    simp [hold.1]

theorem mem_defined_foldlM (hcfg : cfg.AddsLabels)
    (h : lines.foldlM (parseLine cfg resolver) .initial = .ok s) :
    name ∈ s.names.defined ↔ name ∈ definitions lines := by
  suffices hrun : ∀ s₀ : State, lines.foldlM (parseLine cfg resolver) s₀ = .ok s →
      (name ∈ s.names.defined ↔ name ∈ s₀.names.defined ∨ name ∈ lines.filterMap lineLabel) by
    rw [hrun .initial h, definitions, List.mem_append]
    rfl
  clear h
  induction lines with
  | nil =>
    intro s₀ h
    cases h
    simp
  | cons line rest ih =>
    intro s₀ h
    rw [List.foldlM_cons] at h
    obtain ⟨mid, hline, hrest⟩ := bind_eq_ok.mp h
    rw [ih mid hrest, mem_defined_parseLine hcfg hline]
    cases hlabel : lineLabel line with
    | none => simp [hlabel]
    | some label => simp [hlabel, or_assoc, eq_comm]

theorem nodup_addSymbol {value size : UInt64} {type binding other : UInt8} {sec : Option Section}
    (h : s.undefinedSymbols.Nodup) :
    (s.addSymbol cfg name value size type binding other sec).1.undefinedSymbols.Nodup := by
  rw [State.addSymbol]
  split
  · exact h
  · show List.Nodup (if _ then _ else _)
    split
    · exact h
    · exact h.erase name

theorem nodup_resolve (h : s.undefinedSymbols.Nodup) :
    (resolver.resolve s name).1.undefinedSymbols.Nodup := by
  cases resolver with
  | zero =>
    rw [Resolver.resolve, State.simpleAddSymbol]
    split
    · exact h
    · rename_i hnew
      rw [not_or] at hnew
      exact List.nodup_append.mpr ⟨h, List.nodup_singleton name, by
        rintro a ha b hb rfl
        exact hnew.2 (List.mem_singleton.mp hb ▸ ha)⟩
  | symbol =>
    rw [Resolver.resolve]
    split
    · exact h
    · exact h
  | supplied resolve => exact h

theorem nodup_perform {encoding : Encoding} (h : s.undefinedSymbols.Nodup) :
    (encoding.perform cfg resolver s).state.undefinedSymbols.Nodup := by
  induction encoding generalizing s with
  | done result bytes relocations => exact h
  | resolve name next ih => exact ih _ (nodup_resolve h)
  | addSymbol name value size type binding other next ih => exact ih _ (nodup_addSymbol h)

theorem nodup_parseLine (h : s.undefinedSymbols.Nodup)
    (hline : parseLine cfg resolver s line = .ok s') : s'.undefinedSymbols.Nodup := by
  obtain ⟨label, statement, hasm, htext | hlabel | hblank⟩ := parseLine_cases hline
  · obtain ⟨-, hok, rfl⟩ := htext
    show (parseText cfg resolver s statement line (lineAddress s)).state.undefinedSymbols.Nodup
    unfold parseText at hok ⊢
    split at hok
    · rename_i hhead
      obtain ⟨keyword, remainder, d, -, -, -, hstate⟩ := parseAsmDirective_ok hasm hok
      have happly : (d.apply s).undefinedSymbols.Nodup := by
        show (d.apply s).names.waiting.Nodup
        rw [names_apply]
        exact h
      rw [if_pos hhead, hstate]
      split
      · exact happly
      · exact nodup_addSymbol happly
    · rename_i hhead
      obtain ⟨size, hstatus⟩ := parseAsmStatement_status_ok.mp hok
      rw [if_neg hhead]
      unfold parseAsmStatement
      simp only [hstatus]
      exact nodup_perform h
  · obtain ⟨-, -, -, rfl⟩ := hlabel
    exact nodup_addSymbol h
  · obtain ⟨-, -, rfl⟩ := hblank
    exact h

variable {source : List Text} {zero : Option (Text → Except Error UInt64)}

/-- The loop of `Parse` is a fold over the logical lines, errors included. -/
theorem parseLines_eq_foldlM {pending : Text}
    (hlines : logicalLines cfg pending source = some lines) :
    parseLines cfg resolver pending s source = lines.foldlM (parseLine cfg resolver) s := by
  induction source generalizing pending s lines with
  | nil =>
    cases hlines
    rw [List.foldlM_cons, parseLines]
    cases parseLine cfg resolver s pending with
    | error e => rfl
    | ok s' => rfl
  | cons tmp rest ih =>
    unfold logicalLines at hlines
    unfold parseLines
    cases hcomment : cfg.commentRe tmp with
    | none =>
      simp only [hcomment] at hlines
      cases hlines
    | some p =>
      simp only [hcomment] at hlines ⊢
      by_cases hlast : (p.1 ++ p.2).getLast? = some '\\'
      · rw [if_pos hlast] at hlines ⊢
        exact ih hlines
      · rw [if_neg hlast] at hlines ⊢
        obtain ⟨more, hmore, rfl⟩ := Option.map_eq_some_iff.mp hlines
        rw [List.foldlM_cons]
        cases parseLine cfg resolver s (pending ++ (p.1 ++ p.2)) with
        | error e => rfl
        | ok s₁ => exact ih hmore

/-- `Parse` returns an error if it comes to a line that is refused, or fails at its end. -/
theorem parse_eq_error (hcfg : cfg.AddsLabels) (hlines : logicalLines cfg [] source = some lines) :
    (∃ e, parse cfg zero source .initial = .error e) ↔ Halts cfg (zeroResolver zero) lines := by
  have hparse : parse cfg zero source .initial = (do
      let s ← lines.foldlM (parseLine cfg (zeroResolver zero)) .initial
      let s ← addUndefinedSymbols cfg s s.undefinedSymbols
      .ok { s with undefinedSymbols := [], bssSize := s.sectionAddress (some .bss) }) := by
    rw [parse, parseLines_eq_foldlM hlines]
  have hnodup {s₁ : State}
      (h : lines.foldlM (parseLine cfg (zeroResolver zero)) .initial = .ok s₁) :
      s₁.undefinedSymbols.Nodup := by
    have hinitial : State.initial.undefinedSymbols.Nodup := List.nodup_nil
    rw [← run_settle_of_foldlM h]
    exact settle_invariant (fun s => s.undefinedSymbols.Nodup)
      (fun _ _ _ hs hline => nodup_parseLine hs hline) hinitial lines
  have hrefused {before : List Text} {line : Text} {s₁ : State}
      (hbefore : before.foldlM (parseLine cfg (zeroResolver zero)) .initial = .ok s₁) :
      (∃ e, parseLine cfg (zeroResolver zero) s₁ line = .error e) ↔
        Malformed cfg (zeroResolver zero) s₁ line ∨ Repeats before line :=
    parseLine_eq_error hcfg fun _ => mem_defined_foldlM hcfg hbefore
  rw [hparse]
  simp only [bind_eq_error, exists_or, reduceCtorEq, and_false, exists_false, or_false]
  apply or_congr
  · constructor
    · rintro ⟨e, h⟩
      obtain ⟨before, line, after, s₁, rfl, hbefore, hline⟩ := foldlM_eq_error_iff.mp h
      exact ⟨before, line, after, s₁, rfl, hbefore, (hrefused hbefore).mp ⟨e, hline⟩⟩
    · rintro ⟨before, line, after, s₁, rfl, hbefore, hline⟩
      obtain ⟨e, he⟩ := (hrefused hbefore).mpr hline
      exact ⟨e, foldlM_eq_error_iff.mpr ⟨before, line, after, s₁, rfl, hbefore, he⟩⟩
  · have hadded {s₁ : State}
        (h : lines.foldlM (parseLine cfg (zeroResolver zero)) .initial = .ok s₁) :
        (∃ e, addUndefinedSymbols cfg s₁ s₁.undefinedSymbols = .error e) ↔
          ∃ name ∈ s₁.undefinedSymbols, name ∈ s₁.names.defined := by
      rw [exists_error_iff, addUndefinedSymbols_isOk (hnodup h)]
      push Not
      rfl
    constructor
    · rintro ⟨e, s₁, h, herror⟩
      exact ⟨s₁, h, (hadded h).mp ⟨e, herror⟩⟩
    · rintro ⟨s₁, h, hleft⟩
      obtain ⟨e, he⟩ := (hadded h).mpr hleft
      exact ⟨e, s₁, h, he⟩

/-! ### Which sources have consistent labels -/

theorem symtab_parse (hlines : logicalLines cfg [] source = some lines)
    (h : parse cfg zero source .initial = .ok s) :
    ∃ s₂ syms, lines.foldlM (parseLine cfg (zeroResolver zero)) .initial = .ok s₂ ∧
      s.symtab = s₂.symtab ++ syms := by
  obtain ⟨lines', s₂, hlines', hrun, -, -, ⟨syms, hsyms⟩, -⟩ := parse_ok h
  cases hlines.symm.trans hlines'
  exact ⟨s₂, syms, hrun, hsyms⟩

/-- In a source without repeated labels, each has the value that its line gives to it. -/
theorem lookup_label (hcfg : cfg.AddsLabels)
    (hlines : logicalLines cfg [] source = some (before ++ line :: after))
    (hnodup : (definitions (before ++ line :: after)).Nodup)
    (hparse : parse cfg zero source .initial = .ok s)
    (hline : asmLine line = some (label, statement)) (hlabel : label ≠ []) :
    ∃ s₁ sym, before.foldlM (parseLine cfg (zeroResolver zero)) .initial = .ok s₁ ∧
      s.lookup label = some sym ∧ sym.section_ = s₁.currentSection ∧
      sym.value = cfg.elfFileClass.truncate (definedValue cfg s₁ statement) := by
  obtain ⟨s₂, syms, hrun, hsyms⟩ := symtab_parse hlines hparse
  rw [List.foldlM_append] at hrun
  obtain ⟨s₁, hbefore, hrun⟩ := bind_eq_ok.mp hrun
  rw [List.foldlM_cons] at hrun
  obtain ⟨mid, hstep, hafter⟩ := bind_eq_ok.mp hrun
  have hnew : label ∉ s₁.names.defined := by
    rw [mem_defined_foldlM hcfg hbefore]
    intro hold
    have hsome : lineLabel line = some label := lineLabel_eq_some.mpr ⟨statement, hline, hlabel⟩
    rw [definitions, List.filterMap_append, List.filterMap_cons_some hsome, ← List.append_assoc]
      at hnodup
    exact (List.nodup_append.mp hnodup).2.2 label hold label List.mem_cons_self rfl
  obtain ⟨size, type, binding, other, hsymtab⟩ := (parseLine_adds hcfg hline hstep).new hlabel hnew
  have hmid : mid.lookup label = some ⟨label, cfg.elfFileClass.truncate
      (definedValue cfg s₁ statement), size, type, binding, other, s₁.currentSection⟩ := by
    have hnone := lookup_eq_none.mpr hnew
    rw [State.lookup] at hnone
    rw [State.lookup, hsymtab, List.find?_append, hnone]
    simp
  have hend := (extends_foldlM hafter).lookup hmid
  exact ⟨s₁, _, hbefore, State.lookup_append hend hsyms, rfl, rfl⟩

/-- **Labels.** They are consistent exactly if `Parse` comes to a line that it refuses, among them
    those that repeat a label alone or in front of a statement, or if no label is repeated and the
    address unit makes no difference to those that do not stand alone. -/
theorem labelsConsistent_iff (hcfg : cfg.AddsLabels) (zero : Option (Text → Except Error UInt64))
    (source : List Text) :
    LabelsConsistent cfg zero source ↔ ∀ lines, logicalLines cfg [] source = some lines →
      Halts cfg (zeroResolver zero) lines ∨
        (definitions lines).Nodup ∧ Aligned cfg (zeroResolver zero) lines := by
  constructor
  · intro h lines hlines
    rw [or_iff_not_imp_left, ← parse_eq_error hcfg hlines, exists_error_iff, not_not]
    -- `Parse` accepts the source: a repeated label would have been an error.
    rintro ⟨s, hparse⟩
    have hnodup : (definitions lines).Nodup := by
      by_contra hrepeated
      obtain ⟨e, he⟩ := h.unique lines hlines hrepeated
      rw [hparse] at he
      cases he
    refine ⟨hnodup, ?_⟩
    rintro before line after label statement s₁ rfl hbefore hline hlabel hstatement hsection
    have hsome := lineLabel_eq_some.mpr ⟨statement, hline, hlabel⟩
    obtain ⟨s₁', sym, hbefore', hsym, -, hvalue⟩ :=
      h.consistent _ s hlines hnodup hparse before line after label rfl hsome
    obtain ⟨s₁'', sym', hbefore'', hsym', -, hvalue'⟩ :=
      lookup_label hcfg hlines hnodup hparse hline hlabel
    cases hbefore.symm.trans hbefore'
    cases hbefore.symm.trans hbefore''
    cases hsym.symm.trans hsym'
    -- The label has the value of its line, and the one that it has alone.
    rw [hvalue, definedValue, if_neg hstatement, labelAddress, if_pos hsection] at hvalue'
    exact hvalue'
  · intro h
    constructor
    · intro lines hlines hrepeated
      rcases h lines hlines with hhalts | ⟨hnodup, -⟩
      · exact (parse_eq_error hcfg hlines).mpr hhalts
      · exact absurd hnodup hrepeated
    · rintro lines s hlines hnodup hparse before line after label rfl hsome
      have hread : ¬Halts cfg (zeroResolver zero) (before ++ line :: after) := by
        rw [← parse_eq_error hcfg hlines, hparse]
        rintro ⟨e, ⟨⟩⟩
      obtain ⟨-, haligned⟩ := (h _ hlines).resolve_left hread
      obtain ⟨statement, hline, hlabel⟩ := lineLabel_eq_some.mp hsome
      obtain ⟨s₁, sym, hbefore, hsym, hsection, hvalue⟩ :=
        lookup_label hcfg hlines hnodup hparse hline hlabel
      refine ⟨s₁, sym, hbefore, hsym, hsection, hvalue.trans ?_⟩
      unfold definedValue
      by_cases hstatement : statement = []
      · rw [if_pos hstatement]
      · rw [if_neg hstatement, labelAddress]
        split
        · rename_i hdata
          exact (haligned before line after label statement s₁ rfl hbefore hline hlabel hstatement
            hdata).symm
        · rfl

theorem encodeBody_addsNone (text : Text) : (encodeBody text).AddsNone := by
  unfold encodeBody
  split
  · trivial
  · trivial

theorem ebreakConfig_addsLabels : ebreakConfig.AddsLabels := by
  intro line label statement hline _ _ address
  refine .inr ?_
  show if label = [] then (encodeEbreak address line).AddsNone else _
  rcases asmLine_cases hline with ⟨rest, hlabel, -⟩ | ⟨hlabel, rfl, -⟩
  · rw [if_neg (labelOf_ne_nil hlabel)]
    show ∃ size type binding other next, encodeEbreak address line = _ ∧ _
    rw [encodeEbreak, hlabel]
    exact ⟨_, _, _, _, _, rfl, encodeBody_addsNone rest, fun e => ⟨e, rfl⟩⟩
  · rw [if_pos rfl, encodeEbreak, hlabel]
    exact encodeBody_addsNone line

/-- All three kinds of labels, in all sections. -/
theorem plainSource_labelsConsistent : LabelsConsistent ebreakConfig none plainSource := by
  apply (labelsConsistent_iff ebreakConfig_addsLabels none plainSource).mpr
  intro lines hlines
  have hsource : logicalLines ebreakConfig [] plainSource = some (plainSource ++ [[]]) := by
    decide +kernel
  cases hlines.symm.trans hsource
  refine .inr ⟨by decide +kernel, ?_⟩
  intro before line after label statement s₁ _ _ _ _ _ _
  show _ = ebreakConfig.elfFileClass.truncate (lineAddress s₁)
  rw [show ebreakConfig.dataAddressUnit = 1 from rfl, UInt64.div_one]

/-- A label in front of two directives. -/
def repeatedSource : List Text := [".text".toList, "x: .bytes 1".toList, "x: .bytes 2".toList]

/-- An assembler whose data sections have addresses of four bytes. -/
def wideConfig : Config := { ebreakConfig with dataAddressUnit := 4 }

/-- A label in front of a directive, with four bytes before it. -/
def wideSource : List Text := [".data".toList, ".bytes 1, 2, 3, 4".toList, "x: .bytes 5".toList]

/-- What `Parse` returns for it. -/
def wideParsed : State := (parse wideConfig none wideSource .initial).toOption.getD .initial

/-- The repeated label is accepted, and the other one is at 4 where it would be at 1 if it stood
    alone on a line. -/
theorem not_labelsConsistent :
    ¬LabelsConsistent ebreakConfig none repeatedSource ∧
      ¬LabelsConsistent wideConfig none wideSource := by
  constructor
  · intro h
    have hok : (parse ebreakConfig none repeatedSource .initial).isOk = true := by decide +kernel
    have hsource : logicalLines ebreakConfig [] repeatedSource = some (repeatedSource ++ [[]]) := by
      decide +kernel
    obtain ⟨e, he⟩ := h.unique _ hsource (by decide +kernel)
    rw [he] at hok
    cases hok
  · intro h
    have hsource : logicalLines wideConfig [] wideSource = some (wideSource ++ [[]]) := by
      decide +kernel
    have hparse : parse wideConfig none wideSource .initial = .ok wideParsed :=
      eq_ok_getD (by decide +kernel) _
    have hnodup : (definitions (wideSource ++ [[]])).Nodup := by decide +kernel
    have hlabel : lineLabel "x: .bytes 5".toList = some ['x'] := by decide +kernel
    obtain ⟨s₁, sym, hbefore, hsym, -, hvalue⟩ := h.consistent _ _ hsource hnodup hparse
      (wideSource.take 2) _ [[]] _ rfl hlabel
    have haddress : wideConfig.elfFileClass.truncate (labelAddress wideConfig s₁ (lineAddress s₁)) =
        1 := by
      apply of_toOption_map hbefore
        (fun s => wideConfig.elfFileClass.truncate (labelAddress wideConfig s (lineAddress s)))
      decide +kernel
    have hfound : (wideParsed.lookup ['x']).map Symbol.value = some 4 := by
      apply of_toOption_map hparse fun s => (s.lookup ['x']).map Symbol.value
      decide +kernel
    rw [hsym] at hfound
    have hfour : sym.value = 4 := Option.some.inj hfound
    rw [hfour, haddress] at hvalue
    exact absurd hvalue (by decide)

end MpactSim.Asm
