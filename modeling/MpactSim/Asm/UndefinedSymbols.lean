import MpactSim.Asm.PassTwoErrors
import MpactSim.Lib.ForwardReferences

namespace MpactSim.Asm

open Lib

/-!
# Undefined symbols

The default resolver of the first pass takes a note of the symbols that are not defined yet, and
`AddSymbol` takes them out again.  At the end of `Parse` what is left goes into the symbol table, as
symbols of the null section, and the notes are cleared before `CreateExecutable` looks at them.

* `mentions`             — the references and definitions of the lines, in their order;
* `names_run`            — the first pass keeps a table of forward references;
* `RejectsUndefined`     — executables are refused exactly for undefined symbols;
* `rejectsUndefined_iff` — when they are.
-/

variable {cfg : Config} {s s' : State} {name : Text} {line : Text} {lines : List Text}

/-! ### References and definitions -/

/-- The symbols that a call of `Encode` asks the default resolver for, and those that it adds. -/
def Encoding.mentions (cfg : Config) (s : State) : Encoding → List (Mention Text)
  | .done _ _ _ => []
  | .resolve name next => .refers name :: (next (.ok 0)).mentions cfg (s.simpleAddSymbol name)
  | .addSymbol name value size type binding other next =>
    let (s', answer) := s.addSymbol cfg name value size type binding other s.currentSection
    .defines name s.currentSection.isSome :: (next answer).mentions cfg s'

/-- The references and definitions of a line: its label, unless the target assembler adds that. -/
def lineMentions (cfg : Config) (s : State) (line : Text) : List (Mention Text) :=
  match asmLine line with
  | none => []
  | some (label, statement) =>
    if statement = [] ∨ statement.head? = some '.' then
      if label = [] then [] else [.defines label s.currentSection.isSome]
    else (cfg.encode (lineAddress s) line).mentions cfg s

/-- The references and definitions of a run of the first pass with the default resolver. -/
def mentions (cfg : Config) : State → List Text → List (Mention Text)
  | _, [] => []
  | s, line :: rest =>
    lineMentions cfg s line ++ mentions cfg (settle (parseLine cfg .zero) s line) rest

/-- The name of a section, or one that a line defines. -/
def Defined (mentioned : List (Mention Text)) (name : Text) : Prop :=
  (∃ sec : Section, name = sec.name) ∨ ∃ settles, .defines name settles ∈ mentioned

/-! ### The specification -/

/-- `Parse` and `CreateExecutable` with the default resolvers. -/
def assemble (cfg : Config) (source : List Text) (baseAddress : UInt64) (entryPoint : Text) :
    Except (Option Error) (State × UInt64) :=
  match parse cfg none source .initial with
  | .error e => .error (some e)
  | .ok s => createExecutable cfg s baseAddress entryPoint none

/-- The error of `CreateExecutable` for undefined symbols. -/
def undefinedError (names : List Text) : Error :=
  invalid "Cannot create executable with the following undefined symbols: "
    (names.flatMap fun symbol => "    ".toList ++ symbol ++ ['\n'])

/-- The error of `Parse` for an undefined symbol. -/
def notAddedError (name : Text) (message : String) : Error :=
  ⟨.internal, "Failed to add undefined symbol '" ++ String.ofList name ++ "': " ++ message⟩

/-- The references and definitions of a source. -/
def sourceMentions (cfg : Config) (source : List Text) : List (Mention Text) :=
  mentions cfg .initial ((logicalLines cfg [] source).getD [])

/-- A line of the source is refused for a reason of its own. -/
def Refused (cfg : Config) (source : List Text) : Prop :=
  ∃ e, parseLines cfg .zero [] .initial source = .error e

/-- A reference to a symbol that no line defines is an error, which names such a symbol; without one
    there is no error about undefined symbols.  The error of a line comes before both. -/
structure RejectsUndefined (cfg : Config) (source : List Text)
    (result : Except (Option Error) (State × UInt64)) : Prop where
  rejects : (∃ name, .refers name ∈ sourceMentions cfg source ∧
      ¬Defined (sourceMentions cfg source) name) →
    (∃ e, result = .error (some e)) ∧
      (Refused cfg source ∨ ∃ names, (∃ name ∈ names, ¬Defined (sourceMentions cfg source) name) ∧
        result = .error (some (undefinedError names)))
  accepts : (∀ name, .refers name ∈ sourceMentions cfg source →
      Defined (sourceMentions cfg source) name) →
    Refused cfg source ∨ (∀ names, result ≠ .error (some (undefinedError names))) ∧
      ∀ name message, result ≠ .error (some (notAddedError name message))

/-- A reference to a symbol stands before the first definition of it, which is made in the null
    section. -/
def Stranded (mentioned : List (Mention Text)) (name : Text) : Prop :=
  (∀ sec : Section, name ≠ sec.name) ∧ Unsettled mentioned name

/-! ### The table of names -/

/-- The names in the symbol table, and those that have been noted. -/
def State.names (s : State) : Names Text := ⟨s.symtab.map Symbol.name, s.undefinedSymbols⟩

theorem lookup_isSome : (s.lookup name).isSome ↔ name ∈ s.names.defined := by
  rw [State.lookup, List.find?_isSome, State.names, List.mem_map]
  simp

theorem names_initial : State.initial.names = ⟨[.text, .data, .bss].map Section.name, []⟩ := rfl

theorem names_addSymbol (value size : UInt64) (type binding other : UInt8)
    (sec : Option Section) :
    (s.addSymbol cfg name value size type binding other sec).1.names =
      s.names.step (.defines name sec.isSome) := by
  rw [Names.step, State.addSymbol]
  cases hlookup : s.lookup name with
  | some sym =>
    rw [if_pos (lookup_isSome.mp (by rw [hlookup]; rfl))]
  | none =>
    rw [if_neg (mt lookup_isSome.mpr (by rw [hlookup]; simp))]
    cases sec with
    | none => simp [State.names]
    | some sec => simp [State.names]

theorem addSymbol_isOk (value size : UInt64) (type binding other : UInt8) (sec : Option Section) :
    (s.addSymbol cfg name value size type binding other sec).2 = .ok () ↔
      name ∉ s.names.defined := by
  rw [State.addSymbol]
  cases hlookup : s.lookup name with
  | some sym =>
    have hold : name ∈ s.names.defined := lookup_isSome.mp (by rw [hlookup]; rfl)
    simp [hold]
  | none =>
    have hnew : name ∉ s.names.defined := mt lookup_isSome.mpr (by rw [hlookup]; simp)
    simp [hnew]

theorem names_simpleAddSymbol : (s.simpleAddSymbol name).names = s.names.step (.refers name) := by
  rw [Names.step, State.simpleAddSymbol]
  simp only [lookup_isSome]
  show State.names (if name ∈ s.names.defined ∨ name ∈ s.undefinedSymbols then s else _) =
    if name ∈ s.names.defined ∨ name ∈ s.undefinedSymbols then s.names else _
  split
  · rfl
  · rfl

theorem names_perform (encoding : Encoding) :
    (encoding.perform cfg .zero s).state.names =
      run Names.step s.names (encoding.mentions cfg s) := by
  induction encoding generalizing s with
  | done result bytes relocations => rfl
  | resolve name next ih =>
    show ((next (.ok 0)).perform cfg .zero (s.simpleAddSymbol name)).state.names = _
    rw [ih, names_simpleAddSymbol]
    rfl
  | addSymbol name value size type binding other next ih =>
    show ((next (s.addSymbol cfg name value size type binding other s.currentSection).2).perform
      cfg .zero (s.addSymbol cfg name value size type binding other s.currentSection).1).state.names
        = _
    rw [ih, names_addSymbol]
    rfl

theorem names_apply (s : State) (d : Directive) : (d.apply s).names = s.names := by
  unfold Directive.apply
  split
  · rfl
  · rfl

/-- **Step lemma.** A line that is accepted makes its references and definitions in the table. -/
theorem names_parseLine (h : parseLine cfg .zero s line = .ok s') :
    s'.names = run Names.step s.names (lineMentions cfg s line) := by
  obtain ⟨label, statement, hline, htext | hlabel | hblank⟩ := parseLine_cases h
  · -- A directive or a statement, with a label or without.
    obtain ⟨hstatement, hok, rfl⟩ := htext
    show (parseText cfg .zero s statement line (lineAddress s)).state.names = _
    unfold lineMentions
    simp only [hline]
    unfold parseText at hok ⊢
    by_cases hhead : statement.head? = some '.'
    · rw [if_pos hhead] at hok ⊢
      rw [if_pos (.inr hhead)]
      obtain ⟨keyword, remainder, d, -, -, hsection, hstate⟩ := parseAsmDirective_ok hline hok
      have hnames := names_apply s d
      rw [hstate]
      by_cases hempty : label = []
      · rw [if_pos hempty, if_pos hempty]
        exact hnames
      · rw [if_neg hempty, if_neg hempty, names_addSymbol, hnames]
        rfl
    · rw [if_neg hhead] at hok ⊢
      rw [if_neg (by simp [hstatement, hhead]), ← names_perform]
      show State.names (parseAsmStatement cfg .zero s line (lineAddress s)).state = _
      unfold parseAsmStatement
      cases hstatus : ((cfg.encode (lineAddress s) line).perform cfg .zero s).status with
      | error e => simp only [hstatus]
      | ok size =>
        simp only [hstatus]
        rfl
  · obtain ⟨rfl, hne, -, rfl⟩ := hlabel
    unfold lineMentions
    simp only [hline, true_or, if_true, if_neg hne]
    rw [names_addSymbol]
    rfl
  · obtain ⟨rfl, rfl, rfl⟩ := hblank
    unfold lineMentions
    simp only [hline, true_or, if_true]
    rfl

/-- **Run lemma.** The first pass keeps a table of forward references. -/
theorem names_run (h : lines.foldlM (parseLine cfg .zero) s = .ok s') :
    s'.names = run Names.step s.names (mentions cfg s lines) := by
  induction lines generalizing s with
  | nil =>
    cases h
    rfl
  | cons line rest ih =>
    rw [List.foldlM_cons] at h
    obtain ⟨mid, hline, hrest⟩ := bind_eq_ok.mp h
    have hsettle : settle (parseLine cfg .zero) s line = mid := by
      rw [settle, hline]
      rfl
    rw [mentions, hsettle, run_append, ← names_parseLine hline]
    exact ih hrest

/-! ### The end of the first pass -/

variable {e : Error} {source : List Text}

theorem addUndefinedSymbols_error {names : List Text}
    (h : addUndefinedSymbols cfg s names = .error e) :
    ∃ name message, e = notAddedError name message := by
  induction names generalizing s with
  | nil => cases h
  | cons name rest ih =>
    unfold addUndefinedSymbols at h
    split at h
    · rename_i e' _
      cases h
      exact ⟨name, e'.message, rfl⟩
    · exact ih h

theorem addUndefinedSymbols_isOk {names : List Text} (hnodup : names.Nodup) :
    (∃ s', addUndefinedSymbols cfg s names = .ok s') ↔ ∀ name ∈ names, name ∉ s.names.defined := by
  induction names generalizing s with
  | nil => exact iff_of_true ⟨s, rfl⟩ fun _ h => absurd h List.not_mem_nil
  | cons name rest ih =>
    obtain ⟨hname, hrest⟩ := List.nodup_cons.mp hnodup
    rw [List.forall_mem_cons, addUndefinedSymbols]
    have hnames : (s.addSymbol cfg name 0 0 sttNotype 0 0 none).1.names = _ :=
      names_addSymbol 0 0 sttNotype 0 0 none
    have hstatus : (s.addSymbol cfg name 0 0 sttNotype 0 0 none).2 = .ok () ↔ _ :=
      addSymbol_isOk 0 0 sttNotype 0 0 none
    cases hadd : s.addSymbol cfg name 0 0 sttNotype 0 0 none with
    | mk s₁ answer =>
      rw [hadd] at hnames hstatus
      cases answer with
      | error e =>
        have hold : ¬name ∉ s.names.defined := mt hstatus.mpr (by simp)
        apply iff_of_false
        · rintro ⟨s', ⟨⟩⟩
        · exact fun h => hold h.1
      | ok _ =>
        have hnew : name ∉ s.names.defined := hstatus.mp rfl
        have hdefined : s₁.names.defined = s.names.defined ++ [name] := by
          rw [hnames, Names.step, if_neg hnew]
        show (∃ s', addUndefinedSymbols cfg s₁ rest = .ok s') ↔ _
        rw [ih hrest, hdefined, and_iff_right hnew]
        refine forall₂_congr fun other hother => ?_
        have hne : other ≠ name := by
          rintro rfl
          exact hname hother
        simp [hne]

/-! ### Executables -/

/-- The first character of the message of an error. -/
def Error.initial (e : Error) : Option Char := e.message.toList.head?

theorem initial_invalid {message : String} (text : Text) {c : Char}
    (h : message.toList.head? = some c) : (invalid message text).initial = some c := by
  simp [Error.initial, invalid, h]

theorem initial_undefinedError (names : List Text) : (undefinedError names).initial = some 'C' :=
  initial_invalid _ rfl

theorem initial_notAddedError (name : Text) (message : String) :
    (notAddedError name message).initial = some 'F' := by
  simp [Error.initial, notAddedError]

theorem initial_simpleTextToInt {signed : Bool} {width : Nat} {text : Text}
    (h : simpleTextToInt signed width text = .error e) : e.initial = some 'I' := by
  unfold simpleTextToInt at h
  split at h
  · split at h
    · cases h
    · cases h
      exact initial_invalid _ rfl
  · split at h
    · cases h
    · cases h
      exact initial_invalid _ rfl

theorem initial_parsePassTwo {resolver : Resolver}
    (h : parsePassTwo cfg resolver s = .error (some e)) : e.initial = some 'D' := by
  obtain ⟨before, line, after, ⟨u, relocations⟩, -, -, hline⟩ := foldlM_eq_error_iff.mp h
  unfold parsePassTwoLine at hline
  dsimp only at hline
  split at hline
  · split at hline
    · cases hline
    · split at hline
      · cases hline
      · cases hline
        rfl
  · cases hline

/-- Once the notes are cleared, the errors of `CreateExecutable` are about other things. -/
theorem initial_createExecutable (hundefined : s.undefinedSymbols = []) {baseAddress : UInt64}
    {entryPoint : Text} {resolver : Option (Text → Except Error UInt64)}
    (h : createExecutable cfg s baseAddress entryPoint resolver = .error (some e)) :
    e.initial ≠ some 'C' ∧ e.initial ≠ some 'F' := by
  rw [createExecutable, if_neg (not_not.mpr hundefined)] at h
  by_cases hclass : cfg.elfFileClass = .unsupported
  · rw [if_pos hclass] at h
    cases h
    decide
  · rw [if_neg hclass] at h
    rcases bind_eq_error.mp h with hpass | ⟨⟨u, relocations⟩, -, hentry⟩
    · rw [initial_parsePassTwo hpass]
      decide
    · have hinitial : e.initial = some 'I' := by
        dsimp only at hentry
        split at hentry
        · cases hentry
        · rename_i hvalue
          cases hentry
          exact initial_simpleTextToInt hvalue
        · split at hentry
          · cases hentry
          · cases hentry
            exact initial_invalid _ rfl
      rw [hinitial]
      decide

/-! ### Which sources are treated so -/

theorem mem_initial_names :
    name ∈ State.initial.names.defined ↔ ∃ sec : Section, name = sec.name := by
  simp only [names_initial, List.mem_map, List.mem_cons, List.not_mem_nil, or_false]
  constructor
  · rintro ⟨sec, -, rfl⟩
    exact ⟨sec, rfl⟩
  · rintro ⟨sec, rfl⟩
    refine ⟨sec, ?_, rfl⟩
    cases sec
    · exact .inl rfl
    · exact .inr (.inl rfl)
    · exact .inr (.inr rfl)

theorem names_parseLines (h : parseLines cfg .zero [] .initial source = .ok s) :
    s.names = run Names.step State.initial.names (sourceMentions cfg source) := by
  obtain ⟨lines, hlines, hrun⟩ := parseLines_ok h
  rw [sourceMentions, hlines]
  exact names_run hrun

theorem stranded_iff (h : parseLines cfg .zero [] .initial source = .ok s) :
    Stranded (sourceMentions cfg source) name ↔
      name ∈ s.undefinedSymbols ∧ name ∈ s.names.defined := by
  show _ ↔ name ∈ s.names.waiting ∧ name ∈ s.names.defined
  rw [names_parseLines h, Stranded]
  by_cases hsec : name ∈ State.initial.names.defined
  · have hnot : name ∉ (run Names.step State.initial.names
        (sourceMentions cfg source)).waiting := not_mem_waiting hsec
    apply iff_of_false
    · obtain ⟨sec, rfl⟩ := mem_initial_names.mp hsec
      exact fun h => h.1 sec rfl
    · exact fun h => hnot h.1
  · have hnone : ∀ sec : Section, name ≠ sec.name := fun sec hname =>
      hsec (mem_initial_names.mpr ⟨sec, hname⟩)
    rw [and_iff_right hnone]
    exact (waits_defined_iff hsec).symm

/-- `Parse` fails at its end, or the notes are cleared before `CreateExecutable` is called. -/
theorem assemble_cases (h : parseLines cfg .zero [] .initial source = .ok s) (baseAddress : UInt64)
    (entryPoint : Text) :
    ((∃ name, Stranded (sourceMentions cfg source) name) ∧ ∃ name message,
      assemble cfg source baseAddress entryPoint = .error (some (notAddedError name message))) ∨
    ((∀ name, ¬Stranded (sourceMentions cfg source) name) ∧ ∃ s' : State,
      s'.undefinedSymbols = [] ∧ assemble cfg source baseAddress entryPoint =
        createExecutable cfg s' baseAddress entryPoint none) := by
  have hnodup : s.undefinedSymbols.Nodup := by
    show s.names.waiting.Nodup
    rw [names_parseLines h]
    exact nodup_waiting_run
  have hparse : parse cfg none source .initial = (do
      let s ← addUndefinedSymbols cfg s s.undefinedSymbols
      .ok { s with undefinedSymbols := [], bssSize := s.sectionAddress (some .bss) }) := by
    show (parseLines cfg .zero [] .initial source >>= _) = _
    rw [h]
    rfl
  have hadded : (∃ s', addUndefinedSymbols cfg s s.undefinedSymbols = .ok s') ↔
      ∀ name, ¬Stranded (sourceMentions cfg source) name := by
    rw [addUndefinedSymbols_isOk hnodup]
    simp only [stranded_iff h, not_and]
  unfold assemble
  rw [hparse]
  cases hadd : addUndefinedSymbols cfg s s.undefinedSymbols with
  | error e =>
    -- A name that waits is in the symbol table, so it is stranded.
    rw [hadd] at hadded
    obtain ⟨name, message, rfl⟩ := addUndefinedSymbols_error hadd
    refine .inl ⟨?_, name, message, rfl⟩
    by_contra hnone
    obtain ⟨s', ⟨⟩⟩ := hadded.mpr (not_exists.mp hnone)
  | ok s₂ => exact .inr ⟨hadded.mp ⟨s₂, hadd⟩, _, rfl, rfl⟩

theorem not_refused (h : parseLines cfg .zero [] .initial source = .ok s) :
    ¬Refused cfg source := by
  rintro ⟨e, he⟩
  rw [h] at he
  cases he

/-- **Undefined symbols.** They are rejected exactly in the sources that refer to defined symbols
    only, and define in a section those that they refer to before; or that are refused anyway. -/
theorem rejectsUndefined_iff (cfg : Config) (source : List Text) (baseAddress : UInt64)
    (entryPoint : Text) :
    RejectsUndefined cfg source (assemble cfg source baseAddress entryPoint) ↔
      Refused cfg source ∨
        (∀ name, .refers name ∈ sourceMentions cfg source →
          Defined (sourceMentions cfg source) name) ∧
        ∀ name, ¬Stranded (sourceMentions cfg source) name := by
  cases hparse : parseLines cfg .zero [] .initial source with
  | error e =>
    have hrefused : Refused cfg source := ⟨e, hparse⟩
    have hresult : assemble cfg source baseAddress entryPoint = .error (some e) := by
      have herror : parse cfg none source .initial = .error e :=
        bind_eq_error.mpr (.inl hparse)
      rw [assemble, herror]
    apply iff_of_true
    · exact ⟨fun _ => ⟨⟨e, hresult⟩, .inl hrefused⟩, fun _ => .inl hrefused⟩
    · exact .inl hrefused
  | ok s =>
    have hread := not_refused hparse
    rw [or_iff_right hread]
    rcases assemble_cases hparse baseAddress entryPoint with
      ⟨⟨stranded, hstranded⟩, other, message, hresult⟩ | ⟨hnone, s', hcleared, hresult⟩
    · -- The error at the end of `Parse` names a symbol that is defined.
      apply iff_of_false
      · intro h
        by_cases hdefined : ∀ name, .refers name ∈ sourceMentions cfg source →
            Defined (sourceMentions cfg source) name
        · exact ((h.accepts hdefined).resolve_left hread).2 other message hresult
        · push Not at hdefined
          obtain ⟨names, -, hnames⟩ := (h.rejects hdefined).2.resolve_left hread
          rw [hresult] at hnames
          cases hnames
      · exact fun h => h.2 stranded hstranded
    · -- Nothing is left to report.
      have hinitial {e : Error}
          (he : assemble cfg source baseAddress entryPoint = .error (some e)) :
          e.initial ≠ some 'C' ∧ e.initial ≠ some 'F' :=
        initial_createExecutable hcleared (hresult ▸ he)
      rw [and_iff_left hnone]
      constructor
      · intro h
        by_contra hdefined
        push Not at hdefined
        obtain ⟨names, -, hnames⟩ := (h.rejects hdefined).2.resolve_left hread
        exact (hinitial hnames).1 (initial_undefinedError names)
      · intro hdefined
        constructor
        · rintro ⟨name, hrefers, hundefined⟩
          exact absurd (hdefined name hrefers) hundefined
        · refine fun _ => .inr ⟨fun names hnames => ?_, fun name message hname => ?_⟩
          · exact (hinitial hnames).1 (initial_undefinedError names)
          · exact (hinitial hname).2 (initial_notAddedError name message)

/-- A jump before the section and its symbol. -/
def strandedSource : List Text := ["j x".toList, "x:".toList]

/-- What the loop of `Parse` returns for it. -/
def strandedParsed : State :=
  (parseLines jumpConfig .zero [] .initial strandedSource).toOption.getD .initial

/-- The executable with a jump to an undefined symbol is created; a defined one is reported. -/
theorem not_rejectsUndefined :
    ¬RejectsUndefined jumpConfig jumpSource (assemble jumpConfig jumpSource 0 ['0']) ∧
      ¬RejectsUndefined jumpConfig strandedSource (assemble jumpConfig strandedSource 0 ['0']) := by
  have hsection (sec : Section) : ['x'] ≠ sec.name := by
    cases sec
    · decide
    · decide
    · decide
  constructor
  · have hmentions : sourceMentions jumpConfig jumpSource = [.refers ['x']] := by decide +kernel
    have hundefined : ¬Defined [.refers ['x']] ['x'] := by
      rintro (⟨sec, hsec⟩ | ⟨settles, hmem⟩)
      · exact hsection sec hsec
      · simp at hmem
    intro h
    have hok : (assemble jumpConfig jumpSource 0 ['0']).isOk = true := by decide +kernel
    obtain ⟨⟨e, he⟩, -⟩ := h.rejects ⟨['x'], by simp [hmentions], by rwa [hmentions]⟩
    rw [he] at hok
    cases hok
  · have hmentions : sourceMentions jumpConfig strandedSource =
        [.refers ['x'], .defines ['x'] false] := by decide +kernel
    have hparse : parseLines jumpConfig .zero [] .initial strandedSource = .ok strandedParsed :=
      eq_ok_getD (by decide +kernel) _
    have hread := not_refused hparse
    have hstranded : Stranded (sourceMentions jumpConfig strandedSource) ['x'] := by
      rw [hmentions]
      exact ⟨hsection, [], [], [], rfl, by simp⟩
    intro h
    have hdefined (name : Text) (hname : .refers name ∈ sourceMentions jumpConfig strandedSource) :
        Defined (sourceMentions jumpConfig strandedSource) name := by
      rw [hmentions] at hname ⊢
      have heq : name = ['x'] := by simpa using hname
      exact .inr ⟨false, by simp [heq]⟩
    rcases assemble_cases hparse 0 ['0'] with ⟨-, name, message, hresult⟩ | ⟨hnone, -⟩
    · exact ((h.accepts hdefined).resolve_left hread).2 name message hresult
    · exact hnone _ hstranded

end MpactSim.Asm
