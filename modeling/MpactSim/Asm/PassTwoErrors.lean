import MpactSim.Asm.Layout

namespace MpactSim.Asm

open Lib

/-!
# Errors of the second pass

`ParsePassTwo` declares a second `status` in the branches of its loop, so that the status it tests
is never the one of the line.  A line that is refused in the second pass is passed over, and a file
without its bytes is created.

* `Reports`                       — a line that is refused makes a call return an error;
* `createExecutable_reports_iff`  — when it does for executables;
* `createRelocatable_reports_iff` — when it does for relocatable files.
-/

variable {cfg : Config} {resolver : Resolver} {s u : State} {start : Section → UInt64}
  {line : Text}

/-! ### The specification -/

/-- What the second pass makes of a saved line. -/
def replay (cfg : Config) (resolver : Resolver) (u : State) (line : Text) : Outcome Unit :=
  parseText cfg resolver u line line (u.sectionAddress u.currentSection)

/-- The second pass comes to a saved line in the state `u`. -/
def Comes (cfg : Config) (resolver : Resolver) (s : State) (start : Section → UInt64) (u : State)
    (line : Text) : Prop :=
  ∃ before after relocations, s.lines = before ++ line :: after ∧
    before.foldlM (parsePassTwoLine cfg resolver) (beginPassTwo cfg s start, []) =
      .ok (u, relocations)

/-- If the processing of a saved line returns an error, so does the call. -/
def Reports {α : Type} (cfg : Config) (resolver : Resolver) (s : State) (start : Section → UInt64)
    (result : Except (Option Error) α) : Prop :=
  (∃ u line, Comes cfg resolver s start u line ∧
    ∃ e, (replay cfg resolver u line).status = .error e) → ∃ e, result = .error (some e)

/-! ### The conditions -/

/-- A line that is not refused: a directive that is read again, with a section if it has a label
    then, or a statement that the target assembler encodes. -/
def Accepted (cfg : Config) (resolver : Resolver) (u : State) (line : Text) : Prop :=
  if line.head? = some '.' then
    ∃ label directive keyword remainder d, asmLine line = some (label, directive) ∧
      directiveLine directive = some (keyword, remainder) ∧
      readDirective u directive keyword remainder = .ok d ∧
      (label ≠ [] → u.currentSection ≠ none)
  else
    ∃ size, ((cfg.encode (u.sectionAddress u.currentSection) line).perform cfg resolver u).status =
      .ok size

/-- A line that has bytes, and no relocations, where there is no section. -/
def Homeless (cfg : Config) (resolver : Resolver) (u : State) (line : Text) : Prop :=
  u.currentSection = none ∧ (replay cfg resolver u line).relocations = [] ∧
    (replay cfg resolver u line).bytes ≠ []

/-- The entry point is neither a number nor a symbol. -/
def NoEntry (resolver : Resolver) (u : State) (entryPoint : Text) : Prop :=
  (∃ e, simpleTextToInt false 64 entryPoint = .error e) ∧
    ((∃ digits, entryPoint = '0' :: 'x' :: digits) ∨
      ∃ e, (resolver.resolve u entryPoint).2 = .error e)

/-! ### One line -/

theorem parseAsmDirective_status_ok {address : UInt64} :
    (parseAsmDirective cfg u line address).status = .ok () ↔
      ∃ label directive keyword remainder d, asmLine line = some (label, directive) ∧
        directiveLine directive = some (keyword, remainder) ∧
        readDirective u directive keyword remainder = .ok d ∧
        (label ≠ [] → u.currentSection ≠ none) := by
  constructor
  · intro h
    cases hline : asmLine line with
    | none =>
      unfold parseAsmDirective at h
      simp only [hline] at h
      cases h
    | some p =>
      obtain ⟨keyword, remainder, d, hdir, hread, hlabel, -⟩ := parseAsmDirective_ok hline h
      exact ⟨p.1, p.2, keyword, remainder, d, rfl, hdir, hread, hlabel⟩
  · rintro ⟨label, directive, keyword, remainder, d, hline, hdir, hread, hlabel⟩
    unfold parseAsmDirective
    simp only [hline, hdir, hread]
    by_cases hempty : label = []
    · rw [if_pos hempty]
    · rw [if_neg hempty, if_neg (hlabel hempty)]

theorem parseAsmStatement_status_ok {address : UInt64} :
    (parseAsmStatement cfg resolver u line address).status = .ok () ↔
      ∃ size, ((cfg.encode address line).perform cfg resolver u).status = .ok size := by
  unfold parseAsmStatement
  cases hstatus : ((cfg.encode address line).perform cfg resolver u).status with
  | error e => simp [hstatus]
  | ok size => simp [hstatus]

theorem replay_status_ok : (replay cfg resolver u line).status = .ok () ↔
    Accepted cfg resolver u line := by
  unfold replay parseText Accepted
  split
  · exact parseAsmDirective_status_ok
  · exact parseAsmStatement_status_ok

theorem replay_status_error : (∃ e, (replay cfg resolver u line).status = .error e) ↔
    ¬Accepted cfg resolver u line := by
  rw [← replay_status_ok]
  cases (replay cfg resolver u line).status with
  | error e => simp
  | ok _ => simp

theorem parsePassTwoLine_eq_error {relocations : List RelocationInfo} :
    (∃ e, parsePassTwoLine cfg resolver (u, relocations) line = .error (some e)) ↔
      Homeless cfg resolver u line := by
  unfold parsePassTwoLine Homeless replay
  cases hcurrent : u.currentSection with
  | none =>
    simp only [hcurrent]
    generalize parseText cfg resolver u line line (u.sectionAddress none) = out
    by_cases hrelocations : out.relocations = []
    · by_cases hbytes : out.bytes = []
      · simp [hrelocations, hbytes]
      · simp [hrelocations, hbytes]
    · simp [hrelocations]
  | some sec =>
    simp only [hcurrent]
    simp

/-! ### The calls -/

theorem parsePassTwo_eq_error :
    (∃ e, parsePassTwo cfg resolver (beginPassTwo cfg s start) = .error (some e)) ↔
      ∃ u line, Comes cfg resolver s start u line ∧ Homeless cfg resolver u line := by
  constructor
  · rintro ⟨e, h⟩
    obtain ⟨before, line, after, ⟨u, relocations⟩, hlines, hbefore, hline⟩ :=
      foldlM_eq_error_iff.mp h
    exact ⟨u, line, ⟨before, after, relocations, hlines, hbefore⟩,
      parsePassTwoLine_eq_error.mp ⟨e, hline⟩⟩
  · rintro ⟨u, line, ⟨before, after, relocations, hlines, hbefore⟩, hhomeless⟩
    obtain ⟨e, he⟩ := parsePassTwoLine_eq_error.mpr hhomeless
    exact ⟨e, foldlM_eq_error_iff.mpr ⟨before, line, after, _, hlines, hbefore, he⟩⟩

theorem entryPoint_eq_error {entryPoint : Text} :
    (∃ e, (match simpleTextToInt false 64 entryPoint, entryPoint with
      | .ok value, _ => .ok (u, .ofNat value.toNat)
      | .error e, '0' :: 'x' :: _ => .error (some e)
      | .error _, _ =>
        match (resolver.resolve u entryPoint).2 with
        | .ok value => .ok (u, value)
        | .error _ => .error (some (invalid "Invalid argument: " entryPoint)) :
      Except (Option Error) (State × UInt64)) = .error (some e)) ↔
      NoEntry resolver u entryPoint := by
  unfold NoEntry
  cases hvalue : simpleTextToInt false 64 entryPoint with
  | ok value => simp
  | error e =>
    split
    · rename_i heq
      cases heq
    · simp
    · rename_i entry _ _ _ _ hnot
      cases hresolve : (resolver.resolve u entry).2 with
      | ok value => simpa [hresolve] using hnot
      | error e' => simp

theorem createExecutable_eq_error (hundefined : s.undefinedSymbols = []) (baseAddress : UInt64)
    (entryPoint : Text) (symbol : Option (Text → Except Error UInt64)) :
    (∃ e, createExecutable cfg s baseAddress entryPoint symbol = .error (some e)) ↔
      cfg.elfFileClass = .unsupported ∨
      (∃ u line, Comes cfg (symbolResolver symbol) s (segmentStart cfg s baseAddress) u line ∧
        Homeless cfg (symbolResolver symbol) u line) ∨
      ∃ u relocations, parsePassTwo cfg (symbolResolver symbol)
          (beginPassTwo cfg s (segmentStart cfg s baseAddress)) = .ok (u, relocations) ∧
        NoEntry (symbolResolver symbol) u entryPoint := by
  rw [← parsePassTwo_eq_error, createExecutable, if_neg (not_not.mpr hundefined)]
  by_cases hclass : cfg.elfFileClass = .unsupported
  · simp [hclass]
  · rw [if_neg hclass]
    simp only [bind_eq_error, exists_or, hclass, false_or]
    apply or_congr_right
    constructor
    · rintro ⟨e, ⟨u, relocations⟩, hpass, herror⟩
      exact ⟨u, relocations, hpass, entryPoint_eq_error.mp ⟨e, herror⟩⟩
    · rintro ⟨u, relocations, hpass, hentry⟩
      obtain ⟨e, herror⟩ := entryPoint_eq_error.mpr hentry
      exact ⟨e, ⟨u, relocations⟩, hpass, herror⟩

theorem relaSections_eq_error {relocations : List RelocationInfo} :
    (∃ e, relaSections u relocations = .error (some e)) ↔
      ∃ relocation ∈ relocations, u.lookup relocation.symbol = none := by
  unfold relaSections
  split
  · rename_i relocation hfind
    have hnone := List.find?_some hfind
    have hmem := List.mem_of_find?_eq_some hfind
    exact iff_of_true ⟨_, rfl⟩ ⟨relocation, hmem, by simpa using hnone⟩
  · rename_i hfind
    rw [List.find?_eq_none] at hfind
    apply iff_of_false
    · rintro ⟨e, ⟨⟩⟩
    · rintro ⟨relocation, hmem, hnone⟩
      exact hfind relocation hmem (by simp [hnone])

theorem createRelocatable_eq_error (symbol : Option (Text → Except Error UInt64)) :
    (∃ e, createRelocatable cfg s symbol = .error (some e)) ↔
      cfg.elfFileClass = .unsupported ∨
      (∃ u line, Comes cfg (symbolResolver symbol) s (fun _ => 0) u line ∧
        Homeless cfg (symbolResolver symbol) u line) ∨
      ∃ u relocations, parsePassTwo cfg (symbolResolver symbol) (beginPassTwo cfg s fun _ => 0) =
          .ok (u, relocations) ∧
        ∃ relocation ∈ relocations, u.lookup relocation.symbol = none := by
  rw [← parsePassTwo_eq_error, createRelocatable]
  by_cases hclass : cfg.elfFileClass = .unsupported
  · simp [hclass]
  · rw [if_neg hclass]
    simp only [bind_eq_error, exists_or, hclass, false_or]
    apply or_congr_right
    constructor
    · rintro ⟨e, ⟨u, relocations⟩, hpass, herror⟩
      rcases herror with herror | ⟨sections, -, ⟨⟩⟩
      exact ⟨u, relocations, hpass, relaSections_eq_error.mp ⟨e, herror⟩⟩
    · rintro ⟨u, relocations, hpass, hsymbol⟩
      obtain ⟨e, herror⟩ := relaSections_eq_error.mpr hsymbol
      exact ⟨e, ⟨u, relocations⟩, hpass, .inl herror⟩

/-! ### Which errors are reported -/

/-- A call that does not look at the status of the lines reports their errors only if there are
    none, or if it has another one. -/
theorem reports_iff {α : Type} {result : Except (Option Error) α} :
    Reports cfg resolver s start result ↔
      (∀ u line, Comes cfg resolver s start u line → Accepted cfg resolver u line) ∨
        ∃ e, result = .error (some e) := by
  unfold Reports
  simp only [replay_status_error]
  constructor
  · intro h
    by_cases haccepted : ∀ u line, Comes cfg resolver s start u line → Accepted cfg resolver u line
    · exact .inl haccepted
    · push Not at haccepted
      exact .inr (h haccepted)
  · rintro (haccepted | herror) ⟨u, line, hcomes, hrefused⟩
    · exact absurd (haccepted u line hcomes) hrefused
    · exact herror

theorem undefinedSymbols_parse {zero : Option (Text → Except Error UInt64)} {source : List Text}
    (h : parse cfg zero source .initial = .ok s) : s.undefinedSymbols = [] := by
  unfold parse at h
  obtain ⟨s₁, -, h⟩ := bind_eq_ok.mp h
  obtain ⟨s₂, -, h⟩ := bind_eq_ok.mp h
  cases h
  rfl

/-- **Errors of the second pass.** For a source that `Parse` accepts, the two calls report the error
    of a line in the second pass exactly if there is none, or if something else is wrong: the ELF
    class, bytes without a section, the entry point, or a relocation for an unknown symbol. -/
theorem create_reports_iff {zero symbol : Option (Text → Except Error UInt64)}
    {source : List Text} (hparse : parse cfg zero source .initial = .ok s) (baseAddress : UInt64)
    (entryPoint : Text) :
    (Reports cfg (symbolResolver symbol) s (segmentStart cfg s baseAddress)
        (createExecutable cfg s baseAddress entryPoint symbol) ↔
      (∀ u line, Comes cfg (symbolResolver symbol) s (segmentStart cfg s baseAddress) u line →
        Accepted cfg (symbolResolver symbol) u line) ∨
      cfg.elfFileClass = .unsupported ∨
      (∃ u line, Comes cfg (symbolResolver symbol) s (segmentStart cfg s baseAddress) u line ∧
        Homeless cfg (symbolResolver symbol) u line) ∨
      ∃ u relocations, parsePassTwo cfg (symbolResolver symbol)
          (beginPassTwo cfg s (segmentStart cfg s baseAddress)) = .ok (u, relocations) ∧
        NoEntry (symbolResolver symbol) u entryPoint) ∧
    (Reports cfg (symbolResolver symbol) s (fun _ => 0) (createRelocatable cfg s symbol) ↔
      (∀ u line, Comes cfg (symbolResolver symbol) s (fun _ => 0) u line →
        Accepted cfg (symbolResolver symbol) u line) ∨
      cfg.elfFileClass = .unsupported ∨
      (∃ u line, Comes cfg (symbolResolver symbol) s (fun _ => 0) u line ∧
        Homeless cfg (symbolResolver symbol) u line) ∨
      ∃ u relocations, parsePassTwo cfg (symbolResolver symbol) (beginPassTwo cfg s fun _ => 0) =
          .ok (u, relocations) ∧
        ∃ relocation ∈ relocations, u.lookup relocation.symbol = none) := by
  constructor
  · rw [reports_iff, createExecutable_eq_error (undefinedSymbols_parse hparse)]
  · rw [reports_iff, createRelocatable_eq_error]

theorem forall_comes_of_along {P : State → Text → Prop}
    (h : Along (settle (parsePassTwoLine cfg resolver)) (fun p line => P p.1 line)
      (beginPassTwo cfg s start, []) s.lines) (u : State) (line : Text)
    (hcomes : Comes cfg resolver s start u line) : P u line := by
  obtain ⟨before, after, relocations, hlines, hbefore⟩ := hcomes
  have hline := along_iff_forall.mp h before line after hlines
  rwa [run_settle_of_foldlM hbefore] at hline

theorem not_reports {α : Type} {result : Except (Option Error) α} (hok : result.isOk = true)
    {before after : List Text} (hlines : s.lines = before ++ line :: after)
    (hbefore : (before.foldlM (parsePassTwoLine cfg resolver)
      (beginPassTwo cfg s start, [])).isOk = true)
    (herror : ∀ u, ∃ e, (replay cfg resolver u line).status = .error e) :
    ¬Reports cfg resolver s start result := by
  intro h
  have hrun := eq_ok_getD hbefore (s, [])
  obtain ⟨e, he⟩ := h ⟨_, line, ⟨before, after, _, hlines, hrun⟩, herror _⟩
  rw [he] at hok
  cases hok

theorem accepted_of_isOk (h : (replay cfg resolver u line).status.isOk = true) :
    Accepted cfg resolver u line := replay_status_ok.mp (eq_ok_getD h ())

/-- A section and an instruction. -/
def ebreakSource : List Text := [".text".toList, "ebreak".toList]

/-- Both lines are accepted again. -/
theorem ebreakSource_reports :
    Reports ebreakConfig (symbolResolver none) (parsed ebreakSource) (fun _ => 0)
      (createRelocatable ebreakConfig (parsed ebreakSource) none) := by
  have hparse : parse ebreakConfig none ebreakSource .initial = .ok (parsed ebreakSource) :=
    eq_ok_getD (by decide +kernel) _
  apply (create_reports_iff hparse 0 []).2.mpr
  refine .inl (forall_comes_of_along ?_)
  have hlines : (parsed ebreakSource).lines = ebreakSource := by decide +kernel
  rw [hlines]
  exact ⟨accepted_of_isOk (by decide +kernel), accepted_of_isOk (by decide +kernel), trivial⟩

/-- `j x`, which resolves `x`. -/
def encodeJump (_ : UInt64) (_ : Text) : Encoding :=
  .resolve ['x'] fun
    | .ok _ => .done (.ok 4) [0x6f, 0x00, 0x00, 0x00] []
    | .error e => .done (.error e) [] []

/-- An assembler for it. -/
def jumpConfig : Config := { ebreakConfig with encode := encodeJump }

/-- A section and a jump. -/
def jumpSource : List Text := [".text".toList, "j x".toList]

/-- The state after it has been parsed. -/
def jumpParsed : State := (parse jumpConfig none jumpSource .initial).toOption.getD .initial

/-- A resolver that does not know any symbol. -/
def unknownSymbol (name : Text) : Except Error UInt64 := .error (invalid "Unknown symbol: " name)

/-- The jump is refused in the second pass, and both files are created without it. -/
theorem jumpSource_not_reports :
    parse jumpConfig none jumpSource .initial = .ok jumpParsed ∧
      ¬Reports jumpConfig (symbolResolver (some unknownSymbol)) jumpParsed
        (segmentStart jumpConfig jumpParsed 0)
        (createExecutable jumpConfig jumpParsed 0 ['0'] (some unknownSymbol)) ∧
      ¬Reports jumpConfig (symbolResolver (some unknownSymbol)) jumpParsed (fun _ => 0)
        (createRelocatable jumpConfig jumpParsed (some unknownSymbol)) := by
  have hlines : jumpParsed.lines = [".text".toList] ++ "j x".toList :: [] := by decide +kernel
  have hrefused (u : State) :
      ∃ e, (replay jumpConfig (symbolResolver (some unknownSymbol)) u "j x".toList).status =
        .error e := ⟨invalid "Unknown symbol: " ['x'], rfl⟩
  refine ⟨eq_ok_getD (by decide +kernel) _, ?_, ?_⟩
  · exact not_reports (by decide +kernel) hlines (by decide +kernel) hrefused
  · exact not_reports (by decide +kernel) hlines (by decide +kernel) hrefused

end MpactSim.Asm