import MpactSim.Asm.Passes

namespace MpactSim.Asm

open Lib

/-!
# Runs of the two passes

What holds of `Parse` and of the second pass whatever the source is: the first pass is a
run over the logical lines of the source and saves their statements, neither pass takes
anything back, and both ways to create a file replay the saved lines.
-/

variable {cfg : Config} {s : State}

/-! ### Texts -/

theorem head?_dropWhile_isSpace {text : Text} {c : Char}
    (h : (text.dropWhile isSpace).head? = some c) : isSpace c = false := by
  have hne : text.dropWhile isSpace ≠ [] := by
    intro hnil
    rw [hnil] at h
    cases h
  have hhead := List.head_dropWhile_not isSpace hne
  rw [List.head?_eq_some_head hne] at h
  cases h
  exact hhead

variable {statement line label : Text} {resolver : Resolver} {s' u u' : State} {lines : List Text}
  {relocations relocations' : List RelocationInfo}

/-- A capture of a line's rest starts with no white space and holds no newline. -/
theorem restOfLine_idem {text : Text} (h : restOfLine text = some statement) :
    restOfLine statement = some statement := by
  unfold restOfLine at h
  dsimp only at h
  split at h
  · have hst := Option.some.inj h
    have hdrop : statement.dropWhile isSpace = statement := by
      cases hcons : statement with
      | nil => rfl
      | cons c rest =>
        rw [List.dropWhile_cons_of_neg]
        have hbody : (text.dropWhile isSpace).head? = some c := by
          rw [hcons] at hst
          cases hb : text.dropWhile isSpace with
          | nil =>
            rw [hb] at hst
            cases hst
          | cons b body =>
            rw [hb, List.takeWhile_cons] at hst
            split at hst
            · cases hst
              rfl
            · cases hst
        simp [head?_dropWhile_isSpace hbody]
    have hall : ∀ c ∈ statement, decide (c ≠ '\n') = true := by
      rw [← hst]
      exact fun c hc => List.mem_takeWhile_imp (p := fun c => decide (c ≠ '\n')) hc
    unfold restOfLine
    simp only [hdrop]
    rw [List.takeWhile_eq_self_iff.mpr hall, List.dropWhile_eq_nil_iff.mpr hall]
    simp
  · cases h

theorem asmLine_cases (h : asmLine line = some (label, statement)) :
    (∃ rest, labelOf line = some (label, rest) ∧ restOfLine rest = some statement) ∨
      (labelOf line = none ∧ label = [] ∧ restOfLine line = some statement) := by
  unfold asmLine at h
  split at h
  · obtain ⟨x, hx, hpair⟩ := Option.map_eq_some_iff.mp h
    cases hpair
    exact .inl ⟨_, ‹_›, hx⟩
  · obtain ⟨x, hx, hpair⟩ := Option.map_eq_some_iff.mp h
    cases hpair
    exact .inr ⟨‹_›, rfl, hx⟩

theorem asmLine_of_labelOf_eq_none (hline : asmLine line = some (label, statement))
    (h : labelOf statement = none) : asmLine statement = some ([], statement) := by
  have hrest : restOfLine statement = some statement := by
    rcases asmLine_cases hline with ⟨rest, -, hrest⟩ | ⟨-, -, hrest⟩
    · exact restOfLine_idem hrest
    · exact restOfLine_idem hrest
  unfold asmLine
  simp only [h, hrest, Option.map_some]

theorem labelOf_ne_nil {rest : Text} (h : labelOf line = some (label, rest)) : label ≠ [] := by
  unfold labelOf at h
  dsimp only at h
  split at h
  · cases h
  · rename_i hword
    cases h
    exact hword
  · obtain ⟨⟨label', after⟩, hsplit, hpair⟩ := Option.map_eq_some_iff.mp h
    cases hpair
    unfold splitLastColon at hsplit
    dsimp only at hsplit
    split at hsplit
    · cases hsplit
      exact List.reverse_ne_nil_iff.mpr (List.cons_ne_nil _ _)
    · cases hsplit

/-! ### The first pass -/

/-- The lines that `Parse` works on: comments are gone, escaped newlines join. -/
def logicalLines (cfg : Config) : Text → List Text → Option (List Text)
  | pending, [] => some [pending]
  | pending, tmp :: rest =>
    match cfg.commentRe tmp with
    | none => none
    | some (code, suffix) =>
      if (code ++ suffix).getLast? = some '\\' then
        logicalLines cfg (pending ++ (code ++ suffix) ++ ['\n']) rest
      else (logicalLines cfg [] rest).map ((pending ++ (code ++ suffix)) :: ·)

/-- The address at which a line stands in the first pass. -/
def lineAddress (s : State) : UInt64 :=
  if s.currentSection = none then 0 else s.sectionAddress s.currentSection

/-- What the first pass does with a line. -/
theorem parseLine_cases (h : parseLine cfg resolver s line = .ok s') :
    ∃ label statement, asmLine line = some (label, statement) ∧
      ((statement ≠ [] ∧
          (parseText cfg resolver s statement line (lineAddress s)).status = .ok () ∧
          s' = { (parseText cfg resolver s statement line (lineAddress s)).state with
            lines := s.lines ++ [statement] }) ∨
        (statement = [] ∧ label ≠ [] ∧ s.lookup label = none ∧
          s' = (s.addSymbol cfg label (labelAddress cfg s (lineAddress s)) 0 sttNotype 0 0
            s.currentSection).1) ∨
        (statement = [] ∧ label = [] ∧ s' = s)) := by
  unfold parseLine at h
  by_cases hline : line = []
  · rw [if_pos hline] at h
    cases h
    exact ⟨[], [], by rw [hline]; rfl, .inr (.inr ⟨rfl, rfl, rfl⟩)⟩
  rw [if_neg hline] at h
  cases hasm : asmLine line with
  | none =>
    simp only [hasm] at h
    cases h
  | some p =>
    obtain ⟨label, statement⟩ := p
    refine ⟨label, statement, rfl, ?_⟩
    simp only [hasm] at h
    by_cases hstatement : statement = []
    · rw [if_neg (not_not.mpr hstatement)] at h
      by_cases hlabel : label = []
      · rw [if_neg (not_not.mpr hlabel)] at h
        cases h
        exact .inr (.inr ⟨hstatement, hlabel, rfl⟩)
      · rw [if_pos hlabel] at h
        split at h
        · cases h
        · cases h
          exact .inr (.inl ⟨hstatement, hlabel, State.lookup_of_addSymbol_ok ‹_›, rfl⟩)
    · rw [if_pos hstatement] at h
      split at h
      · cases h
      · cases h
        refine .inl ⟨hstatement, ‹_›, ?_⟩
        rw [lineAddress, (extends_parseText cfg resolver s statement
          line _).lines]

/-- The saved text of a line. -/
def saved (line : Text) : List Text :=
  match asmLine line with
  | some (_, []) => []
  | some (_, statement) => [statement]
  | none => []

theorem saved_of_ne_nil (hline : asmLine line = some (label, statement)) (h : statement ≠ []) :
    saved line = [statement] := by
  unfold saved
  rw [hline]
  cases statement with
  | nil => exact absurd rfl h
  | cons c rest => rfl

theorem lines_parseLine (h : parseLine cfg resolver s line = .ok s') :
    s'.lines = s.lines ++ saved line := by
  obtain ⟨label, statement, hline, htext | hlabel | hblank⟩ := parseLine_cases h
  · obtain ⟨hstatement, -, rfl⟩ := htext
    rw [saved_of_ne_nil hline hstatement]
  · obtain ⟨rfl, -, -, rfl⟩ := hlabel
    unfold saved
    rw [hline, (State.extends_addSymbol ..).lines]
    exact (List.append_nil _).symm
  · obtain ⟨rfl, -, rfl⟩ := hblank
    unfold saved
    rw [hline]
    exact (List.append_nil _).symm

theorem extends_parseLine (h : parseLine cfg resolver s line = .ok s') :
    s.Extends { s' with lines := s.lines } := by
  obtain ⟨label, statement, -, htext | hlabel | hblank⟩ := parseLine_cases h
  · obtain ⟨-, -, rfl⟩ := htext
    have hext := extends_parseText cfg resolver s statement line
      (lineAddress s)
    exact ⟨hext.contents, rfl, hext.symtab, hext.noted⟩
  · obtain ⟨-, -, -, rfl⟩ := hlabel
    have hext := State.extends_addSymbol cfg s label
      (labelAddress cfg s (lineAddress s)) 0 sttNotype 0 0 s.currentSection
    exact ⟨hext.contents, rfl, hext.symtab, hext.noted⟩
  · obtain ⟨-, -, rfl⟩ := hblank
    exact .refl _

theorem extends_foldlM (h : lines.foldlM (parseLine cfg resolver) s = .ok s') :
    s.Extends { s' with lines := s.lines } := by
  induction lines generalizing s with
  | nil =>
    cases h
    exact .refl _
  | cons line rest ih =>
    rw [List.foldlM_cons] at h
    obtain ⟨s₁, hline, hrest⟩ := bind_eq_ok.mp h
    have hfirst := extends_parseLine hline
    have hmore := ih hrest
    refine hfirst.trans ⟨hmore.contents, rfl, hmore.symtab, hmore.noted⟩

theorem parseLines_ok {pending : Text} {source : List Text}
    (h : parseLines cfg resolver pending s source = .ok s') :
    ∃ lines, logicalLines cfg pending source = some lines ∧
      lines.foldlM (parseLine cfg resolver) s = .ok s' := by
  induction source generalizing pending s with
  | nil =>
    refine ⟨[pending], rfl, ?_⟩
    rw [List.foldlM_cons]
    exact bind_eq_ok.mpr ⟨s', h, rfl⟩
  | cons tmp rest ih =>
    unfold parseLines at h
    unfold logicalLines
    cases hcomment : cfg.commentRe tmp with
    | none =>
      simp only [hcomment] at h
      cases h
    | some p =>
      simp only [hcomment] at h ⊢
      by_cases hlast : (p.1 ++ p.2).getLast? = some '\\'
      · rw [if_pos hlast] at h ⊢
        exact ih h
      · rw [if_neg hlast] at h ⊢
        cases hparse : parseLine cfg resolver s (pending ++ (p.1 ++ p.2)) with
        | error e =>
          simp only [hparse] at h
          cases h
        | ok s₁ =>
          simp only [hparse] at h
          obtain ⟨lines, hlines, hfold⟩ := ih h
          refine ⟨(pending ++ (p.1 ++ p.2)) :: lines, by rw [hlines]; rfl, ?_⟩
          rw [List.foldlM_cons]
          exact bind_eq_ok.mpr ⟨s₁, hparse, hfold⟩

/-- The undefined symbols are appended to the symbol table, and each is then found. -/
theorem addUndefinedSymbols_ok {names : List Text} (h : addUndefinedSymbols cfg s names = .ok s') :
    s'.lines = s.lines ∧ s'.contents = s.contents ∧
      s'.sectionAddress = s.sectionAddress ∧ s'.currentSection = s.currentSection ∧
      (∃ syms, s'.symtab = s.symtab ++ syms) ∧ ∀ name ∈ names, (s'.lookup name).isSome := by
  induction names generalizing s with
  | nil =>
    cases h
    exact ⟨rfl, rfl, rfl, rfl, ⟨[], (List.append_nil _).symm⟩, fun _ h => absurd h List.not_mem_nil⟩
  | cons name rest ih =>
    unfold addUndefinedSymbols at h
    split at h
    · cases h
    · rename_i s₁ hadd
      obtain ⟨syms, us, hstate⟩ := State.addSymbol_state cfg s name 0 0 sttNotype 0
        0 none
      rw [hadd] at hstate
      have hfresh := State.lookup_of_addSymbol_ok (congrArg Prod.snd hadd)
      have hfound := State.lookup_addSymbol cfg hfresh 0 0 sttNotype 0 0 none
      rw [hadd] at hfound
      obtain ⟨hlines, hcontents, haddress, hcurrent, ⟨syms', hsyms'⟩, hrest⟩ := ih h
      subst hstate
      refine ⟨hlines, hcontents, haddress, hcurrent,
        ⟨syms ++ syms', by rw [hsyms', List.append_assoc]⟩, ?_⟩
      intro name' hname'
      rcases List.mem_cons.mp hname' with rfl | hname'
      · rw [State.lookup_append hfound hsyms', Option.isSome_some]
      · exact hrest name' hname'

theorem lines_foldlM (h : lines.foldlM (parseLine cfg resolver) s = .ok s') :
    ∃ more, s'.lines = s.lines ++ more := by
  induction lines generalizing s with
  | nil =>
    cases h
    exact ⟨[], (List.append_nil _).symm⟩
  | cons line rest ih =>
    rw [List.foldlM_cons] at h
    obtain ⟨s₁, hline, hrest⟩ := bind_eq_ok.mp h
    obtain ⟨more, hmore⟩ := ih hrest
    exact ⟨saved line ++ more, by rw [hmore, lines_parseLine hline, List.append_assoc]⟩

/-- `Parse` is a run over the logical lines; what it adds at the end is appended. -/
theorem parse_ok {resolver : Option (Text → Except Error UInt64)} {source : List Text}
    (h : parse cfg resolver source .initial = .ok s) :
    ∃ lines s₁, logicalLines cfg [] source = some lines ∧
      lines.foldlM (parseLine cfg (zeroResolver resolver)) .initial = .ok s₁ ∧
      s.lines = s₁.lines ∧ (∀ sec, s.contents sec = []) ∧
      (∃ syms, s.symtab = s₁.symtab ++ syms) ∧
      ∀ name, s₁.Noted name → (s.lookup name).isSome := by
  unfold parse at h
  obtain ⟨s₁, hlines, h⟩ := bind_eq_ok.mp h
  obtain ⟨s₂, hundefined, h⟩ := bind_eq_ok.mp h
  cases h
  obtain ⟨lines, hlogical, hfold⟩ := parseLines_ok hlines
  obtain ⟨hsaved, hcontents, -, -, hsyms, hfound⟩ := addUndefinedSymbols_ok hundefined
  refine ⟨lines, s₁, hlogical, hfold, hsaved, ?_, hsyms, ?_⟩
  · intro sec
    have hzero := congrFun (extends_foldlM hfold).contents sec
    change s₂.contents sec = []
    rw [hcontents]
    exact hzero
  · rintro name (hname | hname)
    · obtain ⟨sym, hsym⟩ := Option.isSome_iff_exists.mp hname
      obtain ⟨syms, hsyms⟩ := hsyms
      have hlookup : s₂.lookup name = some sym := State.lookup_append hsym hsyms
      change (s₂.lookup name).isSome
      rw [hlookup, Option.isSome_some]
    · exact hfound name hname

/-! ### The second pass -/

/-- The bytes of a saved line in the second pass. -/
def emitted (cfg : Config) (resolver : Resolver) (u : State) (statement : Text) : List UInt8 :=
  (parseText cfg resolver u statement statement (u.sectionAddress u.currentSection)).bytes

/-- A successful `CreateExecutable` or `CreateRelocatable`, with the addresses of the
    sections. -/
inductive Creates (cfg : Config) (s : State) (resolver : Option (Text → Except Error UInt64)) :
    (Section → UInt64) → State → Prop
  | executable {baseAddress : UInt64} {entryPoint : Text} {final : State} {entry : UInt64} :
    createExecutable cfg s baseAddress entryPoint resolver = .ok (final, entry) →
    Creates cfg s resolver (segmentStart cfg s baseAddress) final
  | relocatable {final : State} {rela : List (Option Section × List RelocationInfo)} :
    createRelocatable cfg s resolver = .ok (final, rela) →
    Creates cfg s resolver (fun _ => 0) final

theorem Resolver.resolve_congr (h : u.symtab = u'.symtab) (resolver : Resolver) (name : Text) :
    (resolver.resolve u name).2 = (resolver.resolve u' name).2 := by
  cases resolver with
  | zero => rfl
  | symbol =>
    have hlookup : u.lookup name = u'.lookup name := by rw [State.lookup, h, State.lookup]
    rw [resolve, resolve, hlookup]
    split
    · rfl
    · rfl
  | supplied resolve => rfl

/-- The bytes of a section after a saved line: those of the line come last, unless the
    section is `.bss`. -/
theorem contents_parsePassTwoLine
    (h : parsePassTwoLine cfg resolver (u, relocations) line = .ok (u', relocations'))
    (sec : Section) :
    u'.contents sec = u.contents sec ++
      if u.currentSection = some sec ∧ sec ≠ .bss then emitted cfg resolver u line else [] := by
  have hcontents := (extends_parseText cfg resolver u line line
    (u.sectionAddress u.currentSection)).contents
  unfold parsePassTwoLine at h
  cases hcurrent : u.currentSection with
  | none =>
    simp only [hcurrent] at h hcontents
    split at h
    · cases h
    · split at h
      · cases h
        simp [hcontents]
      · cases h
  | some current =>
    simp only [hcurrent] at h hcontents
    cases h
    by_cases hbss : current = .bss
    · have hnot : ¬(some current = some sec ∧ sec ≠ .bss) := by
        rintro ⟨hsec, hne⟩
        exact hne (Option.some.inj hsec ▸ hbss)
      rw [if_neg hnot, List.append_nil, if_pos hbss]
      exact congrFun hcontents sec
    · by_cases hsec : current = sec
      · subst hsec
        simp [hbss, hcontents, emitted, hcurrent]
      · simp [hbss, hcontents, hsec, Function.update_of_ne (Ne.symm hsec)]

theorem state_parsePassTwoLine
    (h : parsePassTwoLine cfg resolver (u, relocations) line = .ok (u', relocations')) :
    let out := parseText cfg resolver u line line (u.sectionAddress u.currentSection)
    u'.currentSection = out.state.currentSection ∧ u'.symtab = out.state.symtab := by
  unfold parsePassTwoLine at h
  cases hcurrent : u.currentSection with
  | none =>
    simp only [hcurrent] at h
    split at h
    · cases h
    · split at h
      · cases h
        exact ⟨rfl, rfl⟩
      · cases h
  | some current =>
    simp only [hcurrent] at h
    cases h
    exact ⟨rfl, rfl⟩

theorem contents_passTwo
    (h : lines.foldlM (parsePassTwoLine cfg resolver) (u, relocations) = .ok (u', relocations'))
    (sec : Section) : ∃ more, u'.contents sec = u.contents sec ++ more := by
  induction lines generalizing u relocations with
  | nil =>
    cases h
    exact ⟨[], (List.append_nil _).symm⟩
  | cons line rest ih =>
    rw [List.foldlM_cons] at h
    obtain ⟨⟨u₁, relocations₁⟩, hline, hrest⟩ := bind_eq_ok.mp h
    obtain ⟨more, hmore⟩ := ih hrest
    exact ⟨_, by rw [hmore, contents_parsePassTwoLine hline sec, List.append_assoc]⟩

theorem ElfClass.truncate_add (elfClass : ElfClass) (a b : UInt64) :
    elfClass.truncate (elfClass.truncate a + b) = elfClass.truncate (b + a) := by
  cases elfClass with
  | class32 =>
    apply UInt64.toNat_inj.mp
    simp only [truncate, UInt64.toNat_and, UInt64.toNat_add, UInt64.toNat_ofNat]
    rw [show 0xffffffff % 2 ^ 64 = 2 ^ 32 - 1 by decide, Nat.and_two_pow_sub_one_eq_mod,
      Nat.and_two_pow_sub_one_eq_mod, Nat.and_two_pow_sub_one_eq_mod]
    omega
  | class64 => exact UInt64.add_comm a b
  | unsupported => exact UInt64.add_comm a b

theorem lookup_beginPassTwo (s : State) (start : Section → UInt64) (name : Text) :
    (beginPassTwo cfg s start).lookup name =
      (s.lookup name).map (updateSymbol cfg s.globalSymbols start) := by
  unfold State.lookup beginPassTwo
  rw [List.find?_map]
  rfl

theorem resolve_beginPassTwo {name : Text} (start : Section → UInt64)
    (h : ∃ value, (resolver.resolve s name).2 = .ok value) :
    ∃ value, (resolver.resolve (beginPassTwo cfg s start) name).2 = .ok value := by
  cases resolver with
  | zero => exact ⟨0, rfl⟩
  | symbol =>
    obtain ⟨value, hvalue⟩ := h
    unfold Resolver.resolve at hvalue ⊢
    cases hlookup : s.lookup name with
    | none =>
      simp only [hlookup] at hvalue
      cases hvalue
    | some sym =>
      rw [lookup_beginPassTwo, hlookup]
      exact ⟨_, rfl⟩
  | supplied resolve => exact h

theorem Creates.passTwo {symbol : Option (Text → Except Error UInt64)}
    {start : Section → UInt64} {final : State} (h : Creates cfg s symbol start final) :
    ∃ relocations, s.lines.foldlM (parsePassTwoLine cfg (symbolResolver symbol))
      (beginPassTwo cfg s start, []) = .ok (final, relocations) := by
  cases h with
  | executable h =>
    unfold createExecutable at h
    obtain ⟨-, h⟩ := ite_error_eq_ok.mp h
    obtain ⟨-, h⟩ := ite_error_eq_ok.mp h
    obtain ⟨⟨u, relocations⟩, htwo, h⟩ := bind_eq_ok.mp h
    have hfinal : u = final := by
      dsimp only at h
      split at h
      · cases h
        rfl
      · cases h
      · split at h
        · cases h
          rfl
        · cases h
    subst hfinal
    exact ⟨relocations, htwo⟩
  | relocatable h =>
    unfold createRelocatable at h
    obtain ⟨-, h⟩ := ite_error_eq_ok.mp h
    obtain ⟨⟨u, relocations⟩, htwo, h⟩ := bind_eq_ok.mp h
    obtain ⟨rela, -, h⟩ := bind_eq_ok.mp h
    cases h
    exact ⟨relocations, htwo⟩

end MpactSim.Asm
