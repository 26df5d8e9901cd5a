import MpactSim.Asm.Runs
import MpactSim.Lib.Run

namespace MpactSim.Asm

open Lib

/-!
# The two passes agree on the layout

The first pass gives every line a section and an address, the second one puts its bytes
somewhere.  `LayoutAgrees` says that both mean the same place, for every line and label.

They need not: the second pass starts in the section in which the first one ended,
`.align` and `.space` count but push nothing, bytes in `.bss` are dropped, a saved
directive can be taken apart differently from the line it is from, and a label in front of
a directive may be taken.  `Clean` excludes just these; `create_layoutAgrees` is about
every source whose lines are clean.
-/

variable {cfg : Config} {s : State}

/-! ### The layout -/

/-- A statement or a directive that takes room: all but the section directives and
    `.global`. -/
def places (statement : Text) : Bool :=
  if statement.head? = some '.' then
    match directiveLine statement with
    | some (keyword, _) => keyword ∉ [.text, .data, .bss, .global]
    | none => true
  else statement ≠ []

/-- The position of the byte that follows, in states of the two passes at the same line.
    `.bss` has no bytes; a position in it is what the first pass has counted. -/
def position (before u : State) : Section → UInt64
  | .bss => before.sectionAddress (some .bss)
  | sec => .ofNat (u.contents sec).length

/-- For every line, with the states in which the two passes come to it: what takes room is
    in the same section, its bytes are at its address, and its label is at the byte that
    follows. -/
def LayoutAgrees (cfg : Config) (zero symbol : Option (Text → Except Error UInt64))
    (source : List Text) (s : State) (start : Section → UInt64) (final : State) : Prop :=
  ∀ before line after label statement,
    logicalLines cfg [] source = some (before ++ line :: after) →
    asmLine line = some (label, statement) →
    ∃ s₁ u relocations,
      before.foldlM (parseLine cfg (zeroResolver zero)) .initial = .ok s₁ ∧
      s₁.lines.foldlM (parsePassTwoLine cfg (symbolResolver symbol))
        (beginPassTwo cfg s start, []) = .ok (u, relocations) ∧
      (places statement → ∃ sec, s₁.currentSection = some sec ∧ u.currentSection = some sec ∧
        let bytes := emitted cfg (symbolResolver symbol) u statement
        (bytes ≠ [] → ∃ front back, final.contents sec = front ++ bytes ++ back ∧
          UInt64.ofNat front.length = s₁.sectionAddress (some sec))) ∧
      (label ≠ [] → ∃ sec sym, s₁.currentSection = some sec ∧ final.lookup label = some sym ∧
        sym.section_ = some sec ∧
        sym.value = cfg.elfFileClass.truncate (start sec + position s₁ u sec))

/-! ### Clean lines -/

/-- The directive of a statement. -/
def directiveOf (s : State) (statement : Text) : Option Directive :=
  if statement.head? = some '.' then
    match directiveLine statement with
    | some (keyword, remainder) => (readDirective s statement keyword remainder).toOption
    | none => none
  else none

/-- A line that both passes treat alike, in the state of the first pass before it. -/
structure Clean (cfg : Config) (s : State) (label statement : Text) : Prop where
  /-- Nothing takes room before the first section directive. -/
  inSection : s.currentSection = none → label = [] ∧ places statement = false
  /-- A directive counts the bytes it pushes: no padding and no space. -/
  size_eq : s.currentSection ≠ some .bss → ∀ d, directiveOf s statement = some d →
    d.size = .ofNat d.bytes.length
  /-- There are no bytes in `.bss`. -/
  bss : s.currentSection = some .bss → (∀ d, directiveOf s statement = some d → d.bytes = []) ∧
    (statement ≠ [] → statement.head? ≠ some '.' → ∀ address count names,
      (cfg.encode address statement).Emits count names → count = 0)
  /-- The saved text of a directive does not start like a label. -/
  reread : statement.head? = some '.' → labelOf statement = none
  /-- The label of a directive is new. -/
  fresh : label ≠ [] → statement.head? = some '.' → s.lookup label = none

/-- A clean line of text. -/
def CleanLine (cfg : Config) (s : State) (line : Text) : Prop :=
  ∀ label statement, asmLine line = some (label, statement) → Clean cfg s label statement

/-- A source all of whose lines are clean when the first pass comes to them. -/
def CleanSource (cfg : Config) (zero : Option (Text → Except Error UInt64))
    (source : List Text) : Prop :=
  ∀ lines, logicalLines cfg [] source = some lines →
    Along (settle (parseLine cfg (zeroResolver zero))) (CleanLine cfg) .initial lines

/-- A line whose statement refers to a symbol. -/
def Refers (cfg : Config) (line name : Text) : Prop :=
  ∃ label statement, asmLine line = some (label, statement) ∧ statement ≠ [] ∧
    statement.head? ≠ some '.' ∧ ∃ address count names,
      (cfg.encode address statement).Emits count names ∧ name ∈ names

/-- Every symbol that a statement refers to has a value in the second pass. -/
def Resolvable (cfg : Config) (symbol : Option (Text → Except Error UInt64))
    (source : List Text) (s : State) : Prop :=
  ∀ lines, logicalLines cfg [] source = some lines → ∀ line ∈ lines, ∀ name,
    Refers cfg line name → ∃ value, ((symbolResolver symbol).resolve s name).2 = .ok value

/-! ### One line -/

variable {first second : Resolver} {line label statement name : Text} {address : UInt64}
  {u s' : State} {count : Nat} {lines names : List Text} {encoding : Encoding}

/-- A clean statement has the same effect in both passes: each leaves the section `after`
    current, and the first counts the bytes that the second pushes. -/
theorem Clean.effect (hcfg : cfg.Regular) (second : Resolver) (hclean : Clean cfg s label statement)
    (hline : asmLine line = some (label, statement)) (hstatement : statement ≠ [])
    (hok : (parseText cfg first s statement line address).status = .ok ()) :
    ∃ (after : Option Section → Option Section) (size : UInt64) (count : Nat) (names : List Text),
      Counts cfg s label address (after s.currentSection) size
        (parseText cfg first s statement line address).state ∧
      (s.currentSection ≠ none → s.currentSection ≠ some .bss → size = .ofNat count) ∧
      (s.currentSection = some .bss → count = 0) ∧
      (s.currentSection = none → count = 0 ∧ ∀ sec, after none ≠ none → after sec = after none) ∧
      (∀ name ∈ names, Refers cfg line name) ∧
      ∀ u address, (∀ name ∈ names, ∀ us, ∃ value,
        (second.resolve { u with undefinedSymbols := us } name).2 = .ok value) →
        Replays u (after u.currentSection) count
          (parseText cfg second u statement statement address) := by
  unfold parseText at hok ⊢
  by_cases hhead : statement.head? = some '.'
  · simp only [if_pos hhead] at hok ⊢
    obtain ⟨keyword, remainder, d, hdir, hread, hcounts⟩ :=
      parseAsmDirective_counts hline (fun hlabel => hclean.fresh hlabel hhead) hok
    have hd : directiveOf s statement = some d := by
      rw [directiveOf, if_pos hhead, hdir]
      simp only [hread]
      rfl
    refine ⟨d.after, d.size, d.bytes.length, [], hcounts, ?_, ?_, ?_, ?_, ?_⟩
    · exact fun _ hbss => hclean.size_eq hbss d hd
    · intro hbss
      rw [(hclean.bss hbss).1 d hd, List.length_nil]
    · intro hnone
      -- Without a section the directive is one of the four that take no room.
      have hplaces := (hclean.inSection hnone).2
      unfold places at hplaces
      simp only [if_pos hhead, hdir, decide_eq_false_iff_not, not_not] at hplaces
      have hcases : keyword = .text ∨ keyword = .data ∨ keyword = .bss ∨ keyword = .global := by
        simpa using hplaces
      rcases hcases with rfl | rfl | rfl | rfl
      · cases hread
        exact ⟨rfl, fun _ _ => rfl⟩
      · cases hread
        exact ⟨rfl, fun _ _ => rfl⟩
      · cases hread
        exact ⟨rfl, fun _ _ => rfl⟩
      · cases hread
        exact ⟨rfl, fun _ h => absurd rfl h⟩
    · exact fun name hname => absurd hname List.not_mem_nil
    · intro u address' _
      exact parseAsmDirective_replays
        (asmLine_of_labelOf_eq_none hline (hclean.reread hhead)) hdir hread u address'
  · simp only [if_neg hhead] at hok ⊢
    obtain ⟨count, names, hemits, hcounts⟩ :=
      parseAsmStatement_counts hcfg hline hstatement hhead hok
    refine ⟨id, .ofNat count, count, names, hcounts, fun _ _ => rfl, ?_, ?_, ?_, ?_⟩
    · exact fun hbss => (hclean.bss hbss).2 hstatement hhead address count names (hemits address)
    · intro hnone
      have hplaces := (hclean.inSection hnone).2
      unfold places at hplaces
      simp [hhead, hstatement] at hplaces
    · exact fun name hname =>
        ⟨label, statement, hline, hstatement, hhead, address, count, names, hemits address, hname⟩
    · exact fun u address' hresolve => parseAsmStatement_replays (hemits address') hresolve

/-! ### The passes side by side -/

/-- The two passes at the same line: they are in the same section, and the addresses of
    the first are the lengths of what the second has put down. -/
structure Agree (s u : State) : Prop where
  currentSection : s.currentSection ≠ none → u.currentSection = s.currentSection
  length_contents : ∀ sec, sec ≠ .bss →
    s.sectionAddress (some sec) = .ofNat (u.contents sec).length

/-- A line that counts in the first pass what it pushes in the second keeps the passes
    side by side. -/
theorem Agree.replay {out u' : State} {relocations relocations' : List RelocationInfo}
    {size : UInt64} {after : Option Section → Option Section} (hagree : Agree s u)
    (hcounts : Counts cfg s label address (after s.currentSection) size out)
    (hsize : s.currentSection ≠ none → s.currentSection ≠ some .bss → size = .ofNat count)
    (hnone : s.currentSection = none →
      count = 0 ∧ ∀ sec, after none ≠ none → after sec = after none)
    (hreplays : Replays u (after u.currentSection) count
      (parseText cfg second u statement statement (u.sectionAddress u.currentSection)))
    (htwo : parsePassTwoLine cfg second (u, relocations) statement = .ok (u', relocations')) :
    Agree out u' := by
  obtain ⟨hcurrent', -⟩ := state_parsePassTwoLine htwo
  have hcontents := contents_parsePassTwoLine htwo
  have hlength : (emitted cfg second u statement).length = count := hreplays.length_bytes
  by_cases hs : s.currentSection = none
  · obtain ⟨rfl, hafter⟩ := hnone hs
    refine ⟨?_, ?_⟩
    · intro hne
      rw [hcounts.currentSection, hs] at hne ⊢
      rw [hcurrent', hreplays.currentSection, hafter _ hne]
    · intro sec hsec
      rw [hcounts.sectionAddress, if_neg (by rw [hs]; simp), hagree.length_contents sec hsec,
        hcontents, List.eq_nil_of_length_eq_zero hlength]
      simp
  · have hu := hagree.currentSection hs
    refine ⟨?_, ?_⟩
    · intro _
      rw [hcounts.currentSection, hcurrent', hreplays.currentSection, hu]
    · intro sec hsec
      rw [hcounts.sectionAddress, hcontents, hu]
      by_cases hin : s.currentSection = some sec
      · have hnbss : s.currentSection ≠ some .bss := by
          rw [hin]
          exact fun h => hsec (Option.some.inj h)
        rw [if_pos hin, if_pos ⟨hin, hsec⟩, hagree.length_contents sec hsec, hsize hs hnbss,
          List.length_append, hlength, UInt64.ofNat_add]
      · rw [if_neg hin, if_neg (fun h => hin h.1), List.append_nil,
          hagree.length_contents sec hsec]

/-- **Step.** A clean line keeps the passes side by side. -/
theorem Agree.step (hcfg : cfg.Regular) {first second : Resolver} {line : Text}
    {s' u u' u₀ : State} {relocations relocations' : List RelocationInfo}
    (hclean : CleanLine cfg s line) (hparse : parseLine cfg first s line = .ok s')
    (hresolve : ∀ name, Refers cfg line name → ∃ value, (second.resolve u₀ name).2 = .ok value)
    (hagree : Agree s u) (hsym : u.symtab = u₀.symtab)
    (htwo : (saved line).foldlM (parsePassTwoLine cfg second) (u, relocations) =
      .ok (u', relocations')) :
    Agree s' u' ∧ u'.symtab = u₀.symtab := by
  obtain ⟨label, statement, hline, htext | hlabel | hblank⟩ := parseLine_cases hparse
  · obtain ⟨hstatement, hok, hs'⟩ := htext
    obtain ⟨after, size, count, names, hcounts, hsize, -, hnone, hrefers, hreplays⟩ :=
      (hclean label statement hline).effect hcfg second hline hstatement hok
    have hanswers : ∀ name ∈ names, ∀ us, ∃ value,
        (second.resolve { u with undefinedSymbols := us } name).2 = .ok value := by
      intro name hname us
      obtain ⟨value, hvalue⟩ := hresolve name (hrefers name hname)
      exact ⟨value, (Resolver.resolve_congr (u := { u with undefinedSymbols := us }) hsym second
        name).trans hvalue⟩
    have hrep := hreplays u (u.sectionAddress u.currentSection) hanswers
    rw [saved_of_ne_nil hline hstatement, List.foldlM_cons] at htwo
    obtain ⟨p, hp, hpure⟩ := bind_eq_ok.mp htwo
    cases hpure
    have hout := hagree.replay hcounts hsize hnone hrep hp
    refine ⟨?_, ?_⟩
    · rw [hs']
      exact ⟨hout.currentSection, hout.length_contents⟩
    · rw [(state_parsePassTwoLine hp).2, hrep.symtab, hsym]
  · obtain ⟨rfl, -, -, hs'⟩ := hlabel
    unfold saved at htwo
    rw [hline] at htwo
    cases htwo
    obtain ⟨syms, us, hstate⟩ := State.addSymbol_state cfg s label
      (labelAddress cfg s (lineAddress s)) 0 sttNotype 0 0 s.currentSection
    rw [hs', hstate]
    exact ⟨⟨hagree.currentSection, hagree.length_contents⟩, hsym⟩
  · obtain ⟨rfl, -, rfl⟩ := hblank
    unfold saved at htwo
    rw [hline] at htwo
    cases htwo
    exact ⟨hagree, hsym⟩

/-! ### Whole runs -/

/-- **Run.** After any number of clean lines, the passes are side by side. -/
theorem agree_of_run (hcfg : cfg.Regular) {u₀ : State}
    (hclean : Along (settle (parseLine cfg first)) (CleanLine cfg) .initial lines)
    (hresolve : ∀ line ∈ lines, ∀ name, Refers cfg line name →
      ∃ value, (second.resolve u₀ name).2 = .ok value) (hinit : Agree .initial u₀)
    {relocations : List RelocationInfo} (hone : lines.foldlM (parseLine cfg first) .initial = .ok s)
    (htwo : s.lines.foldlM (parsePassTwoLine cfg second) (u₀, []) = .ok (u, relocations)) :
    Agree s u ∧ u.symtab = u₀.symtab := by
  -- Induction on the end of the source: the last line is one step of both passes.
  induction lines using List.reverseRecOn generalizing s u relocations with
  | nil =>
    cases hone
    cases htwo
    exact ⟨hinit, rfl⟩
  | append_singleton before line ih =>
    rw [List.foldlM_append] at hone
    obtain ⟨s₁, hs₁, hlast⟩ := bind_eq_ok.mp hone
    rw [List.foldlM_cons] at hlast
    obtain ⟨s₂, hs₂, hpure⟩ := bind_eq_ok.mp hlast
    cases hpure
    rw [lines_parseLine hs₂, List.foldlM_append] at htwo
    obtain ⟨⟨u₁, relocations₁⟩, hu₁, hu⟩ := bind_eq_ok.mp htwo
    obtain ⟨hbefore, hline⟩ := along_snoc.mp hclean
    rw [run_settle_of_foldlM hs₁] at hline
    obtain ⟨hagree, hsym⟩ := ih hbefore
      (fun line hl => hresolve line (List.mem_append_left _ hl)) hs₁ hu₁
    exact hagree.step hcfg hline hs₂
      (hresolve line (List.mem_append_right _ (List.mem_singleton_self line))) hsym hu

/-! ### The default resolvers -/

theorem Encoding.Emits.names_unique {count' : Nat} {names' : List Text}
    (h : encoding.Emits count names) (h' : encoding.Emits count' names') : names = names' := by
  induction encoding generalizing names names' with
  | done result bytes relocations => rw [h.1, h'.1]
  | resolve name next ih =>
    obtain ⟨rest, rfl, hrest, -⟩ := h
    obtain ⟨rest', rfl, hrest', -⟩ := h'
    rw [ih (.ok 0) (hrest 0) (hrest' 0)]
  | addSymbol name value size type binding other next ih => exact h.elim

theorem Encoding.Emits.noted (h : encoding.Emits count names) (hname : name ∈ names) :
    (encoding.perform cfg .zero s).state.Noted name := by
  induction encoding generalizing s names with
  | done result bytes relocations =>
    rw [h.1] at hname
    exact absurd hname List.not_mem_nil
  | resolve first next ih =>
    obtain ⟨rest, rfl, hrest, -⟩ := h
    rcases List.mem_cons.mp hname with rfl | hname
    · exact (Encoding.extends_perform _ _ _ (next (.ok 0))).noted _ (State.noted_simpleAddSymbol name)
    · exact ih (.ok 0) (hrest 0) hname
  | addSymbol name value size type binding other next ih => exact h.elim

theorem Encoding.EmitsAt.noted {size : UInt64} (h : encoding.EmitsAt label address count names)
    (hok : (encoding.perform cfg .zero s).status = .ok size) (hname : name ∈ names) :
    (encoding.perform cfg .zero s).state.Noted name := by
  unfold EmitsAt at h
  by_cases hlabel : label = []
  · rw [if_pos hlabel] at h
    exact h.noted hname
  · rw [if_neg hlabel] at h
    obtain ⟨symSize, type, binding, other, next, rfl, herror, hnext⟩ := h
    rw [perform] at hok ⊢
    cases hadd : (s.addSymbol cfg label address symSize type binding other
        s.currentSection).2 with
    | error e =>
      simp only [hadd] at hok
      obtain ⟨e', he'⟩ := perform_fails cfg .zero (s.addSymbol cfg label address symSize type
        binding other s.currentSection).1 (herror e)
      rw [he'] at hok
      cases hok
    | ok done =>
      simp only [hadd]
      exact hnext.noted hname

theorem noted_parseLine (hcfg : cfg.Regular) (h : parseLine cfg .zero s line = .ok s')
    (hname : Refers cfg line name) : s'.Noted name := by
  obtain ⟨label, statement, hline, hne, hhead, address, count, names, hemits, hmem⟩ := hname
  obtain ⟨label', statement', hline', hcases⟩ := parseLine_cases h
  rw [hline] at hline'
  cases hline'
  rcases hcases with ⟨-, hok, rfl⟩ | ⟨hnil, -⟩ | ⟨hnil, -⟩
  · unfold parseText parseAsmStatement at hok ⊢
    rw [if_neg hhead] at hok ⊢
    cases hstatus : ((cfg.encode (lineAddress s) line).perform cfg .zero s).status with
    | error e =>
      simp only [hstatus] at hok
      cases hok
    | ok size =>
      simp only [hstatus]
      rcases hcfg line label statement hline hne hhead with ⟨count', names', hregular⟩ | hfails
      · have hnames := hemits.names_unique (hregular address).2
        rw [hnames] at hmem
        exact (hregular (lineAddress s)).1.noted hstatus hmem
      · obtain ⟨e, he⟩ := Encoding.perform_fails cfg .zero s (hfails (lineAddress s))
        rw [he] at hstatus
        cases hstatus
  · exact absurd hnil hne
  · exact absurd hnil hne

theorem noted_foldlM (hcfg : cfg.Regular) (h : lines.foldlM (parseLine cfg .zero) s = .ok s')
    (hline : line ∈ lines) (hname : Refers cfg line name) : s'.Noted name := by
  induction lines generalizing s with
  | nil => exact absurd hline List.not_mem_nil
  | cons first rest ih =>
    rw [List.foldlM_cons] at h
    obtain ⟨s₁, hfirst, hrest⟩ := bind_eq_ok.mp h
    rcases List.mem_cons.mp hline with rfl | hline
    · exact (extends_foldlM hrest).noted name (noted_parseLine hcfg hfirst hname)
    · exact ih hrest hline

/-! ### The theorem -/

theorem resolvable_of_default (hcfg : cfg.Regular) {source : List Text}
    (h : parse cfg none source .initial = .ok s) : Resolvable cfg none source s := by
  obtain ⟨lines, s₁, hlogical, hfold, -, -, -, hfound⟩ := parse_ok h
  intro lines' hlines' line hline name hname
  rw [hlogical] at hlines'
  cases hlines'
  obtain ⟨sym, hsym⟩ := Option.isSome_iff_exists.mp
    (hfound name (noted_foldlM hcfg hfold hline hname))
  refine ⟨sym.value, ?_⟩
  change (Resolver.resolve s name .symbol).2 = _
  rw [Resolver.resolve, hsym]

theorem Clean.exists_section (hclean : Clean cfg s label statement)
    (h : label ≠ [] ∨ places statement) : ∃ sec, s.currentSection = some sec := by
  rw [← Option.ne_none_iff_exists']
  intro hnone
  obtain ⟨hlabel, hplaces⟩ := hclean.inSection hnone
  rcases h with h | h
  · exact h hlabel
  · rw [hplaces] at h
    cases h

/-- The first pass defines the label of a clean line at the address of the line. -/
theorem Clean.label_defined (hcfg : cfg.Regular) (hunit : cfg.dataAddressUnit = 1)
    (hclean : Clean cfg s label statement) (hline : asmLine line = some (label, statement))
    (hparse : parseLine cfg first s line = .ok s') (hlabel : label ≠ []) {sec : Section}
    (hsec : s.currentSection = some sec) :
    ∃ sym, s'.lookup label = some sym ∧ sym.section_ = some sec ∧
      sym.value = cfg.elfFileClass.truncate (s.sectionAddress (some sec)) := by
  have haddress : lineAddress s = s.sectionAddress (some sec) := by
    rw [lineAddress, hsec, if_neg (Option.some_ne_none sec)]
  obtain ⟨label', statement', hline', hcases⟩ := parseLine_cases hparse
  rw [hline] at hline'
  cases hline'
  rcases hcases with ⟨hstatement, hok, rfl⟩ | ⟨-, -, hfresh, rfl⟩ | ⟨-, hnil, -⟩
  · obtain ⟨after, size, count, names, hcounts, -⟩ :=
      hclean.effect hcfg first hline hstatement hok
    obtain ⟨sym, hsym, hsection, hvalue⟩ := hcounts.symbol hlabel
    exact ⟨sym, hsym, hsection.trans hsec, by rw [hvalue, haddress]⟩
  · have hvalue : labelAddress cfg s (lineAddress s) = s.sectionAddress (some sec) := by
      rw [labelAddress, hunit, haddress]
      split
      · exact UInt64.div_one
      · rfl
    rw [hvalue]
    exact ⟨_, State.lookup_addSymbol cfg hfresh .., hsec, rfl⟩
  · exact absurd hnil hlabel

theorem Clean.ne_bss (hcfg : cfg.Regular) {u₀ : State} (hclean : Clean cfg s label statement)
    (hline : asmLine line = some (label, statement)) (hparse : parseLine cfg first s line = .ok s')
    (hplaces : places statement)
    (hresolve : ∀ name, Refers cfg line name → ∃ value, (second.resolve u₀ name).2 = .ok value)
    (hsym : u.symtab = u₀.symtab) (hbytes : emitted cfg second u statement ≠ []) :
    s.currentSection ≠ some .bss := by
  intro hbss
  have hstatement : statement ≠ [] := by
    rintro rfl
    cases hplaces
  obtain ⟨label', statement', hline', hcases⟩ := parseLine_cases hparse
  rw [hline] at hline'
  cases hline'
  rcases hcases with ⟨-, hok, -⟩ | ⟨hnil, -⟩ | ⟨hnil, -⟩
  · obtain ⟨after, size, count, names, -, -, hzero, -, hrefers, hreplays⟩ :=
      hclean.effect hcfg second hline hstatement hok
    have hrep := hreplays u (u.sectionAddress u.currentSection)
      (fun name hname us =>
        let ⟨value, hvalue⟩ := hresolve name (hrefers name hname)
        ⟨value, (Resolver.resolve_congr (u := { u with undefinedSymbols := us }) hsym second
          name).trans hvalue⟩)
    exact hbytes (List.eq_nil_of_length_eq_zero (hrep.length_bytes.trans (hzero hbss)))
  · exact hstatement hnil
  · exact hstatement hnil

/-- **Layout agreement.** If every line of a source is clean, then after a successful
    `CreateExecutable` or `CreateRelocatable` every statement and directive that takes
    room is in the section in which the first pass found it, its bytes are at the address
    the first pass gave it, and every label is at the byte that follows it. -/
theorem create_layoutAgrees (cfg : Config) (hcfg : cfg.Regular)
    (hunit : cfg.dataAddressUnit = 1) (zero symbol : Option (Text → Except Error UInt64))
    (source : List Text) (s : State) (hparse : parse cfg zero source .initial = .ok s)
    (start : Section → UInt64) (final : State) (hcreate : Creates cfg s symbol start final)
    (hclean : CleanSource cfg zero source)
    (hresolve : zero = none ∧ symbol = none ∨ Resolvable cfg symbol source s) :
    LayoutAgrees cfg zero symbol source s start final := by
  intro before line after label statement hlogical hline
  have hresolvable : Resolvable cfg symbol source s := by
    rcases hresolve with ⟨rfl, rfl⟩ | h
    · exact resolvable_of_default hcfg hparse
    · exact h
  obtain ⟨lines, s₃, hlines, hfold, hsaved, hempty, hsyms, -⟩ := parse_ok hparse
  rw [hlogical] at hlines
  cases hlines
  have hrun := hclean _ hlogical
  have hanswers : ∀ line' ∈ before ++ line :: after, ∀ name, Refers cfg line' name → ∃ value,
      ((symbolResolver symbol).resolve (beginPassTwo cfg s start) name).2 = .ok value :=
    fun line' hmem name hname =>
      resolve_beginPassTwo start (hresolvable _ hlogical line' hmem name hname)
  have hinit : Agree .initial (beginPassTwo cfg s start) := by
    refine ⟨fun h => absurd rfl h, fun sec _ => ?_⟩
    change 0 = UInt64.ofNat (s.contents sec).length
    rw [hempty]
    rfl
  -- The first pass up to the line, over the line, and to the end of the source.
  have hwhole := hfold
  rw [List.foldlM_append] at hfold
  obtain ⟨s₁, hs₁, hfold⟩ := bind_eq_ok.mp hfold
  rw [List.foldlM_cons] at hfold
  obtain ⟨s₂, hs₂, hs₃⟩ := bind_eq_ok.mp hfold
  obtain ⟨more, hmore⟩ := lines_foldlM hs₃
  -- The second pass over the lines saved by then.
  obtain ⟨relocations, htwo⟩ := hcreate.passTwo
  have hfinal := (agree_of_run hcfg hrun hanswers hinit hwhole (hsaved ▸ htwo)).2
  rw [hsaved, hmore, lines_parseLine hs₂, List.append_assoc, List.foldlM_append] at htwo
  obtain ⟨⟨u, relocations₁⟩, hu, htwo⟩ := bind_eq_ok.mp htwo
  obtain ⟨hbefore, hat⟩ := along_append.mp hrun
  rw [run_settle_of_foldlM hs₁] at hat
  have hcleanLine := hat.1 label statement hline
  obtain ⟨hagree, hsym⟩ := agree_of_run hcfg hbefore
    (fun line' hmem => hanswers line' (List.mem_append_left _ hmem)) hinit hs₁ hu
  refine ⟨s₁, u, relocations₁, hs₁, hu, ?_, ?_⟩
  · intro hplaces
    obtain ⟨sec, hsec⟩ := hcleanLine.exists_section (.inr hplaces)
    have husec : u.currentSection = some sec := by
      rw [hagree.currentSection (by rw [hsec]; exact Option.some_ne_none sec), hsec]
    refine ⟨sec, hsec, husec, ?_⟩
    intro bytes hbytes
    have hnbss : sec ≠ .bss := by
      have h := hcleanLine.ne_bss hcfg hline hs₂ hplaces
        (hanswers line (List.mem_append_right _ (List.mem_cons_self ..))) hsym hbytes
      rw [hsec] at h
      exact fun hsec' => h (congrArg some hsec')
    have hstatement : statement ≠ [] := by
      rintro rfl
      cases hplaces
    rw [saved_of_ne_nil hline hstatement, List.singleton_append, List.foldlM_cons] at htwo
    obtain ⟨⟨u', relocations₂⟩, hu', hrest⟩ := bind_eq_ok.mp htwo
    obtain ⟨back, hback⟩ := contents_passTwo hrest sec
    refine ⟨u.contents sec, back, ?_, (hagree.length_contents sec hnbss).symm⟩
    rw [hback, contents_parsePassTwoLine hu' sec, if_pos ⟨husec, hnbss⟩]
  · intro hlabel
    obtain ⟨sec, hsec⟩ := hcleanLine.exists_section (.inl hlabel)
    obtain ⟨sym, hlookup, hsection, hvalue⟩ :=
      hcleanLine.label_defined hcfg hunit hline hs₂ hlabel hsec
    -- The label is still there at the end of the first pass, and the second adds none.
    have hlookup₃ : s₃.lookup label = some sym := (extends_foldlM hs₃).lookup hlookup
    obtain ⟨syms, hsyms⟩ := hsyms
    have hlookup' : s.lookup label = some sym := State.lookup_append hlookup₃ hsyms
    have hfound : final.lookup label = some (updateSymbol cfg s.globalSymbols start sym) := by
      rw [State.lookup, hfinal]
      exact (lookup_beginPassTwo s start label).trans (by rw [hlookup']; rfl)
    refine ⟨sec, _, hsec, hfound, hsection, ?_⟩
    have hposition : position s₁ u sec = s₁.sectionAddress (some sec) := by
      cases sec with
      | bss => rfl
      | text => exact (hagree.length_contents .text (by decide)).symm
      | data => exact (hagree.length_contents .data (by decide)).symm
    unfold updateSymbol
    simp only [hsection, hvalue, hposition]
    exact cfg.elfFileClass.truncate_add _ _

/-! ### Clean sources by evaluation -/

/-- A test for clean lines: in `.bss` it takes no statements. -/
def checkLine (s : State) (line : Text) : Bool :=
  match asmLine line with
  | none => true
  | some (label, statement) =>
    (s.currentSection ≠ none || (label = [] && !places statement)) &&
    (match directiveOf s statement with
      | some d =>
        if s.currentSection = some .bss then d.bytes = [] else d.size = .ofNat d.bytes.length
      | none => true) &&
    (s.currentSection ≠ some .bss || statement = [] || statement.head? = some '.') &&
    (statement.head? ≠ some '.' || (labelOf statement).isNone) &&
    (label = [] || statement.head? ≠ some '.' || (s.lookup label).isNone)

theorem cleanLine_of_checkLine (h : checkLine s line) : CleanLine cfg s line := by
  intro label statement hline
  unfold checkLine at h
  simp only [hline, Bool.and_eq_true, Bool.or_eq_true, decide_eq_true_eq, Bool.not_eq_true',
    Option.isNone_iff_eq_none] at h
  obtain ⟨⟨⟨⟨hsection, hdirective⟩, hbss⟩, hreread⟩, hfresh⟩ := h
  refine ⟨?_, ?_, ?_, ?_, ?_⟩
  · exact fun hnone => hsection.resolve_left (not_not.mpr hnone)
  · intro hne d hd
    simpa [hd, hne] using hdirective
  · intro heq
    refine ⟨fun d hd => ?_, fun hstatement hhead => ?_⟩
    · simpa [hd, heq] using hdirective
    · rcases hbss with (h | h) | h
      · exact absurd heq h
      · exact absurd h hstatement
      · exact absurd h hhead
  · exact fun hhead => hreread.resolve_left (not_not.mpr hhead)
  · intro hlabel hhead
    rcases hfresh with (h | h) | h
    · exact absurd h hlabel
    · exact absurd hhead h
    · exact h

/-- The test for all lines of a run. -/
def checkLines (cfg : Config) (resolver : Resolver) : State → List Text → Bool
  | _, [] => true
  | s, line :: rest =>
    checkLine s line && checkLines cfg resolver (settle (parseLine cfg resolver) s line) rest

theorem along_of_checkLines {resolver : Resolver} (h : checkLines cfg resolver s lines) :
    Along (settle (parseLine cfg resolver)) (CleanLine cfg) s lines := by
  induction lines generalizing s with
  | nil => exact trivial
  | cons line rest ih =>
    obtain ⟨hline, hrest⟩ := (Bool.and_eq_true ..).mp h
    exact ⟨cleanLine_of_checkLine hline, ih hrest⟩

/-! ### A target assembler with one instruction -/

/-- `ebreak`, and nothing else. -/
def encodeBody (text : Text) : Encoding :=
  if restOfLine text = some "ebreak".toList then .done (.ok 4) [0x73, 0x00, 0x10, 0x00] []
  else .done (.error (invalid "Failed to encode: " text)) [] []

/-- A label is added with the address before the rest of the line is encoded. -/
def encodeEbreak (address : UInt64) (text : Text) : Encoding :=
  match labelOf text with
  | some (label, rest) =>
    .addSymbol label address 0 sttNotype 0 0 fun
      | .ok () => encodeBody rest
      | .error e => .done (.error e) [] []
  | none => encodeBody text

/-- An assembler for it; lines have no comments. -/
def ebreakConfig : Config where
  commentRe line := some (line, [])
  elfFileClass := .class64
  encode := encodeEbreak
  dataAddressUnit := 1
  dataSegmentStart := 0

theorem encodeBody_emits {text : Text} (h : restOfLine text = some "ebreak".toList) :
    (encodeBody text).Emits 4 [] := by
  rw [encodeBody, if_pos h]
  exact ⟨rfl, rfl, rfl⟩

theorem encodeBody_fails {text : Text} (h : restOfLine text = some statement)
    (hne : statement ≠ "ebreak".toList) : (encodeBody text).Fails := by
  rw [encodeBody, if_neg (by rw [h]; exact fun heq => hne (Option.some.inj heq))]
  exact ⟨_, rfl⟩

theorem ebreakConfig_regular : ebreakConfig.Regular := by
  intro line label statement hline hne hhead
  by_cases hebreak : statement = "ebreak".toList
  · subst hebreak
    refine .inl ⟨4, [], fun address => ⟨?_, ?_⟩⟩
    · change (encodeEbreak address line).EmitsAt label address 4 []
      unfold encodeEbreak Encoding.EmitsAt
      rcases asmLine_cases hline with ⟨rest, hlabel, hrest⟩ | ⟨hlabel, rfl, hrest⟩
      · rw [if_neg (labelOf_ne_nil hlabel), hlabel]
        exact ⟨_, _, _, _, _, rfl, fun e => ⟨e, rfl⟩, encodeBody_emits hrest⟩
      · rw [if_pos rfl, hlabel]
        exact encodeBody_emits hrest
    · change (encodeEbreak address "ebreak".toList).Emits 4 []
      rw [encodeEbreak, show labelOf "ebreak".toList = none by decide]
      exact encodeBody_emits (by decide)
  · refine .inr fun address => ?_
    change (encodeEbreak address line).Fails
    unfold encodeEbreak
    rcases asmLine_cases hline with ⟨rest, hlabel, hrest⟩ | ⟨hlabel, rfl, hrest⟩
    · rw [hlabel]
      rintro (e | done)
      · exact ⟨e, rfl⟩
      · exact encodeBody_fails hrest hebreak
    · rw [hlabel]
      exact encodeBody_fails hrest hebreak

/-- Two sections with a byte or an instruction each, labels, and room in `.bss`. -/
def plainSource : List Text :=
  [".text".toList, "main: ebreak".toList, ".data".toList, "x:".toList, ".bytes 1, 2".toList,
    "y: .bytes 3".toList, ".bss".toList, "z: .space 16".toList]

/-- The state after a source has been parsed. -/
def parsed (source : List Text) : State :=
  (parse ebreakConfig none source .initial).toOption.getD .initial

/-- The relocatable file that is created from it. -/
def relocatable (source : List Text) : State × List (Option Section × List RelocationInfo) :=
  (createRelocatable ebreakConfig (parsed source) none).toOption.getD (.initial, [])

theorem plainSource_layoutAgrees :
    parse ebreakConfig none plainSource .initial = .ok (parsed plainSource) ∧
      Creates ebreakConfig (parsed plainSource) none (fun _ => 0) (relocatable plainSource).1 ∧
      LayoutAgrees ebreakConfig none none plainSource (parsed plainSource) (fun _ => 0)
        (relocatable plainSource).1 := by
  have hparse : parse ebreakConfig none plainSource .initial = .ok (parsed plainSource) :=
    eq_ok_getD (by decide +kernel) _
  have hcreate : createRelocatable ebreakConfig (parsed plainSource) none =
      .ok (relocatable plainSource) :=
    eq_ok_getD (by decide +kernel) _
  have hclean : CleanSource ebreakConfig none plainSource := by
    intro lines hlines
    have hcheck : (logicalLines ebreakConfig [] plainSource).all
        (checkLines ebreakConfig .zero .initial) = true := by decide +kernel
    rw [hlines] at hcheck
    exact along_of_checkLines hcheck
  exact ⟨hparse, .relocatable hcreate, create_layoutAgrees ebreakConfig ebreakConfig_regular rfl
    none none plainSource _ hparse _ _ (.relocatable hcreate) hclean (.inl ⟨rfl, rfl⟩)⟩

/-- A byte, padding, and a byte with a label. -/
def paddedSource : List Text :=
  [".data".toList, ".bytes 1".toList, ".align 4".toList, "x: .bytes 2".toList]

/-- The label is at 4, and the byte behind it at 1. -/
theorem not_layoutAgrees_of_padding :
    ¬ ∀ cfg : Config, cfg.Regular → cfg.dataAddressUnit = 1 → ∀ zero symbol source s,
      parse cfg zero source .initial = .ok s → ∀ start final, Creates cfg s symbol start final →
      LayoutAgrees cfg zero symbol source s start final := by
  intro h
  have hparse : parse ebreakConfig none paddedSource .initial = .ok (parsed paddedSource) :=
    eq_ok_getD (by decide +kernel) _
  have hcreate : createRelocatable ebreakConfig (parsed paddedSource) none =
      .ok (relocatable paddedSource) :=
    eq_ok_getD (by decide +kernel) _
  obtain ⟨s₁, u, relocations, hs₁, hu, -, hlabel⟩ :=
    h ebreakConfig ebreakConfig_regular rfl none none paddedSource _ hparse (fun _ => 0)
      (relocatable paddedSource).1 (.relocatable hcreate) [".data".toList, ".bytes 1".toList, ".align 4".toList]
      "x: .bytes 2".toList [[]] ['x'] ".bytes 2".toList (by decide +kernel) (by decide +kernel)
  obtain ⟨sec, sym, hsec, hsym, -, hvalue⟩ := hlabel (by decide)
  -- The section, the value of the label and the length of the data before it.
  have hdata : s₁.currentSection = some .data :=
    of_toOption_map hs₁ (·.currentSection) (by decide +kernel)
  have hfour : ((relocatable paddedSource).1.lookup ['x']).map (·.value) = some 4 := by
    decide +kernel
  have hone : (u.contents .data).length = 1 :=
    of_toOption_map hu (fun p => (p.1.contents .data).length)
      (of_toOption_map hs₁ (fun s => (s.lines.foldlM (parsePassTwoLine ebreakConfig .symbol)
        (beginPassTwo ebreakConfig (parsed paddedSource) fun _ => 0, [])).toOption.map
          fun p => (p.1.contents .data).length) (by decide +kernel))
  rw [hsym] at hfour
  cases hsec.symm.trans hdata
  have hsymValue : sym.value = 4 := Option.some.inj hfour
  rw [hsymValue] at hvalue
  change 4 = 0 + UInt64.ofNat (u.contents .data).length at hvalue
  rw [hone] at hvalue
  exact absurd hvalue (by decide)

end MpactSim.Asm
