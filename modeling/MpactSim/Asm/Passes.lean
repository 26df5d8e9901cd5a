import MpactSim.Asm.SimpleAssembler
import MpactSim.Lib.Monad

namespace MpactSim.Asm

/-!
# What the two passes do with a line

The target assembler is taken to be `Regular`: the number of bytes of a statement and the
symbols it refers to are those of its text, whatever the symbols' values are.

* `Counts` is what a line does to the state in the first pass, `Replays` what it does in
  the second.
* `parseText_counts` and `parseText_replays` are the specifications of both passes.
-/

variable {cfg : Config} {resolver : Resolver} {s : State}

/-! ### Regular target assemblers -/

namespace Encoding

/-- Whatever it is answered, the call returns an error. -/
def Fails : Encoding → Prop
  | .done result _ _ => ∃ e, result = .error e
  | .resolve _ next => ∀ answer, (next answer).Fails
  | .addSymbol _ _ _ _ _ _ next => ∀ answer, (next answer).Fails

/-- The call resolves `names` in this order, and whatever their values are it appends
    `count` bytes and returns their number.  A name without a value is an error. -/
def Emits (count : Nat) : Encoding → List Text → Prop
  | .done result bytes _, names =>
    names = [] ∧ result = .ok (.ofNat count) ∧ bytes.length = count
  | .resolve name next, names =>
    ∃ rest, names = name :: rest ∧ (∀ value, (next (.ok value)).Emits count rest) ∧
      ∀ e, (next (.error e)).Fails
  | .addSymbol .., _ => False

/-- The call defines the label of the line, if there is one, at the address; then it goes
    on as a statement. -/
def EmitsAt (label : Text) (address : UInt64) (count : Nat) (names : List Text)
    (encoding : Encoding) : Prop :=
  if label = [] then encoding.Emits count names
  else
    ∃ size type binding other next,
      encoding = .addSymbol label address size type binding other next ∧
      (∀ e, (next (.error e)).Fails) ∧ (next (.ok ())).Emits count names

variable {encoding : Encoding}

theorem perform_fails (cfg : Config) (resolver : Resolver) (s : State) (h : encoding.Fails) :
    ∃ e, (encoding.perform cfg resolver s).status = .error e := by
  induction encoding generalizing s with
  | done result bytes relocations => exact h
  | resolve name next ih => exact ih _ _ (h _)
  | addSymbol name value size type binding other next ih => exact ih _ _ (h _)

theorem resolve_state (resolver : Resolver) (s : State) (name : Text) :
    ∃ us, (resolver.resolve s name).1 = { s with undefinedSymbols := us } := by
  cases resolver with
  | zero =>
    rw [Resolver.resolve, State.simpleAddSymbol]
    split
    · exact ⟨s.undefinedSymbols, rfl⟩
    · exact ⟨_, rfl⟩
  | symbol =>
    rw [Resolver.resolve]
    split
    · exact ⟨s.undefinedSymbols, rfl⟩
    · exact ⟨s.undefinedSymbols, rfl⟩
  | supplied resolve => exact ⟨s.undefinedSymbols, rfl⟩

/-- A call that emits and returns ok has appended its bytes and has changed no more than
    the set of undefined symbols. -/
theorem perform_emits {count : Nat} {names : List Text} {size : UInt64}
    (h : encoding.Emits count names) (hok : (encoding.perform cfg resolver s).status = .ok size) :
    size = .ofNat count ∧ (encoding.perform cfg resolver s).bytes.length = count ∧
      ∃ us, (encoding.perform cfg resolver s).state = { s with undefinedSymbols := us } := by
  induction encoding generalizing s names with
  | done result bytes relocations =>
    obtain ⟨-, hresult, hbytes⟩ := h
    rw [perform, hresult] at hok
    cases hok
    exact ⟨rfl, hbytes, _, rfl⟩
  | resolve name next ih =>
    obtain ⟨rest, -, hvalue, herror⟩ := h
    obtain ⟨us, hus⟩ := resolve_state resolver s name
    rw [perform] at hok ⊢
    cases hanswer : (resolver.resolve s name).2 with
    | error e =>
      obtain ⟨e', he'⟩ := perform_fails cfg resolver (resolver.resolve s name).1
        (herror e)
      simp only [hanswer] at hok
      rw [he'] at hok
      cases hok
    | ok value =>
      simp only [hanswer] at hok ⊢
      obtain ⟨hsize, hlength, us', hstate⟩ := ih _ (hvalue value) hok
      refine ⟨hsize, hlength, us', ?_⟩
      rw [hstate, hus]
  | addSymbol name value size type binding other next ih => exact h.elim

theorem perform_ok_of_emits (cfg : Config) {count : Nat} {names : List Text}
    (h : encoding.Emits count names) (hresolve : ∀ name ∈ names, ∀ us, ∃ value,
      (resolver.resolve { s with undefinedSymbols := us } name).2 = .ok value) :
    (encoding.perform cfg resolver s).status = .ok (.ofNat count) := by
  induction encoding generalizing s names with
  | done result bytes relocations => exact h.2.1
  | resolve name next ih =>
    obtain ⟨rest, rfl, hvalue, -⟩ := h
    obtain ⟨value, hanswer⟩ := hresolve name (List.mem_cons_self ..) s.undefinedSymbols
    obtain ⟨us, hus⟩ := resolve_state resolver s name
    rw [perform]
    simp only [hanswer]
    refine ih _ (hvalue value) ?_
    intro name' hname' us'
    rw [hus]
    exact hresolve name' (List.mem_cons_of_mem _ hname') us'
  | addSymbol name value size type binding other next ih => exact h.elim

end Encoding

/-- What is known of `Encode`: a line is either refused at every address, or it has a
    number of bytes and a list of symbols that it refers to.  These are the same at every
    address and with or without the label, which is defined at the address. -/
def Config.Regular (cfg : Config) : Prop :=
  ∀ line label statement, asmLine line = some (label, statement) → statement ≠ [] →
    statement.head? ≠ some '.' →
    (∃ count names, ∀ address, (cfg.encode address line).EmitsAt label address count names ∧
      (cfg.encode address statement).Emits count names) ∨
    ∀ address, (cfg.encode address line).Fails

/-! ### Symbols -/

namespace State

theorem advance_sectionAddress (s : State) (current : Option Section) (size : UInt64)
    (sec : Section) :
    (s.advance current size).sectionAddress (some sec) =
      if current = some sec then s.sectionAddress (some sec) + size
      else s.sectionAddress (some sec) := by
  unfold advance
  by_cases h : current = some sec
  · simp only [h, if_true, Function.update_self]
  · simp only [if_neg h, Function.update_of_ne (Ne.symm h)]

theorem addSymbol_state (cfg : Config) (s : State) (name : Text) (value size : UInt64)
    (type binding other : UInt8) (sec : Option Section) :
    ∃ syms us, (s.addSymbol cfg name value size type binding other sec).1 =
      { s with symtab := s.symtab ++ syms, undefinedSymbols := us } := by
  rw [addSymbol]
  split
  · exact ⟨[], s.undefinedSymbols, by rw [List.append_nil]⟩
  · exact ⟨_, _, rfl⟩

variable {name : Text} {s' : State}

theorem lookup_addSymbol (cfg : Config) (hname : s.lookup name = none) (value size : UInt64)
    (type binding other : UInt8) (sec : Option Section) :
    (s.addSymbol cfg name value size type binding other sec).1.lookup name =
      some ⟨name, cfg.elfFileClass.truncate value, size, type, binding, other, sec⟩ := by
  rw [addSymbol, hname]
  rw [lookup] at hname
  simp [lookup, hname]

theorem lookup_of_addSymbol_ok {value size : UInt64} {type binding other : UInt8}
    {sec : Option Section} (h : (s.addSymbol cfg name value size type binding other sec).2 = .ok ()) :
    s.lookup name = none := by
  rw [addSymbol] at h
  split at h
  · cases h
  · assumption

theorem lookup_append {sym : Symbol} {syms : List Symbol} (h : s.lookup name = some sym)
    (hs' : s'.symtab = s.symtab ++ syms) : s'.lookup name = some sym := by
  rw [lookup] at h
  rw [lookup, hs', List.find?_append, h, Option.some_or]

/-- A name that has a symbol or waits for one. -/
def Noted (s : State) (name : Text) : Prop := (s.lookup name).isSome ∨ name ∈ s.undefinedSymbols

/-- What no part of a line takes back: the bytes and the saved lines stay, symbols are
    only appended and no name that was noted is forgotten. -/
structure Extends (s s' : State) : Prop where
  contents : s'.contents = s.contents
  lines : s'.lines = s.lines
  symtab : ∃ syms, s'.symtab = s.symtab ++ syms
  noted : ∀ name, s.Noted name → s'.Noted name

theorem Extends.refl (s : State) : s.Extends s :=
  ⟨rfl, rfl, ⟨[], (List.append_nil _).symm⟩, fun _ h => h⟩

theorem Extends.trans {s'' : State} (h : s.Extends s') (h' : s'.Extends s'') : s.Extends s'' := by
  obtain ⟨syms, hsyms⟩ := h.symtab
  obtain ⟨syms', hsyms'⟩ := h'.symtab
  refine ⟨h'.contents.trans h.contents, h'.lines.trans h.lines, ⟨syms ++ syms', ?_⟩, ?_⟩
  · rw [hsyms', hsyms, List.append_assoc]
  · exact fun name hname => h'.noted name (h.noted name hname)

theorem Extends.lookup (h : s.Extends s') {sym : Symbol} (hname : s.lookup name = some sym) :
    s'.lookup name = some sym :=
  let ⟨_, hsyms⟩ := h.symtab
  lookup_append hname hsyms

/-- A symbol that is added takes its name out of the undefined ones. -/
theorem extends_addSymbol (cfg : Config) (s : State) (name : Text) (value size : UInt64)
    (type binding other : UInt8) (sec : Option Section) :
    s.Extends (s.addSymbol cfg name value size type binding other sec).1 := by
  obtain ⟨syms, us, hstate⟩ := addSymbol_state cfg s name value size type binding
    other sec
  refine ⟨by rw [hstate], by rw [hstate], ⟨syms, by rw [hstate]⟩, ?_⟩
  intro name' hname'
  rcases hname' with hfound | hmem
  · obtain ⟨sym, hsym⟩ := Option.isSome_iff_exists.mp hfound
    have hsym' : (s.addSymbol cfg name value size type binding other sec).1.lookup name' =
        some sym := lookup_append hsym (by rw [hstate])
    exact .inl (by rw [hsym', Option.isSome_some])
  · by_cases hlookup : s.lookup name = none
    · by_cases hname : name' = name
      · subst hname
        exact .inl (by rw [lookup_addSymbol cfg hlookup, Option.isSome_some])
      · refine .inr ?_
        rw [addSymbol, hlookup]
        dsimp only
        split
        · exact hmem
        · exact (List.mem_erase_of_ne hname).mpr hmem
    · obtain ⟨sym, hsym⟩ := Option.ne_none_iff_exists'.mp hlookup
      refine .inr ?_
      rw [addSymbol, hsym]
      exact hmem

theorem extends_simpleAddSymbol (name : Text) : s.Extends (s.simpleAddSymbol name) := by
  rw [simpleAddSymbol]
  split
  · exact .refl s
  · refine ⟨rfl, rfl, ⟨[], (List.append_nil _).symm⟩, ?_⟩
    exact fun name' hname' => hname'.imp id (List.mem_append_left [name])

theorem noted_simpleAddSymbol (name : Text) : (s.simpleAddSymbol name).Noted name := by
  rw [simpleAddSymbol]
  split
  · assumption
  · exact .inr (List.mem_append_right _ (List.mem_singleton_self name))

end State

theorem Resolver.extends_resolve (name : Text) :
    s.Extends (resolver.resolve s name).1 := by
  cases resolver with
  | zero => exact State.extends_simpleAddSymbol name
  | symbol =>
    rw [Resolver.resolve]
    split
    · exact .refl s
    · exact .refl s
  | supplied resolve => exact .refl s

theorem Encoding.extends_perform (cfg : Config) (resolver : Resolver) (s : State)
    (encoding : Encoding) :
    s.Extends (encoding.perform cfg resolver s).state := by
  induction encoding generalizing s with
  | done result bytes relocations => exact .refl s
  | resolve name next ih => exact (Resolver.extends_resolve name).trans (ih _ _)
  | addSymbol name value size type binding other next ih =>
    exact (State.extends_addSymbol ..).trans (ih _ _)

/-! ### Directives -/

namespace Directive

variable (s : State) (d : Directive)

@[simp]
theorem apply_currentSection : (d.apply s).currentSection = d.after s.currentSection := by
  rw [apply]
  split
  · rfl
  · rfl

@[simp]
theorem apply_symtab : (d.apply s).symtab = s.symtab := by
  rw [apply]
  split
  · rfl
  · rfl

theorem extends_apply : s.Extends (d.apply s) := by
  rw [apply]
  split
  · exact ⟨rfl, rfl, ⟨[], (List.append_nil _).symm⟩, fun _ h => h⟩
  · exact ⟨rfl, rfl, ⟨[], (List.append_nil _).symm⟩, fun _ h => h⟩

theorem apply_sectionAddress (sec : Section) :
    (d.apply s).sectionAddress (some sec) =
      if s.currentSection = some sec then s.sectionAddress (some sec) + d.size
      else s.sectionAddress (some sec) := by
  rw [apply]
  split
  · rw [if_neg]
    simp [*]
  · exact s.advance_sectionAddress s.currentSection d.size sec

end Directive

variable {line label directive : Text} {address : UInt64}

/-- A directive that is accepted is applied; then its label is added. -/
theorem parseAsmDirective_ok (hline : asmLine line = some (label, directive))
    (h : (parseAsmDirective cfg s line address).status = .ok ()) :
    ∃ keyword remainder d, directiveLine directive = some (keyword, remainder) ∧
      readDirective s directive keyword remainder = .ok d ∧
      (label ≠ [] → s.currentSection ≠ none) ∧
      (parseAsmDirective cfg s line address).state =
        if label = [] then d.apply s
        else ((d.apply s).addSymbol cfg label address d.size sttNotype stbLocal 0
          s.currentSection).1 := by
  unfold parseAsmDirective at h ⊢
  simp only [hline] at h ⊢
  cases hdir : directiveLine directive with
  | none =>
    simp only [hdir] at h
    cases h
  | some kr =>
    obtain ⟨keyword, remainder⟩ := kr
    simp only [hdir] at h ⊢
    cases hread : readDirective s directive keyword remainder with
    | error e =>
      simp only [hread] at h
      cases h
    | ok d =>
      simp only [hread] at h ⊢
      refine ⟨keyword, remainder, d, rfl, hread, ?_, ?_⟩
      · intro hlabel hnone
        rw [if_neg hlabel, if_pos hnone] at h
        cases h
      · by_cases hlabel : label = []
        · rw [if_pos hlabel, if_pos hlabel]
        · rw [if_neg hlabel] at h ⊢
          rw [if_neg hlabel]
          split at h
          · cases h
          · rw [if_neg ‹_›]

theorem readDirective_replay {remainder : Text} {keyword : Keyword} {d : Directive}
    (h : readDirective s directive keyword remainder = .ok d) (u : State) :
    (∃ e, readDirective u directive keyword remainder = .error e ∧ u.currentSection = none ∧
        d.bytes = [] ∧ ∀ sec, d.after sec = sec) ∨
      ∃ d', readDirective u directive keyword remainder = .ok d' ∧ d'.bytes = d.bytes ∧
        ∀ sec, d'.after sec = d.after sec := by
  cases keyword with
  | align =>
    simp only [readDirective, readAlign, Lib.ite_error_eq_ok, Lib.bind_eq_ok] at h ⊢
    obtain ⟨-, value, hvalue, hpow, hd⟩ := h
    cases hd
    by_cases hu : u.currentSection = none
    · exact .inl ⟨_, if_pos hu, hu, rfl, fun _ => rfl⟩
    · refine .inr ⟨_, ⟨hu, value, hvalue, hpow, rfl⟩, rfl, fun _ => rfl⟩
  | _ => exact .inr ⟨d, h, rfl, fun _ => rfl⟩

theorem extends_parseText (cfg : Config) (resolver : Resolver) (s : State)
    (statement line : Text) (address : UInt64) :
    s.Extends (parseText cfg resolver s statement line address).state := by
  unfold parseText
  split
  · unfold parseAsmDirective
    split
    · exact .refl s
    · split
      · exact .refl s
      · split
        · exact .refl s
        · split
          · exact Directive.extends_apply s _
          · split
            · exact Directive.extends_apply s _
            · exact (Directive.extends_apply s _).trans (State.extends_addSymbol ..)
  · have hperform := Encoding.extends_perform cfg resolver s (cfg.encode address line)
    unfold parseAsmStatement
    dsimp only
    split
    · exact hperform
    · exact ⟨hperform.contents, hperform.lines, hperform.symtab, hperform.noted⟩

/-! ### The first pass -/

/-- What the first pass does with a line that has a statement: it leaves the section
    `after` current, counts `size` for the section that was, and defines the label. -/
structure Counts (cfg : Config) (s : State) (label : Text) (address : UInt64)
    (after : Option Section) (size : UInt64) (out : State) : Prop where
  currentSection : out.currentSection = after
  sectionAddress : ∀ sec, out.sectionAddress (some sec) =
    if s.currentSection = some sec then s.sectionAddress (some sec) + size
    else s.sectionAddress (some sec)
  symbol : label ≠ [] → ∃ sym, out.lookup label = some sym ∧
    sym.section_ = s.currentSection ∧ sym.value = cfg.elfFileClass.truncate address

theorem Directive.apply_counts (cfg : Config) (d : Directive) (address : UInt64) :
    Counts cfg s [] address (d.after s.currentSection) d.size (d.apply s) where
  currentSection := d.apply_currentSection s
  sectionAddress := d.apply_sectionAddress s
  symbol := fun h => absurd rfl h

theorem Counts.addSymbol {size : UInt64} {after : Option Section} {out : State}
    (h : Counts cfg s [] address after size out) (hfresh : out.lookup label = none)
    (symSize : UInt64) (type binding other : UInt8) :
    Counts cfg s label address after size
      (out.addSymbol cfg label address symSize type binding other s.currentSection).1 := by
  obtain ⟨syms, us, hstate⟩ := State.addSymbol_state cfg out label address symSize
    type binding other s.currentSection
  refine ⟨?_, ?_, ?_⟩
  · rw [hstate]
    exact h.currentSection
  · rw [hstate]
    exact h.sectionAddress
  · intro _
    exact ⟨_, State.lookup_addSymbol cfg hfresh .., rfl, rfl⟩

theorem parseAsmDirective_counts (hline : asmLine line = some (label, directive))
    (hfresh : label ≠ [] → s.lookup label = none)
    (h : (parseAsmDirective cfg s line address).status = .ok ()) :
    ∃ keyword remainder d, directiveLine directive = some (keyword, remainder) ∧
      readDirective s directive keyword remainder = .ok d ∧
      Counts cfg s label address (d.after s.currentSection) d.size
        (parseAsmDirective cfg s line address).state := by
  obtain ⟨keyword, remainder, d, hdir, hread, -, hstate⟩ := parseAsmDirective_ok hline h
  refine ⟨keyword, remainder, d, hdir, hread, ?_⟩
  have hcounts := d.apply_counts (s := s) cfg address
  rw [hstate]
  by_cases hlabel : label = []
  · rw [if_pos hlabel, hlabel]
    exact hcounts
  · rw [if_neg hlabel]
    refine hcounts.addSymbol ?_ d.size sttNotype stbLocal 0
    rw [State.lookup, d.apply_symtab]
    exact hfresh hlabel

/-- An accepted statement counts the bytes that it has wherever it stands. -/
theorem parseAsmStatement_counts (hcfg : cfg.Regular) {statement : Text}
    (hline : asmLine line = some (label, statement)) (hstatement : statement ≠ [])
    (hhead : statement.head? ≠ some '.')
    (h : (parseAsmStatement cfg resolver s line address).status = .ok ()) :
    ∃ count names, (∀ address, (cfg.encode address statement).Emits count names) ∧
      Counts cfg s label address s.currentSection (.ofNat count)
        (parseAsmStatement cfg resolver s line address).state := by
  unfold parseAsmStatement at h ⊢
  rcases hcfg line label statement hline hstatement hhead with ⟨count, names, hemits⟩ | hfails
  · refine ⟨count, names, fun address => (hemits address).2, ?_⟩
    have hat := (hemits address).1
    cases hstatus : ((cfg.encode address line).perform cfg resolver s).status with
    | error e =>
      simp only [hstatus] at h
      cases h
    | ok size =>
      simp only [hstatus]
      unfold Encoding.EmitsAt at hat
      by_cases hlabel : label = []
      · rw [if_pos hlabel] at hat
        obtain ⟨rfl, -, us, hstate⟩ := Encoding.perform_emits hat hstatus
        rw [hstate]
        exact ⟨rfl, State.advance_sectionAddress _ _ _, fun hne => absurd hlabel hne⟩
      · rw [if_neg hlabel] at hat
        obtain ⟨symSize, type, binding, other, next, hencode, herror, hnext⟩ := hat
        rw [hencode, Encoding.perform] at hstatus ⊢
        cases hadd : (s.addSymbol cfg label address symSize type binding other
            s.currentSection).2 with
        | error e =>
          obtain ⟨e', he'⟩ := Encoding.perform_fails cfg resolver (s.addSymbol cfg label address
            symSize type binding other s.currentSection).1 (herror e)
          simp only [hadd] at hstatus
          rw [he'] at hstatus
          cases hstatus
        | ok done =>
          simp only [hadd] at hstatus ⊢
          obtain ⟨rfl, -, us, hstate⟩ := Encoding.perform_emits hnext hstatus
          have hfresh := State.lookup_of_addSymbol_ok hadd
          obtain ⟨syms, us', hsyms⟩ := State.addSymbol_state cfg s label address
            symSize type binding other s.currentSection
          have hlookup := State.lookup_addSymbol cfg hfresh address symSize type binding
            other s.currentSection
          rw [hstate]
          rw [hsyms] at hlookup ⊢
          exact ⟨rfl, State.advance_sectionAddress _ _ _, fun _ => ⟨_, hlookup, rfl, rfl⟩⟩
  · obtain ⟨e, he⟩ := Encoding.perform_fails cfg resolver s (hfails address)
    simp only [he] at h
    cases h

/-! ### The second pass -/

/-- What the second pass does with a saved line: it leaves the section `after` current and
    pushes `count` bytes. -/
structure Replays (u : State) (after : Option Section) (count : Nat) (out : Outcome Unit) :
    Prop where
  currentSection : out.state.currentSection = after
  symtab : out.state.symtab = u.symtab
  length_bytes : out.bytes.length = count

/-- A directive does the same in the second pass, unless the saved text has a label in
    it.  Where `.align` finds no section it does nothing, like any other `.align`. -/
theorem parseAsmDirective_replays {remainder : Text} {keyword : Keyword} {d : Directive}
    (hline : asmLine directive = some ([], directive))
    (hdir : directiveLine directive = some (keyword, remainder))
    (hread : readDirective s directive keyword remainder = .ok d) (u : State) (address : UInt64) :
    Replays u (d.after u.currentSection) d.bytes.length
      (parseAsmDirective cfg u directive address) := by
  unfold parseAsmDirective
  simp only [hline, hdir]
  rcases readDirective_replay hread u with ⟨e, he, -, hbytes, hafter⟩ | ⟨d', hd', hbytes, hafter⟩
  · simp only [he]
    refine ⟨?_, rfl, ?_⟩
    · rw [hafter]
    · rw [hbytes]
  · simp only [hd', if_true]
    refine ⟨?_, d'.apply_symtab u, ?_⟩
    · rw [d'.apply_currentSection, hafter]
    · rw [hbytes]

/-- A statement pushes its bytes in the second pass if the resolver has a value for
    every symbol. -/
theorem parseAsmStatement_replays {statement : Text} {count : Nat} {names : List Text} {u : State}
    (h : (cfg.encode address statement).Emits count names)
    (hresolve : ∀ name ∈ names, ∀ us, ∃ value,
      (resolver.resolve { u with undefinedSymbols := us } name).2 = .ok value) :
    Replays u u.currentSection count (parseAsmStatement cfg resolver u statement address) := by
  have hok := Encoding.perform_ok_of_emits cfg h hresolve
  obtain ⟨-, hlength, us, hstate⟩ := Encoding.perform_emits h hok
  unfold parseAsmStatement
  simp only [hok]
  refine ⟨?_, ?_, hlength⟩
  · rw [hstate]
    rfl
  · rw [hstate]
    rfl

end MpactSim.Asm
