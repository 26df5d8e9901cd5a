import MpactSim.Isa.FormatSpecifiers

namespace MpactSim.Isa

open Decoder (Name)
open Lib

/-!
# Runs of the parser of formats

A format is a list of pieces, text with a specifier behind it, and what is left.  The variables of
the parser are determined by the pieces it has read.

* `Scanned`                — the pieces of a part of a format;
* `parseLoop_of_scanned`   — the loop reads them;
* `parseDisasmFormat_iff`  — when the parser is safe, and what it makes.
-/

/-- The text in front of a `%`, the specifier behind it, and its info. -/
structure FormatPiece where
  raw : Name
  text : Name
  info : ParsedInfo
  deriving DecidableEq, Repr

/-- A format begins with the pieces, and the rest is left. -/
inductive Scanned (locators : OpLocatorMap) (format : Name) : List FormatPiece → Name → Prop
  | nil : Scanned locators format [] format
  | snoc {pieces : List FormatPiece} {raw text rest : Name} {info : ParsedInfo} :
      Scanned locators format pieces (raw ++ '%' :: (text ++ rest)) → '%' ∉ raw →
      Specifier locators text rest info →
      Scanned locators format (pieces ++ [⟨raw, text, info⟩]) rest

/-- The specifier of the piece is an expression. -/
def FormatPiece.IsExpression (piece : FormatPiece) : Prop := piece.text.head? = some '('

/-- The specifier of the piece has an expression. -/
def FormatPiece.HasExpression (piece : FormatPiece) (expr : Name) : Prop :=
  ∃ s r, piece.text = '(' :: s ∧ ExpressionIn s expr r

/-! ### The variables behind the pieces -/

/-- The variables of the parser behind the pieces. -/
def stateOf (pieces : List FormatPiece) : FormatParser :=
  pieces.foldl (fun st piece => (st.addFragment piece.raw).add piece.text piece.info) .start

/-- The position of the parser behind the pieces. -/
def prevOf (pieces : List FormatPiece) (rest : Name) : Position :=
  if pieces = [] then some rest else positionOf rest

@[simp] theorem stateOf_nil : stateOf [] = .start := rfl

theorem stateOf_snoc (pieces : List FormatPiece) (piece : FormatPiece) :
    stateOf (pieces ++ [piece])
      = ((stateOf pieces).addFragment piece.raw).add piece.text piece.info := by
  rw [stateOf, List.foldl_append]
  rfl

theorem prevOf_cons (pieces : List FormatPiece) (c : Char) (s : Name) :
    prevOf pieces (c :: s) = some (c :: s) := ite_self _

theorem prevOf_percent (pieces : List FormatPiece) (raw after : Name) :
    prevOf pieces (raw ++ '%' :: after) = some (raw ++ '%' :: after) := by
  cases raw with
  | nil => exact prevOf_cons pieces _ _
  | cons c raw => exact prevOf_cons pieces _ _

theorem prevOf_snoc (pieces : List FormatPiece) (piece : FormatPiece) (rest : Name) :
    prevOf (pieces ++ [piece]) rest = positionOf rest :=
  if_neg (List.append_ne_nil_of_right_ne_nil pieces (List.cons_ne_nil piece []))

section State

variable (st : FormatParser) (text : Name) (info : ParsedInfo)

@[simp] theorem FormatParser.add_fragments : (st.add text info).fragments = st.fragments := by
  unfold FormatParser.add
  split
  · rfl
  · rfl

@[simp] theorem FormatParser.add_infos :
    (st.add text info).infos = st.infos ++ [(st.made, info)] := by
  unfold FormatParser.add
  split
  · rfl
  · rfl

@[simp] theorem FormatParser.add_made : (st.add text info).made = st.made + 1 := by
  unfold FormatParser.add
  split
  · rfl
  · rfl

@[simp] theorem FormatParser.add_freed : (st.add text info).freed = st.freed := by
  unfold FormatParser.add
  split
  · rfl
  · rfl

theorem FormatParser.add_formatInfo :
    (st.add text info).formatInfo
      = if text.head? = some '(' then some st.made else st.formatInfo := by
  unfold FormatParser.add
  split
  · rfl
  · rfl

end State

/-- **The variables.** Nothing is deleted while specifiers are read, and the infos are those of the
    pieces, in the order in which they were made. -/
theorem stateOf_spec (pieces : List FormatPiece) :
    (stateOf pieces).fragments = pieces.map (unescaped ·.raw) ∧
      (stateOf pieces).infos.map Prod.snd = pieces.map (·.info) ∧
      (stateOf pieces).infos.map Prod.fst = List.range pieces.length ∧
      (stateOf pieces).made = pieces.length ∧ (stateOf pieces).freed = [] := by
  induction pieces using List.reverseRecOn with
  | nil => exact ⟨rfl, rfl, rfl, rfl, rfl⟩
  | append_singleton pieces piece ih =>
    obtain ⟨hfragments, hinfos, hpointers, hmade, hfreed⟩ := ih
    rw [stateOf_snoc]
    refine ⟨?_, ?_, ?_, ?_, ?_⟩
    · rw [FormatParser.add_fragments, List.map_append, ← hfragments]
      rfl
    · rw [FormatParser.add_infos, List.map_append, List.map_append, ← hinfos]
      rfl
    · rw [FormatParser.add_infos, List.map_append, List.length_append, List.length_singleton,
        List.range_succ, ← hpointers, ← hmade]
      rfl
    · rw [FormatParser.add_made, List.length_append, List.length_singleton, ← hmade]
      rfl
    · rw [FormatParser.add_freed]
      exact hfreed

theorem formatInfo_stateOf (pieces : List FormatPiece) :
    match (stateOf pieces).formatInfo with
    | none => ∀ piece ∈ pieces, ¬piece.IsExpression
    | some i => i < pieces.length ∧ ∃ piece ∈ pieces, piece.IsExpression := by
  induction pieces using List.reverseRecOn with
  | nil => exact fun _ h => absurd h List.not_mem_nil
  | append_singleton pieces piece ih =>
    rw [stateOf_snoc, FormatParser.add_formatInfo]
    by_cases hexpr : piece.text.head? = some '('
    · rw [if_pos hexpr]
      refine ⟨?_, piece, List.mem_append_right _ (List.mem_singleton_self piece), hexpr⟩
      have hmade : ((stateOf pieces).addFragment piece.raw).made = pieces.length :=
        (stateOf_spec pieces).2.2.2.1
      rw [hmade, List.length_append, List.length_singleton]
      exact Nat.lt_succ_self _
    · rw [if_neg hexpr]
      show match (stateOf pieces).formatInfo with
        | none => ∀ p ∈ pieces ++ [piece], ¬p.IsExpression
        | some i => i < (pieces ++ [piece]).length ∧ ∃ p ∈ pieces ++ [piece], p.IsExpression
      cases hinfo : (stateOf pieces).formatInfo with
      | none =>
        rw [hinfo] at ih
        intro p hp
        rcases List.mem_append.mp hp with hp | hp
        · exact ih p hp
        · rw [List.mem_singleton.mp hp]
          exact hexpr
      | some i =>
        rw [hinfo] at ih
        obtain ⟨hi, p, hp, hpexpr⟩ := ih
        refine ⟨?_, p, List.mem_append_left _ hp, hpexpr⟩
        rw [List.length_append]
        exact Nat.lt_add_right _ hi

/-! ### The loop -/

section Loop

variable {opcode : Name} {locators : OpLocatorMap} {format : Name} {pieces : List FormatPiece}
  {raw after tail rest : Name}

theorem scan_percent (h : '%' ∉ raw) (after : Name) :
    (raw ++ '%' :: after).takeWhile (fun c => decide (c ≠ '%')) = raw ∧
      (raw ++ '%' :: after).dropWhile (fun c => decide (c ≠ '%')) = '%' :: after := by
  have hwithin : Within (fun c => decide (c ≠ '%')) raw := fun c hc =>
    decide_eq_true fun heq => h (heq ▸ hc)
  have hstops : Stops (fun c => decide (c ≠ '%')) ('%' :: after) := stops_cons.mpr (by decide)
  exact ⟨takeWhile_append_of_stops hwithin hstops, dropWhile_append_of_stops hwithin hstops⟩

theorem parseLoop_turn (fuel : Nat) (st : FormatParser) (hraw : '%' ∉ raw) :
    parseLoop opcode locators format (fuel + 1) (some (raw ++ '%' :: after)) st
      = match parseSpecifier opcode locators format after (st.addFragment raw) with
        | .error exit => some (.error exit)
        | .ok (pos, st') => parseLoop opcode locators format fuel pos st' := by
  have hscan := scan_percent hraw after
  rw [parseLoop, hscan.2, hscan.1] <;> rfl

theorem parseLoop_end (fuel : Nat) (st : FormatParser) (htail : '%' ∉ tail) :
    parseLoop opcode locators format (fuel + 1) (prevOf pieces tail) st
      = some (.ok (prevOf pieces tail, st)) := by
  have hdrop : tail.dropWhile (fun c => decide (c ≠ '%')) = [] :=
    List.dropWhile_eq_nil_iff.mpr fun c hc => decide_eq_true fun heq => htail (heq ▸ hc)
  cases hprev : prevOf pieces tail with
  | none => rfl
  | some s =>
    have hs : s = tail := by
      unfold prevOf at hprev
      split at hprev
      · exact (Option.some.inj hprev).symm
      · exact (positionOf_eq_some.mp hprev).2.symm
    rw [hs, parseLoop, hdrop]

/-- **The loop reads the pieces.** -/
theorem parseLoop_of_scanned (h : Scanned locators format pieces rest) (fuel : Nat) :
    parseLoop opcode locators format (fuel + pieces.length) (some format) .start
      = parseLoop opcode locators format fuel (prevOf pieces rest) (stateOf pieces) := by
  induction h generalizing fuel with
  | nil => rfl
  | @snoc pieces raw text rest info _ hraw hspec ih =>
    rw [List.length_append, List.length_singleton, ← Nat.add_assoc, Nat.add_right_comm, ih,
      prevOf_snoc, stateOf_snoc, prevOf_percent, parseLoop_turn fuel _ hraw,
      parseSpecifier_eq_ok.mpr ⟨text, rest, info, rfl, hspec, rfl, rfl⟩]

theorem Scanned.length_le (h : Scanned locators format pieces rest) :
    pieces.length + rest.length ≤ format.length := by
  induction h with
  | nil => exact le_of_eq (Nat.zero_add _)
  | snoc _ _ _ ih =>
    simp only [List.length_append, List.length_cons, List.length_nil] at ih ⊢
    omega

theorem Scanned.text_eq (h : Scanned locators format pieces rest) :
    format = (pieces.flatMap fun piece => piece.raw ++ '%' :: piece.text) ++ rest := by
  induction h with
  | nil => rfl
  | snoc _ _ _ ih =>
    rw [ih, List.flatMap_append, List.flatMap_singleton]
    simp only [List.append_assoc, List.cons_append]

/-- **Reading stops** at the end of the format, or behind a `%` where there is no specifier. -/
theorem exists_scanned (locators : OpLocatorMap) (format : Name) :
    ∃ pieces, (∃ tail, Scanned locators format pieces tail ∧ '%' ∉ tail) ∨
      ∃ raw after, Scanned locators format pieces (raw ++ '%' :: after) ∧ '%' ∉ raw ∧
        ∀ text rest info, after = text ++ rest → ¬Specifier locators text rest info := by
  -- Induction on the length of what is left.
  suffices hrest : ∀ n pieces rest, rest.length = n → Scanned locators format pieces rest →
      ∃ pieces, (∃ tail, Scanned locators format pieces tail ∧ '%' ∉ tail) ∨
        ∃ raw after, Scanned locators format pieces (raw ++ '%' :: after) ∧ '%' ∉ raw ∧
          ∀ text rest info, after = text ++ rest → ¬Specifier locators text rest info from
    hrest _ [] format rfl .nil
  intro n
  induction n using Nat.strong_induction_on with
  | _ n ih =>
    intro pieces rest hn hscanned
    by_cases hmem : '%' ∈ rest
    · obtain ⟨raw, after, rfl, hraw⟩ := List.eq_append_cons_of_mem hmem
      by_cases hspec : ∃ text rest' info, after = text ++ rest' ∧
          Specifier locators text rest' info
      · obtain ⟨text, rest', info, rfl, hspec⟩ := hspec
        refine ih rest'.length ?_ _ rest' rfl (hscanned.snoc hraw hspec)
        rw [← hn, List.length_append, List.length_cons, List.length_append]
        omega
      · refine ⟨pieces, .inr ⟨raw, after, hscanned, hraw, fun text rest' info hafter h => ?_⟩⟩
        exact hspec ⟨text, rest', info, hafter, h⟩
    · exact ⟨pieces, .inl ⟨rest, hscanned, hmem⟩⟩

end Loop

/-! ### The results -/

section Results

variable (opcode : Name) {locators : OpLocatorMap} {format : Name} {pieces : List FormatPiece}
  {raw after tail : Name} (widths : List TemplateExpression) (formats : List ParsedFormat)

theorem parseDisasmFormat_of_scanned (h : Scanned locators format pieces tail) (htail : '%' ∉ tail) :
    parseDisasmFormat opcode locators format widths formats
      = some ⟨.ok (), [], formats ++ [(stateOf pieces).disasmFormat (fieldWidth widths formats)
          (prevOf pieces tail)]⟩ := by
  have hfuel : format.length + 1 = format.length - pieces.length + 1 + pieces.length := by
    have := h.length_le
    omega
  have hfreed : (stateOf pieces).freed = [] := (stateOf_spec pieces).2.2.2.2
  rw [parseDisasmFormat, hfuel, parseLoop_of_scanned h, parseLoop_end _ _ htail]
  simp only [Option.map_some, hfreed]

theorem parseDisasmFormat_of_exit {exit : ParserExit}
    (h : Scanned locators format pieces (raw ++ '%' :: after)) (hraw : '%' ∉ raw)
    (hexit : parseSpecifier opcode locators format after ((stateOf pieces).addFragment raw)
      = .error exit) :
    parseDisasmFormat opcode locators format widths formats
      = some (exit.outcome format formats) := by
  have hfuel : format.length + 1 = format.length - pieces.length + 1 + pieces.length := by
    have := h.length_le
    omega
  rw [parseDisasmFormat, hfuel, parseLoop_of_scanned h, prevOf_percent, parseLoop_turn _ _ hraw,
    hexit]
  rfl

end Results

/-! ### What is deleted -/

/-- The deletions of a format with `n` infos. -/
def owned (n : Nat) : List Pointer := (List.range n).map Pointer.info ++ [.format]

variable {st : FormatParser} {n : Nat}

theorem deleteFormat_freed (h : st.infos.map Prod.fst = List.range n) :
    st.deleteFormat.freed = st.freed ++ owned n := by
  rw [FormatParser.deleteFormat, owned, ← h, List.map_map, ← List.append_assoc]
  rfl

theorem nodup_owned (n : Nat) : (owned n).Nodup := by
  refine List.Nodup.append ?_ (List.nodup_singleton _) ?_
  · exact List.nodup_range.map fun i j h => Pointer.info.inj h
  · intro p hp hq
    obtain ⟨i, -, rfl⟩ := List.mem_map.mp hp
    exact absurd (List.mem_singleton.mp hq) (by simp)

theorem info_mem_owned {i : Nat} : Pointer.info i ∈ owned n ↔ i < n := by
  simp [owned]

/-- What a clean exit has deleted, it has deleted once. -/
theorem CleanExit.nodup {exit : ParserExit} (h : CleanExit st exit)
    (hpointers : st.infos.map Prod.fst = List.range n) (hmade : st.made = n)
    (hfreed : st.freed = []) (format : Name) (formats : List ParsedFormat) :
    (exit.outcome format formats).freed.Nodup := by
  have hown : ∀ st' : FormatParser, st'.infos = st.infos →
      st'.deleteFormat.freed = st'.freed ++ owned n := fun st' heq =>
    deleteFormat_freed (by rw [heq, hpointers])
  have hfresh : (Pointer.info n :: owned n).Nodup :=
    List.nodup_cons.mpr ⟨fun hmem => absurd (info_mem_owned.mp hmem) (lt_irrefl n), nodup_owned n⟩
  cases h with
  | broken =>
    have heq := hown
      (({ st with formatInfo := some st.made, made := st.made + 1 } : FormatParser).deleteInfo
        st.made) rfl
    simp only [FormatParser.deleteInfo, hfreed, hmade, List.nil_append] at heq
    simp only [ParserExit.outcome, FormatParser.deleteInfo, hfreed, hmade, List.nil_append]
    rw [heq]
    exact hfresh
  | exception =>
    rw [ParserExit.outcome, hfreed]
    exact List.nodup_nil
  | status e =>
    rw [ParserExit.outcome, hown st rfl, hfreed]
    exact nodup_owned n
  | statusInfo e =>
    rw [ParserExit.outcome, hown (st.deleteInfo st.made) rfl, FormatParser.deleteInfo, hfreed, hmade]
    exact hfresh

theorem CleanExit.outcome {exit : ParserExit} (h : CleanExit st exit) (format : Name)
    (formats : List ParsedFormat) :
    ∃ failure, failure ≠ .readOutside ∧ (exit.outcome format formats).result = .error failure ∧
      (exit.outcome format formats).formats = formats := by
  cases h with
  | broken => exact ⟨_, (fun h => by cases h), rfl, rfl⟩
  | exception => exact ⟨_, (fun h => by cases h), rfl, rfl⟩
  | status e => exact ⟨_, (fun h => by cases h), rfl, rfl⟩
  | statusInfo e => exact ⟨_, (fun h => by cases h), rfl, rfl⟩

/-- A break at an incomplete specifier deletes an expression in front of it twice. -/
theorem nodup_broken_iff (pieces : List FormatPiece) (raw format : Name)
    (formats : List ParsedFormat) :
    ((ParserExit.broken ((stateOf pieces).addFragment raw)).outcome format formats).freed.Nodup ↔
      ∀ piece ∈ pieces, ¬piece.IsExpression := by
  obtain ⟨-, -, hpointers, -, hfreed⟩ := stateOf_spec pieces
  have hown : ∀ st' : FormatParser, st'.infos = (stateOf pieces).infos →
      st'.deleteFormat.freed = st'.freed ++ owned pieces.length := fun st' heq =>
    deleteFormat_freed (by rw [heq, hpointers])
  have hlast := formatInfo_stateOf pieces
  cases hinfo : (stateOf pieces).formatInfo with
  | none =>
    rw [hinfo] at hlast
    refine iff_of_true ?_ hlast
    have hst : ((stateOf pieces).addFragment raw).formatInfo = none := hinfo
    have hfreed' : ((stateOf pieces).addFragment raw).freed = [] := hfreed
    simp only [ParserExit.outcome, hst, hown _ (rfl : ((stateOf pieces).addFragment raw).infos = _),
      hfreed', List.nil_append]
    exact nodup_owned _
  | some i =>
    rw [hinfo] at hlast
    obtain ⟨hi, piece, hmem, hexpr⟩ := hlast
    refine iff_of_false ?_ fun h => h piece hmem hexpr
    have hst : ((stateOf pieces).addFragment raw).formatInfo = some i := hinfo
    have hfreed' : (((stateOf pieces).addFragment raw).deleteInfo i).freed = [.info i] := by
      rw [FormatParser.deleteInfo]
      exact congrArg (· ++ [.info i]) hfreed
    simp only [ParserExit.outcome, hst,
      hown _ (rfl : (((stateOf pieces).addFragment raw).deleteInfo i).infos = _), hfreed']
    intro h
    exact (List.nodup_cons.mp h).1 (info_mem_owned.mpr hi)

/-! ### The operands of shifts -/

theorem Scanned.specifier {locators : OpLocatorMap} {format rest : Name}
    {pieces : List FormatPiece} (h : Scanned locators format pieces rest) {piece : FormatPiece}
    (hmem : piece ∈ pieces) : ∃ r, Specifier locators piece.text r piece.info := by
  induction h with
  | nil => exact absurd hmem List.not_mem_nil
  | snoc _ _ hspec ih =>
    rcases List.mem_append.mp hmem with hmem | hmem
    · exact ih hmem
    · rw [List.mem_singleton.mp hmem]
      exact ⟨_, hspec⟩

theorem ExpressionIn.unique {s e e' r r' : Name} (h : ExpressionIn s e r)
    (h' : ExpressionIn s e' r') : e = e' := by
  have heq := (expressionEnd_eq_some_iff.mpr h).symm.trans (expressionEnd_eq_some_iff.mpr h')
  exact congrArg Prod.fst (Option.some.inj heq)

/-- The operand of a specifier is one of the opcode, unless it is that of a shift. -/
theorem Specifier.named_iff {locators : OpLocatorMap} {piece : FormatPiece} {rest : Name}
    (h : Specifier locators piece.text rest piece.info) :
    (piece.info.opName ≠ [] → piece.info.opName ∈ locators.names) ↔
      ∀ expr name, piece.HasExpression expr → ShiftOf expr name → name ∈ locators.names := by
  obtain ⟨raw, text, info⟩ := piece
  -- With an expression, the operand is that of its value.
  have hexpression : ∀ (expr r : Name) (value : FormatInfo), text = '(' :: (expr ++ r) →
      ExpressionIn (expr ++ r) expr r → FormatExpression locators expr value →
      ((value.opName ≠ [] → value.opName ∈ locators.names) ↔
        ∀ e name, FormatPiece.HasExpression ⟨raw, text, info⟩ e → ShiftOf e name →
          name ∈ locators.names) := by
    intro expr r value htext hin hvalue
    refine hvalue.named_iff.trans ⟨?_, fun hall name => hall expr name ⟨_, r, htext, hin⟩⟩
    rintro hall e name ⟨s, r', hs, hin'⟩
    obtain ⟨-, rfl⟩ := List.cons.inj (htext.symm.trans hs)
    rw [← hin.unique hin']
    exact hall name
  simp only at h hexpression ⊢
  cases h with
  | @simple name mark _ isOptional hident hstops hmem hmarked =>
    refine iff_of_true (fun _ => hmem) ?_
    rintro expr other ⟨s, r, hs, -⟩ -
    exact absurd (congrArg List.head? hs) (hident.head?_ne_open mark)
  | @expression expr mark _ value isOptional hnested hcount hvalue hmarked =>
    exact hexpression expr _ value rfl ⟨rfl, hnested, .inr ⟨hcount, rfl⟩⟩ hvalue
  | @formatted expr number mark _ value isOptional hnested hvalue hnumber hmarked =>
    exact hexpression expr _ value rfl ⟨rfl, hnested, .inl rfl⟩ hvalue

/-! ### The main result -/

/-- What is made of a format: its text is that of the pieces and a tail without specifiers, the
    infos and the fragments are those of the pieces, and operands are operands of the opcode. -/
structure FormatFits (locators : OpLocatorMap) (format : Name) (fmt : ParsedFormat)
    (pieces : List FormatPiece) (tail : Name) : Prop where
  text : format = (pieces.flatMap fun piece => piece.raw ++ '%' :: piece.text) ++ tail
  scanned : Scanned locators format pieces tail
  last : '%' ∉ tail
  infos : fmt.infos = pieces.map (·.info)
  fragments : fmt.fragments = pieces.map (unescaped ·.raw) ∧ tail = [] ∨
    fmt.fragments = pieces.map (unescaped ·.raw) ++ [unescaped tail]
  count : fmt.fragments.length = fmt.infos.length ∨
    fmt.fragments.length = fmt.infos.length + 1
  named : ∀ info ∈ fmt.infos, info.opName ≠ [] → info.opName ∈ locators.names

/-- A call of `ParseDisasmFormat` ends, stays inside the string, deletes nothing twice, makes a
    format that fits if it succeeds, and leaves the formats alone if it returns an error. -/
def ParsesWell (opcode : Name) (locators : OpLocatorMap) (format : Name)
    (widths : List TemplateExpression) (formats : List ParsedFormat) : Prop :=
  ∃ outcome, parseDisasmFormat opcode locators format widths formats = some outcome ∧
    outcome.result ≠ .error .readOutside ∧ outcome.freed.Nodup ∧
    (outcome.result = .ok () → ∃ fmt pieces tail, outcome.formats = formats ++ [fmt] ∧
      FormatFits locators format fmt pieces tail) ∧
    ∀ e, outcome.result = .error (.status e) → outcome.formats = formats

/-- The specifiers that are reached do not end within a shift, none behind an expression is
    incomplete, and in a format that is read to its end only operands of the opcode are shifted. -/
def ScansSafely (locators : OpLocatorMap) (format : Name) : Prop :=
  (∀ pieces raw after, Scanned locators format pieces (raw ++ '%' :: after) → '%' ∉ raw →
    ¬CutOffIn after ∧ (Incomplete after → ∀ piece ∈ pieces, ¬piece.IsExpression)) ∧
  ∀ pieces tail, Scanned locators format pieces tail → '%' ∉ tail → ∀ piece ∈ pieces,
    ∀ expr name, piece.HasExpression expr → ShiftOf expr name → name ∈ locators.names

section Main

variable (opcode : Name) {locators : OpLocatorMap} {format : Name}
  (widths : List TemplateExpression) (formats : List ParsedFormat)

theorem disasmFormat_fragments (pieces : List FormatPiece) (tail : Name) (width : Int) :
    ((stateOf pieces).disasmFormat width (prevOf pieces tail)).fragments
        = pieces.map (unescaped ·.raw) ∧ tail = [] ∨
      ((stateOf pieces).disasmFormat width (prevOf pieces tail)).fragments
        = pieces.map (unescaped ·.raw) ++ [unescaped tail] := by
  have hfragments := (stateOf_spec pieces).1
  cases hprev : prevOf pieces tail with
  | none =>
    refine .inl ⟨hfragments, ?_⟩
    unfold prevOf at hprev
    split at hprev
    · cases hprev
    · exact positionOf_eq_none.mp hprev
  | some s =>
    have hs : s = tail := by
      unfold prevOf at hprev
      split at hprev
      · exact (Option.some.inj hprev).symm
      · exact (positionOf_eq_some.mp hprev).2.symm
    refine .inr ?_
    rw [FormatParser.disasmFormat, ← hfragments, hs]
    rfl

theorem FormatFits.of_scanned {pieces : List FormatPiece} {tail : Name}
    (h : Scanned locators format pieces tail) (htail : '%' ∉ tail)
    (hnamed : ∀ piece ∈ pieces, piece.info.opName ≠ [] → piece.info.opName ∈ locators.names)
    (width : Int) :
    FormatFits locators format ((stateOf pieces).disasmFormat width (prevOf pieces tail)) pieces
      tail := by
  have hinfos : ((stateOf pieces).disasmFormat width (prevOf pieces tail)).infos
      = pieces.map (·.info) := (stateOf_spec pieces).2.1
  have hfragments := disasmFormat_fragments pieces tail width
  refine ⟨h.text_eq, h, htail, hinfos, hfragments, ?_, ?_⟩
  · rw [hinfos]
    rcases hfragments with ⟨heq, -⟩ | heq
    · left
      rw [heq, List.length_map, List.length_map]
    · right
      rw [heq, List.length_append, List.length_map, List.length_map, List.length_singleton]
  · rw [hinfos]
    intro info hinfo
    obtain ⟨piece, hmem, rfl⟩ := List.mem_map.mp hinfo
    exact hnamed piece hmem

/-- **Parsing is safe and its result fits** exactly if the format is scanned safely. -/
theorem parseDisasmFormat_iff (opcode : Name) (locators : OpLocatorMap) (format : Name)
    (widths : List TemplateExpression) (formats : List ParsedFormat) :
    ParsesWell opcode locators format widths formats ↔ ScansSafely locators format := by
  constructor
  · rintro ⟨outcome, hparse, hinside, hnodup, hok, -⟩
    refine ⟨fun pieces raw after hscanned hraw => ⟨fun hcut => ?_, fun hincomplete => ?_⟩,
      fun pieces tail hscanned htail piece hmem => ?_⟩
    · rw [parseDisasmFormat_of_exit opcode widths formats hscanned hraw
        (parseSpecifier_cutOff hcut)] at hparse
      cases hparse
      exact hinside rfl
    · rw [parseDisasmFormat_of_exit opcode widths formats hscanned hraw
        (parseSpecifier_incomplete hincomplete)] at hparse
      cases hparse
      exact (nodup_broken_iff pieces raw format formats).mp hnodup
    · obtain ⟨r, hspec⟩ := hscanned.specifier hmem
      rw [parseDisasmFormat_of_scanned opcode widths formats hscanned htail] at hparse
      cases hparse
      obtain ⟨fmt, pieces', tail', hformats, hfits⟩ := hok rfl
      have hfmt := List.append_cancel_left hformats
      cases hfmt
      refine hspec.named_iff.mp (hfits.named piece.info ?_)
      have hinfos : ((stateOf pieces).disasmFormat (fieldWidth widths formats)
          (prevOf pieces tail)).infos = pieces.map (·.info) := (stateOf_spec pieces).2.1
      rw [hinfos]
      exact List.mem_map_of_mem hmem
  · rintro ⟨hreached, hshifts⟩
    obtain ⟨pieces, ⟨tail, hscanned, htail⟩ | ⟨raw, after, hscanned, hraw, hnone⟩⟩ :=
      exists_scanned locators format
    · refine ⟨_, parseDisasmFormat_of_scanned opcode widths formats hscanned htail,
        (fun h => by cases h), List.nodup_nil, fun _ => ⟨_, pieces, tail, rfl, ?_⟩,
        fun e h => by cases h⟩
      refine .of_scanned hscanned htail (fun piece hmem => ?_) _
      obtain ⟨r, hspec⟩ := hscanned.specifier hmem
      exact hspec.named_iff.mpr (hshifts pieces tail hscanned htail piece hmem)
    · obtain ⟨hcut, hincomplete⟩ := hreached pieces raw after hscanned hraw
      cases hexit : parseSpecifier opcode locators format after
          ((stateOf pieces).addFragment raw) with
      | ok result =>
        obtain ⟨text, rest, info, hafter, hspec, -⟩ := parseSpecifier_eq_ok.mp hexit
        exact absurd hspec (hnone text rest info hafter)
      | error exit =>
        refine ⟨_, parseDisasmFormat_of_exit opcode widths formats hscanned hraw hexit, ?_⟩
        obtain ⟨-, -, hpointers, hmade, hfreed⟩ := stateOf_spec pieces
        rcases parseSpecifier_eq_error hexit with ⟨hinc, rfl⟩ | ⟨hcutIn, -⟩ | hclean
        · exact ⟨(fun h => by cases h), (nodup_broken_iff pieces raw format formats).mpr
            (hincomplete hinc), (fun h => by cases h), fun _ _ => rfl⟩
        · exact absurd hcutIn hcut
        · obtain ⟨failure, hne, hresult, hformats⟩ := hclean.outcome format formats
          refine ⟨?_, hclean.nodup hpointers hmade hfreed format formats, ?_, fun _ _ => hformats⟩
          · rw [hresult]
            exact fun h => hne (Except.error.inj h)
          · rw [hresult]
            exact fun h => by cases h

/-- The expression `(` ends within a shift, and is read past its end. -/
theorem parse_of_cut_shift :
    ¬ParsesWell "add".toList [("rd".toList, ⟨0, .destination, false, 0⟩)] "%((:d)".toList [] [] := by
  rintro ⟨outcome, hparse, hinside, -⟩
  have hresult : (parseDisasmFormat "add".toList [("rd".toList, ⟨0, .destination, false, 0⟩)]
      "%((:d)".toList [] []).map (·.result) = some (.error .readOutside) := by decide
  rw [hparse] at hresult
  exact hinside (Option.some.inj hresult)

end Main

end MpactSim.Isa
