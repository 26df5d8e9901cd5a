import MpactSim.Isa.DisasmFormats

namespace MpactSim.Isa

open Decoder (Name)
open Lib

/-!
# The specifiers of a format

The texts behind a `%` that are accepted, and what a turn of the parser does with another one.

* `Specifier`            — the accepted texts, with their infos;
* `expressionEnd_eq_some` — where an expression ends;
* `parseSpecifier_eq_ok` — a turn accepts a specifier, and adds its info.
-/

/-! ### The texts -/

/-- A text in which no more parentheses are closed than have been opened, or were open before. -/
def Nested (parenCount : Nat) (e : Name) : Prop :=
  ':' ∉ e ∧ ∀ p, p <+: e → p.count ')' ≤ p.count '(' + parenCount

/-- `s` begins with the expression `e`, which ends at a colon or at the parenthesis that closes
    it. -/
def ExpressionIn (s e r : Name) : Prop :=
  s = e ++ r ∧ Nested 0 e ∧
    (r.head? = some ':' ∨ e.count ')' = e.count '(' ∧ r.head? = some ')')

/-- A mark of an optional operand, or none. -/
def Marked (mark : Name) (isOptional : Bool) (rest : Name) : Prop :=
  isOptional = true ∧ mark = ['?'] ∨ isOptional = false ∧ mark = [] ∧ rest.head? ≠ some '?'

/-- The specifiers behind a `%`, with what follows: the name of an operand, or an expression with
    or without a number format. -/
inductive Specifier (locators : OpLocatorMap) : Name → Name → ParsedInfo → Prop
  | simple {name mark rest : Name} {isOptional : Bool} : Ident name →
      Stops isIdentChar (mark ++ rest) → name ∈ locators.names → Marked mark isOptional rest →
      Specifier locators (name ++ mark) rest (simpleInfo name isOptional)
  | expression {expr mark rest : Name} {value : FormatInfo} {isOptional : Bool} :
      Nested 0 expr → expr.count ')' = expr.count '(' → FormatExpression locators expr value →
      Marked mark isOptional rest →
      Specifier locators ('(' :: (expr ++ ')' :: mark)) rest
        (formattedInfo value "%d".toList isOptional)
  | formatted {expr number mark rest : Name} {value : FormatInfo} {isOptional : Bool} :
      Nested 0 expr → FormatExpression locators expr value → NumberFormat number →
      Marked mark isOptional rest →
      Specifier locators ('(' :: (expr ++ ':' :: (number ++ ')' :: mark))) rest
        (formattedInfo value ('%' :: number) isOptional)

/-- The format ends behind the `%`, or within the expression. -/
def Incomplete (s : Name) : Prop := s = [] ∨ ∃ t, s = '(' :: t ∧ ∀ e r, ¬ExpressionIn t e r

/-- The expression behind the `%` ends within a shift. -/
def CutOffIn (s : Name) : Prop := ∃ t e r, s = '(' :: t ∧ ExpressionIn t e r ∧ CutOff e

/-! ### The end of an expression -/

theorem nested_nil (n : Nat) : Nested n [] := by
  refine ⟨List.not_mem_nil, fun p hp => ?_⟩
  rw [List.prefix_nil.mp hp]
  exact Nat.zero_le _

theorem count_close_cons (c : Char) (p : Name) (n : Nat) (hn : c = ')' → 0 < n) :
    ((c :: p).count ')' ≤ (c :: p).count '(' + n ↔ p.count ')' ≤ p.count '(' + openBehind n c) ∧
      ((c :: p).count ')' = (c :: p).count '(' + n ↔
        p.count ')' = p.count '(' + openBehind n c) := by
  unfold openBehind
  by_cases hopen : c = '('
  · subst hopen
    rw [List.count_cons_self, List.count_cons_of_ne (by decide), if_pos rfl]
    omega
  · rw [List.count_cons_of_ne hopen, if_neg hopen]
    by_cases hclose : c = ')'
    · have := hn hclose
      subst hclose
      rw [List.count_cons_self, if_pos rfl]
      omega
    · rw [List.count_cons_of_ne hclose, if_neg hclose]
      omega

variable {e s r rest : Name}

theorem nested_cons {n : Nat} {c : Char} :
    Nested n (c :: e) ↔ c ≠ ':' ∧ (c = ')' → 0 < n) ∧ Nested (openBehind n c) e := by
  constructor
  · rintro ⟨hcolon, hcount⟩
    rw [List.mem_cons, not_or] at hcolon
    have hn : c = ')' → 0 < n := by
      rintro rfl
      have h := hcount [')'] ⟨e, rfl⟩
      rw [show [')'].count ')' = 1 from rfl, show [')'].count '(' = 0 from rfl] at h
      omega
    refine ⟨Ne.symm hcolon.1, hn, hcolon.2, fun p hp => ?_⟩
    exact (count_close_cons c p n hn).1.mp (hcount (c :: p) (List.prefix_cons_inj c |>.mpr hp))
  · rintro ⟨hc, hn, hcolon, hcount⟩
    refine ⟨?_, fun p hp => ?_⟩
    · rw [List.mem_cons, not_or]
      exact ⟨hc.symm, hcolon⟩
    · rcases List.prefix_cons_iff.mp hp with rfl | ⟨p', rfl, hp'⟩
      · exact Nat.zero_le _
      · exact (count_close_cons c p' n hn).1.mpr (hcount p' hp')

/-- **The end of an expression.** It is the first colon, or the first parenthesis that is not
    matched. -/
theorem expressionEnd_eq_some {n : Nat} :
    expressionEnd n s = some (e, r) ↔ s = e ++ r ∧ Nested n e ∧
      (r.head? = some ':' ∨ e.count ')' = e.count '(' + n ∧ r.head? = some ')') := by
  induction s generalizing n e with
  | nil =>
    refine iff_of_false (fun h => by cases h) ?_
    rintro ⟨h, -, hend⟩
    obtain ⟨rfl, rfl⟩ := List.append_eq_nil_iff.mp h.symm
    simp at hend
  | cons c s ih =>
    rw [expressionEnd]
    by_cases hcolon : c = ':'
    · rw [if_pos hcolon]
      constructor
      · intro h
        cases h
        exact ⟨rfl, nested_nil n, .inl (congrArg some hcolon)⟩
      · rintro ⟨h, hnested, -⟩
        cases e with
        | nil => rw [h, List.nil_append]
        | cons d e =>
          obtain ⟨rfl, -⟩ := List.cons.inj h
          exact absurd hcolon (nested_cons.mp hnested).1
    rw [if_neg hcolon]
    by_cases hclose : c = ')' ∧ n = 0
    · rw [if_pos hclose]
      constructor
      · intro h
        cases h
        exact ⟨rfl, nested_nil n, .inr ⟨by rw [hclose.2]; rfl, congrArg some hclose.1⟩⟩
      · rintro ⟨h, hnested, -⟩
        cases e with
        | nil => rw [h, List.nil_append]
        | cons d e =>
          obtain ⟨rfl, -⟩ := List.cons.inj h
          exact absurd ((nested_cons.mp hnested).2.1 hclose.1) (by omega)
    rw [if_neg hclose]
    have hn : c = ')' → 0 < n := fun hc => Nat.pos_of_ne_zero fun hzero => hclose ⟨hc, hzero⟩
    constructor
    · intro h
      obtain ⟨⟨e', r'⟩, hend, heq⟩ := Option.map_eq_some_iff.mp h
      cases heq
      obtain ⟨rfl, hnested, hend⟩ := ih.mp hend
      refine ⟨rfl, nested_cons.mpr ⟨hcolon, hn, hnested⟩, hend.imp_right fun hcount => ?_⟩
      exact ⟨(count_close_cons c e' n hn).2.mpr hcount.1, hcount.2⟩
    · rintro ⟨h, hnested, hend⟩
      cases e with
      | nil =>
        rw [List.nil_append] at h
        subst h
        rcases hend with hend | ⟨hcount, hend⟩
        · exact absurd (Option.some.inj hend) hcolon
        · exact absurd ⟨Option.some.inj hend, (Nat.zero_add n).symm.trans hcount.symm⟩ hclose
      | cons d e =>
        obtain ⟨rfl, rfl⟩ := List.cons.inj h
        rw [ih.mpr ⟨rfl, (nested_cons.mp hnested).2.2, hend.imp_right fun hcount =>
          ⟨(count_close_cons c e n hn).2.mp hcount.1, hcount.2⟩⟩]
        rfl

theorem expressionEnd_eq_some_iff :
    expressionEnd 0 s = some (e, r) ↔ ExpressionIn s e r := expressionEnd_eq_some

/-! ### The parts of a specifier -/

theorem optionalMark_eq {isOptional : Bool} :
    optionalMark s = (isOptional, rest) ↔ ∃ mark, s = mark ++ rest ∧ Marked mark isOptional rest := by
  constructor
  · intro h
    rw [optionalMark.eq_def] at h
    split at h
    · cases h
      exact ⟨['?'], rfl, .inl ⟨rfl, rfl⟩⟩
    · rename_i hmark
      cases h
      refine ⟨[], rfl, .inr ⟨rfl, rfl, fun hhead => ?_⟩⟩
      obtain ⟨t, ht⟩ := List.head?_eq_some_iff.mp hhead
      exact hmark t ht
  · rintro ⟨mark, rfl, ⟨rfl, rfl⟩ | ⟨rfl, rfl, hhead⟩⟩
    · rfl
    · rw [List.nil_append, optionalMark.eq_def]
      split
      · exact absurd rfl hhead
      · rfl

theorem NumberFormat.notMem {format : Name} (h : NumberFormat format) : ')' ∉ format := by
  have htail : ∀ s, NumberTail s → ')' ∉ s := by
    rintro s ⟨width, base, rfl, hwidth, -, hbase⟩ hmem
    rcases List.mem_append.mp hmem with hmem | hmem
    · exact absurd (hwidth _ hmem) (by decide)
    · rw [← List.mem_singleton.mp hmem] at hbase
      exact absurd hbase (by decide)
  rcases h with ⟨-, h⟩ | ⟨s, rfl, -, h⟩
  · exact htail _ h
  · intro hmem
    rcases List.mem_cons.mp hmem with hmem | hmem
    · exact absurd hmem (by decide)
    · exact htail s h hmem

theorem scan_close {number : Name} (h : ')' ∉ number) (rest : Name) :
    (number ++ ')' :: rest).takeWhile (fun c => decide (c ≠ ')')) = number ∧
      (number ++ ')' :: rest).dropWhile (fun c => decide (c ≠ ')')) = ')' :: rest := by
  have hwithin : Within (fun c => decide (c ≠ ')')) number := fun c hc =>
    decide_eq_true fun heq => h (heq ▸ hc)
  have hstops : Stops (fun c => decide (c ≠ ')')) (')' :: rest) := stops_cons.mpr (by decide)
  exact ⟨takeWhile_append_of_stops hwithin hstops, dropWhile_append_of_stops hwithin hstops⟩

theorem FormatParser.numberPart_eq_ok {st : FormatParser} {i : Nat} {numberFormat : Name} :
    st.numberPart i r = .ok (numberFormat, rest) ↔
      (∃ number, r = ':' :: (number ++ ')' :: rest) ∧ NumberFormat number ∧
        numberFormat = '%' :: number) ∨
      r.head? ≠ some ':' ∧ numberFormat = "%d".toList ∧ rest = r.drop 1 := by
  rw [numberPart.eq_def]
  split
  · rename_i s
    constructor
    · intro h
      split at h
      · cases h
      · rename_i c t hdrop
        split at h
        · rename_i nf hparse
          cases h
          obtain ⟨hnumber, rfl⟩ := parseNumberFormat_eq_ok.mp hparse
          have hc : c = ')' := by
            have hstops := stops_dropWhile (fun c => decide (c ≠ ')')) s
            rw [hdrop, stops_cons] at hstops
            exact not_not.mp (of_decide_eq_false hstops)
          refine .inl ⟨_, ?_, hnumber, rfl⟩
          rw [hc] at hdrop
          rw [← hdrop, List.takeWhile_append_dropWhile]
        · cases h
    · rintro (⟨number, h, hnumber, rfl⟩ | ⟨hhead, -⟩)
      · obtain ⟨-, rfl⟩ := List.cons.inj h
        obtain ⟨htake, hdrop⟩ := scan_close hnumber.notMem rest
        rw [htake, hdrop]
        simp only [parseNumberFormat_eq_ok.mpr ⟨hnumber, rfl⟩]
      · exact absurd rfl hhead
  · rename_i hcolon
    constructor
    · intro h
      cases h
      refine .inr ⟨fun hhead => ?_, rfl, rfl⟩
      obtain ⟨t, ht⟩ := List.head?_eq_some_iff.mp hhead
      exact hcolon t ht
    · rintro (⟨number, h, -⟩ | ⟨-, rfl, rfl⟩)
      · exact absurd h (hcolon _)
      · rfl

theorem Ident.head?_ne_open {name : Name} (h : Ident name) (s : Name) :
    (name ++ s).head? ≠ some '(' := by
  cases hname : name with
  | nil => exact absurd hname h.ne_nil
  | cons c tail =>
    have hstart := h.1
    rw [hname] at hstart
    rintro heq
    cases heq
    have hopen : isIdentStart '(' = true := hstart
    exact absurd hopen (by decide)

theorem Specifier.ne_nil {locators : OpLocatorMap} {text : Name} {info : ParsedInfo}
    (h : Specifier locators text rest info) : text ≠ [] := by
  cases h with
  | simple hident => exact List.append_ne_nil_of_left_ne_nil hident.ne_nil _
  | expression => exact List.cons_ne_nil _ _
  | formatted => exact List.cons_ne_nil _ _

section Specifiers

variable {opcode : Name} {locators : OpLocatorMap} {format : Name} {st st' : FormatParser}

theorem FormatParser.callExpression_eq_ok {expr : Name} {value : FormatInfo} :
    st.callExpression opcode locators expr = .ok (value, st') ↔
      FormatExpression locators expr value ∧
        st' = { st with formatInfo := some st.made, made := st.made + 1 } := by
  rw [callExpression, ← parseFormatExpression_eq_ok opcode]
  split
  · rename_i v h
    constructor
    · intro heq
      cases heq
      exact ⟨h, rfl⟩
    · rintro ⟨heq, rfl⟩
      cases h.symm.trans heq
      rfl
  · rename_i h
    exact iff_of_false (fun heq => by cases heq) (fun heq => by cases h.symm.trans heq.1)
  · rename_i h
    exact iff_of_false (fun heq => by cases heq) (fun heq => by cases h.symm.trans heq.1)

/-- The info of a specifier is added: an expression is kept in `format_info`, too. -/
def FormatParser.add (st : FormatParser) (text : Name) (info : ParsedInfo) : FormatParser :=
  if text.head? = some '(' then
    ({ st with formatInfo := some st.made, made := st.made + 1 } : FormatParser).append st.made info
  else
    ({ st with
      numOptional := if info.isOptional then st.numOptional + 1 else st.numOptional
      made := st.made + 1 } : FormatParser).append st.made info

variable {s : Name} {pos : Position} {exit : ParserExit}

theorem parseExpressionSpecifier_eq_ok :
    parseExpressionSpecifier opcode locators s st = .ok (pos, st') ↔
      ∃ text rest info, '(' :: s = text ++ rest ∧ Specifier locators text rest info ∧
        pos = positionOf rest ∧ st' = st.add text info := by
  rw [parseExpressionSpecifier]
  constructor
  · intro h
    split at h
    · cases h
    rename_i expr r hexpr
    obtain ⟨rfl, hnested, hend⟩ := expressionEnd_eq_some_iff.mp hexpr
    obtain ⟨⟨value, stE⟩, hcall, htail⟩ := bind_eq_ok.mp h
    obtain ⟨hvalue, rfl⟩ := FormatParser.callExpression_eq_ok.mp hcall
    obtain ⟨⟨numberFormat, rest'⟩, hpart, hlast⟩ := bind_eq_ok.mp htail
    obtain ⟨mark, hmark, hmarked⟩ := optionalMark_eq.mp (rfl : optionalMark rest' = (_, _))
    cases hlast
    rcases FormatParser.numberPart_eq_ok.mp hpart with
      ⟨number, rfl, hnumber, rfl⟩ | ⟨hcolon, rfl, hdrop⟩
    · refine ⟨_, _, _, ?_, .formatted hnested hvalue hnumber hmarked, rfl, rfl⟩
      conv_lhs => rw [hmark]
      simp only [List.cons_append, List.append_assoc]
    · obtain ⟨hcount, hhead⟩ := hend.resolve_left hcolon
      obtain ⟨t, rfl⟩ := List.head?_eq_some_iff.mp hhead
      have ht : rest' = t := hdrop
      refine ⟨_, _, _, ?_, .expression hnested hcount hvalue hmarked, rfl, rfl⟩
      rw [← ht]
      conv_lhs => rw [hmark]
      simp only [List.cons_append, List.append_assoc]
  · rintro ⟨text, rest, info, hs, hspec, rfl, rfl⟩
    cases hspec with
    | @simple name mark _ isOptional hident hstops hmem hmarked =>
      rw [List.append_assoc] at hs
      exact absurd (congrArg List.head? hs).symm (hident.head?_ne_open _)
    | @expression expr mark _ value isOptional hnested hcount hvalue hmarked =>
      have hs : s = expr ++ ')' :: (mark ++ rest) := by
        simpa only [List.cons_append, List.append_assoc, List.cons_inj_right] using hs
      have hend : expressionEnd 0 s = some (expr, ')' :: (mark ++ rest)) :=
        expressionEnd_eq_some_iff.mpr ⟨hs, hnested, .inr ⟨hcount, rfl⟩⟩
      rw [hend]
      refine bind_eq_ok.mpr ⟨(value, _), FormatParser.callExpression_eq_ok.mpr ⟨hvalue, rfl⟩, ?_⟩
      refine bind_eq_ok.mpr ⟨("%d".toList, mark ++ rest),
        FormatParser.numberPart_eq_ok.mpr (.inr ⟨by simp, rfl, rfl⟩), ?_⟩
      simp only [optionalMark_eq.mpr ⟨mark, rfl, hmarked⟩]
      rfl
    | @formatted expr number mark _ value isOptional hnested hvalue hnumber hmarked =>
      have hs : s = expr ++ ':' :: (number ++ ')' :: (mark ++ rest)) := by
        simpa only [List.cons_append, List.append_assoc, List.cons_inj_right] using hs
      have hend : expressionEnd 0 s = some (expr, ':' :: (number ++ ')' :: (mark ++ rest))) :=
        expressionEnd_eq_some_iff.mpr ⟨hs, hnested, .inl rfl⟩
      rw [hend]
      refine bind_eq_ok.mpr ⟨(value, _), FormatParser.callExpression_eq_ok.mpr ⟨hvalue, rfl⟩, ?_⟩
      refine bind_eq_ok.mpr ⟨('%' :: number, mark ++ rest),
        FormatParser.numberPart_eq_ok.mpr (.inl ⟨number, rfl, hnumber, rfl⟩), ?_⟩
      simp only [optionalMark_eq.mpr ⟨mark, rfl, hmarked⟩]
      rfl

theorem parseSimpleSpecifier_eq_ok (hs : s.head? ≠ some '(') :
    parseSimpleSpecifier locators format s st = .ok (pos, st') ↔
      ∃ text rest info, s = text ++ rest ∧ Specifier locators text rest info ∧
        pos = positionOf rest ∧ st' = st.add text info := by
  rw [parseSimpleSpecifier]
  constructor
  · intro h
    split at h
    · cases h
    rename_i name pos' hread
    obtain ⟨r, hident, hstops, rfl, rfl⟩ := getIdent_some_eq_ok.mp hread
    obtain ⟨hmem, htail⟩ := ite_error_eq_ok.mp h
    rw [getD_positionOf] at htail
    obtain ⟨mark, hmark, hmarked⟩ := optionalMark_eq.mp (rfl : optionalMark r = (_, _))
    cases htail
    refine ⟨name ++ mark, _, _, ?_, .simple hident (hmark ▸ hstops) (not_not.mp hmem) hmarked, rfl,
      ?_⟩
    · rw [List.append_assoc, ← hmark]
    · rw [FormatParser.add, if_neg (hident.head?_ne_open mark)]
      rfl
  · rintro ⟨text, rest, info, rfl, hspec, rfl, rfl⟩
    cases hspec with
    | expression => exact absurd rfl hs
    | formatted => exact absurd rfl hs
    | @simple name mark _ isOptional hident hstops hmem hmarked =>
      rw [getIdent_some_eq_ok.mpr ⟨mark ++ rest, hident, hstops, List.append_assoc .., rfl⟩]
      simp only [getD_positionOf, optionalMark_eq.mpr ⟨mark, rfl, hmarked⟩]
      rw [if_neg (not_not.mpr hmem), FormatParser.add, if_neg (hident.head?_ne_open mark)]
      rfl  

/-- **A turn of the loop.** It accepts the specifiers, and adds their infos. -/
theorem parseSpecifier_eq_ok :
    parseSpecifier opcode locators format s st = .ok (pos, st') ↔
      ∃ text rest info, s = text ++ rest ∧ Specifier locators text rest info ∧
        pos = positionOf rest ∧ st' = st.add text info := by
  rw [parseSpecifier.eq_def]
  split
  · refine iff_of_false (fun h => by cases h) ?_
    rintro ⟨text, rest, info, hs, hspec, -⟩
    exact hspec.ne_nil (List.append_eq_nil_iff.mp hs.symm).1
  · exact parseExpressionSpecifier_eq_ok
  · rename_i hopen
    refine parseSimpleSpecifier_eq_ok fun hhead => ?_
    obtain ⟨t, ht⟩ := List.head?_eq_some_iff.mp hhead
    exact hopen t ht

/-! ### Turns that fail -/

/-- The ways in which a turn is left with what it has made deleted once, or kept in `format_info`
    only. -/
inductive CleanExit (st : FormatParser) : ParserExit → Prop
  | broken : CleanExit st (.broken { st with formatInfo := some st.made, made := st.made + 1 })
  | exception : CleanExit st (.failed .exception st.freed)
  | status (e : FormatError) : CleanExit st (.failed (.status e) st.deleteFormat.freed)
  | statusInfo (e : FormatError) :
      CleanExit st (.failed (.status e) ((st.deleteInfo st.made).deleteFormat).freed)

theorem parseSpecifier_incomplete (h : Incomplete s) :
    parseSpecifier opcode locators format s st = .error (.broken st) := by
  rcases h with rfl | ⟨t, rfl, hend⟩
  · rfl
  · have hnone : expressionEnd 0 t = none :=
      Option.eq_none_iff_forall_ne_some.mpr fun (e, r) h =>
        hend e r (expressionEnd_eq_some_iff.mp h)
    rw [parseSpecifier, parseExpressionSpecifier, hnone]

theorem parseSpecifier_cutOff (h : CutOffIn s) :
    parseSpecifier opcode locators format s st = .error (.failed .readOutside st.freed) := by
  obtain ⟨t, e, r, rfl, hend, hcut⟩ := h
  rw [parseSpecifier, parseExpressionSpecifier, expressionEnd_eq_some_iff.mpr hend]
  simp only
  rw [FormatParser.callExpression, parseFormatExpression_eq_readOutside.mpr hcut]
  rfl

theorem FormatParser.callExpression_eq_error {expr : Name}
    (h : st.callExpression opcode locators expr = .error exit) :
    CutOff expr ∧ exit = .failed .readOutside st.freed ∨ CleanExit st exit := by
  rw [callExpression] at h
  split at h
  · cases h
  · cases h
    exact .inr (.statusInfo _)
  · rename_i failure hstatus hparse
    cases h
    cases failure with
    | readOutside => exact .inl ⟨parseFormatExpression_eq_readOutside.mp hparse, rfl⟩
    | exception => exact .inr .exception
    | status e => exact absurd rfl (hstatus e)

theorem FormatParser.numberPart_eq_error {i : Nat} {r : Name} (h : st.numberPart i r = .error exit) :
    exit = .broken st ∨ ∃ e, exit = .failed (.status e) ((st.deleteInfo i).deleteFormat).freed := by
  rw [numberPart.eq_def] at h
  split at h
  · split at h
    · cases h
      exact .inl rfl
    · split at h
      · cases h
      · cases h
        exact .inr ⟨_, rfl⟩
  · cases h

/-- **The exits of a turn.** -/
theorem parseSpecifier_eq_error (h : parseSpecifier opcode locators format s st = .error exit) :
    Incomplete s ∧ exit = .broken st ∨ CutOffIn s ∧ exit = .failed .readOutside st.freed ∨
      CleanExit st exit := by
  rw [parseSpecifier.eq_def] at h
  split at h
  · cases h
    exact .inl ⟨.inl rfl, rfl⟩
  · rename_i t
    rw [parseExpressionSpecifier] at h
    split at h
    · rename_i hnone
      cases h
      refine .inl ⟨.inr ⟨t, rfl, fun e r hend => ?_⟩, rfl⟩
      rw [expressionEnd_eq_some_iff.mpr hend] at hnone
      cases hnone
    · rename_i e r hsome
      have hend := expressionEnd_eq_some_iff.mp hsome
      rcases bind_eq_error.mp h with hcall | ⟨⟨value, stE⟩, hcall, hrest⟩
      · rcases FormatParser.callExpression_eq_error hcall with ⟨hcut, rfl⟩ | hclean
        · exact .inr (.inl ⟨⟨t, e, r, rfl, hend, hcut⟩, rfl⟩)
        · exact .inr (.inr hclean)
      · obtain ⟨-, rfl⟩ := FormatParser.callExpression_eq_ok.mp hcall
        rcases bind_eq_error.mp hrest with hpart | ⟨_, -, hlast⟩
        · rcases FormatParser.numberPart_eq_error hpart with rfl | ⟨e, rfl⟩
          · exact .inr (.inr .broken)
          · exact .inr (.inr (.statusInfo e))
        · cases hlast
  · rw [parseSimpleSpecifier] at h
    split at h
    · rename_i failure hread
      obtain ⟨e, rfl⟩ := getIdent_some_eq_error hread
      cases h
      exact .inr (.inr (.status e))
    · split at h
      · cases h
        exact .inr (.inr (.status _))
      · cases h

end Specifiers

end MpactSim.Isa
