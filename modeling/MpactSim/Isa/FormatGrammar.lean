import MpactSim.Isa.FormatExpression

namespace MpactSim.Isa

open Decoder (Name)
open Lib

/-!
# The expressions that are parsed

A text is described by its tokens: what stands in front, behind blanks, and what is left.

* `FormatExpression`, `CutOff`                — the accepted expressions, and those at whose end the
  parser goes on reading;
* `parseFormatExpression_eq_ok`               — the parser accepts the former, with their meaning;
* `parseFormatExpression_eq_readOutside`      — it reads outside the string for the latter.
-/

/-! ### The texts -/

/-- `t` is left behind the blanks in front of `s`. -/
def Behind (s t : Name) : Prop := t ≠ [] ∧ Stops isBlank t ∧ ∃ b, Within isBlank b ∧ s = b ++ t

def Ident (name : Name) : Prop := isIdentStart (charAt name) = true ∧ Within isIdentChar name

def Sign.char : Sign → Char
  | .plus => '+'
  | .minus => '-'

def arrow : Bool → Name
  | true => ['<', '<']
  | false => ['>', '>']

/-- The name of an operand, behind blanks. -/
def NameToken (s name r : Name) : Prop := Ident name ∧ Stops isIdentChar r ∧ Behind s (name ++ r)

/-- The direction of a shift, behind blanks. -/
def ArrowToken (s : Name) (left : Bool) (r : Name) : Prop := Behind s (arrow left ++ r)

/-- A number that is an `int`, behind blanks. -/
def NumberToken (s : Name) (amount : Nat) (r : Name) : Prop :=
  ∃ num, num ≠ [] ∧ Within Char.isDigit num ∧ Stops Char.isDigit r ∧ Behind s (num ++ r) ∧
    amount = atoi num ∧ amount < 2 ^ 31

/-- A shift, behind its parenthesis. -/
def ShiftText (s name : Name) (left : Bool) (amount : Nat) : Prop :=
  ∃ r r' r'' b, NameToken s name r ∧ ArrowToken r left r' ∧ NumberToken r' amount r'' ∧
    Behind r'' (')' :: b) ∧ Within isBlank b

/-- A shift that ends in front of its operand, its amount or the parenthesis. -/
def CutShift (s : Name) : Prop :=
  Within isBlank s ∨ ∃ name r left r', NameToken s name r ∧ ArrowToken r left r' ∧
    (Within isBlank r' ∨ ∃ amount r'', NumberToken r' amount r'' ∧ Within isBlank r'')

/-- What is in front of an operand: nothing, or the address with a sign. -/
inductive Lead (expr : Name) : Option Sign → Name → Prop
  | operand : Lead expr none expr
  | address {sign : Sign} {s r : Name} : Behind expr ('@' :: s) → Behind s (sign.char :: r) →
      Lead expr (some sign) r

/-- The accepted expressions.  The operand of a shift may be any name. -/
inductive FormatExpression (locators : OpLocatorMap) (expr : Name) : FormatInfo → Prop
  | address {s : Name} : Behind expr ('@' :: s) → Within isBlank s →
      FormatExpression locators expr addressInfo
  | operand {sign : Option Sign} {s name r : Name} : Lead expr sign s → NameToken s name r →
      name ∈ locators.names → Within isBlank r →
      FormatExpression locators expr (operandInfo sign name false 0)
  | shift {sign : Option Sign} {s t name : Name} {left : Bool} {amount : Nat} : Lead expr sign s →
      Behind s ('(' :: t) → ShiftText t name left amount →
      FormatExpression locators expr (operandInfo sign name left amount)

/-- An expression that ends within a shift. -/
def CutOff (expr : Name) : Prop :=
  ∃ sign s t, Lead expr sign s ∧ Behind s ('(' :: t) ∧ CutShift t

/-- An expression in which an operand is shifted. -/
def ShiftOf (expr name : Name) : Prop :=
  ∃ sign s t left amount, Lead expr sign s ∧ Behind s ('(' :: t) ∧ ShiftText t name left amount

/-- A base, behind a width of up to two digits. -/
def NumberTail (s : Name) : Prop :=
  ∃ width base, s = width ++ [base] ∧ Within Char.isDigit width ∧ width.length ≤ 2 ∧
    base ∈ ['o', 'd', 'x', 'X']

/-- The accepted number formats.  A zero in front is not part of the width, which may not be
    missing then. -/
def NumberFormat (format : Name) : Prop :=
  charAt format ≠ '0' ∧ NumberTail format ∨
    ∃ s, format = '0' :: s ∧ (charAt s).isDigit = true ∧ NumberTail s

/-! ### Kinds of characters -/

theorem isIdentChar_of_start {c : Char} (h : isIdentStart c = true) : isIdentChar c = true := by
  simp only [isIdentStart, isIdentChar, decide_eq_true_eq, Char.isAlphanum] at h ⊢
  rcases h with h | h
  · exact .inl (by rw [h, Bool.true_or])
  · exact .inr h

variable {name s t str expr format : Name} {pos : Position}

theorem Ident.ne_nil (h : Ident name) : name ≠ [] := by
  rintro rfl
  exact absurd h.1 (by decide)

/-! ### Positions -/

theorem positionOf_eq_none : positionOf s = none ↔ s = [] := by
  cases s with
  | nil => exact iff_of_true rfl rfl
  | cons c s => exact iff_of_false (Option.some_ne_none _) (List.cons_ne_nil c s)

theorem positionOf_eq_some : positionOf s = some t ↔ t ≠ [] ∧ s = t := by
  cases s with
  | nil =>
    constructor
    · intro h
      cases h
    · rintro ⟨hne, rfl⟩
      exact absurd rfl hne
  | cons c s =>
    constructor
    · intro h
      cases h
      exact ⟨List.cons_ne_nil c s, rfl⟩
    · rintro ⟨-, rfl⟩
      rfl

theorem getD_positionOf (s : Name) : (positionOf s).getD [] = s := by
  cases s with
  | nil => rfl
  | cons c s => rfl

theorem skipSpace_eq_none : skipSpace (some s) = none ↔ Within isBlank s :=
  positionOf_eq_none.trans dropWhile_eq_nil_iff_within

theorem skipSpace_eq_some : skipSpace (some s) = some t ↔ Behind s t := by
  refine positionOf_eq_some.trans (and_congr_right fun _ => ?_)
  constructor
  · rintro rfl
    exact ⟨stops_dropWhile isBlank s, s.takeWhile isBlank, within_takeWhile isBlank s,
      List.takeWhile_append_dropWhile.symm⟩
  · rintro ⟨hstops, b, hb, rfl⟩
    exact dropWhile_append_of_stops hb hstops

theorem skipSpace_positionOf (s : Name) : skipSpace (positionOf s) = skipSpace (some s) := by
  cases s with
  | nil => rfl
  | cons c s => rfl

theorem Behind.unique {t' : Name} (h : Behind s t) (h' : Behind s t') : t = t' :=
  Option.some.inj ((skipSpace_eq_some.mpr h).symm.trans (skipSpace_eq_some.mpr h'))

theorem Behind.not_blank (h : Behind s t) : ¬Within isBlank s := by
  rw [← skipSpace_eq_none, skipSpace_eq_some.mpr h]
  exact Option.some_ne_none t

/-! ### The tokens -/

theorem getIdent_some_eq_ok :
    getIdent str (some s) = .ok (name, pos) ↔
      ∃ r, Ident name ∧ Stops isIdentChar r ∧ s = name ++ r ∧ pos = positionOf r := by
  rw [getIdent]
  constructor
  · intro h
    split at h
    · rename_i hstart
      cases h
      refine ⟨s.dropWhile isIdentChar, ⟨?_, within_takeWhile isIdentChar s⟩,
        stops_dropWhile isIdentChar s, List.takeWhile_append_dropWhile.symm, rfl⟩
      cases s with
      | nil => exact absurd hstart (by decide)
      | cons c s =>
        have hc : isIdentStart c = true := hstart
        rw [List.takeWhile_cons_of_pos (isIdentChar_of_start hc)]
        exact hc
    · cases h
  · rintro ⟨r, hident, hstops, rfl, rfl⟩
    have hstart : isIdentStart (charAt (name ++ r)) = true := by
      cases hname : name with
      | nil => exact absurd hname hident.ne_nil
      | cons c rest =>
        rw [hname] at hident
        exact hident.1
    rw [if_pos hstart, takeWhile_append_of_stops hident.2 hstops,
      dropWhile_append_of_stops hident.2 hstops]

theorem getIdent_eq_ok :
    getIdent str (skipSpace (some s)) = .ok (name, pos) ↔
      ∃ r, NameToken s name r ∧ pos = positionOf r := by
  constructor
  · intro h
    cases hs : skipSpace (some s) with
    | none =>
      rw [hs] at h
      cases h
    | some t =>
      rw [hs] at h
      obtain ⟨r, hident, hstops, rfl, rfl⟩ := getIdent_some_eq_ok.mp h
      exact ⟨r, ⟨hident, hstops, skipSpace_eq_some.mp hs⟩, rfl⟩
  · rintro ⟨r, ⟨hident, hstops, hbehind⟩, rfl⟩
    rw [skipSpace_eq_some.mpr hbehind]
    exact getIdent_some_eq_ok.mpr ⟨r, hident, hstops, rfl, rfl⟩

theorem getIdent_some_eq_error {failure : ParseFailure} (h : getIdent str (some s) = .error failure) : ∃ e, failure = .status e := by
  rw [getIdent] at h
  split at h
  · cases h
  · cases h
    exact ⟨_, rfl⟩

theorem getIdent_eq_readOutside : getIdent str pos = .error .readOutside ↔ pos = none := by
  cases pos with
  | none => exact iff_of_true rfl rfl
  | some s =>
    refine iff_of_false (fun h => ?_) (Option.some_ne_none s)
    obtain ⟨e, he⟩ := getIdent_some_eq_error h
    cases he

theorem shiftDirection_eq_ok {left : Bool} :
    shiftDirection expr (skipSpace (some s)) = .ok (left, pos) ↔
      ∃ r, ArrowToken s left r ∧ pos = some r := by
  constructor
  · intro h
    cases hs : skipSpace (some s) with
    | none =>
      rw [hs] at h
      cases h
    | some t =>
      rw [hs, shiftDirection.eq_def] at h
      split at h
      · contradiction
      · rename_i r heq
        cases h
        exact ⟨r, skipSpace_eq_some.mp (hs.trans heq), rfl⟩
      · rename_i r heq
        cases h
        exact ⟨r, skipSpace_eq_some.mp (hs.trans heq), rfl⟩
      · cases h
  · rintro ⟨r, harrow, rfl⟩
    rw [skipSpace_eq_some.mpr harrow]
    cases left with
    | true => rfl
    | false => rfl

theorem shiftDirection_ne_readOutside (expr : Name) (pos : Position) :
    shiftDirection expr pos ≠ .error .readOutside := by
  rw [shiftDirection.eq_def]
  split
  · exact fun h => by cases h
  · exact fun h => by cases h
  · exact fun h => by cases h
  · exact fun h => by cases h

theorem shiftAmount_eq_ok {amount : Nat} :
    shiftAmount expr (skipSpace (some s)) = .ok (amount, pos) ↔
      ∃ r, NumberToken s amount r ∧ pos = some r := by
  constructor
  · intro h
    cases hs : skipSpace (some s) with
    | none =>
      rw [hs] at h
      cases h
    | some t =>
      rw [hs, shiftAmount] at h
      split at h
      · cases h
      · rename_i hne
        split at h
        · rename_i hlt
          cases h
          refine ⟨t.dropWhile Char.isDigit, ⟨digits t, hne, within_takeWhile _ t,
            stops_dropWhile _ t, ?_, rfl, hlt⟩, rfl⟩
          rw [digits, List.takeWhile_append_dropWhile]
          exact skipSpace_eq_some.mp hs
        · cases h
  · rintro ⟨r, ⟨num, hne, hnum, hstops, hbehind, rfl, hlt⟩, rfl⟩
    have hdigits : digits (num ++ r) = num := takeWhile_append_of_stops hnum hstops
    rw [skipSpace_eq_some.mpr hbehind, shiftAmount, hdigits, if_neg hne, if_pos hlt,
      dropWhile_append_of_stops hnum hstops]

theorem shiftAmount_eq_readOutside : shiftAmount expr pos = .error .readOutside ↔ pos = none := by
  cases pos with
  | none => exact iff_of_true rfl rfl
  | some s =>
    refine iff_of_false ?_ (Option.some_ne_none s)
    rw [shiftAmount]
    split
    · exact fun h => by cases h
    · split
      · exact fun h => by cases h
      · exact fun h => by cases h

theorem closeShift_eq_ok {u : Unit} :
    closeShift expr (skipSpace (some s)) = .ok u ↔
      ∃ b, Behind s (')' :: b) ∧ Within isBlank b := by
  constructor
  · intro h
    cases hs : skipSpace (some s) with
    | none =>
      rw [hs] at h
      cases h
    | some t =>
      rw [hs, closeShift.eq_def] at h
      split at h
      · contradiction
      · rename_i b heq
        split at h
        · rename_i hb
          exact ⟨b, skipSpace_eq_some.mp (hs.trans heq), skipSpace_eq_none.mp hb⟩
        · cases h
      · cases h
  · rintro ⟨b, hbehind, hb⟩
    rw [skipSpace_eq_some.mpr hbehind, closeShift, if_pos (skipSpace_eq_none.mpr hb)]

theorem closeShift_eq_readOutside : closeShift expr pos = .error .readOutside ↔ pos = none := by
  rw [closeShift.eq_def]
  split
  · exact iff_of_true rfl rfl
  · refine iff_of_false ?_ (Option.some_ne_none _)
    split
    · exact fun h => by cases h
    · exact fun h => by cases h
  · exact iff_of_false (fun h => by cases h) (Option.some_ne_none _)

/-! ### The parser of expressions -/

section Parse

variable {opcode : Name} {locators : OpLocatorMap} {expr : Name} {sign : Option Sign} {s : Name}
  {info : FormatInfo}

theorem parseShift_eq_ok :
    parseShift expr sign s = .ok info ↔
      ∃ name left amount, ShiftText s name left amount ∧
        info = operandInfo sign name left amount := by
  simp only [parseShift, bind_eq_ok]
  constructor
  · rintro ⟨⟨name, pos⟩, hfirst, ⟨left, pos'⟩, hsecond, ⟨amount, pos''⟩, hthird, u, hfourth, h⟩
    obtain ⟨r, hname, rfl⟩ := getIdent_eq_ok.mp hfirst
    simp only [skipSpace_positionOf] at hsecond
    obtain ⟨r', harrow, rfl⟩ := shiftDirection_eq_ok.mp hsecond
    obtain ⟨r'', hamount, rfl⟩ := shiftAmount_eq_ok.mp hthird
    obtain ⟨b, hclose, hb⟩ := closeShift_eq_ok.mp hfourth
    cases h
    exact ⟨name, left, amount, ⟨r, r', r'', b, hname, harrow, hamount, hclose, hb⟩, rfl⟩
  · rintro ⟨name, left, amount, ⟨r, r', r'', b, hname, harrow, hamount, hclose, hb⟩, rfl⟩
    refine ⟨(name, positionOf r), getIdent_eq_ok.mpr ⟨r, hname, rfl⟩, (left, some r'), ?_,
      (amount, some r''), shiftAmount_eq_ok.mpr ⟨r'', hamount, rfl⟩, (),
      closeShift_eq_ok.mpr ⟨b, hclose, hb⟩, rfl⟩
    simp only [skipSpace_positionOf]
    exact shiftDirection_eq_ok.mpr ⟨r', harrow, rfl⟩

theorem parseShift_eq_readOutside :
    parseShift expr sign s = .error .readOutside ↔ CutShift s := by
  simp only [parseShift, bind_eq_error]
  constructor
  · rintro (h | ⟨⟨name, pos⟩, hfirst, h⟩)
    · exact .inl (skipSpace_eq_none.mp (getIdent_eq_readOutside.mp h))
    obtain ⟨r, hname, rfl⟩ := getIdent_eq_ok.mp hfirst
    simp only [skipSpace_positionOf] at h
    rcases h with h | ⟨⟨left, pos'⟩, hsecond, h⟩
    · exact absurd h (shiftDirection_ne_readOutside _ _)
    obtain ⟨r', harrow, rfl⟩ := shiftDirection_eq_ok.mp hsecond
    refine .inr ⟨name, r, left, r', hname, harrow, ?_⟩
    rcases h with h | ⟨⟨amount, pos''⟩, hthird, h⟩
    · exact .inl (skipSpace_eq_none.mp (shiftAmount_eq_readOutside.mp h))
    obtain ⟨r'', hamount, rfl⟩ := shiftAmount_eq_ok.mp hthird
    refine .inr ⟨amount, r'', hamount, ?_⟩
    rcases h with h | ⟨u, -, h⟩
    · exact skipSpace_eq_none.mp (closeShift_eq_readOutside.mp h)
    · cases h
  · rintro (h | ⟨name, r, left, r', hname, harrow, h⟩)
    · exact .inl (getIdent_eq_readOutside.mpr (skipSpace_eq_none.mpr h))
    refine .inr ⟨(name, positionOf r), getIdent_eq_ok.mpr ⟨r, hname, rfl⟩,
      .inr ⟨(left, some r'), ?_, ?_⟩⟩
    · simp only [skipSpace_positionOf]
      exact shiftDirection_eq_ok.mpr ⟨r', harrow, rfl⟩
    rcases h with h | ⟨amount, r'', hamount, h⟩
    · exact .inl (shiftAmount_eq_readOutside.mpr (skipSpace_eq_none.mpr h))
    · exact .inr ⟨(amount, some r''), shiftAmount_eq_ok.mpr ⟨r'', hamount, rfl⟩,
        .inl (closeShift_eq_readOutside.mpr (skipSpace_eq_none.mpr h))⟩

variable {t : Name}

theorem parseOperand_eq_ok (ht : skipSpace (some s) = some t) :
    parseOperand opcode locators expr sign t = .ok info ↔
      ∃ name r, NameToken s name r ∧ name ∈ locators.names ∧ Within isBlank r ∧
        info = operandInfo sign name false 0 := by
  simp only [parseOperand, bind_eq_ok, ← ht]
  constructor
  · rintro ⟨⟨name, pos⟩, hread, h⟩
    obtain ⟨r, hname, rfl⟩ := getIdent_eq_ok.mp hread
    simp only [skipSpace_positionOf] at h
    obtain ⟨hmem, h⟩ := ite_error_eq_ok.mp h
    obtain ⟨hr, h⟩ := ite_error_eq_ok.mp h
    cases h
    exact ⟨name, r, hname, not_not.mp hmem, skipSpace_eq_none.mp (not_not.mp hr), rfl⟩
  · rintro ⟨name, r, hname, hmem, hr, rfl⟩
    refine ⟨(name, positionOf r), getIdent_eq_ok.mpr ⟨r, hname, rfl⟩, ?_⟩
    simp only [skipSpace_positionOf]
    rw [if_neg (not_not.mpr hmem), if_neg (not_not.mpr (skipSpace_eq_none.mpr hr))]

theorem parseOperand_ne_readOutside (s : Name) :
    parseOperand opcode locators expr sign s ≠ .error .readOutside := by
  simp only [parseOperand, ne_eq, bind_eq_error]
  rintro (h | ⟨⟨name, pos⟩, -, h⟩)
  · exact Option.some_ne_none s (getIdent_eq_readOutside.mp h)
  · simp only at h
    split at h
    · cases h
    · split at h
      · cases h
      · cases h

theorem NameToken.not_behind {name r : Name} {c : Char} (h : NameToken s name r)
    (hc : isIdentStart c = false) : ¬Behind s (c :: t) := by
  intro hbehind
  have heq := h.2.2.unique hbehind
  cases hname : name with
  | nil => exact h.1.ne_nil hname
  | cons d rest =>
    have hstart := h.1.1
    rw [hname] at heq hstart
    rw [(List.cons.inj heq).1] at hstart
    exact absurd (hc.symm.trans hstart) (by decide)

theorem parseFormatOperand_eq_ok :
    parseFormatOperand opcode locators expr sign s = .ok info ↔
      (∃ name r, NameToken s name r ∧ name ∈ locators.names ∧ Within isBlank r ∧
        info = operandInfo sign name false 0) ∨
      ∃ t name left amount, Behind s ('(' :: t) ∧ ShiftText t name left amount ∧
        info = operandInfo sign name left amount := by
  cases hs : skipSpace (some s) with
  | none =>
    refine iff_of_false ?_ ?_
    · rw [parseFormatOperand, hs]
      exact fun h => by cases h
    · rw [skipSpace_eq_none] at hs
      rintro (⟨_, _, hname, -⟩ | ⟨_, _, _, _, hopen, -⟩)
      · exact hname.2.2.not_blank hs
      · exact hopen.not_blank hs
  | some t =>
    by_cases hopen : ∃ t', t = '(' :: t'
    · obtain ⟨t, rfl⟩ := hopen
      have hbehind := skipSpace_eq_some.mp hs
      rw [parseFormatOperand, hs]
      simp only [parseShift_eq_ok]
      constructor
      · rintro ⟨name, left, amount, hshift, rfl⟩
        exact .inr ⟨t, name, left, amount, hbehind, hshift, rfl⟩
      · rintro (⟨_, _, hname, -⟩ | ⟨t', name, left, amount, hopen, hshift, rfl⟩)
        · exact absurd hbehind (hname.not_behind (by decide))
        · obtain ⟨-, rfl⟩ := List.cons.inj (hbehind.unique hopen)
          exact ⟨name, left, amount, hshift, rfl⟩
    · have hparse : parseFormatOperand opcode locators expr sign s
          = parseOperand opcode locators expr sign t := by
        rw [parseFormatOperand, hs]
        split
        · contradiction
        · rename_i t' heq
          exact absurd ⟨t', Option.some.inj heq⟩ hopen
        · rename_i heq
          rw [Option.some.inj heq]
      rw [hparse, parseOperand_eq_ok hs]
      refine ⟨.inl, ?_⟩
      rintro (h | ⟨t', _, _, _, hbehind, -⟩)
      · exact h
      · exact absurd ⟨t', (skipSpace_eq_some.mp hs).unique hbehind⟩ hopen

theorem parseFormatOperand_eq_readOutside :
    parseFormatOperand opcode locators expr sign s = .error .readOutside ↔
      ∃ t, Behind s ('(' :: t) ∧ CutShift t := by
  rw [parseFormatOperand]
  split
  · rename_i hs
    refine iff_of_false (fun h => by cases h) ?_
    rintro ⟨t, hbehind, -⟩
    exact hbehind.not_blank (skipSpace_eq_none.mp hs)
  · rename_i t hs
    rw [parseShift_eq_readOutside]
    refine ⟨fun h => ⟨t, skipSpace_eq_some.mp hs, h⟩, ?_⟩
    rintro ⟨t', hbehind, h⟩
    obtain ⟨-, rfl⟩ := List.cons.inj (hbehind.unique (skipSpace_eq_some.mp hs))
    exact h
  · rename_i t hopen hs
    refine iff_of_false (parseOperand_ne_readOutside t) ?_
    rintro ⟨t', hbehind, -⟩
    exact hopen t' (hs.symm.trans (skipSpace_eq_some.mpr hbehind) |> Option.some.inj)

theorem parseFormatExpression_of_lead (hlead : Lead expr sign s) (hs : ∀ t, ¬Behind s ('@' :: t))
    (hne : ¬Within isBlank s) :
    parseFormatExpression opcode locators expr
      = parseFormatOperand opcode locators expr sign s := by
  cases hlead with
  | operand =>
    rw [parseFormatExpression]
    split
    · rename_i h
      exact absurd (skipSpace_eq_none.mp h) hne
    · rename_i t h
      exact absurd (skipSpace_eq_some.mp h) (hs t)
    · rename_i t hat h
      have hbehind := skipSpace_eq_some.mp h
      have hagain : skipSpace (some t) = some t :=
        skipSpace_eq_some.mpr ⟨hbehind.1, hbehind.2.1, [], within_nil, rfl⟩
      rw [parseFormatOperand, parseFormatOperand, hagain, h]
  | @address sign t r hat hsign =>
    rw [parseFormatExpression, skipSpace_eq_some.mpr hat]
    simp only [skipSpace_eq_some.mpr hsign]
    cases sign with
    | plus => rfl
    | minus => rfl

/-- A parser run that ends with other than a status has read what is in front of the operand. -/
theorem parseFormatExpression_cases {r : Except ParseFailure FormatInfo}
    (h : parseFormatExpression opcode locators expr = r) (hr : ∀ e, r ≠ .error (.status e)) :
    (r = .ok addressInfo ∧ ∃ s, Behind expr ('@' :: s) ∧ Within isBlank s) ∨
      ∃ sign s, Lead expr sign s ∧ parseFormatOperand opcode locators expr sign s = r := by
  rw [parseFormatExpression] at h
  split at h
  · exact absurd h.symm (hr _)
  · rename_i s hat
    have hat := skipSpace_eq_some.mp hat
    split at h
    · rename_i hs
      exact .inl ⟨h.symm, s, hat, skipSpace_eq_none.mp hs⟩
    · rename_i r hs
      exact .inr ⟨some .minus, r, .address hat (skipSpace_eq_some.mp hs), h⟩
    · rename_i r hs
      exact .inr ⟨some .plus, r, .address hat (skipSpace_eq_some.mp hs), h⟩
    · exact absurd h.symm (hr _)
  · rename_i t hat hs
    have hbehind := skipSpace_eq_some.mp hs
    have hagain : skipSpace (some t) = some t :=
      skipSpace_eq_some.mpr ⟨hbehind.1, hbehind.2.1, [], within_nil, rfl⟩
    refine .inr ⟨none, expr, .operand, ?_⟩
    rw [← h, parseFormatOperand, parseFormatOperand, hagain, hs]

/-- **The accepted expressions.** -/
theorem parseFormatExpression_eq_ok (opcode : Name) :
    parseFormatExpression opcode locators expr = .ok info ↔ FormatExpression locators expr info := by
  constructor
  · intro h
    rcases parseFormatExpression_cases h (fun e he => by cases he) with
      ⟨hinfo, s, hat, hs⟩ | ⟨sign, s, hlead, hparse⟩
    · cases hinfo
      exact .address hat hs
    · rcases parseFormatOperand_eq_ok.mp hparse with
        ⟨name, r, hname, hmem, hr, rfl⟩ | ⟨t, name, left, amount, hopen, hshift, rfl⟩
      · exact .operand hlead hname hmem hr
      · exact .shift hlead hopen hshift
  · intro h
    cases h with
    | address hat hs =>
      rw [parseFormatExpression, skipSpace_eq_some.mpr hat]
      simp only [skipSpace_eq_none.mpr hs]
    | operand hlead hname hmem hr =>
      rw [parseFormatExpression_of_lead hlead (fun _ => hname.not_behind (by decide))
        hname.2.2.not_blank]
      exact parseFormatOperand_eq_ok.mpr (.inl ⟨_, _, hname, hmem, hr, rfl⟩)
    | shift hlead hopen hshift =>
      rw [parseFormatExpression_of_lead hlead (fun _ hat => absurd (hopen.unique hat) (by simp))
        hopen.not_blank]
      exact parseFormatOperand_eq_ok.mpr (.inr ⟨_, _, _, _, hopen, hshift, rfl⟩)

/-- **The expressions at whose end the parser goes on reading.** -/
theorem parseFormatExpression_eq_readOutside :
    parseFormatExpression opcode locators expr = .error .readOutside ↔ CutOff expr := by
  constructor
  · intro h
    rcases parseFormatExpression_cases h (fun e he => by cases he) with
      ⟨hinfo, -⟩ | ⟨sign, s, hlead, hparse⟩
    · cases hinfo
    · obtain ⟨t, hopen, hcut⟩ := parseFormatOperand_eq_readOutside.mp hparse
      exact ⟨sign, s, t, hlead, hopen, hcut⟩
  · rintro ⟨sign, s, t, hlead, hopen, hcut⟩
    rw [parseFormatExpression_of_lead hlead (fun _ hat => absurd (hopen.unique hat) (by simp))
      hopen.not_blank]
    exact parseFormatOperand_eq_readOutside.mpr ⟨t, hopen, hcut⟩

theorem FormatExpression.unique {info' : FormatInfo} (h : FormatExpression locators expr info)
    (h' : FormatExpression locators expr info') : info = info' :=
  Except.ok.inj (((parseFormatExpression_eq_ok []).mpr h).symm.trans
    ((parseFormatExpression_eq_ok []).mpr h'))

theorem ShiftText.ne_nil {name : Name} {left : Bool} {amount : Nat}
    (h : ShiftText t name left amount) : name ≠ [] := by
  obtain ⟨_, _, _, _, hname, -⟩ := h
  exact hname.1.ne_nil

theorem FormatExpression.named_iff (h : FormatExpression locators expr info) :
    (info.opName ≠ [] → info.opName ∈ locators.names) ↔
      ∀ name, ShiftOf expr name → name ∈ locators.names := by
  constructor
  · rintro hnamed name ⟨sign, s, t, left, amount, hlead, hopen, hshift⟩
    have hinfo := h.unique (.shift hlead hopen hshift)
    rw [hinfo] at hnamed
    exact hnamed hshift.ne_nil
  · intro hshifts hne
    cases h with
    | address hat hs => exact absurd rfl hne
    | operand hlead hname hmem hr => exact hmem
    | shift hlead hopen hshift => exact hshifts _ ⟨_, _, _, _, _, hlead, hopen, hshift⟩

end Parse

/-! ### The parser of number formats -/

theorem numberWidth_eq_ok {width r : Name} :
    numberWidth format s = .ok (width, r) ↔
      s = width ++ r ∧ Within Char.isDigit width ∧ Stops Char.isDigit r ∧ width.length ≤ 2 := by
  simp only [numberWidth]
  constructor
  · intro h
    split at h
    · rename_i hlen
      cases h
      have hsplit : digits s ++ s.dropWhile Char.isDigit = s := List.takeWhile_append_dropWhile
      have hr : s.drop (digits s).length = s.dropWhile Char.isDigit :=
        calc s.drop (digits s).length
            = (digits s ++ s.dropWhile Char.isDigit).drop (digits s).length := by rw [hsplit]
          _ = s.dropWhile Char.isDigit := List.drop_left
      rw [hr]
      exact ⟨hsplit.symm, within_takeWhile _ s, stops_dropWhile _ s, hlen⟩
    · cases h
  · rintro ⟨rfl, hwidth, hr, hlen⟩
    have hdigits : digits (width ++ r) = width := takeWhile_append_of_stops hwidth hr
    rw [hdigits, if_pos hlen, List.drop_left]

theorem numberBase_eq_ok {base : Name} :
    numberBase format s = .ok base ↔ ∃ c ∈ ['o', 'd', 'x', 'X'], s = [c] ∧ base = [c] := by
  rw [numberBase]
  constructor
  · intro h
    split at h
    · rename_i hbase
      split at h
      · rename_i hend
        cases h
        cases s with
        | nil => exact absurd hbase (by decide)
        | cons c t =>
          have ht : t = [] := hend
          subst ht
          refine ⟨c, ?_, rfl, rfl⟩
          simpa [charAt] using hbase
      · cases h
    · cases h
  · rintro ⟨c, hc, rfl, rfl⟩
    have hbase : charAt [c] = 'o' ∨ charAt [c] = 'd' ∨ charAt [c] = 'x' ∨ charAt [c] = 'X' := by
      simpa [charAt] using hc
    have hend : [c].drop 1 = [] := rfl
    rw [if_pos hbase, if_pos hend]
    rfl

theorem numberTail_eq_ok {read nf : Name} :
    (do
      let (width, r) ← numberWidth format s
      let base ← numberBase format r
      Except.ok (read ++ width ++ base)) = .ok nf ↔ NumberTail s ∧ nf = read ++ s := by
  simp only [bind_eq_ok]
  constructor
  · rintro ⟨⟨width, r⟩, hwidth, base, hbase, h⟩
    obtain ⟨rfl, hdigits, -, hlen⟩ := numberWidth_eq_ok.mp hwidth
    obtain ⟨c, hc, rfl, rfl⟩ := numberBase_eq_ok.mp hbase
    cases h
    exact ⟨⟨width, c, rfl, hdigits, hlen, hc⟩, List.append_assoc ..⟩
  · rintro ⟨⟨width, c, rfl, hdigits, hlen, hc⟩, rfl⟩
    have hstops : Stops Char.isDigit [c] := by
      rw [stops_cons]
      fin_cases hc
      · decide
      · decide
      · decide
      · decide
    exact ⟨(width, [c]), numberWidth_eq_ok.mpr ⟨rfl, hdigits, hstops, hlen⟩, [c],
      numberBase_eq_ok.mpr ⟨c, hc, rfl, rfl⟩, by rw [List.append_assoc]⟩

/-- **The accepted number formats.** They are put behind a `%`. -/
theorem parseNumberFormat_eq_ok {nf : Name} :
    parseNumberFormat format = .ok nf ↔ NumberFormat format ∧ nf = '%' :: format := by
  by_cases hzero : charAt format = '0'
  · obtain ⟨s, rfl⟩ : ∃ s, format = '0' :: s := by
      cases format with
      | nil => exact absurd hzero (by decide)
      | cons c s =>
        have hc : c = '0' := hzero
        exact ⟨s, by rw [hc]⟩
    have hparse : parseNumberFormat ('0' :: s) = .ok nf ↔
        (charAt s).isDigit = true ∧ NumberTail s ∧ nf = '%' :: '0' :: s := by
      rw [parseNumberFormat, if_pos hzero]
      refine ite_error_eq_ok.trans (and_congr ?_ numberTail_eq_ok)
      simp
    rw [hparse, NumberFormat]
    constructor
    · rintro ⟨hdigit, htail, rfl⟩
      exact ⟨.inr ⟨s, rfl, hdigit, htail⟩, rfl⟩
    · rintro ⟨⟨hne, -⟩ | ⟨s', heq, hdigit, htail⟩, hnf⟩
      · exact absurd hzero hne
      · cases heq
        exact ⟨hdigit, htail, hnf⟩
  · have hparse : parseNumberFormat format = .ok nf ↔
        NumberTail format ∧ nf = '%' :: format := by
      rw [parseNumberFormat, if_neg hzero]
      refine ite_error_eq_ok.trans ?_
      simp only [ne_eq, not_true_eq_false, false_and, not_false_eq_true, true_and]
      exact numberTail_eq_ok
    rw [hparse, NumberFormat]
    constructor
    · rintro ⟨htail, hnf⟩
      exact ⟨.inl ⟨hzero, htail⟩, hnf⟩
    · rintro ⟨⟨-, htail⟩ | ⟨s', rfl, -⟩, hnf⟩
      · exact ⟨htail, hnf⟩
      · exact absurd rfl hzero

end MpactSim.Isa
