import MpactSim.Asm.Text
import MpactSim.Lib.ItemLists

namespace MpactSim.Asm

open Lib

/-!
# Literals

The literals that the regular expressions of the data directives match, and what `SimpleTextToInt`
reads of those that are numbers.

* `DataType.Literal`       — the literals of a type;
* `numberRe_reads`, `charRe_reads`, `stringRe_reads` — an expression reads a literal with the comma
  behind it or to the end of the text;
* `simpleTextToInt_eq_ok`  — the value of a number, if the type has it.
-/

variable {text tail rest body : Text} {p : Char → Bool} {c : Char}

/-! ### Literals and their types -/

/-- The type of the values of a data directive. -/
inductive DataType where
  | integer (signed : Bool) (size : Nat)
  | char
  | string (terminated : Bool)
  deriving DecidableEq, Repr

/-- The data directives and their types. -/
def Keyword.dataType : Keyword → Option DataType
  | .bytes | .uchar => some (.integer false 1)
  | .short => some (.integer true 2)
  | .ushort => some (.integer false 2)
  | .word => some (.integer true 4)
  | .uword => some (.integer false 4)
  | .long => some (.integer true 8)
  | .ulong => some (.integer false 8)
  | .char => some .char
  | .string => some (.string false)
  | .cstring => some (.string true)
  | _ => none

/-- A digit of a hexadecimal number. -/
def isHexDigit (c : Char) : Bool := (digitValue c).isSome

/-- A digit of a decimal number. -/
def isDecimalDigit (c : Char) : Bool := '0' ≤ c ∧ c ≤ '9'

/-- A hexadecimal number, or a decimal one that may have a minus sign. -/
inductive IsNumber : Text → Prop
  | hex {digits : Text} : digits ≠ [] → Within isHexDigit digits → IsNumber ('0' :: 'x' :: digits)
  | decimal {digits : Text} : digits ≠ [] → Within isDecimalDigit digits → IsNumber digits
  | negative {digits : Text} : digits ≠ [] → Within isDecimalDigit digits →
      IsNumber ('-' :: digits)

/-- The number that a literal stands for. -/
def numberValue : Text → Option Int
  | '0' :: 'x' :: text => (digits 16 text).map Int.ofNat
  | '-' :: text => (digits 10 text).map fun n => -(n : Int)
  | text => (digits 10 text).map Int.ofNat

/-- The numbers that an integer type of `width` bits holds. -/
def InRange (signed : Bool) (width : Nat) (value : Int) : Prop :=
  if signed then -2 ^ (width - 1) ≤ value ∧ value < 2 ^ (width - 1)
  else 0 ≤ value ∧ value < 2 ^ width

namespace DataType

/-- The literals of a type, with what counts of them: characters and strings stand in quotes. -/
def Literal : DataType → Text → Text → Prop
  | .integer _ _, item, number => item = number ∧ IsNumber number
  | .char, item, inner => item = '\'' :: inner ++ ['\''] ∧ '\n' ∉ inner ∧
      (inner.length = 1 ∨ inner.length = 2)
  | .string _, item, inner => item = '"' :: inner ++ ['"'] ∧ '"' ∉ inner

end DataType

/-! ### The regular expressions -/

theorem separator_eq_some : separator tail = some rest ↔ ∃ back, Within isSpace back ∧
    (tail = back ∧ rest = [] ∨ tail = back ++ ',' :: rest) := by
  unfold separator
  constructor
  · intro h
    obtain ⟨back, r, rfl, hback, hr⟩ := exists_scan isSpace tail
    rw [dropWhile_append_of_stops hback hr] at h
    refine ⟨back, hback, ?_⟩
    split at h
    · cases h
      exact .inl ⟨List.append_nil back, rfl⟩
    · cases h
      exact .inr rfl
    · cases h
  · rintro ⟨back, hback, ⟨rfl, rfl⟩ | rfl⟩
    · rw [dropWhile_eq_nil_iff_within.mpr hback]
    · rw [dropWhile_append_of_stops hback (stops_cons.mpr (by decide))]
      rfl

theorem stops_of_separator (h : separator tail = some rest)
    (hp : ∀ c, isSpace c = true ∨ c = ',' → p c = false) : Stops p tail := by
  obtain ⟨back, hback, ⟨rfl, rfl⟩ | rfl⟩ := separator_eq_some.mp h
  · intro c hc
    exact hp c (.inl (hback c (List.mem_of_mem_head? hc)))
  · exact (stops_cons.mpr (hp ',' (.inr rfl))).append_left hback fun c hc => hp c (.inl hc)

/-- A regular expression that skips white space, and then takes an item and a separator. -/
theorem reads_of_items {Item : Text → Text → Prop} {re : Text → Option (Text × Text)}
    (hskip : ∀ text, re text = re (text.dropWhile isSpace))
    (hitem : ∀ item b, Item item b → item ≠ [] ∧ Stops isSpace item)
    (hread : ∀ body b rest, Stops isSpace body → (re body = some (b, rest) ↔
      ∃ item tail, body = item ++ tail ∧ Item item b ∧ separator tail = some rest)) :
    Reads isSpace ',' Item re := by
  intro text b rest
  obtain ⟨front, body, rfl, hfront, hbody⟩ := exists_scan isSpace text
  rw [hskip, dropWhile_append_of_stops hfront hbody, hread body b rest hbody]
  constructor
  · rintro ⟨item, tail, rfl, hb, htail⟩
    obtain ⟨back, hback, h⟩ := separator_eq_some.mp htail
    refine ⟨front ++ item ++ back, ⟨front, item, back, rfl, hfront, hback, hb⟩, ?_⟩
    rcases h with ⟨rfl, rfl⟩ | rfl
    · exact .inl ⟨(List.append_assoc ..).symm, rfl⟩
    · exact .inr (by simp)
  · -- An item does not start with white space, so that the text is cut in front of it.
    rintro ⟨piece, ⟨front', item, back, rfl, hfront', hback, hb⟩, h⟩
    obtain ⟨hne, hstops⟩ := hitem item b hb
    rcases h with ⟨h, rfl⟩ | h
    · have hsplit : front ++ body = front' ++ (item ++ back) := by rw [h, List.append_assoc]
      obtain ⟨rfl, rfl⟩ := scan_unique hfront hbody hfront' ((stops_append hne).mpr hstops) hsplit
      exact ⟨item, back, rfl, hb, separator_eq_some.mpr ⟨back, hback, .inl ⟨rfl, rfl⟩⟩⟩
    · have hsplit : front ++ body = front' ++ (item ++ (back ++ ',' :: rest)) := by
        rw [h]
        simp
      obtain ⟨rfl, rfl⟩ := scan_unique hfront hbody hfront' ((stops_append hne).mpr hstops) hsplit
      exact ⟨item, _, rfl, hb, separator_eq_some.mpr ⟨back, hback, .inr rfl⟩⟩

/-- A sign or a base, digits of a kind, and a separator. -/
def scanNumber (p : Char → Bool) (sign : Text) (body : Text) : Option (Text × Text) :=
  match body.takeWhile p with
  | [] => none
  | number => (separator (body.dropWhile p)).map fun rest => (sign ++ number, rest)

variable {number : Text} {signed : Bool} {width : Nat} {value : Int}

theorem scanNumber_eq_some {sign : Text} (hp : ∀ c, isSpace c = true ∨ c = ',' → p c = false) :
    scanNumber p sign body = some (number, rest) ↔ ∃ digits tail, body = digits ++ tail ∧
      digits ≠ [] ∧ Within p digits ∧ number = sign ++ digits ∧ separator tail = some rest := by
  unfold scanNumber
  constructor
  · intro h
    obtain ⟨digits, tail, rfl, hdigits, htail⟩ := exists_scan p body
    rw [takeWhile_append_of_stops hdigits htail, dropWhile_append_of_stops hdigits htail] at h
    split at h
    · cases h
    · rename_i hne
      obtain ⟨rest', hrest, heq⟩ := Option.map_eq_some_iff.mp h
      cases heq
      exact ⟨digits, tail, rfl, hne, hdigits, rfl, hrest⟩
  · rintro ⟨digits, tail, rfl, hne, hdigits, rfl, hrest⟩
    have htail := stops_of_separator hrest hp
    rw [takeWhile_append_of_stops hdigits htail, dropWhile_append_of_stops hdigits htail, hrest]
    split
    · contradiction
    · rfl

theorem numberRe_eq (text : Text) : numberRe text =
    match text.dropWhile isSpace with
    | '0' :: 'x' :: body => scanNumber isHexDigit ['0', 'x'] body
    | '-' :: body => scanNumber isDecimalDigit ['-'] body
    | body => scanNumber isDecimalDigit [] body := rfl

theorem separates_cases (h : isSpace c = true ∨ c = ',') :
    c ∈ [' ', '\t', '\n', '\r', '\x0c', ','] := by
  simpa [isSpace, or_assoc] using h

theorem isHexDigit_of_separates (c : Char) (h : isSpace c = true ∨ c = ',') :
    isHexDigit c = false := by
  have hall : [' ', '\t', '\n', '\r', '\x0c', ','].all (fun c => !isHexDigit c) = true := by decide
  simpa using List.all_eq_true.mp hall c (separates_cases h)

theorem isDecimalDigit_of_separates (c : Char) (h : isSpace c = true ∨ c = ',') :
    isDecimalDigit c = false := by
  have hall : [' ', '\t', '\n', '\r', '\x0c', ','].all (fun c => !isDecimalDigit c) = true := by decide
  simpa using List.all_eq_true.mp hall c (separates_cases h)

theorem isSpace_of_isDecimalDigit (h : isDecimalDigit c = true) : isSpace c = false := by
  by_contra hspace
  rw [isDecimalDigit_of_separates c (.inl (by simpa using hspace))] at h
  cases h

theorem IsNumber.stops (h : IsNumber number) : number ≠ [] ∧ Stops isSpace number := by
  cases h with
  | hex hne hdigits => exact ⟨List.cons_ne_nil _ _, stops_cons.mpr (by decide)⟩
  | decimal hne hdigits =>
    refine ⟨hne, ?_⟩
    obtain ⟨d, digits, rfl⟩ := List.exists_cons_of_ne_nil hne
    exact stops_cons.mpr (isSpace_of_isDecimalDigit (within_cons.mp hdigits).1)
  | negative hne hdigits => exact ⟨List.cons_ne_nil _ _, stops_cons.mpr (by decide)⟩

theorem decimal_ne {digits : Text} (hne : digits ≠ []) (hdigits : Within isDecimalDigit digits)
    (htail : separator tail = some rest) :
    (∀ body, digits ++ tail ≠ '0' :: 'x' :: body) ∧ ∀ body, digits ++ tail ≠ '-' :: body := by
  obtain ⟨d, digits, rfl⟩ := List.exists_cons_of_ne_nil hne
  have hd := within_cons.mp hdigits
  constructor
  · intro body heq
    obtain ⟨-, heq⟩ := List.cons.inj heq
    cases digits with
    | nil =>
      have htext : tail = 'x' :: body := heq
      have hnone : separator ('x' :: body) = none := rfl
      rw [htext, hnone] at htail
      cases htail
    | cons d' digits =>
      obtain ⟨rfl, -⟩ := List.cons.inj heq
      exact absurd (within_cons.mp hd.2).1 (by decide)
  · intro body heq
    obtain ⟨rfl, -⟩ := List.cons.inj heq
    exact absurd hd.1 (by decide)

theorem numberRe_reads (signed : Bool) (size : Nat) :
    Reads isSpace ',' (DataType.integer signed size).Literal numberRe := by
  apply reads_of_items
  · intro text
    rw [numberRe_eq, numberRe_eq, dropWhile_of_stops (stops_dropWhile isSpace text)]
  · rintro item number ⟨rfl, hnumber⟩
    exact hnumber.stops
  · intro body number rest hbody
    rw [numberRe_eq, dropWhile_of_stops hbody]
    constructor
    · intro h
      split at h
      · obtain ⟨digits, tail, rfl, hne, hdigits, rfl, htail⟩ :=
          (scanNumber_eq_some isHexDigit_of_separates).mp h
        exact ⟨_, tail, rfl, ⟨rfl, .hex hne hdigits⟩, htail⟩
      · obtain ⟨digits, tail, rfl, hne, hdigits, rfl, htail⟩ :=
          (scanNumber_eq_some isDecimalDigit_of_separates).mp h
        exact ⟨_, tail, rfl, ⟨rfl, .negative hne hdigits⟩, htail⟩
      · obtain ⟨digits, tail, rfl, hne, hdigits, rfl, htail⟩ :=
          (scanNumber_eq_some isDecimalDigit_of_separates).mp h
        exact ⟨_, tail, rfl, ⟨rfl, .decimal hne hdigits⟩, htail⟩
    · rintro ⟨item, tail, rfl, ⟨rfl, hnumber⟩, htail⟩
      cases hnumber with
      | hex hne hdigits =>
        exact (scanNumber_eq_some isHexDigit_of_separates).mpr
          ⟨_, tail, rfl, hne, hdigits, rfl, htail⟩
      | decimal hne hdigits =>
        obtain ⟨hhex, hnegative⟩ := decimal_ne hne hdigits htail
        split
        · rename_i heq
          exact absurd heq (hhex _)
        · rename_i heq
          exact absurd heq (hnegative _)
        · exact (scanNumber_eq_some isDecimalDigit_of_separates).mpr
            ⟨_, tail, rfl, hne, hdigits, rfl, htail⟩
      | negative hne hdigits =>
        exact (scanNumber_eq_some isDecimalDigit_of_separates).mpr
          ⟨_, tail, rfl, hne, hdigits, rfl, htail⟩

/-- One character in quotes and two of them are told apart by what follows. -/
theorem charRe_reads : Reads isSpace ',' DataType.char.Literal charRe := by
  apply reads_of_items
  · intro text
    unfold charRe
    rw [dropWhile_of_stops (stops_dropWhile isSpace text)]
  · rintro item inner ⟨rfl, -, -⟩
    exact ⟨List.cons_ne_nil _ _, stops_cons.mpr (by decide)⟩
  · intro body inner rest hbody
    unfold charRe
    simp only [dropWhile_of_stops hbody]
    constructor
    · intro h
      rcases Option.or_eq_some_iff.mp h with h | ⟨-, h⟩
      · split at h
        · rename_i a b tail _
          obtain ⟨hline, h⟩ := Option.ite_none_left_eq_some.mp h
          obtain ⟨rest', htail, heq⟩ := Option.map_eq_some_iff.mp h
          cases heq
          have hinner : '\n' ∉ [a, b] := by simpa [eq_comm] using hline
          exact ⟨['\'', a, b, '\''], tail, rfl, ⟨rfl, hinner, .inr rfl⟩, htail⟩
        · cases h
      · split at h
        · rename_i a tail _
          obtain ⟨hline, h⟩ := Option.ite_none_left_eq_some.mp h
          obtain ⟨rest', htail, heq⟩ := Option.map_eq_some_iff.mp h
          cases heq
          have hinner : '\n' ∉ [a] := by simpa [eq_comm] using hline
          exact ⟨['\'', a, '\''], tail, rfl, ⟨rfl, hinner, .inl rfl⟩, htail⟩
        · cases h
    · rintro ⟨item, tail, rfl, ⟨rfl, hline, hone | htwo⟩, htail⟩
      · obtain ⟨a, rfl⟩ := List.length_eq_one_iff.mp hone
        have ha : a ≠ '\n' := by simpa [eq_comm] using hline
        -- A fourth character that is a quote would have to start a separator.
        refine Option.or_eq_some_iff.mpr (.inr ⟨?_, ?_⟩)
        · split
          · rename_i a' b' tail' heq
            have htext : tail = '\'' :: tail' := by
              simp only [List.cons_append, List.nil_append, List.cons.injEq] at heq
              exact heq.2.2.2
            have hnone : separator ('\'' :: tail') = none := rfl
            rw [htext, hnone] at htail
            cases htail
          · rfl
        · show (if a = '\n' then none else (separator tail).map fun rest => ([a], rest)) = _
          rw [if_neg ha, htail]
          rfl
      · obtain ⟨a, b, rfl⟩ := List.length_eq_two.mp htwo
        have hab : ¬(a = '\n' ∨ b = '\n') := by simpa [eq_comm] using hline
        refine Option.or_eq_some_iff.mpr (.inl ?_)
        show (if a = '\n' ∨ b = '\n' then none
          else (separator tail).map fun rest => ([a, b], rest)) = _
        rw [if_neg hab, htail]
        rfl

theorem stringRe_reads (terminated : Bool) :
    Reads isSpace ',' (DataType.string terminated).Literal stringRe := by
  apply reads_of_items
  · intro text
    unfold stringRe
    rw [dropWhile_of_stops (stops_dropWhile isSpace text)]
  · rintro item inner ⟨rfl, -⟩
    exact ⟨List.cons_ne_nil _ _, stops_cons.mpr (by decide)⟩
  · intro body inner rest hbody
    unfold stringRe
    rw [dropWhile_of_stops hbody]
    constructor
    · intro h
      split at h
      · rename_i text
        obtain ⟨chars, tail, rfl, hchars, htail⟩ := exists_scan (fun c => decide (c ≠ '"')) text
        rw [takeWhile_append_of_stops hchars htail, dropWhile_append_of_stops hchars htail] at h
        split at h
        · rename_i tail
          obtain ⟨rest', hrest, heq⟩ := Option.map_eq_some_iff.mp h
          cases heq
          refine ⟨_, tail, ?_, ⟨rfl, ?_⟩, hrest⟩
          · simp
          · intro hmem
            simpa using hchars _ hmem
        · cases h
      · cases h
    · rintro ⟨item, tail, rfl, ⟨rfl, hquote⟩, htail⟩
      have htext : '"' :: inner ++ ['"'] ++ tail = '"' :: (inner ++ '"' :: tail) := by simp
      have hinner : Within (fun c => decide (c ≠ '"')) inner := by
        intro c hc
        have hne : c ≠ '"' := by
          rintro rfl
          exact hquote hc
        simpa using hne
      have hstops : Stops (fun c => decide (c ≠ '"')) ('"' :: tail) := stops_cons.mpr (by decide)
      rw [htext]
      simp only [takeWhile_append_of_stops hinner hstops, dropWhile_append_of_stops hinner hstops]
      show (separator tail).map (fun rest => (inner, rest)) = _
      rw [htail]
      rfl

/-! ### Numbers -/

/-- The text of a number without white space around it. -/
def trim (text : Text) : Text :=
  ((text.dropWhile asciiIsSpace).reverse.dropWhile asciiIsSpace).reverse

/-- The digits of a hexadecimal number may start with `0x` once more. -/
def dropBase (base : Nat) (body : Text) : Text :=
  match base, body with
  | 16, '0' :: 'x' :: rest => rest
  | 16, '0' :: 'X' :: rest => rest
  | _, body => body

theorem simpleAtoi_def (base : Nat) (signed : Bool) (width : Nat) (text : Text) :
    simpleAtoi base signed width text =
      match digits base (dropBase base (takeSign (trim text)).2) with
      | none => none
      | some n =>
        if signed then
          let value : Int := if (takeSign (trim text)).1 then -n else n
          if -2 ^ (width - 1) ≤ value ∧ value < 2 ^ (width - 1) then some value else none
        else if (takeSign (trim text)).1 = false ∧ n < 2 ^ width then some n else none := rfl

theorem trim_eq (h : Within (fun c => !asciiIsSpace c) text) : trim text = text := by
  have hstops {text : Text} (h : Within (fun c => !asciiIsSpace c) text) :
      text.dropWhile asciiIsSpace = text := by
    apply dropWhile_of_stops
    intro c hc
    simpa using h c (List.mem_of_mem_head? hc)
  have hreverse : Within (fun c => !asciiIsSpace c) text.reverse :=
    fun c hc => h c (List.mem_reverse.mp hc)
  rw [trim, hstops h, hstops hreverse, List.reverse_reverse]

theorem dropBase_eq (base : Nat) (h : Within isHexDigit body) : dropBase base body = body := by
  unfold dropBase
  split
  · exact absurd (h 'x' (by simp)) (by decide)
  · exact absurd (h 'X' (by simp)) (by decide)
  · rfl

/-- A number without white space, taken apart into its sign and its digits. -/
theorem simpleAtoi_eq {base : Nat} {negative : Bool}
    (hnumber : Within (fun c => !asciiIsSpace c) number)
    (hsign : takeSign number = (negative, body)) (hbody : Within isHexDigit body) :
    simpleAtoi base signed width number = some value ↔ ∃ n, digits base body = some n ∧
      value = (if negative then -(n : Int) else n) ∧ InRange signed width value ∧
      (negative = true → signed = true) := by
  rw [simpleAtoi_def, trim_eq hnumber, hsign, dropBase_eq base hbody]
  cases digits base body with
  | none => simp
  | some n =>
    simp only [Option.some.injEq, exists_eq_left', InRange]
    cases signed with
    | true =>
      simp only [if_true, Option.ite_none_right_eq_some, Option.some.injEq, implies_true, and_true]
      constructor
      · rintro ⟨h, rfl⟩
        exact ⟨rfl, h⟩
      · rintro ⟨rfl, h⟩
        exact ⟨h, rfl⟩
    | false =>
      simp only [Bool.false_eq_true, if_false, Option.ite_none_right_eq_some, Option.some.injEq]
      cases negative with
      | true => simp
      | false =>
        simp only [true_and, Bool.false_eq_true, if_false, false_imp_iff, and_true]
        constructor
        · rintro ⟨h, rfl⟩
          exact ⟨rfl, Int.natCast_nonneg n, by exact_mod_cast h⟩
        · rintro ⟨rfl, -, h⟩
          exact ⟨by exact_mod_cast h, rfl⟩

theorem asciiIsSpace_of_isHexDigit (h : isHexDigit c = true) : (!asciiIsSpace c) = true := by
  have hspace : isSpace c = false := by
    by_contra hspace
    rw [isHexDigit_of_separates c (.inl (by simpa using hspace))] at h
    cases h
  have hvertical : c ≠ '\x0b' := by
    rintro rfl
    exact absurd h (by decide)
  simp [asciiIsSpace, hspace, hvertical]

theorem isHexDigit_of_isDecimalDigit (h : isDecimalDigit c = true) : isHexDigit c = true := by
  have hdigit : '0' ≤ c ∧ c ≤ '9' := by simpa [isDecimalDigit] using h
  rw [isHexDigit, digitValue, if_pos hdigit]
  rfl

theorem takeSign_digits {digits : Text} (h : Within isHexDigit digits) :
    takeSign digits = (false, digits) := by
  unfold takeSign
  split
  · exact absurd (h '-' List.mem_cons_self) (by decide)
  · exact absurd (h '+' List.mem_cons_self) (by decide)
  · rfl

theorem simpleTextToInt_hex :
    simpleTextToInt signed width ('0' :: 'x' :: text) = .ok value ↔
      simpleAtoi 16 signed width text = some value := by
  unfold simpleTextToInt
  cases hread : simpleAtoi 16 signed width text with
  | none => simp [hread]
  | some value' => simp [hread]

theorem simpleTextToInt_decimal (h : ∀ body, text ≠ '0' :: 'x' :: body) :
    simpleTextToInt signed width text = .ok value ↔
      simpleAtoi 10 signed width text = some value := by
  unfold simpleTextToInt
  split
  · exact absurd rfl (h _)
  · cases simpleAtoi 10 signed width text with
    | none => simp
    | some value' => simp

theorem numberValue_decimal (hhex : ∀ body, text ≠ '0' :: 'x' :: body)
    (hnegative : ∀ body, text ≠ '-' :: body) :
    numberValue text = (digits 10 text).map Int.ofNat := by
  unfold numberValue
  split
  · exact absurd rfl (hhex _)
  · exact absurd rfl (hnegative _)
  · rfl

theorem simpleTextToInt_eq_ok (h : IsNumber number) :
    simpleTextToInt signed width number = .ok value ↔
      numberValue number = some value ∧ InRange signed width value ∧
        (number.head? = some '-' → signed = true) := by
  cases h with
  | @hex ds hne hds =>
    have hspaces : Within (fun c => !asciiIsSpace c) ds :=
      fun c hc => asciiIsSpace_of_isHexDigit (hds c hc)
    have hvalue : numberValue ('0' :: 'x' :: ds) = (digits 16 ds).map Int.ofNat := rfl
    rw [simpleTextToInt_hex, simpleAtoi_eq hspaces (takeSign_digits hds) hds, hvalue]
    cases digits 16 ds with
    | none => simp
    | some n => simp [eq_comm]
  | decimal hne hds =>
    have htail : separator [] = some [] := rfl
    obtain ⟨hhex, hnegative⟩ := decimal_ne hne hds htail
    rw [List.append_nil] at hhex hnegative
    have hbody : Within isHexDigit number := fun c hc => isHexDigit_of_isDecimalDigit (hds c hc)
    have hspaces : Within (fun c => !asciiIsSpace c) number :=
      fun c hc => asciiIsSpace_of_isHexDigit (hbody c hc)
    have hhead : number.head? ≠ some '-' := by
      intro hhead
      obtain ⟨body, rfl⟩ := List.head?_eq_some_iff.mp hhead
      exact hnegative body rfl
    rw [simpleTextToInt_decimal hhex, simpleAtoi_eq hspaces (takeSign_digits hbody) hbody,
      numberValue_decimal hhex hnegative]
    cases digits 10 number with
    | none => simp
    | some n => simp [hhead, eq_comm]
  | @negative ds hne hds =>
    have hbody : Within isHexDigit ds := fun c hc => isHexDigit_of_isDecimalDigit (hds c hc)
    have hspaces : Within (fun c => !asciiIsSpace c) ('-' :: ds) :=
      within_cons.mpr ⟨by decide, fun c hc => asciiIsSpace_of_isHexDigit (hbody c hc)⟩
    have hhex (body : Text) : '-' :: ds ≠ '0' :: 'x' :: body := by simp
    have hsign : takeSign ('-' :: ds) = (true, ds) := rfl
    have hvalue : numberValue ('-' :: ds) = (digits 10 ds).map fun n => -(n : Int) := rfl
    rw [simpleTextToInt_decimal hhex, simpleAtoi_eq hspaces hsign hbody, hvalue]
    cases digits 10 ds with
    | none => simp
    | some n => simp [eq_comm]

end MpactSim.Asm
