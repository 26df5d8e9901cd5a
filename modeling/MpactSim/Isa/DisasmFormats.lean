import MpactSim.Isa.FormatGrammar

namespace MpactSim.Isa

open Decoder (Name)
open Lib

/-!
# The parser of disassembly formats

A format is text with specifiers in it, each behind a `%`: the name of an operand, or an expression
in parentheses with a number format.  The parser makes a record for each specifier, and one that
owns them; it deletes these itself wherever it fails.

* `parseSpecifier`    — one turn of its loop, behind the `%`;
* `parseDisasmFormat` — the parser.
-/

/-! ### The source -/

/-- `FormatInfo` as it is parsed: with the mark of an optional operand. -/
structure ParsedInfo extends FormatInfo where
  isOptional : Bool
  deriving DecidableEq, Repr

/-- `DisasmFormat` as it is parsed. -/
structure ParsedFormat where
  width : Int
  numOptional : Nat
  fragments : List Name
  infos : List ParsedInfo
  deriving DecidableEq, Repr

/-- What is deleted: an info, by the number of infos that were made before it, or the format. -/
inductive Pointer where
  | info (i : Nat)
  | format
  deriving DecidableEq, Repr

/-- The variables of the parser: `format_info`, the fields of `disasm_fmt`, and what has been made
    and deleted. -/
structure FormatParser where
  formatInfo : Option Nat
  fragments : List Name
  infos : List (Nat × ParsedInfo)
  numOptional : Nat
  made : Nat
  freed : List Pointer
  deriving DecidableEq, Repr

/-- How the loop is left within a turn: by a `break`, or by a failure of the parser. -/
inductive ParserExit where
  | broken (st : FormatParser)
  | failed (failure : ParseFailure) (freed : List Pointer)
  deriving DecidableEq, Repr

/-- `delete` of an info. -/
def FormatParser.deleteInfo (st : FormatParser) (i : Nat) : FormatParser :=
  { st with freed := st.freed ++ [.info i] }

/-- `delete disasm_fmt`: the destructor deletes the infos. -/
def FormatParser.deleteFormat (st : FormatParser) : FormatParser :=
  { st with freed := st.freed ++ st.infos.map (.info ·.1) ++ [.format] }

/-- `push_back` of an info. -/
def FormatParser.append (st : FormatParser) (i : Nat) (info : ParsedInfo) : FormatParser :=
  { st with infos := st.infos ++ [(i, info)] }

/-- The parentheses that are open behind a character. -/
def openBehind (parenCount : Nat) (c : Char) : Nat :=
  if c = '(' then parenCount + 1 else if c = ')' then parenCount - 1 else parenCount

/-- The end of an expression: a colon, or a parenthesis that is not matched. -/
def expressionEnd : Nat → Name → Option (Name × Name)
  | _, [] => none
  | parenCount, c :: s =>
    if c = ':' then some ([], c :: s)
    else if c = ')' ∧ parenCount = 0 then some ([], c :: s)
    else
      (expressionEnd (openBehind parenCount c) s).map fun (expr, rest) => (c :: expr, rest)

/-- A text without its backslashes. -/
def unescaped (text : Name) : Name := text.filter (· ≠ '\\')

/-- The mark of an optional operand. -/
def optionalMark : Name → Bool × Name
  | '?' :: s => (true, s)
  | s => (false, s)

/-- The info of a simple specifier. -/
def simpleInfo (opName : Name) (isOptional : Bool) : ParsedInfo where
  opName := opName
  isFormatted := false
  numberFormat := []
  useAddress := false
  operation := none
  useAddress_of_operation := Bool.noConfusion
  doLeftShift := false
  shiftAmount := 0
  isOptional := isOptional

/-- The info of an expression with its number format. -/
def formattedInfo (value : FormatInfo) (numberFormat : Name) (isOptional : Bool) : ParsedInfo where
  toFormatInfo := { value with isFormatted := true, numberFormat := numberFormat }
  isOptional := isOptional

section Parse

variable (opcode : Name) (locators : OpLocatorMap) (format : Name)

/-- The call of `ParseFormatExpression`, which makes an info and deletes it with a status. -/
def FormatParser.callExpression (st : FormatParser) (expr : Name) :
    Except ParserExit (FormatInfo × FormatParser) :=
  match parseFormatExpression opcode locators expr with
  | .ok value => .ok (value, { st with formatInfo := some st.made, made := st.made + 1 })
  | .error (.status e) =>
    .error (.failed (.status e) ((st.deleteInfo st.made).deleteFormat).freed)
  | .error failure => .error (.failed failure st.freed)

/-- The number format of an expression, from the colon or the parenthesis on. -/
def FormatParser.numberPart (st : FormatParser) (info : Nat) : Name →
    Except ParserExit (Name × Name)
  | ':' :: s =>
    match s.dropWhile (· ≠ ')') with
    | [] => .error (.broken st)
    | _ :: rest =>
      match parseNumberFormat (s.takeWhile (· ≠ ')')) with
      | .ok numberFormat => .ok (numberFormat, rest)
      | .error e => .error (.failed (.status e) ((st.deleteInfo info).deleteFormat).freed)
  | s => .ok ("%d".toList, s.drop 1)

/-- The branch of an expression, behind its parenthesis. -/
def parseExpressionSpecifier (s : Name) (st : FormatParser) :
    Except ParserExit (Position × FormatParser) :=
  match expressionEnd 0 s with
  | none => .error (.broken st)
  | some (expr, rest) => do
    let (value, st') ← st.callExpression opcode locators expr
    let (numberFormat, rest') ← st'.numberPart st.made rest
    let (isOptional, rest'') := optionalMark rest'
    .ok (positionOf rest'', st'.append st.made (formattedInfo value numberFormat isOptional))

/-- The branch of a simple specifier. -/
def parseSimpleSpecifier (s : Name) (st : FormatParser) :
    Except ParserExit (Position × FormatParser) :=
  match getIdent format (some s) with
  | .error failure => .error (.failed failure st.deleteFormat.freed)
  | .ok (opName, pos) =>
    if opName ∉ locators.names then
      .error (.failed (.status (.invalidOperandIn opName format)) st.deleteFormat.freed)
    else
      let (isOptional, rest) := optionalMark (pos.getD [])
      let st' := { st with
        numOptional := if isOptional then st.numOptional + 1 else st.numOptional
        made := st.made + 1 }
      .ok (positionOf rest, st'.append st.made (simpleInfo opName isOptional))

/-- A turn of the loop, behind the `%`. -/
def parseSpecifier (s : Name) (st : FormatParser) : Except ParserExit (Position × FormatParser) :=
  match s with
  | [] => .error (.broken st)
  | '(' :: s => parseExpressionSpecifier opcode locators s st
  | s => parseSimpleSpecifier locators format s st

/-- The text in front of a specifier is a fragment. -/
def FormatParser.addFragment (st : FormatParser) (text : Name) : FormatParser :=
  { st with fragments := st.fragments ++ [unescaped text] }

/-- The loop: what is left behind the last specifier, and the variables.  There is no result if
    there is not enough fuel. -/
def parseLoop : Nat → Position → FormatParser →
    Option (Except ParserExit (Position × FormatParser))
  | 0, _, _ => none
  | _ + 1, none, st => some (.ok (none, st))
  | fuel + 1, some s, st =>
    match s.dropWhile (· ≠ '%') with
    | [] => some (.ok (some s, st))
    | _ :: after =>
      match parseSpecifier opcode locators format after
          (st.addFragment (s.takeWhile (· ≠ '%'))) with
      | .error exit => some (.error exit)
      | .ok (pos, st') => parseLoop fuel pos st'

/-- The result, what has been deleted and the formats of the instruction. -/
structure FormatOutcome where
  result : Except ParseFailure Unit
  freed : List Pointer
  formats : List ParsedFormat

/-- The variables in front of the loop. -/
def FormatParser.start : FormatParser := ⟨none, [], [], 0, 0, []⟩

/-- The format of a parser that has come to the end. -/
def FormatParser.disasmFormat (st : FormatParser) (width : Int) (prev : Position) :
    ParsedFormat where
  width := width
  numOptional := st.numOptional
  fragments := (match prev with | none => st | some text => st.addFragment text).fragments
  infos := st.infos.map Prod.snd

/-- The width of the column of the next format: 0 if there is none, or it has no value. -/
def fieldWidth (widths : List TemplateExpression) (formats : List ParsedFormat) : Int :=
  match widths[formats.length]? with
  | none => 0
  | some expression => (expression.getValue).toOption.getD 0

/-- What follows the loop. -/
def ParserExit.outcome (formats : List ParsedFormat) : ParserExit → FormatOutcome
  | broken st =>
    ⟨.error (.status (.unexpectedEnd format)),
      (match st.formatInfo with | none => st | some i => st.deleteInfo i).deleteFormat.freed,
      formats⟩
  | failed failure freed => ⟨.error failure, freed, formats⟩

/-- `ParseDisasmFormat`. -/
def parseDisasmFormat (widths : List TemplateExpression) (formats : List ParsedFormat) :
    Option FormatOutcome :=
  (parseLoop opcode locators format (format.length + 1) (some format) .start).map fun
    | .error exit => exit.outcome format formats
    | .ok (prev, st) =>
      ⟨.ok (), st.freed, formats ++ [st.disasmFormat (fieldWidth widths formats) prev]⟩

end Parse

end MpactSim.Isa
