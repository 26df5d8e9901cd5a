import MpactSim.Isa.DisasmSetters
import MpactSim.Lib.Scans

namespace MpactSim.Isa

open Decoder (Name)
open Lib

/-!
# Expressions in a disassembly format

An expression between `%(` and `)` is the address of the instruction, an operand or a shifted
operand, and the address may be added to either.

* `parseFormatExpression`, `parseNumberFormat` — the parsers;
* `FormatExpression`, `NumberFormat`           — the texts that they are for;
* `CutOff`                                     — the beginnings of a shift at whose end the parser
  goes on reading.
-/

/-! ### The source -/

/-- A position in a string: what is left of the string from there on.  Reading where nothing is
    left gives a zero character; there is no position at `npos`. -/
abbrev Position := Option Name

/-- The position at which a text is left, and `npos` if nothing is. -/
def positionOf : Name → Position
  | [] => none
  | s => some s

/-- What `operator[]` gives at a position. -/
def charAt (s : Name) : Char := s.headD '\x00'

/-- The errors, with what they quote. -/
inductive FormatError where
  | invalidCharacter (pos : Nat) (str : Name)
  | emptyExpression
  | noSign (expr : Name)
  | malformed (expr : Name)
  | invalidOperand (ident opcode : Name)
  | missingShift (expr : Name)
  | noShiftAmount (expr : Name)
  | expectedClose (expr : Name)
  | extraCharacters (expr : Name)
  | widthRequired (read : Name)
  | widthTooLong (read : Name)
  | illegalSpecifier (c : Char) (read : Name)
  | tooManyCharacters (format : Name)
  | invalidOperandIn (ident format : Name)
  | unexpectedEnd (format : Name)
  deriving DecidableEq, Repr

/-- How a parser fails: by reading outside the string, by an exception of `substr` or `stoi`, or
    with a status. -/
inductive ParseFailure where
  | readOutside
  | exception
  | status (error : FormatError)
  deriving DecidableEq, Repr

def isBlank (c : Char) : Bool := c = ' ' ∨ c = '\t'

def isIdentStart (c : Char) : Bool := c.isAlpha ∨ c = '_'

def isIdentChar (c : Char) : Bool := c.isAlphanum ∨ c = '_'

/-- `skip_space`. -/
def skipSpace : Position → Position
  | none => none
  | some s => positionOf (s.dropWhile isBlank)

/-- `get_ident`. -/
def getIdent (str : Name) : Position → Except ParseFailure (Name × Position)
  | none => .error .readOutside
  | some s =>
    if isIdentStart (charAt s) then
      .ok (s.takeWhile isIdentChar, positionOf (s.dropWhile isIdentChar))
    else .error (.status (.invalidCharacter (str.length - s.length) str))

/-- The expression `@`. -/
def addressInfo : FormatInfo where
  opName := []
  isFormatted := true
  numberFormat := []
  useAddress := true
  operation := none
  useAddress_of_operation := fun h => absurd h (by decide)
  doLeftShift := false
  shiftAmount := 0

/-- An operand that is shifted, and added to the address if there is a sign. -/
def operandInfo (sign : Option Sign) (opName : Name) (doLeftShift : Bool) (shiftAmount : Nat) :
    FormatInfo where
  opName := opName
  isFormatted := true
  numberFormat := []
  useAddress := sign.isSome
  operation := sign
  useAddress_of_operation := id
  doLeftShift := doLeftShift
  shiftAmount := shiftAmount

/-- The direction of a shift.  `substr` throws at `npos`. -/
def shiftDirection (expr : Name) : Position → Except ParseFailure (Bool × Position)
  | none => .error .exception
  | some ('<' :: '<' :: s) => .ok (true, some s)
  | some ('>' :: '>' :: s) => .ok (false, some s)
  | some _ => .error (.status (.missingShift expr))

/-- The amount of a shift.  `stoi` throws if it is no `int`. -/
def shiftAmount (expr : Name) : Position → Except ParseFailure (Nat × Position)
  | none => .error .readOutside
  | some s =>
    if digits s = [] then .error (.status (.noShiftAmount expr))
    else if atoi (digits s) < 2 ^ 31 then
      .ok (atoi (digits s), some (s.dropWhile Char.isDigit))
    else .error .exception

/-- The parenthesis behind a shift, behind which there is nothing. -/
def closeShift (expr : Name) : Position → Except ParseFailure Unit
  | none => .error .readOutside
  | some (')' :: s) =>
    if skipSpace (some s) = none then .ok () else .error (.status (.extraCharacters expr))
  | some _ => .error (.status (.expectedClose expr))

/-- The names that have a locator. -/
def OpLocatorMap.names (map : OpLocatorMap) : List Name := map.map Prod.fst

section Parse

variable (opcode : Name) (locators : OpLocatorMap) (expr : Name)

/-- The branch without a shift. -/
def parseOperand (sign : Option Sign) (s : Name) : Except ParseFailure FormatInfo := do
  let (ident, pos) ← getIdent expr (some s)
  if ident ∉ locators.names then .error (.status (.invalidOperand ident opcode))
  else if skipSpace pos ≠ none then .error (.status (.malformed expr))
  else .ok (operandInfo sign ident false 0)

/-- The branch with a shift, behind its parenthesis. -/
def parseShift (sign : Option Sign) (s : Name) : Except ParseFailure FormatInfo := do
  let (ident, pos) ← getIdent expr (skipSpace (some s))
  let (left, pos) ← shiftDirection expr (skipSpace pos)
  let (amount, pos) ← shiftAmount expr (skipSpace pos)
  let _ ← closeShift expr (skipSpace pos)
  .ok (operandInfo sign ident left amount)

/-- `ParseFormatExpression`, behind the address and its sign. -/
def parseFormatOperand (sign : Option Sign) (s : Name) : Except ParseFailure FormatInfo :=
  match skipSpace (some s) with
  | none => .error (.status (.malformed expr))
  | some ('(' :: s) => parseShift expr sign s
  | some s => parseOperand opcode locators expr sign s

/-- `ParseFormatExpression`. -/
def parseFormatExpression : Except ParseFailure FormatInfo :=
  match skipSpace (some expr) with
  | none => .error (.status .emptyExpression)
  | some ('@' :: s) =>
    match skipSpace (some s) with
    | none => .ok addressInfo
    | some ('-' :: s) => parseFormatOperand opcode locators expr (some .minus) s
    | some ('+' :: s) => parseFormatOperand opcode locators expr (some .plus) s
    | some _ => .error (.status (.noSign expr))
  | some s => parseFormatOperand opcode locators expr none s

end Parse

/-- What has been read of a format up to and with the character at a position. -/
def readTo (format s : Name) : Name := format.take (format.length - s.length + 1)

/-- The width of a number, behind the zero: up to two digits. -/
def numberWidth (format s : Name) : Except FormatError (Name × Name) :=
  let width := digits s
  if width.length ≤ 2 then .ok (width, s.drop width.length)
  else .error (.widthTooLong (readTo format (s.drop 2)))

/-- The base of a number, behind which there is nothing. -/
def numberBase (format s : Name) : Except FormatError Name :=
  if charAt s = 'o' ∨ charAt s = 'd' ∨ charAt s = 'x' ∨ charAt s = 'X' then
    if s.drop 1 = [] then .ok [charAt s] else .error (.tooManyCharacters format)
  else .error (.illegalSpecifier (charAt s) (readTo format s))

/-- `ParseNumberFormat`. -/
def parseNumberFormat (format : Name) : Except FormatError Name := do
  let zero := if charAt format = '0' then ['0'] else []
  let s := format.drop zero.length
  if zero ≠ [] ∧ ¬(charAt s).isDigit then .error (.widthRequired (readTo format s))
  else
    let (width, s) ← numberWidth format s
    let base ← numberBase format s
    .ok ('%' :: zero ++ width ++ base)

end MpactSim.Isa
