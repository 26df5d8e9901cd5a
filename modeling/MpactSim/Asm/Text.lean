import MpactSim.Lib.Regex
import Mathlib.Data.List.TakeWhile

namespace MpactSim.Asm

open Lib

/-!
# Texts of the assembler

The regular expressions of `SimpleAssembler` and the values its directives take.  Each
expression is the function that RE2 computes for it: the captures of the match that RE2
prefers, or `none`.

* `asmLine` takes a line apart into a label and a statement.
* `directiveLine` takes a directive apart into its keyword and the text after it.
* `getValues`, `getChars`, `getStrings` and `getLabels` read the lists behind a directive.
-/

/-- A line of text, or a part of one. -/
abbrev Text := List Char

/-- The status codes the assembler returns. -/
inductive StatusCode where
  | aborted | alreadyExists | internal | invalidArgument | unimplemented
  deriving DecidableEq, Repr

/-- A status that is not ok. -/
structure Error where
  code : StatusCode
  message : String
  deriving DecidableEq, Repr

/-- `absl::InvalidArgumentError`, the message followed by a quoted text. -/
def invalid (message : String) (text : Text) : Error :=
  ⟨.invalidArgument, message ++ String.ofList text⟩

/-! ### Lines -/

/-- `\s*(.*)\s*$`: leading white space goes, the capture ends with the line. -/
def restOfLine (text : Text) : Option Text :=
  let body := text.dropWhile isSpace
  if (body.dropWhile (· ≠ '\n')).all isSpace then some (body.takeWhile (· ≠ '\n')) else none

/-- The longest nonempty start of a word that a colon follows, and what follows the
    colon. -/
def splitLastColon (word : Text) : Option (Text × Text) :=
  let after := (word.reverse.takeWhile (· ≠ ':')).reverse
  match word.reverse.dropWhile (· ≠ ':') with
  | _ :: c :: before => some ((c :: before).reverse, after)
  | _ => none

/-- `(\S+)\s*:` at the start of a line, with what follows it.  `\S+` takes the whole
    word if a colon follows the white space behind it, and otherwise as much as leaves a
    colon. -/
def labelOf (line : Text) : Option (Text × Text) :=
  let word := line.takeWhile (!isSpace ·)
  let behind := line.dropWhile (!isSpace ·)
  match word, behind.dropWhile isSpace with
  | [], _ => none
  | word, ':' :: rest => some (word, rest)
  | word, _ => (splitLastColon word).map fun (label, after) => (label, after ++ behind)

/-- `asm_line_re_`, `^(?:(?:(\S+)\s*:)?|\s)\s*(.*)\s*$`: the label (empty if there is
    none) and the statement. -/
def asmLine (line : Text) : Option (Text × Text) :=
  match labelOf line with
  | some (label, rest) => (restOfLine rest).map fun statement => (label, statement)
  | none => (restOfLine line).map fun statement => ([], statement)

/-! ### Directives -/

/-- The directives that `directive_re_` knows. -/
inductive Keyword where
  | align | bss | bytes | char | cstring | data | global | long | sect | short | space
  | string | type | text | uchar | ulong | ushort | uword | word
  deriving DecidableEq, Repr

/-- The name of a directive. -/
def Keyword.name : Keyword → Text
  | .align => ['a', 'l', 'i', 'g', 'n']
  | .bss => ['b', 's', 's']
  | .bytes => ['b', 'y', 't', 'e', 's']
  | .char => ['c', 'h', 'a', 'r']
  | .cstring => ['c', 's', 't', 'r', 'i', 'n', 'g']
  | .data => ['d', 'a', 't', 'a']
  | .global => ['g', 'l', 'o', 'b', 'a', 'l']
  | .long => ['l', 'o', 'n', 'g']
  | .sect => ['s', 'e', 'c', 't']
  | .short => ['s', 'h', 'o', 'r', 't']
  | .space => ['s', 'p', 'a', 'c', 'e']
  | .string => ['s', 't', 'r', 'i', 'n', 'g']
  | .type => ['t', 'y', 'p', 'e']
  | .text => ['t', 'e', 'x', 't']
  | .uchar => ['u', 'c', 'h', 'a', 'r']
  | .ulong => ['u', 'l', 'o', 'n', 'g']
  | .ushort => ['u', 's', 'h', 'o', 'r', 't']
  | .uword => ['u', 'w', 'o', 'r', 'd']
  | .word => ['w', 'o', 'r', 'd']

/-- The alternatives of `directive_re_` in their order. -/
def keywords : List Keyword :=
  [.align, .bss, .bytes, .char, .cstring, .data, .global, .long, .sect, .short, .space,
    .string, .type, .text, .uchar, .ulong, .ushort, .uword, .word]

/-- `directive_re_`: the keyword and the remainder.  No keyword starts another one, and
    each is followed by white space or the end. -/
def directiveLine : Text → Option (Keyword × Text)
  | '.' :: body =>
    match keywords.find? (·.name = body.takeWhile (!isSpace ·)) with
    | some keyword =>
      (restOfLine (body.dropWhile (!isSpace ·))).map fun remainder => (keyword, remainder)
    | none => none
  | _ => none

/-! ### Numbers -/

/-- The value of a digit. -/
def digitValue (c : Char) : Option Nat :=
  if '0' ≤ c ∧ c ≤ '9' then some (c.toNat - '0'.toNat)
  else if 'a' ≤ c ∧ c ≤ 'f' then some (c.toNat - 'a'.toNat + 10)
  else if 'A' ≤ c ∧ c ≤ 'F' then some (c.toNat - 'A'.toNat + 10)
  else none

/-- A nonempty list of digits of a base. -/
def digits (base : Nat) : Text → Option Nat
  | [] => none
  | text => text.foldlM (fun n c =>
      (digitValue c).bind fun d => if d < base then some (base * n + d) else none) 0

/-- `absl::ascii_isspace`. -/
def asciiIsSpace (c : Char) : Bool := isSpace c || c = '\x0b'

/-- The sign of a number. -/
def takeSign : Text → Bool × Text
  | '-' :: rest => (true, rest)
  | '+' :: rest => (false, rest)
  | text => (false, text)

/-- `absl::SimpleAtoi` (base 10) and `absl::SimpleHexAtoi` (base 16): white space around
    the number is dropped, a sign and before hexadecimal digits `0x` are allowed, and the
    value has to fit the type.  A type without a sign takes no `-`. -/
def simpleAtoi (base : Nat) (signed : Bool) (width : Nat) (text : Text) : Option Int :=
  let trimmed := ((text.dropWhile asciiIsSpace).reverse.dropWhile asciiIsSpace).reverse
  let (negative, body) := takeSign trimmed
  let body := match base, body with
    | 16, '0' :: 'x' :: rest => rest
    | 16, '0' :: 'X' :: rest => rest
    | _, body => body
  match digits base body with
  | none => none
  | some n =>
    if signed then
      let value : Int := if negative then -n else n
      if -2 ^ (width - 1) ≤ value ∧ value < 2 ^ (width - 1) then some value else none
    else if negative = false ∧ n < 2 ^ width then some n else none

/-- `SimpleTextToInt` with no resolver. -/
def simpleTextToInt (signed : Bool) (width : Nat) (text : Text) : Except Error Int :=
  match text with
  | '0' :: 'x' :: rest =>
    match simpleAtoi 16 signed width rest with
    | some value => .ok value
    | none => .error (invalid "Invalid immediate: " text)
  | _ =>
    match simpleAtoi 10 signed width text with
    | some value => .ok value
    | none => .error (invalid "Invalid argument: " text)

/-! ### Lists of values -/

/-- `\s*(?:,|$)`, with what follows it. -/
def separator (text : Text) : Option Text :=
  match text.dropWhile isSpace with
  | [] => some []
  | ',' :: rest => some rest
  | _ => none

/-- `RE2::Consume` until the expression does not match any more.  Every match takes at
    least one character, so the length of the text bounds their number. -/
def consumeAll {α : Type} (re : Text → Option (α × Text)) : Nat → Text → List α
  | 0, _ => []
  | fuel + 1, text =>
    match re text with
    | some (value, rest) => value :: consumeAll re fuel rest
    | none => []

/-- `\s*(0x[0-9a-fA-F]+|-?[0-9]+)\s*(?:,|$)` -/
def numberRe (text : Text) : Option (Text × Text) :=
  let isHex (c : Char) : Bool := (digitValue c).isSome
  let isDigit (c : Char) : Bool := '0' ≤ c ∧ c ≤ '9'
  let decimal (sign body : Text) : Option (Text × Text) :=
    match body.takeWhile isDigit with
    | [] => none
    | number => (separator (body.dropWhile isDigit)).map fun rest => (sign ++ number, rest)
  match text.dropWhile isSpace with
  | '0' :: 'x' :: body =>
    match body.takeWhile isHex with
    | [] => none
    | number =>
      (separator (body.dropWhile isHex)).map fun rest => ('0' :: 'x' :: number, rest)
  | '-' :: body => decimal ['-'] body
  | body => decimal [] body

/-- `\s*'(.{1,2})'\s*(?:,|$)`; two characters are tried before one. -/
def charRe (text : Text) : Option (Text × Text) :=
  let one : Text → Option (Text × Text)
    | '\'' :: a :: '\'' :: rest =>
      if a = '\n' then none else (separator rest).map fun rest => ([a], rest)
    | _ => none
  let two : Text → Option (Text × Text)
    | '\'' :: a :: b :: '\'' :: rest =>
      if a = '\n' ∨ b = '\n' then none else (separator rest).map fun rest => ([a, b], rest)
    | _ => none
  let body := text.dropWhile isSpace
  (two body).or (one body)

/-- `\s*"([^"]*)"\s*(?:,|$)` -/
def stringRe (text : Text) : Option (Text × Text) :=
  match text.dropWhile isSpace with
  | '"' :: body =>
    match body.dropWhile (· ≠ '"') with
    | '"' :: rest => (separator rest).map fun rest => (body.takeWhile (· ≠ '"'), rest)
    | _ => none
  | _ => none

/-- `\s*([a-zA-Z_][a-zA-Z0-9_]*)\s*(?:,|$)` -/
def labelRe (text : Text) : Option (Text × Text) :=
  let isStart (c : Char) : Bool := ('a' ≤ c ∧ c ≤ 'z') ∨ ('A' ≤ c ∧ c ≤ 'Z') ∨ c = '_'
  let isPart (c : Char) : Bool := isStart c ∨ ('0' ≤ c ∧ c ≤ '9')
  match text.dropWhile isSpace with
  | c :: body =>
    if isStart c then
      (separator (body.dropWhile isPart)).map fun rest => (c :: body.takeWhile isPart, rest)
    else none
  | [] => none

/-- The characters after a backslash that `ExpandEscapes` replaces. -/
def expandEscape : Char → Option Char
  | 'n' => some '\n'
  | 'r' => some '\r'
  | 'v' => some '\x0b'
  | 'f' => some '\x0c'
  | 'a' => some '\x07'
  | 'b' => some '\x08'
  | 't' => some '\t'
  | '\\' => some '\\'
  | '\'' => some '\''
  | '"' => some '"'
  | '?' => some '?'
  | _ => none

/-- `ExpandEscapes`. -/
def expandEscapes : Text → Text
  | [] => []
  | ['\\'] => ['\\']
  | '\\' :: c :: rest =>
    match expandEscape c with
    | some d => d :: expandEscapes rest
    | none => '\\' :: c :: expandEscapes rest
  | c :: rest => c :: expandEscapes rest

/-- The bytes of a text. -/
def utf8 (text : Text) : List UInt8 := text.flatMap String.utf8EncodeChar

/-- The width at which `AtoIType` reads the values of a type. -/
def atoIWidth (size : Nat) : Nat := if size < 4 then 32 else 8 * size

/-- `GetValues` at an integer type of `size` bytes.  The values are read at the type
    `AtoIType` and then cast, so they are kept modulo `2 ^ (8 * size)`. -/
def getValues (signed : Bool) (size : Nat) (remainder : Text) : Except Error (List Nat) :=
  (consumeAll numberRe remainder.length remainder).mapM fun number =>
    (simpleTextToInt signed (atoIWidth size) number).map fun value =>
      (value % 2 ^ (8 * size)).toNat

/-- `GetValues<char>`. -/
def getChars (remainder : Text) : Except Error (List UInt8) :=
  (consumeAll charRe remainder.length remainder).mapM fun value =>
    match utf8 (expandEscapes value) with
    | [byte] => .ok byte
    | _ => .error (invalid "Invalid character: '" (value ++ ['\'']))

/-- `GetValues<std::string>`. -/
def getStrings (remainder : Text) : List (List UInt8) :=
  (consumeAll stringRe remainder.length remainder).map fun value => utf8 (expandEscapes value)

/-- `GetLabels`. -/
def getLabels (remainder : Text) : List Text := consumeAll labelRe remainder.length remainder

/-- The bytes of one value, the lowest first. -/
def valueBytes : Nat → Nat → List UInt8
  | 0, _ => []
  | size + 1, value => UInt8.ofNat (value % 256) :: valueBytes size (value / 256)

/-- `ConvertToBytes` on a little-endian host. -/
def convertToBytes (size : Nat) (values : List Nat) : List UInt8 :=
  values.flatMap (valueBytes size)

end MpactSim.Asm
