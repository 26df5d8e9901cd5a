import Mathlib.Data.Sum.Basic
import MpactSim.Lib.Replace

namespace MpactSim.Decoder

open Lib

/-!
# Generators

`GENERATE` in an instruction description is expanded as text: `$(x)` stands for each value of the
binding variable `x` in turn.  The visitors of the two grammars have their own copies of the code.

* `RangeAssignment`            — a range: binding variables, and the values they take together;
* `prepareGenerator`           — the checks of a generator, and its ranges as the visitors keep them;
* `generateInstructionDefList` — the expansion in the visitor of the encoding formats;
* `generateOpcodeSpec`         — the expansion in the visitor of the instruction sets;
* `expansion`                  — what an expansion is for.
-/

/-! ### The source -/

/-- A character of an `IDENT`. -/
def isIdentChar (c : Char) : Bool := c.isAlphanum || c = '_'

/-- The text of an `IDENT`. -/
structure BindingName where
  text : List Char
  ne_nil : text ≠ []
  isIdentChar_of_mem : ∀ c ∈ text, isIdentChar c = true
  deriving DecidableEq

/-- A `gen_value`: an identifier or a number, or a string with its quotes. -/
inductive GenValue where
  | simple (text : List Char)
  | string (literal : List Char)
  deriving DecidableEq

/-- The text of a value; double quotes are stripped off. -/
def GenValue.text : GenValue → List Char
  | simple text => text
  | string literal => literal.tail.dropLast

/-- A `range_assignment`: values for one identifier, or tuples of values for several. -/
inductive RangeAssignment where
  | single (ident : BindingName) (genValues : List GenValue)
  | tuples (ident : BindingName) (idents : List BindingName) (valueLists : List (List GenValue))

/-- The identifiers of a range. -/
def RangeAssignment.idents : RangeAssignment → List BindingName
  | single ident _ => [ident]
  | tuples ident idents _ => ident :: idents

/-- `RangeAssignmentInfo`.  There is a list of values for every name. -/
structure RangeAssignmentInfo where
  rangeNames : List BindingName
  rangeValues : List (List (List Char))
  rangeRegexes : List (List Char)
  deriving DecidableEq

/-- The regular expression for the references to a variable. -/
def bindingRegex (name : BindingName) : List Char :=
  ['\\', '$', '\\', '('] ++ name.text ++ ['\\', ')']

/-- What is wrong with a generator. -/
inductive GeneratorError where
  | duplicate (name : List Char)
  | valueCount
  | undefined (ident : List Char)
  deriving DecidableEq

/-- The text of an error. -/
def GeneratorError.message : GeneratorError → String
  | duplicate name => s!"Duplicate binding variable name '{String.ofList name}'"
  | valueCount => "Number of values differs from number of identifiers"
  | undefined ident => s!"Undefined binding variable '{String.ofList ident}'"

/-- The names of a range that are new, with an error for each of the others. -/
def bindIdents : List BindingName → List BindingName → List BindingName × List GeneratorError
  | _, [] => ([], [])
  | known, ident :: idents =>
    if ident ∈ known then
      let (names, errors) := bindIdents known idents
      (names, .duplicate ident.text :: errors)
    else
      let (names, errors) := bindIdents (known ++ [ident]) idents
      (ident :: names, errors)

/-- The values of the tuples, by names. -/
def pushTuples (rangeValues : List (List (List Char))) (valueLists : List (List GenValue)) :
    List (List (List Char)) :=
  valueLists.foldl (List.zipWith fun column value => column ++ [value.text]) rangeValues

/-- The ranges of a generator and the errors up to there, given the names of the ranges before.
    There is no result where a value is put outside the vector of the values. -/
def prepareRanges : List BindingName → List RangeAssignment →
    Option (List GeneratorError × List RangeAssignmentInfo × List BindingName)
  | known, [] => some ([], [], known)
  | known, assign :: rest =>
    let (names, errors) := bindIdents known assign.idents
    let info (rangeValues : List (List (List Char))) : RangeAssignmentInfo :=
      { rangeNames := names, rangeValues := rangeValues, rangeRegexes := names.map bindingRegex }
    let next (rangeValues : List (List (List Char))) :=
      (prepareRanges (known ++ names) rest).map fun (errors', infos, known') =>
        (errors ++ errors', info rangeValues :: infos, known')
    match assign with
    | .single _ genValues =>
      if names = [] then none else next [genValues.map GenValue.text]
    | .tuples _ _ valueLists =>
      if valueLists.all fun valueList => valueList.length = names.length then
        next (pushTuples (names.map fun _ => []) valueLists)
      -- The other ranges, and the references, are not looked at any more.
      else some (errors ++ [.valueCount], [], [])

/-- The references of a text to variables that are not there, behind `skip` characters.  There is
    no result where the text after a `$` is read behind the end. -/
def undefinedReferences (known : List BindingName) : ℕ → List Char → Option (List GeneratorError)
  | _, [] => some []
  | skip + 1, _ :: text => undefinedReferences known skip text
  | 0, c :: text =>
    if c = '$' then
      match text with
      | [] => none
      | d :: text' =>
        -- Behind `$)` the length of the identifier is negative, and it is the rest of the text.
        let ident := if d = ')' then text' else text'.takeWhile (· ≠ ')')
        let skip := if d = ')' then 0 else ident.length + 1
        (undefinedReferences known skip text).map fun errors =>
          if known.any fun name => name.text = ident then errors else .undefined ident :: errors
    else undefinedReferences known 0 text

/-- `ProcessInstructionDefGenerator` and `ProcessOpcodeGenerator` up to the expansion, which is only
    made if there are no errors. -/
def prepareGenerator (assigns : List RangeAssignment) (inputText : List Char) :
    Option (List GeneratorError × List RangeAssignmentInfo) := do
  let (errors, infos, known) ← prepareRanges [] assigns
  if .valueCount ∈ errors then return (errors, infos)
  let undefineds ← undefinedReferences known 0 inputText
  return (errors ++ undefineds, infos)

section Expansion

-- `RE2::GlobalReplace`: text, regular expression and rewrite, to the text and the number of
-- replacements.
variable (globalReplace : List Char → List Char → List Char → List Char × ℕ)

/-- The substitutions for one set of values: `template_str` and `replace_count`. -/
def substituteValues (i : ℕ) (template : List Char) (info : RangeAssignmentInfo) :
    List Char × ℕ :=
  (info.rangeRegexes.zip info.rangeValues).foldl (fun (template, replaceCount) (re, values) =>
    let (template', count) := globalReplace template re (values.getD i [])
    (template', replaceCount + count)) (template, 0)

/-- The loop over the values of a range; `next` is the expansion of the ranges behind it. -/
def generateRange (next : List Char → List Char) (info : RangeAssignmentInfo)
    (template : List Char) : List ℕ → List Char
  | [] => []
  | i :: rest =>
    let (templateStr, replaceCount) := substituteValues globalReplace i template info
    -- A range that is not referred to is left after one round.
    if replaceCount = 0 then next templateStr
    else next templateStr ++ generateRange next info template rest

/-- The recursion over the ranges, which ends behind the last one. -/
def generate : List RangeAssignmentInfo → List Char → List Char
  | [], template => template
  | info :: infos, template =>
    generateRange globalReplace (generate infos) info template
      (List.range (info.rangeValues.headD []).length)

/-- `BinFormatVisitor::GenerateInstructionDefList`. -/
def generateInstructionDefList (rangeInfoVec : List RangeAssignmentInfo) (index : ℕ)
    (templateStrIn : List Char) : List Char :=
  generate globalReplace (rangeInfoVec.drop index) templateStrIn

/-- `InstructionSetVisitor::GenerateOpcodeSpec`. -/
def generateOpcodeSpec (rangeInfoVec : List RangeAssignmentInfo) (index : ℕ)
    (templateStrIn : List Char) : List Char :=
  generate globalReplace (rangeInfoVec.drop index) templateStrIn

end Expansion

/-! ### The specification -/

/-- A reference to a variable. -/
def reference (name : BindingName) : List Char := ['$', '('] ++ name.text ++ [')']

/-- The text begins with a reference to one of the variables. -/
def findReference (names : List BindingName) (text : List Char) : Option (BindingName × ℕ) :=
  (names.find? fun name => reference name <+: text).map fun name =>
    (name, (reference name).length)

/-- The characters and the references of a text. -/
def references (names : List BindingName) (text : List Char) : List (Char ⊕ BindingName) :=
  readFrom (findReference names) 0 text

/-- The variables that a text refers to, once for each reference. -/
def mentioned (parts : List (Char ⊕ BindingName)) : List BindingName :=
  parts.filterMap Sum.getRight?

/-- The values of some variables. -/
abbrev Binding := List (BindingName × List Char)

/-- The value of a variable. -/
def Binding.value (binding : Binding) (name : BindingName) : List Char :=
  (binding.lookup name).getD []

/-- The values that the variables of a range take together. -/
def RangeAssignment.bindings : RangeAssignment → List Binding
  | single ident genValues => genValues.map fun value => [(ident, value.text)]
  | tuples ident idents valueLists =>
    valueLists.map fun values => (ident :: idents).zip (values.map GenValue.text)

/-- The product of the ranges.  One that a text does not refer to counts as a single
    combination. -/
def combinations (parts : List (Char ⊕ BindingName)) : List RangeAssignment → List Binding
  | [] => [[]]
  | assign :: rest =>
    let bindings := if ∃ name ∈ assign.idents, name ∈ mentioned parts then assign.bindings
      else assign.bindings.take 1
    bindings.flatMap fun binding => (combinations parts rest).map (binding ++ ·)

/-- The text for every combination, in which each reference is the value of its variable. -/
def expansion (assigns : List RangeAssignment) (inputText : List Char) : List Char :=
  let parts := references (assigns.flatMap RangeAssignment.idents) inputText
  (combinations parts assigns).flatMap fun binding => fill binding.value parts

/-- What is asked of `RE2::GlobalReplace`: for the references to a variable, and a rewrite without a
    backslash, it replaces all matches that do not overlap, and returns how many there are. -/
def ReplacesReferences (globalReplace : List Char → List Char → List Char → List Char × ℕ) :
    Prop :=
  ∀ text name rewrite, '\\' ∉ rewrite →
    globalReplace text (bindingRegex name) rewrite = replaceAll (reference name) rewrite text

/-- A value with which no reference can begin: each `$` is before something other than `(`. -/
structure Plain (value : List Char) : Prop where
  no_backslash : '\\' ∉ value
  no_open : ¬['$', '('] <:+: value
  no_end : ¬['$'] <:+ value

instance (value : List Char) : Decidable (Plain value) :=
  decidable_of_iff ('\\' ∉ value ∧ ¬['$', '('] <:+: value ∧ ¬['$'] <:+ value)
    ⟨fun ⟨hbackslash, hopen, hend⟩ => ⟨hbackslash, hopen, hend⟩,
      fun ⟨hbackslash, hopen, hend⟩ => ⟨hbackslash, hopen, hend⟩⟩

end MpactSim.Decoder
