import MpactSim.Decoder.Opcode

namespace MpactSim.Decoder

open Lib

/-!
# Disassembly formats

An instruction has a list of disassembly formats; each is a sequence of text fragments with
an operand behind all of them but possibly the last.  Two generators read the formats:

* `generateRegEx` makes the regular expression by which the assembler of a slot
  recognizes the instruction;
* `disassemble` is the string that the generated setter builds.
-/

/-! ### The source -/

/-- The kinds of operands of an `OperandLocator`. -/
inductive OperandType where
  | predicate | source | sourceArray | destination | destinationArray
  deriving DecidableEq, Repr

/-- `OperandLocator`. -/
structure OperandLocator where
  opSpecNumber : Nat
  type : OperandType
  isReloc : Bool
  index : Nat
  deriving DecidableEq, Repr

/-- `FormatInfo`: an operand of a format.  The name is empty if only the address is
    printed. -/
structure FormatInfo where
  opName : Name
  isFormatted : Bool
  isOptional : Bool
  deriving DecidableEq, Repr

/-- `DisasmFormat`.  A fragment comes before every operand, and at most one after the
    last. -/
structure DisasmFormat where
  width : Int
  fragments : List Name
  infos : List FormatInfo
  infos_le : infos.length ≤ fragments.length
  le_infos : fragments.length ≤ infos.length + 1
  deriving DecidableEq, Repr

/-- An instruction of a slot: its opcode's name and operand locators, and its formats. -/
structure Instruction where
  name : Name
  locators : List (Name × OperandLocator)
  formats : List DisasmFormat
  deriving DecidableEq, Repr

/-- A look-up in `op_locator_map`. -/
def Instruction.locator (inst : Instruction) (opName : Name) : Option OperandLocator :=
  inst.locators.lookup opName

/-- `isspace` -/
def cIsSpace (c : Char) : Bool := isSpace c || c = '\x0b'

/-- `isalnum` -/
def isAlnum (c : Char) : Bool :=
  ('0' ≤ c ∧ c ≤ '9') ∨ ('A' ≤ c ∧ c ≤ 'Z') ∨ ('a' ≤ c ∧ c ≤ 'z')

/-- `ispunct` -/
def isPunct (c : Char) : Bool := ('!' ≤ c ∧ c ≤ '~') ∧ !isAlnum c

/-- The loop of `EscapeRegexCharacters`.  A run of white space is optional behind
    punctuation; `p` is the last character before it. -/
def escapeFrom (inSpace : Bool) (p : Char) : Name → List Atom
  | [] => []
  | c :: rest =>
    if cIsSpace c then
      if inSpace then escapeFrom true p rest
      else (if isPunct p then Atom.spaces else .someSpaces) :: escapeFrom true p rest
    else .literal c :: escapeFrom false c rest

/-- `EscapeRegexCharacters`. -/
def escapeRegexCharacters (str : Name) : List Atom :=
  if str = [] then []
  else if str.all (· = ' ') then [.someSpaces]
  else escapeFrom false '\x00' str

/-- The last character of the text of an atom. -/
def lastChar : Atom → Char
  | .literal c => c
  | .spaces => '*'
  | .someSpaces => '+'
  | .word => ')'

/-- The white space before an operand: `output` does not end with it already, and the
    last character of the fragment is neither alphanumeric nor `_` or `.`. -/
def spaceBefore (output : List Item) (escaped : List Atom) : List Item :=
  match escaped.getLast? with
  | none => []
  | some atom =>
    let prev := lastChar atom
    if output.getLast? ≠ some (.one .spaces) ∧ ¬(isAlnum prev ∨ prev = '_' ∨ prev = '.') then
      [.one .spaces]
    else []

/-- The capture of an operand.  White space follows if the next fragment is not empty
    (the test on its first character is always true). -/
def operandAtoms (fragments : List Name) : List Atom :=
  match fragments with
  | (_ :: _) :: _ => [.word, .spaces]
  | _ => [.word]

/-- A fragment is appended to the output, or ends the group of an optional operand. -/
def addFragment (output : List Item) (pending : Option (List Atom)) (escaped : List Atom) :
    List Item :=
  match pending with
  | none => output ++ escaped.map .one
  | some atoms => output ++ [.optional (atoms ++ escaped)]

/-- The loop of `GenerateRegEx` over the fragments of a format.  `pending` is the group
    of an optional operand, which the next fragment or the end closes.  Returns the
    expression and the operands of the captures; there is none if an operand has no
    locator, since `op_locator_map().at` fails. -/
def formatRegEx (inst : Instruction) :
    List Item → Option (List Atom) → List Name → List FormatInfo →
      Option (List Item × List Name)
  | output, pending, [], _ => some (addFragment output pending [], [])
  | output, pending, fragment :: fragments, infos =>
    let escaped := escapeRegexCharacters fragment
    let output := addFragment output pending escaped
    match infos with
    | [] => formatRegEx inst output none fragments []
    | info :: infos =>
      let output := output ++ spaceBefore output escaped
      let atoms := operandAtoms fragments
      match inst.locator info.opName with
      | none => none
      | some _ =>
        let rest :=
          if info.isOptional then formatRegEx inst output (some atoms) fragments infos
          else formatRegEx inst (output ++ atoms.map .one) none fragments infos
        rest.map fun (output, names) => (output, info.opName :: names)

/-- The loop of `GenerateRegEx` over the formats; `sep` is the separator. -/
def formatsRegEx (inst : Instruction) :
    Atom → List Item → List DisasmFormat → Option (List Item × List Name)
  | _, output, [] => some (output, [])
  | sep, output, format :: formats => do
    let (output, names) ←
      formatRegEx inst (output ++ [.one sep]) none format.fragments format.infos
    let (output, names') ← formatsRegEx inst .someSpaces output formats
    return (output, names ++ names')

/-- `GenerateRegEx`: `^\s*`, the formats with `\s+` between them, `\s*$`. -/
def generateRegEx (inst : Instruction) : Option (List Item × List Name) :=
  (formatsRegEx inst .spaces [] inst.formats).map fun (output, names) =>
    (output ++ [.one .spaces], names)

/-- A text that ends the raw string literal `R"(…)"` around the expression. -/
def endsRawString : Name → Bool
  | ')' :: '"' :: _ => true
  | _ :: rest => endsRawString rest
  | [] => false

/-- The expression in the generated code: the literal has to hold all of it. -/
def emitRegEx (inst : Instruction) : Option (List Item × List Name) :=
  if inst.formats.any fun format => format.fragments.any endsRawString then none
  else generateRegEx inst

/-- The operand names of an instruction's formats, in order. -/
def Instruction.operandNames (inst : Instruction) : List Name :=
  inst.formats.flatMap fun format => format.infos.map FormatInfo.opName

/-- The text of a format: a fragment, the operand behind it, and so on. -/
def formatText (print : FormatInfo → Name) : List Name → List FormatInfo → Name
  | [], _ => []
  | fragment :: fragments, [] => fragment ++ formatText print fragments []
  | fragment :: fragments, info :: infos =>
    fragment ++ (print info ++ formatText print fragments infos)

/-- The white space in front of a text in a column: `%5s` -/
def leftPad (width : Int) (text : Name) : Name :=
  if 0 < width then List.replicate (width.natAbs - text.length) ' ' else []

/-- The white space behind a text in a column: `%-5s` -/
def rightPad (width : Int) (text : Name) : Name :=
  if width < 0 then List.replicate (width.natAbs - text.length) ' ' else []

/-- `absl::StrFormat("%<width>s", text)` -/
def padText (width : Int) (text : Name) : Name :=
  leftPad width text ++ (text ++ rightPad width text)

/-- The text of a format in its column. -/
def DisasmFormat.text (format : DisasmFormat) (print : FormatInfo → Name) : Name :=
  padText format.width (formatText print format.fragments format.infos)

/-- The setter has code for an operand: it is an expression of the address alone, or it has
    a locator. -/
def Instruction.prints (inst : Instruction) (info : FormatInfo) : Bool :=
  if info.opName = [] then info.isFormatted else (inst.locator info.opName).isSome

/-- A fragment is text that may stand in a string literal as it is. -/
def isLiteralText (fragment : Name) : Bool :=
  fragment.all fun c => c ≠ '"' ∧ c ≠ '\n' ∧ c ≠ '\r'

/-- A format for which the setter has no argument. -/
def DisasmFormat.isEmpty (format : DisasmFormat) : Bool :=
  format.fragments.all (· = []) ∧ format.infos = []

/-- The generated setter compiles.  A format without an argument leaves a comma too many,
    unless it is the only one and has no column. -/
def Instruction.setterCompiles (inst : Instruction) : Bool :=
  (inst.formats.all fun format =>
    format.fragments.all isLiteralText ∧ format.infos.all inst.prints) ∧
  ((inst.formats.all fun format => !format.isEmpty) ∨
    (inst.formats.length = 1 ∧ inst.formats.all fun format => format.width = 0))

/-- The string that the setter of `GenerateDisasmSetterFcn` builds if the operands are
    printed by `print`. -/
def disassemble (inst : Instruction) (print : FormatInfo → Name) : Option Name :=
  if inst.setterCompiles then some (inst.formats.flatMap fun format => format.text print)
  else none

/-! ### Captures -/

/-- The number of captures in a list of atoms. -/
def words (atoms : List Atom) : Nat := (atoms.filter (· = .word)).length

theorem words_append (atoms atoms' : List Atom) :
    words (atoms ++ atoms') = words atoms + words atoms' := by
  simp [words]

theorem groups_append (items items' : List Item) :
    groups (items ++ items') = groups items + groups items' := by
  simp [groups]

theorem groups_map_one (atoms : List Atom) : groups (atoms.map .one) = words atoms := by
  unfold groups words
  rw [List.flatMap_map]
  simp [Item.atoms]

theorem groups_optional (atoms : List Atom) : groups [.optional atoms] = words atoms := by
  simp [groups, words, Item.atoms]

theorem words_escapeFrom (inSpace : Bool) (p : Char) (str : Name) :
    words (escapeFrom inSpace p str) = 0 := by
  induction str generalizing inSpace p with
  | nil => rfl
  | cons c rest ih =>
    unfold escapeFrom
    split
    · split
      · exact ih true p
      · split
        · exact ih true p
        · exact ih true p
    · exact ih false c

theorem words_escape (str : Name) : words (escapeRegexCharacters str) = 0 := by
  unfold escapeRegexCharacters
  split
  · rfl
  · split
    · rfl
    · exact words_escapeFrom false '\x00' str

/-- The white space before an operand, behind an optional operand's group or not. -/
def spaceItems (optional : Bool) (escaped : List Atom) : List Item :=
  match escaped.getLast? with
  | none => []
  | some atom =>
    if (optional ∨ atom ≠ .spaces) ∧
        ¬(isAlnum (lastChar atom) ∨ lastChar atom = '_' ∨ lastChar atom = '.') then
      [.one .spaces]
    else []

/-- The part of the expression for the rest of a format. -/
def tailItems : Option (List Atom) → List Name → List FormatInfo → List Item
  | pending, [], _ => addFragment [] pending []
  | pending, fragment :: fragments, [] =>
    addFragment [] pending (escapeRegexCharacters fragment) ++ tailItems none fragments []
  | pending, fragment :: fragments, info :: infos =>
    addFragment [] pending (escapeRegexCharacters fragment) ++
      (spaceItems pending.isSome (escapeRegexCharacters fragment) ++
        if info.isOptional then tailItems (some (operandAtoms fragments)) fragments infos
        else (operandAtoms fragments).map .one ++ tailItems none fragments infos)

/-- The part of the expression for the rest of the formats. -/
def formatsItems : Atom → List DisasmFormat → List Item
  | _, [] => []
  | sep, format :: formats =>
    .one sep :: (tailItems none format.fragments format.infos ++ formatsItems .someSpaces formats)

theorem addFragment_eq (output : List Item) (pending : Option (List Atom))
    (escaped : List Atom) :
    addFragment output pending escaped = output ++ addFragment [] pending escaped := by
  cases pending with
  | none => rfl
  | some atoms => rfl

theorem spaceBefore_eq (output : List Item) (pending : Option (List Atom))
    (escaped : List Atom) :
    spaceBefore (addFragment output pending escaped) escaped =
      spaceItems pending.isSome escaped := by
  unfold spaceBefore spaceItems
  cases hlast : escaped.getLast? with
  | none => rfl
  | some atom =>
    cases pending with
    | none =>
      have hend : (addFragment output none escaped).getLast? = some (.one atom) := by
        rw [addFragment, List.getLast?_append, List.getLast?_map, hlast]
        rfl
      simp [hend]
    | some atoms =>
      have hend : (addFragment output (some atoms) escaped).getLast? =
          some (.optional (atoms ++ escaped)) := by
        rw [addFragment, List.getLast?_append]
        rfl
      simp [hend]

variable {inst : Instruction} {fragments : List Name} {infos : List FormatInfo}

/-- The loop over a format appends its part to the output. -/
theorem formatRegEx_eq_some (hle : infos.length ≤ fragments.length)
    (hknown : ∀ info ∈ infos, (inst.locator info.opName).isSome) (output : List Item)
    (pending : Option (List Atom)) :
    formatRegEx inst output pending fragments infos =
      some (output ++ tailItems pending fragments infos, infos.map FormatInfo.opName) := by
  induction fragments generalizing output pending infos with
  | nil =>
    obtain rfl := List.eq_nil_of_length_eq_zero (Nat.le_zero.mp hle)
    show some (addFragment output pending [], []) = _
    rw [addFragment_eq]
    rfl
  | cons fragment fragments ih =>
    cases infos with
    | nil =>
      unfold formatRegEx tailItems
      dsimp only
      rw [ih (Nat.zero_le _) (fun info h => absurd h List.not_mem_nil), addFragment_eq,
        List.append_assoc]
    | cons info infos =>
      obtain ⟨locator, hlocator⟩ :=
        Option.isSome_iff_exists.mp (hknown info (List.mem_cons_self ..))
      have hrest := fun output pending => ih (Nat.le_of_succ_le_succ hle)
        (fun info h => hknown info (List.mem_cons_of_mem _ h)) output pending
      unfold formatRegEx tailItems
      simp only [hlocator, hrest, spaceBefore_eq]
      rw [addFragment_eq output]
      split
      · simp only [Option.map_some, List.append_assoc, List.map_cons]
      · simp only [Option.map_some, List.append_assoc, List.map_cons]

theorem groups_addFragment (pending : Option (List Atom)) (fragment : Name) :
    groups (addFragment [] pending (escapeRegexCharacters fragment)) =
      words (pending.getD []) := by
  have hescape := words_escape fragment
  cases pending with
  | none =>
    rw [addFragment, List.nil_append, groups_map_one, hescape]
    rfl
  | some atoms =>
    rw [addFragment, List.nil_append, groups_optional, words_append, hescape]
    rfl

theorem groups_spaceItems (optional : Bool) (escaped : List Atom) :
    groups (spaceItems optional escaped) = 0 := by
  unfold spaceItems
  split
  · rfl
  · split
    · rfl
    · rfl

theorem words_operandAtoms (fragments : List Name) : words (operandAtoms fragments) = 1 := by
  unfold operandAtoms
  split
  · rfl
  · rfl

theorem groups_tailItems (hle : infos.length ≤ fragments.length) (pending : Option (List Atom)) :
    groups (tailItems pending fragments infos) = words (pending.getD []) + infos.length := by
  induction fragments generalizing pending infos with
  | nil =>
    obtain rfl := List.eq_nil_of_length_eq_zero (Nat.le_zero.mp hle)
    exact groups_addFragment pending []
  | cons fragment fragments ih =>
    cases infos with
    | nil =>
      unfold tailItems
      rw [groups_append, groups_addFragment, ih (Nat.zero_le _) none]
      rfl
    | cons info infos =>
      have hrest := fun pending => ih (Nat.le_of_succ_le_succ hle) pending
      have hnil : words [] = 0 := rfl
      unfold tailItems
      rw [groups_append, groups_addFragment, groups_append, groups_spaceItems]
      split
      · rw [hrest, Option.getD_some, words_operandAtoms, List.length_cons]
        omega
      · rw [groups_append, groups_map_one, hrest, words_operandAtoms, Option.getD_none, hnil,
          List.length_cons]
        omega

theorem formatRegEx_eq_none (hle : infos.length ≤ fragments.length)
    (hunknown : ∃ info ∈ infos, inst.locator info.opName = none) (output : List Item)
    (pending : Option (List Atom)) : formatRegEx inst output pending fragments infos = none := by
  induction fragments generalizing output pending infos with
  | nil =>
    obtain rfl := List.eq_nil_of_length_eq_zero (Nat.le_zero.mp hle)
    obtain ⟨info, hmem, -⟩ := hunknown
    exact absurd hmem List.not_mem_nil
  | cons fragment fragments ih =>
    cases infos with
    | nil =>
      obtain ⟨info, hmem, -⟩ := hunknown
      exact absurd hmem List.not_mem_nil
    | cons info infos =>
      unfold formatRegEx
      cases hlocator : inst.locator info.opName with
      | none => simp only [hlocator]
      | some locator =>
        have hunknown' : ∃ info ∈ infos, inst.locator info.opName = none := by
          obtain ⟨info', hmem, hnone⟩ := hunknown
          rcases List.mem_cons.mp hmem with rfl | hmem
          · rw [hlocator] at hnone
            cases hnone
          · exact ⟨info', hmem, hnone⟩
        have hrest := fun output pending =>
          ih (Nat.le_of_succ_le_succ hle) hunknown' output pending
        simp only [hlocator, hrest]
        split
        · rfl
        · rfl

theorem formatsRegEx_eq_some {formats : List DisasmFormat}
    (hknown : ∀ format ∈ formats, ∀ info ∈ format.infos, (inst.locator info.opName).isSome)
    (sep : Atom) (output : List Item) :
    formatsRegEx inst sep output formats = some (output ++ formatsItems sep formats,
      formats.flatMap fun format => format.infos.map FormatInfo.opName) := by
  induction formats generalizing sep output with
  | nil =>
    rw [formatsItems, List.append_nil]
    rfl
  | cons format formats ih =>
    unfold formatsRegEx
    rw [formatRegEx_eq_some format.infos_le (hknown format (List.mem_cons_self ..))]
    show ((formatsRegEx inst .someSpaces _ formats).bind fun p =>
      some (p.1, format.infos.map FormatInfo.opName ++ p.2)) = _
    rw [ih (fun f hf => hknown f (List.mem_cons_of_mem _ hf)), Option.bind_some, formatsItems,
      List.flatMap_cons]
    simp only [List.append_assoc, List.cons_append, List.nil_append]

theorem groups_formatsItems (formats : List DisasmFormat) {sep : Atom} (hsep : sep ≠ .word) :
    groups (formatsItems sep formats) =
      (formats.flatMap fun format => format.infos.map FormatInfo.opName).length := by
  induction formats generalizing sep with
  | nil => rfl
  | cons format formats ih =>
    have hone : groups [.one sep] = 0 := by
      cases sep with
      | word => exact absurd rfl hsep
      | literal c => rfl
      | spaces => rfl
      | someSpaces => rfl
    have hnil : words ((none : Option (List Atom)).getD []) = 0 := rfl
    rw [formatsItems, ← List.singleton_append, groups_append, groups_append, hone,
      groups_tailItems format.infos_le, ih (by decide), List.flatMap_cons, List.length_append,
      List.length_map, hnil, Nat.zero_add, Nat.zero_add]

theorem formatsRegEx_eq_none {formats : List DisasmFormat}
    (hunknown : ∃ format ∈ formats, ∃ info ∈ format.infos, inst.locator info.opName = none)
    (sep : Atom) (output : List Item) : formatsRegEx inst sep output formats = none := by
  induction formats generalizing sep output with
  | nil =>
    obtain ⟨format, hmem, -⟩ := hunknown
    exact absurd hmem List.not_mem_nil
  | cons format formats ih =>
    unfold formatsRegEx
    by_cases hhere : ∃ info ∈ format.infos, inst.locator info.opName = none
    · rw [formatRegEx_eq_none format.infos_le hhere]
      rfl
    · have hrest : ∃ format ∈ formats, ∃ info ∈ format.infos,
          inst.locator info.opName = none := by
        obtain ⟨format', hmem, hinfo⟩ := hunknown
        rcases List.mem_cons.mp hmem with rfl | hmem
        · exact absurd hinfo hhere
        · exact ⟨format', hmem, hinfo⟩
      cases hformat : formatRegEx inst (output ++ [.one sep]) none format.fragments
          format.infos with
      | none => rfl
      | some p =>
        change (do
          let (output, names') ← formatsRegEx inst .someSpaces p.1 formats
          return (output, p.2 ++ names')) = none
        rw [ih hrest]
        rfl

/-- All operands of the formats have a locator. -/
def Instruction.Known (inst : Instruction) : Prop :=
  ∀ opName ∈ inst.operandNames, (inst.locator opName).isSome

theorem Instruction.Known.formats (hknown : inst.Known) :
    ∀ format ∈ inst.formats, ∀ info ∈ format.infos, (inst.locator info.opName).isSome := by
  intro format hformat info hinfo
  exact hknown _ (List.mem_flatMap.mpr ⟨format, hformat, List.mem_map_of_mem hinfo⟩)

theorem generateRegEx_eq (hknown : inst.Known) :
    generateRegEx inst =
      some (formatsItems .spaces inst.formats ++ [.one .spaces], inst.operandNames) := by
  rw [generateRegEx, formatsRegEx_eq_some hknown.formats]
  rfl

/-- **Captures.** There is an expression exactly if all operands have a locator; its
    captures are the operands of the formats. -/
theorem generateRegEx_eq_some (hknown : inst.Known) :
    ∃ items, generateRegEx inst = some (items, inst.operandNames) ∧
      groups items = inst.operandNames.length := by
  refine ⟨_, generateRegEx_eq hknown, ?_⟩
  rw [groups_append, groups_formatsItems inst.formats (by decide)]
  rfl

theorem known_of_generateRegEx (h : (generateRegEx inst).isSome) : inst.Known := by
  intro opName hmem
  obtain ⟨format, hformat, hname⟩ := List.mem_flatMap.mp hmem
  obtain ⟨info, hinfo, rfl⟩ := List.mem_map.mp hname
  by_contra hnone
  rw [Option.not_isSome_iff_eq_none] at hnone
  rw [generateRegEx, formatsRegEx_eq_none ⟨format, hformat, info, hinfo, hnone⟩] at h
  cases h

end MpactSim.Decoder
