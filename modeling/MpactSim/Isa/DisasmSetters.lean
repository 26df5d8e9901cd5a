import MpactSim.Isa.LocatorPaths
import MpactSim.Isa.ResourceSetters
import MpactSim.Lib.Templates

namespace MpactSim.Isa

open Decoder (Name OperandLocator isLiteralText padText leftPad rightPad)
open Lib

/-!
# Disassembly setters

The disassembly string of an instruction is built by a generated function.  Instructions share a
function if their disassembly keys are equal.

* `disasmKey`                — the text fragments and the operands;
* `generateDisasmSetterFcn`  — the columns of the string: what each is made of;
* `disassembly`              — the string, for texts of what is printed.

`disasm_setters_fit` says which instructions may share a function.
-/

/-! ### The source -/

/-- The operation between the address and an operand. -/
inductive Sign where
  | plus | minus
  deriving DecidableEq, Repr

/-- `FormatInfo`: an operand of a format, or an expression with the address.  There is an
    operation only with the address. -/
structure FormatInfo where
  opName : Name
  isFormatted : Bool
  numberFormat : Name
  useAddress : Bool
  operation : Option Sign
  useAddress_of_operation : operation.isSome → useAddress
  doLeftShift : Bool
  shiftAmount : Nat
  deriving DecidableEq, Repr

/-- `DisasmFormat`. -/
structure DisasmFormat where
  width : Int
  fragments : List Name
  infos : List FormatInfo
  deriving DecidableEq, Repr

/-- An instruction with what its disassembly setter depends on. -/
structure DisasmInstruction where
  opcode : Opcode
  locators : OpLocatorMap
  formats : List DisasmFormat

/-- The digits at the start of a text. -/
def digits (text : Name) : Name := text.takeWhile Char.isDigit

/-- The number of a text of digits: `absl::SimpleAtoi`. -/
def atoi (text : Name) : Nat :=
  text.foldl (fun n c => 10 * n + (c.toNat - '0'.toNat)) 0

/-- The bits that are read from an operand: `AsInt8` to `AsInt64`. -/
inductive Extractor where
  | asInt8 | asInt16 | asInt32 | asInt64
  deriving DecidableEq, Repr

/-- `GetExtractor`: by the length in a number format. -/
def getExtractor (format : Name) : Extractor :=
  let size := atoi (digits (format.dropWhile (!Char.isDigit ·)))
  if size = 0 then .asInt64
  else if size ≤ 2 then .asInt8
  else if size ≤ 4 then .asInt16
  else if size ≤ 8 then .asInt32
  else .asInt64

/-- The value of an operand, shifted to the left or, by a negative amount, to the right. -/
structure ShiftedOperand where
  path : Path
  extractor : Extractor
  shift : Int
  deriving DecidableEq, Repr

/-- An expression that is printed as a number. -/
inductive NumberExpr where
  | address
  | operand (op : ShiftedOperand)
  | sum (sign : Sign) (op : ShiftedOperand)
  deriving DecidableEq, Repr

/-- An argument of the string concatenation other than a literal. -/
inductive Argument where
  | asString (path : Path)
  | strFormat (format : Name) (expr : NumberExpr)
  deriving DecidableEq, Repr

/-- The operand of an expression. -/
def FormatInfo.shifted (info : FormatInfo) (path : Path) : ShiftedOperand where
  path := path
  extractor := getExtractor info.numberFormat
  shift := if info.doLeftShift then info.shiftAmount else -info.shiftAmount

/-- `ExpandExpression`; there is none if the locator is missing. -/
def expandExpression (info : FormatInfo) (locator : Option Path) : Option NumberExpr :=
  match info.operation with
  | none =>
    if info.useAddress then some .address
    else locator.map fun path => .operand (info.shifted path)
  | some sign => locator.map fun path => .sum sign (info.shifted path)

/-- The format string of a number. -/
def FormatInfo.formatString (info : FormatInfo) : Name :=
  (if info.numberFormat.getLast? = some 'x' then "0x".toList else []) ++ info.numberFormat

/-- The argument for an operand; there is none if an `#error` is emitted. -/
def DisasmInstruction.argument (inst : DisasmInstruction) (info : FormatInfo) : Option Argument :=
  if info.opName = [] then
    if info.isFormatted then
      (expandExpression info none).map (.strFormat info.formatString)
    else none
  else
    (inst.locators.lookup info.opName).bind fun locator =>
      if info.isFormatted then
        (expandExpression info (some (translateLocator locator))).map
          (.strFormat info.formatString)
      else some (.asString (translateLocator locator))

/-- The characters and arguments of a format: a fragment, the operand behind it, and so on. -/
def DisasmInstruction.template (inst : DisasmInstruction) :
    List Name → List FormatInfo → Option (List (Char ⊕ Argument))
  | [], _ => some []
  | fragment :: fragments, [] =>
    (inst.template fragments []).map (fragment.map Sum.inl ++ ·)
  | fragment :: fragments, info :: infos =>
    (inst.argument info).bind fun argument =>
      (inst.template fragments infos).map (fragment.map Sum.inl ++ .inr argument :: ·)

/-- A column of the string: its width, zero if it has none, and what it is made of. -/
abbrev Column := Int × List (Char ⊕ Argument)

/-- The columns of an instruction. -/
def DisasmInstruction.columns (inst : DisasmInstruction) : Option (List Column) :=
  inst.formats.mapM fun format =>
    (inst.template format.fragments format.infos).map (format.width, ·)

/-- A format without an argument leaves a comma too many, unless it is the only one and has no
    column.  A fragment has to be text that may stand in a string literal. -/
def DisasmInstruction.wellFormed (inst : DisasmInstruction) : Bool :=
  (inst.formats.all fun format => format.fragments.all isLiteralText) ∧
  ((inst.formats.all fun format => !(format.fragments.all (· = []) ∧ format.infos = [])) ∨
    (inst.formats.length = 1 ∧ inst.formats.all fun format => format.width = 0))

/-- `GenerateDisasmSetterFcn`; there is no function if the code does not compile. -/
def generateDisasmSetterFcn (inst : DisasmInstruction) : Option (List Column) :=
  if inst.wellFormed then inst.columns else none

/-- The string of a function for texts of the arguments. -/
def disassembly (text : Argument → Name) (columns : List Column) : Name :=
  columns.flatMap fun column => padText column.1 (fill text column.2)

/-- The C++ type of a number. -/
inductive NumberType where
  | int8 | int16 | int32 | int64 | uint64
  deriving DecidableEq, Repr

/-- The type of an expression; operands are promoted when they are shifted. -/
def NumberExpr.type : NumberExpr → NumberType
  | address | sum _ _ => .uint64
  | operand op =>
    match op.extractor with
    | .asInt8 => if op.shift = 0 then .int8 else .int32
    | .asInt16 => if op.shift = 0 then .int16 else .int32
    | .asInt32 => .int32
    | .asInt64 => .int64

/-- What an instruction and its operands return at run time. -/
structure OperandValues where
  asString : Path → Name
  asInt : Extractor → Path → Int
  address : Int

/-- A shifted operand. -/
def OperandValues.shifted (values : OperandValues) (op : ShiftedOperand) : Int :=
  let v := values.asInt op.extractor op.path
  if 0 ≤ op.shift then v * 2 ^ op.shift.toNat else v / 2 ^ (-op.shift).toNat

/-- The value of an expression, before it is reduced to the range of its type. -/
def OperandValues.eval (values : OperandValues) : NumberExpr → Int
  | .address => values.address
  | .operand op => values.shifted op
  | .sum .plus op => values.address + values.shifted op
  | .sum .minus op => values.address - values.shifted op

/-- `absl::StrFormat` of a number of a type. -/
abbrev StrFormat := Name → NumberType → Int → Name

/-- The text of an argument. -/
def OperandValues.text (strFormat : StrFormat) (values : OperandValues) : Argument → Name
  | .asString path => values.asString path
  | .strFormat format expr => strFormat format expr.type (values.eval expr)

/-- The latency of a destination operand in a key. -/
def latencyKey (op : DestinationOperand) : Option Name :=
  match op.expression with
  | none => some "(*)".toList
  | some _ =>
    match op.getLatency with
    | .ok v => some (if op.isArray then "(\x7b".toList ++ intText v ++ "\x7d)".toList
        else "(".toList ++ intText v ++ ")".toList)
    | .error _ => none

/-- The name of an operand in a key: in brackets for an array. -/
def operandKey (isArray : Bool) (name : Name) : Name :=
  if isArray then "[".toList ++ name ++ "]".toList else name

/-- The loop of `CreateOperandLookupKey` over the destination operands.  The name comes twice;
    if the latency has no value, it comes once and the separator is not set. -/
def destKey (sep : Name) : List DestinationOperand → Name
  | [] => []
  | op :: rest =>
    let name := operandKey op.isArray op.name
    match latencyKey op with
    | none => sep ++ name ++ destKey sep rest
    | some latency => sep ++ name ++ sep ++ name ++ latency ++ destKey "/".toList rest

/-- `CreateOperandLookupKey`. -/
def createOperandLookupKey (opcode : Opcode) : Name :=
  (if opcode.predicateOpName = [] then [] else opcode.predicateOpName ++ ":".toList)
    ++ "/".toList.intercalate (opcode.sourceOpVec.map fun op => operandKey op.isArray op.name)
    ++ ":".toList ++ destKey [] opcode.destOpVec

/-- The key of `GenerateDisassemblySetter`. -/
def disasmKey (inst : DisasmInstruction) : Name :=
  (inst.formats.flatMap fun format => format.fragments.flatten)
    ++ ":".toList ++ createOperandLookupKey inst.opcode

/-- The setters of the instructions of all slots, in the order in which
    `GenerateDisassemblySetter` is called: the instructions for which functions are generated,
    and the function of each instruction. -/
def disasmSetters (insts : List DisasmInstruction) : List DisasmInstruction × List Nat :=
  enterAll disasmKey [] insts

/-! ### The specification -/

/-- Two functions build the same string for all values of the operands and the address, whatever
    numbers are printed like. -/
def SameText (f g : Option (List Column)) : Prop :=
  ∀ (strFormat : StrFormat) (values : OperandValues),
    f.map (disassembly (values.text strFormat)) = g.map (disassembly (values.text strFormat))

/-- The function that two instructions share builds the strings of the functions that are
    generated for each of them alone. -/
def DisasmSettersFit (insts : List DisasmInstruction) : Prop :=
  ∀ (i j : Nat) a b k m, insts[i]? = some a → insts[j]? = some b →
    (disasmSetters insts).2[i]? = some k → (disasmSetters insts).2[j]? = some k →
    (disasmSetters insts).1[k]? = some m →
    SameText (generateDisasmSetterFcn m) (generateDisasmSetterFcn a) ∧
      SameText (generateDisasmSetterFcn m) (generateDisasmSetterFcn b)

/-- A character or an argument outside of a column, or a column. -/
inductive Token where
  | symbol (s : Char ⊕ Argument)
  | column (width : Int) (template : List (Char ⊕ Argument))
  deriving DecidableEq, Repr

/-- The layout of a string.  A column of no width is only what it is made of. -/
def layout (columns : List Column) : List Token :=
  columns.flatMap fun column =>
    if column.1 = 0 then column.2.map .symbol else [.column column.1 column.2]

/-- The characters and arguments of a string whose arguments fill their columns. -/
def written (columns : List Column) : List (Char ⊕ Argument) :=
  columns.flatMap fun column =>
    if column.2.all Sum.isLeft then
      (padText column.1 (column.2.filterMap Sum.getLeft?)).map Sum.inl
    else column.2

/-- The functions of two instructions have the same layout, or neither compiles. -/
def SameLayout (a b : DisasmInstruction) : Prop :=
  (generateDisasmSetterFcn a).map layout = (generateDisasmSetterFcn b).map layout

/-- The functions of two instructions write the same, or neither compiles. -/
def SameWriting (a b : DisasmInstruction) : Prop :=
  (generateDisasmSetterFcn a).map written = (generateDisasmSetterFcn b).map written

/-! ### Layouts -/

theorem padText_zero (text : Name) : padText 0 text = text := by
  simp [padText, leftPad, rightPad]

theorem padText_of_le {width : Int} {text : Name} (h : width.natAbs ≤ text.length) :
    padText width text = text := by
  unfold padText leftPad rightPad
  rw [Nat.sub_eq_zero_of_le h]
  simp

/-- The text of a token. -/
def Token.text (text : Argument → Name) : Token → Name
  | symbol s => fill text [s]
  | column width template => padText width (fill text template)

theorem disassembly_eq_layout (text : Argument → Name) (columns : List Column) :
    disassembly text columns = (layout columns).flatMap (Token.text text) := by
  rw [disassembly, layout, List.flatMap_assoc]
  refine congrArg columns.flatMap (funext fun column => ?_)
  split
  · rename_i hzero
    rw [hzero, padText_zero, List.flatMap_map, fill]
    refine congrArg column.2.flatMap (funext fun s => ?_)
    simp [Token.text, fill]
  · simp [Token.text]

variable {a b : DisasmInstruction} {columns : List Column} {values : OperandValues}

theorem SameLayout.sameText (h : SameLayout a b) :
    SameText (generateDisasmSetterFcn a) (generateDisasmSetterFcn b) := by
  intro strFormat values
  have hlayout := congrArg (Option.map (List.flatMap (Token.text (values.text strFormat)))) h
  rw [Option.map_map, Option.map_map] at hlayout
  simpa only [Function.comp_def, ← disassembly_eq_layout] using hlayout

theorem map_getLeft {template : List (Char ⊕ Argument)} (h : template.all Sum.isLeft = true) :
    (template.filterMap Sum.getLeft?).map Sum.inl = template := by
  induction template with
  | nil => rfl
  | cons s rest ih =>
    cases s with
    | inl c => exact congrArg (Sum.inl c :: ·) (ih (by simpa using h))
    | inr x => simp at h

theorem fill_of_isLeft (text : Argument → Name) {template : List (Char ⊕ Argument)}
    (h : template.all Sum.isLeft = true) :
    fill text template = template.filterMap Sum.getLeft? := by
  conv_lhs => rw [← map_getLeft h]
  exact fill_map_inl text _

theorem disassembly_eq_written {text : Argument → Name} {n : Nat}
    (hwidth : ∀ column ∈ columns, column.1.natAbs ≤ n) (htext : ∀ x, n ≤ (text x).length) :
    disassembly text columns = fill text (written columns) := by
  induction columns with
  | nil => rfl
  | cons column rest ih =>
    obtain ⟨hcolumn, hrest⟩ := List.forall_mem_cons.mp hwidth
    have hhead : padText column.1 (fill text column.2)
        = fill text (if column.2.all Sum.isLeft then
            (padText column.1 (column.2.filterMap Sum.getLeft?)).map Sum.inl else column.2) := by
      split
      · rename_i hleft
        rw [fill_map_inl, fill_of_isLeft text hleft]
      · rename_i hargument
        obtain ⟨s, hs, hright⟩ : ∃ s ∈ column.2, ¬ s.isLeft = true := by
          simpa using hargument
        obtain ⟨x, rfl⟩ : ∃ x, s = .inr x := by
          cases s with
          | inl c => exact absurd rfl hright
          | inr x => exact ⟨x, rfl⟩
        exact padText_of_le (hcolumn.trans ((htext x).trans (length_le_fill text hs)))
    have hih := ih hrest
    rw [disassembly, written] at hih ⊢
    rw [List.flatMap_cons, List.flatMap_cons, fill_append, hhead, hih]

/-! ### Telling arguments apart -/

/-- The texts of arguments with at least `n` characters. -/
def LongTexts (n : Nat) (text : Argument → Name) : Prop :=
  (∃ (strFormat : StrFormat) (values : OperandValues), text = values.text strFormat) ∧
    ∀ x, n ≤ (text x).length

theorem shifted_zero (op : ShiftedOperand) (h : values.asInt op.extractor op.path = 0) :
    values.shifted op = 0 := by
  simp [OperandValues.shifted, h]

theorem shifted_neg (op : ShiftedOperand) (h : values.asInt op.extractor op.path < 0) :
    values.shifted op < 0 := by
  unfold OperandValues.shifted
  dsimp only
  split
  · exact mul_neg_of_neg_of_pos h (by positivity)
  · exact Int.ediv_neg_of_neg_of_pos h (by positivity)

theorem shifted_two_pow (op : ShiftedOperand) {n : Nat}
    (h : values.asInt op.extractor op.path = 2 ^ n) (hn : 0 ≤ n + op.shift) :
    values.shifted op = 2 ^ (n + op.shift).toNat := by
  unfold OperandValues.shifted
  rw [h]
  dsimp only
  split
  · rw [← pow_add]
    congr 1
    omega
  · rw [show n = (n + op.shift).toNat + (-op.shift).toNat by omega, pow_add,
      Int.mul_ediv_cancel _ (by positivity)]
    congr 2
    omega

theorem exists_shifted_ne {op op' : ShiftedOperand} (h : op ≠ op') :
    ∃ values : OperandValues, values.shifted op ≠ values.shifted op' := by
  by_cases hread : op.extractor = op'.extractor ∧ op.path = op'.path
  · have hshift : op.shift ≠ op'.shift := by
      intro hshift
      obtain ⟨path, extractor, shift⟩ := op
      obtain ⟨path', extractor', shift'⟩ := op'
      obtain ⟨rfl, rfl⟩ := hread
      exact h (congrArg (ShiftedOperand.mk path extractor) hshift)
    let n := op.shift.natAbs + op'.shift.natAbs
    refine ⟨⟨fun _ => [], fun _ _ => 2 ^ n, 0⟩, ?_⟩
    rw [shifted_two_pow op rfl (by omega), shifted_two_pow op' rfl (by omega)]
    intro heq
    have := Nat.pow_right_injective (le_refl 2) (by exact_mod_cast heq)
    omega
  · refine ⟨⟨fun _ => [], fun extractor path =>
      if extractor = op'.extractor ∧ path = op'.path then 0 else -1, 0⟩, ?_⟩
    rw [shifted_zero op' (if_pos ⟨rfl, rfl⟩)]
    exact (shifted_neg op (by simp [if_neg hread])).ne

theorem exists_eval_ne {e e' : NumberExpr} (h : e ≠ e') :
    ∃ values : OperandValues, values.eval e ≠ values.eval e' := by
  -- All operands are 0 and the address is 1, or all operands are negative and the address is 0.
  let zeros : OperandValues := ⟨fun _ => [], fun _ _ => 0, 1⟩
  let negatives : OperandValues := ⟨fun _ => [], fun _ _ => -1, 0⟩
  have hzero : ∀ op, zeros.shifted op = 0 := fun op => shifted_zero op rfl
  have hneg : ∀ op, negatives.shifted op < 0 := fun op => shifted_neg op neg_one_lt_zero
  cases e with
  | address =>
    cases e' with
    | address => exact absurd rfl h
    | operand op' => exact ⟨zeros, by simp [OperandValues.eval, hzero, zeros]⟩
    | sum sign op' =>
      refine ⟨negatives, ?_⟩
      have := hneg op'
      cases sign <;> simp only [OperandValues.eval, negatives] at this ⊢ <;> omega
  | operand op =>
    cases e' with
    | address => exact ⟨zeros, by simp [OperandValues.eval, hzero, zeros]⟩
    | operand op' => exact exists_shifted_ne fun hop => h (congrArg _ hop)
    | sum sign op' =>
      refine ⟨zeros, ?_⟩
      cases sign <;> simp [OperandValues.eval, hzero, zeros]
  | sum sign op =>
    cases e' with
    | address =>
      refine ⟨negatives, ?_⟩
      have := hneg op
      cases sign <;> simp only [OperandValues.eval, negatives] at this ⊢ <;> omega
    | operand op' =>
      refine ⟨zeros, ?_⟩
      cases sign <;> simp [OperandValues.eval, hzero, zeros]
    | sum sign' op' =>
      by_cases hsign : sign = sign'
      · subst hsign
        have hop : op ≠ op' := fun hop => h (by rw [hop])
        obtain ⟨values, hvalues⟩ := exists_shifted_ne hop
        refine ⟨values, ?_⟩
        cases sign <;> simp only [OperandValues.eval] <;> omega
      · refine ⟨negatives, ?_⟩
        have hop := hneg op
        have hop' := hneg op'
        cases sign <;> cases sign' <;>
          first
          | exact absurd rfl hsign
          | (simp only [OperandValues.eval, negatives] at hop hop' ⊢; omega)

@[simp]
theorem eval_mk (asString : Path → Name) (values : OperandValues) (e : NumberExpr) :
    OperandValues.eval ⟨asString, values.asInt, values.address⟩ e = values.eval e := by
  cases e with
  | address => rfl
  | operand op => rfl
  | sum sign op => cases sign <;> rfl

theorem exists_longTexts (n : Nat) : ∃ text, LongTexts (n + 1) text := by
  refine ⟨_, ⟨fun _ _ _ => List.replicate (n + 1) 'a',
    ⟨fun _ => List.replicate (n + 1) 'a', fun _ _ => 0, 0⟩, rfl⟩, fun x => ?_⟩
  cases x <;> simp [OperandValues.text]

theorem longTexts_replicate (n : Nat) (ofPath : Path → Char) (ofNumber : Name → Int → Char)
    (asInt : Extractor → Path → Int) (address : Int) :
    LongTexts (n + 1) (OperandValues.text
      (fun format _ v => List.replicate (n + 1) (ofNumber format v))
      ⟨fun path => List.replicate (n + 1) (ofPath path), asInt, address⟩) := by
  refine ⟨⟨_, _, rfl⟩, fun x => ?_⟩
  cases x <;> simp [OperandValues.text]

theorem separates_texts (n : Nat) : Separates (LongTexts (n + 1)) := by
  refine ⟨fun text htext x hnil => ?_, fun c x => ?_, fun x y hxy => ?_⟩
  · have := htext.2 x
    rw [hnil] at this
    cases this
  · let e := if c = 'a' then 'b' else 'a'
    have he : e ≠ c := by
      by_cases hc : c = 'a'
      · simp [e, hc]
      · simpa [e, hc] using Ne.symm hc
    refine ⟨_, longTexts_replicate n (fun _ => e) (fun _ _ => e) (fun _ _ => 0) 0, ?_⟩
    cases x <;> simpa [OperandValues.text, List.replicate_succ] using he
  · cases x with
    | asString p =>
      cases y with
      | asString q =>
        refine ⟨_, longTexts_replicate n (fun r => if r = p then 'a' else 'b') (fun _ _ => 'a')
          (fun _ _ => 0) 0, ?_⟩
        have hpq : q ≠ p := fun h => hxy (by rw [h])
        simp [OperandValues.text, List.replicate_succ, hpq]
      | strFormat format e =>
        refine ⟨_, longTexts_replicate n (fun _ => 'a') (fun _ _ => 'b') (fun _ _ => 0) 0, ?_⟩
        simp [OperandValues.text, List.replicate_succ]
    | strFormat format e =>
      cases y with
      | asString q =>
        refine ⟨_, longTexts_replicate n (fun _ => 'a') (fun _ _ => 'b') (fun _ _ => 0) 0, ?_⟩
        simp [OperandValues.text, List.replicate_succ]
      | strFormat format' e' =>
        by_cases hformat : format = format'
        · have hne : e ≠ e' := fun he => hxy (by rw [hformat, he])
          obtain ⟨values, hvalues⟩ := exists_eval_ne hne
          refine ⟨_, longTexts_replicate n (fun _ => 'a')
            (fun _ v => if v = values.eval e then 'a' else 'b') values.asInt values.address, ?_⟩
          simp [OperandValues.text, List.replicate_succ, Ne.symm hvalues]
        · refine ⟨_, longTexts_replicate n (fun _ => 'a')
            (fun f _ => if f = format then 'a' else 'b') (fun _ _ => 0) 0, ?_⟩
          simp [OperandValues.text, List.replicate_succ, Ne.symm hformat]

theorem SameText.written {f g : List Column} (h : SameText (some f) (some g)) :
    written f = written g := by
  obtain ⟨n, hn⟩ : ∃ n, ∀ column ∈ f ++ g, column.1.natAbs ≤ n :=
    ⟨((f ++ g).map fun column => column.1.natAbs).sum, fun column hcolumn =>
      List.single_le_sum (by simp) _ (List.mem_map_of_mem hcolumn)⟩
  obtain ⟨hf, hg⟩ := List.forall_mem_append.mp hn
  refine eq_of_forall_fill (separates_texts n) (exists_longTexts n) _ _ ?_
  rintro text ⟨⟨strFormat, values, rfl⟩, htext⟩
  have hlong : ∀ x, n ≤ (values.text strFormat x).length := fun x => (Nat.le_succ n).trans (htext x)
  rw [← disassembly_eq_written hf hlong, ← disassembly_eq_written hg hlong]
  exact Option.some.inj (h strFormat values)

theorem sameWriting_of_sameText
    (h : SameText (generateDisasmSetterFcn a) (generateDisasmSetterFcn b)) : SameWriting a b := by
  unfold SameWriting
  cases ha : generateDisasmSetterFcn a with
  | none =>
    cases hb : generateDisasmSetterFcn b with
    | none => rfl
    | some g =>
      rw [ha, hb] at h
      exact absurd (h (fun _ _ _ => []) ⟨fun _ => [], fun _ _ => 0, 0⟩) nofun
  | some f =>
    cases hb : generateDisasmSetterFcn b with
    | none =>
      rw [ha, hb] at h
      exact absurd (h (fun _ _ _ => []) ⟨fun _ => [], fun _ _ => 0, 0⟩) nofun
    | some g =>
      rw [ha, hb] at h
      exact congrArg some h.written

theorem layout_eq_map_written (h : ∀ column ∈ columns, column.1 = 0) :
    layout columns = (written columns).map .symbol := by
  induction columns with
  | nil => rfl
  | cons column rest ih =>
    obtain ⟨hcolumn, hrest⟩ := List.forall_mem_cons.mp h
    have hwritten : (if column.2.all Sum.isLeft then
        (padText column.1 (column.2.filterMap Sum.getLeft?)).map Sum.inl else column.2)
        = column.2 := by
      split
      · rename_i hleft
        rw [hcolumn, padText_zero, map_getLeft hleft]
      · rfl
    have hih := ih hrest
    rw [layout, written] at hih ⊢
    rw [List.flatMap_cons, List.flatMap_cons, if_pos hcolumn, hwritten, hih, List.map_append]

theorem width_of_mem_columns {inst : DisasmInstruction}
    (h : generateDisasmSetterFcn inst = some columns) :
    ∀ column ∈ columns, ∃ format ∈ inst.formats, column.1 = format.width := by
  unfold generateDisasmSetterFcn at h
  split at h
  · intro column hcolumn
    obtain ⟨format, hformat, hcolumn⟩ := exists_of_mapM_eq_some h hcolumn
    obtain ⟨template, -, rfl⟩ := Option.map_eq_some_iff.mp hcolumn
    exact ⟨format, hformat, rfl⟩
  · cases h

theorem SameWriting.sameLayout (h : SameWriting a b) (ha : ∀ format ∈ a.formats, format.width = 0)
    (hb : ∀ format ∈ b.formats, format.width = 0) : SameLayout a b := by
  have hlayout : ∀ inst : DisasmInstruction, (∀ format ∈ inst.formats, format.width = 0) →
      (generateDisasmSetterFcn inst).map layout
        = ((generateDisasmSetterFcn inst).map written).map (List.map Token.symbol) := by
    intro inst hinst
    cases hfcn : generateDisasmSetterFcn inst with
    | none => rfl
    | some columns =>
      refine congrArg some (layout_eq_map_written fun column hcolumn => ?_)
      obtain ⟨format, hformat, hwidth⟩ := width_of_mem_columns hfcn column hcolumn
      rw [hwidth, hinst format hformat]
  unfold SameLayout
  rw [hlayout a ha, hlayout b hb, h]

/-- The functions fit exactly if those of instructions with the same key build the same
    strings. -/
theorem disasmSettersFit_iff (insts : List DisasmInstruction) :
    DisasmSettersFit insts ↔ ∀ a ∈ insts, ∀ b ∈ insts, disasmKey a = disasmKey b →
      SameText (generateDisasmSetterFcn a) (generateDisasmSetterFcn b) :=
  @forall_entered_iff _ _ _ disasmKey _ (fun _ _ h strFormat values => (h strFormat values).symm)
    (fun _ _ _ h h' strFormat values => (h strFormat values).trans (h' strFormat values)) insts

/-- **Disassembly setters.** Instructions with the same key may share a function if their layouts
    are the same, and only if they write the same; without columns that is the same condition. -/
theorem disasm_setters_fit (insts : List DisasmInstruction) :
    ((∀ a ∈ insts, ∀ b ∈ insts, disasmKey a = disasmKey b → SameLayout a b) →
        DisasmSettersFit insts) ∧
      (DisasmSettersFit insts →
        ∀ a ∈ insts, ∀ b ∈ insts, disasmKey a = disasmKey b → SameWriting a b) ∧
      ((∀ a ∈ insts, ∀ format ∈ a.formats, format.width = 0) →
        (DisasmSettersFit insts ↔
          ∀ a ∈ insts, ∀ b ∈ insts, disasmKey a = disasmKey b → SameLayout a b)) := by
  have hif : (∀ a ∈ insts, ∀ b ∈ insts, disasmKey a = disasmKey b → SameLayout a b) →
      DisasmSettersFit insts := fun h =>
    (disasmSettersFit_iff insts).mpr fun a ha b hb hkey => (h a ha b hb hkey).sameText
  have honly : DisasmSettersFit insts →
      ∀ a ∈ insts, ∀ b ∈ insts, disasmKey a = disasmKey b → SameWriting a b :=
    fun h a ha b hb hkey =>
      sameWriting_of_sameText ((disasmSettersFit_iff insts).mp h a ha b hb hkey)
  refine ⟨hif, honly, fun hwidth => ⟨fun h a ha b hb hkey => ?_, hif⟩⟩
  exact (honly h a ha b hb hkey).sameLayout (hwidth a ha) (hwidth b hb)

/-- An instruction with the operands `: rs1, rs2` and the format `op %first %second`. -/
def printsOperands (first second : String) : DisasmInstruction where
  opcode := ⟨[], [⟨"rs1".toList, false, false⟩, ⟨"rs2".toList, false, false⟩], []⟩
  locators := [("rs1".toList, ⟨0, .source, false, 0⟩), ("rs2".toList, ⟨0, .source, false, 1⟩)]
  formats := [⟨0, ["op ".toList, " ".toList],
    [⟨first.toList, false, [], false, none, nofun, false, 0⟩,
      ⟨second.toList, false, [], false, none, nofun, false, 0⟩]⟩]

/-- The instruction that prints its operands in the other order is given the function of the
    first. -/
theorem disasm_setter_of_first :
    (disasmSetters [printsOperands "rs1" "rs2", printsOperands "rs2" "rs1"]).2 = [0, 0] ∧
      ¬ DisasmSettersFit [printsOperands "rs1" "rs2", printsOperands "rs2" "rs1"] := by
  have hmade : (disasmSetters [printsOperands "rs1" "rs2", printsOperands "rs2" "rs1"]).1
      = [printsOperands "rs1" "rs2"] := rfl
  have hentries : (disasmSetters [printsOperands "rs1" "rs2", printsOperands "rs2" "rs1"]).2
      = [0, 0] := by decide +kernel
  refine ⟨hentries, fun h => ?_⟩
  have hshared := (h 0 1 _ _ 0 _ rfl rfl (by rw [hentries]; rfl) (by rw [hentries]; rfl)
    (by rw [hmade]; rfl)).2
  have htext := hshared (fun _ _ _ => [])
    ⟨fun path => if path = ⟨[], .source 0⟩ then ['x'] else ['y'], fun _ _ => 0, 0⟩
  exact absurd htext (by decide +kernel)

end MpactSim.Isa
