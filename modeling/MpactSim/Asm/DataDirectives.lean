import MpactSim.Asm.Literals
import MpactSim.Asm.PassTwoErrors

namespace MpactSim.Asm

open Lib

/-!
# Data directives

The values behind a data directive are read with a regular expression until that does not match.
This may be the end of the text or a value that is malformed.  Integers are read at a type of 32
bits at least, and cast to the one of the directive.

* `KeepsValues`     — every value of the text is encoded, or there is an error;
* `readValues_iff`  — when a loop over the values of a text keeps all of them;
* `keepsValues_iff` — when a data directive does.
-/

/-! ### The specification -/

namespace DataType

/-- A literal whose value the type can represent, and the bytes of the value: the number in the
    given size, the lowest byte first, one character, or the characters of a string. -/
def Encodes : DataType → Text → List UInt8 → Prop
  | .integer signed size, number, bytes => ∃ value, numberValue number = some value ∧
      InRange signed (8 * size) value ∧ bytes.length = size ∧
      (Nat.ofDigits 256 (bytes.map UInt8.toNat) : Int) = value % 2 ^ (8 * size)
  | .char, inner, bytes => bytes = utf8 (expandEscapes inner) ∧ bytes.length = 1
  | .string terminated, inner, bytes =>
    bytes = utf8 (expandEscapes inner) ++ if terminated then [0] else []

/-- The type can represent the value of a literal. -/
def Fits : DataType → Text → Prop
  | .integer signed size, number =>
    ∃ value, numberValue number = some value ∧ InRange signed (8 * size) value
  | .char, inner => (utf8 (expandEscapes inner)).length = 1
  | .string _, _ => True

/-- The type at which values are read cannot represent the value of a literal.  A minus sign is
    refused at a type without signs, also in front of a zero. -/
def Refuses : DataType → Text → Prop
  | .integer signed size, number => ¬∃ value, numberValue number = some value ∧
      InRange signed (atoIWidth size) value ∧ (number.head? = some '-' → signed = true)
  | .char, inner => (utf8 (expandEscapes inner)).length ≠ 1
  | .string _, _ => False

end DataType

/-- The directive returns an error, or it emits the bytes of exactly the values that its text lists;
    all of these can be represented. -/
def KeepsValues (type : DataType) (remainder : Text) (out : Outcome Unit) : Prop :=
  (∃ e, out.status = .error e) ∨ ∃ values encodings,
    Listed isSpace ',' type.Literal remainder values ∧
    List.Forall₂ type.Encodes values encodings ∧ out.bytes = encodings.flatten

/-! ### The bytes of integers -/

theorem length_valueBytes (size value : Nat) : (valueBytes size value).length = size := by
  induction size generalizing value with
  | zero => rfl
  | succ size ih => rw [valueBytes, List.length_cons, ih]

theorem ofDigits_valueBytes (size value : Nat) :
    Nat.ofDigits 256 ((valueBytes size value).map UInt8.toNat) = value % 256 ^ size := by
  induction size generalizing value with
  | zero => simp [valueBytes, Nat.mod_one]
  | succ size ih =>
    have hbyte : (UInt8.ofNat (value % 256)).toNat = value % 256 := by simp
    rw [valueBytes, List.map_cons, Nat.ofDigits_cons, ih, hbyte, Nat.pow_succ', Nat.mod_mul]

theorem ofDigits_cast (size : Nat) (value : Int) :
    (Nat.ofDigits 256 ((valueBytes size (value % 2 ^ (8 * size)).toNat).map UInt8.toNat) : Int) =
      value % 2 ^ (8 * size) := by
  have hpow : (256 : Int) ^ size = 2 ^ (8 * size) := by
    rw [pow_mul]
    norm_num
  have hnonneg : 0 ≤ value % 2 ^ (8 * size) := Int.emod_nonneg _ (by positivity)
  have hcast (digits : List Nat) :
      Nat.ofDigits (256 : Int) digits = ((Nat.ofDigits 256 digits : Nat) : Int) :=
    (Nat.coe_ofDigits Int 256 digits).symm
  rw [hcast, ofDigits_valueBytes]
  push_cast
  rw [Int.toNat_of_nonneg hnonneg, hpow, Int.emod_emod]

/-! ### The values of a text -/

theorem consumeAll_eq_readAll {α : Type} (re : Text → Option (α × Text)) (fuel : Nat)
    (text : Text) : consumeAll re fuel text = readAll re fuel text := by
  induction fuel generalizing text with
  | zero => rfl
  | succ fuel ih =>
    rw [consumeAll, readAll]
    cases re text with
    | none => rfl
    | some p =>
      obtain ⟨value, rest⟩ := p
      show value :: _ = value :: _
      rw [ih]

theorem literal_visible (type : DataType) : Visible isSpace type.Literal := by
  have hstops {item : Text} (hne : item ≠ []) (h : Stops isSpace item) : ¬Within isSpace item := by
    obtain ⟨c, rest, rfl⟩ := List.exists_cons_of_ne_nil hne
    intro hwithin
    have hspace := (within_cons.mp hwithin).1
    rw [stops_cons.mp h] at hspace
    cases hspace
  intro item inner h
  cases type with
  | integer signed size =>
    obtain ⟨rfl, hnumber⟩ := h
    exact hstops hnumber.stops.1 hnumber.stops.2
  | char =>
    obtain ⟨rfl, -, -⟩ := h
    exact hstops (List.cons_ne_nil _ _) (stops_cons.mpr (by decide))
  | string terminated =>
    obtain ⟨rfl, -⟩ := h
    exact hstops (List.cons_ne_nil _ _) (stops_cons.mpr (by decide))

/-- The text is a list of literals whose values the type can represent. -/
def DataType.WellFormed (type : DataType) (remainder : Text) : Prop :=
  ∃ values, Listed isSpace ',' type.Literal remainder values ∧ ∀ value ∈ values, type.Fits value

/-- The text begins with literals one of which is refused. -/
def DataType.Rejected (type : DataType) (remainder : Text) : Prop :=
  ∃ values, Begins isSpace ',' type.Literal remainder values ∧ ∃ value ∈ values, type.Refuses value

variable {type : DataType}

/-- The loop over the values of a text, with a function `f` that reads one, keeps all of them or
    fails exactly if the text is well-formed, or if a value is refused before the loop ends. -/
theorem readValues_iff {re : Text → Option (Text × Text)} (hre : Reads isSpace ',' type.Literal re)
    {γ : Type} {f : Text → Except Error γ} {bytes : γ → List UInt8}
    (hrefuses : ∀ item value, type.Literal item value →
      ((∃ e, f value = .error e) ↔ type.Refuses value))
    (hencodes : ∀ item value c, type.Literal item value → f value = .ok c → type.Fits value →
      type.Encodes value (bytes c))
    (hfits : ∀ value encoding, type.Encodes value encoding → type.Fits value) (remainder : Text) :
    ((∃ e, (consumeAll re remainder.length remainder).mapM f = .error e) ∨
      ∃ results, (consumeAll re remainder.length remainder).mapM f = .ok results ∧
        ∃ values encodings, Listed isSpace ',' type.Literal remainder values ∧
          List.Forall₂ type.Encodes values encodings ∧
          results.flatMap bytes = encodings.flatten) ↔
      type.WellFormed remainder ∨ type.Rejected remainder := by
  rw [consumeAll_eq_readAll]
  have hbegins {values : List Text} : Begins isSpace ',' type.Literal remainder values ↔
      values <+: readAll re remainder.length remainder :=
    begins_iff hre (literal_visible type) le_rfl
  have hall := hbegins.mpr List.prefix_rfl
  rw [mapM_eq_error_iff]
  constructor
  · rintro (⟨value, hmem, herror⟩ | ⟨results, -, values, encodings, hlisted, hvalues, -⟩)
    · obtain ⟨item, hitem⟩ := hall.exists_item hmem
      exact .inr ⟨_, hall, value, hmem, (hrefuses item value hitem).mp herror⟩
    · refine .inl ⟨values, hlisted, fun value hmem => ?_⟩
      obtain ⟨encoding, -, hencoding⟩ := exists_of_forall₂ hvalues.flip hmem
      exact hfits value encoding hencoding
  · rintro (⟨values, hlisted, hvalues⟩ | ⟨values, hvalues, value, hmem, hrefused⟩)
    · -- The loop reads the whole list; `f` may still refuse a value that would fit.
      have hread := readAll_listed hre (literal_visible type) le_rfl hlisted
      rw [hread] at hall ⊢
      cases hmap : values.mapM f with
      | error e => exact .inl (mapM_eq_error_iff.mp ⟨e, hmap⟩)
      | ok results =>
        refine .inr ⟨results, rfl, values, results.map bytes, hlisted, ?_, ?_⟩
        · rw [List.forall₂_map_right_iff]
          refine forall₂_imp_of_mem (forall₂_of_mapM_eq_ok hmap) fun value hmem c hc => ?_
          obtain ⟨item, hitem⟩ := hall.exists_item hmem
          exact hencodes item value c hitem hc (hvalues value hmem)
        · rw [List.flatMap_def]
    · obtain ⟨item, hitem⟩ := hvalues.exists_item hmem
      exact .inl ⟨value, (hbegins.mp hvalues).subset hmem, (hrefuses item value hitem).mpr hrefused⟩

theorem fits_of_encodes (value : Text) (encoding : List UInt8) (h : type.Encodes value encoding) :
    type.Fits value := by
  cases type with
  | integer signed size =>
    obtain ⟨n, hn, hrange, -⟩ := h
    exact ⟨n, hn, hrange⟩
  | char =>
    obtain ⟨rfl, hlength⟩ := h
    exact hlength
  | string terminated => trivial

/-- What the branch of a data directive returns. -/
def KeepsAll (type : DataType) (remainder : Text) (result : Except Error Directive) : Prop :=
  (∃ e, result = .error e) ∨ ∃ d, result = .ok d ∧ ∃ values encodings,
    Listed isSpace ',' type.Literal remainder values ∧
    List.Forall₂ type.Encodes values encodings ∧ d.bytes = encodings.flatten

theorem keepsAll_map {remainder : Text} {γ : Type} {results : Except Error (List γ)}
    {bytes : γ → List UInt8} :
    KeepsAll type remainder (results.map fun values => .emit (values.flatMap bytes)) ↔
      (∃ e, results = .error e) ∨ ∃ values, results = .ok values ∧ ∃ values' encodings,
        Listed isSpace ',' type.Literal remainder values' ∧
        List.Forall₂ type.Encodes values' encodings ∧
        values.flatMap bytes = encodings.flatten := by
  unfold KeepsAll
  cases results with
  | error e => simp [Except.map]
  | ok values =>
    apply or_congr
    · simp [Except.map]
    · constructor
      · rintro ⟨_, ⟨⟩, hkeeps⟩
        exact ⟨values, rfl, hkeeps⟩
      · rintro ⟨_, ⟨⟩, hkeeps⟩
        exact ⟨_, rfl, hkeeps⟩

theorem integers_keepsAll (signed : Bool) (size : Nat) (remainder : Text) :
    KeepsAll (.integer signed size) remainder (integers signed size remainder) ↔
      (DataType.integer signed size).WellFormed remainder ∨
        (DataType.integer signed size).Rejected remainder := by
  show KeepsAll _ _ ((getValues signed size remainder).map fun values =>
    .emit (values.flatMap (valueBytes size))) ↔ _
  rw [keepsAll_map, getValues]
  apply readValues_iff (numberRe_reads signed size)
  · rintro item number ⟨rfl, hnumber⟩
    rw [exists_error_iff, DataType.Refuses, not_iff_not]
    simp only [← simpleTextToInt_eq_ok hnumber]
    cases simpleTextToInt signed (atoIWidth size) item with
    | error e => simp [Except.map]
    | ok value => simp [Except.map]
  · rintro item number c ⟨rfl, hnumber⟩ hc ⟨value, hvalue, hrange⟩
    cases hread : simpleTextToInt signed (atoIWidth size) item with
    | error e =>
      rw [hread] at hc
      cases hc
    | ok value' =>
      rw [hread] at hc
      cases hc
      obtain ⟨hvalue', -, -⟩ := (simpleTextToInt_eq_ok hnumber).mp hread
      obtain rfl := Option.some.inj (hvalue.symm.trans hvalue')
      exact ⟨value, hvalue, hrange, length_valueBytes _ _, ofDigits_cast size value⟩
  · exact fits_of_encodes

theorem getChars_keepsAll (remainder : Text) :
    KeepsAll .char remainder ((getChars remainder).map .emit) ↔
      DataType.char.WellFormed remainder ∨ DataType.char.Rejected remainder := by
  have hflat : (getChars remainder).map Directive.emit =
      (getChars remainder).map fun values => .emit (values.flatMap fun byte => [byte]) := by
    simp
  rw [hflat, keepsAll_map, getChars]
  apply readValues_iff charRe_reads
  · intro item inner _
    rw [DataType.Refuses]
    split
    · rename_i hbyte
      simp [hbyte]
    · rename_i hnot
      refine iff_of_true ⟨_, rfl⟩ fun hlength => ?_
      obtain ⟨byte, hbyte⟩ := List.length_eq_one_iff.mp hlength
      exact hnot byte hbyte
  · intro item inner byte _ hbyte _
    split at hbyte
    · rename_i hutf8
      cases hbyte
      exact ⟨hutf8.symm, rfl⟩
    · cases hbyte
  · exact fits_of_encodes

theorem getStrings_keepsAll (terminated : Bool) (remainder : Text) :
    KeepsAll (.string terminated) remainder (.ok (.emit ((getStrings remainder).flatMap fun value =>
      value ++ if terminated then [0] else []))) ↔
      (DataType.string terminated).WellFormed remainder ∨
        (DataType.string terminated).Rejected remainder := by
  have hread : (consumeAll stringRe remainder.length remainder).mapM
      (fun value => (.ok (utf8 (expandEscapes value)) : Except Error (List UInt8))) =
        .ok (getStrings remainder) := List.mapM_pure
  show KeepsAll _ _ ((Except.ok (getStrings remainder) : Except Error _).map fun values =>
    .emit (values.flatMap fun value => value ++ if terminated then [0] else [])) ↔ _
  rw [keepsAll_map, ← hread]
  apply readValues_iff (stringRe_reads terminated)
  · intro item inner _
    simp [DataType.Refuses]
  · intro item inner value _ hvalue _
    cases hvalue
    rfl
  · exact fits_of_encodes

theorem readDirective_keepsAll {keyword : Keyword} (htype : keyword.dataType = some type)
    (s : State) (directive remainder : Text) :
    KeepsAll type remainder (readDirective s directive keyword remainder) ↔
      type.WellFormed remainder ∨ type.Rejected remainder := by
  cases keyword
  case bytes | short | ushort | word | uword | long | ulong | uchar =>
    cases htype
    exact integers_keepsAll _ _ _
  case char =>
    cases htype
    exact getChars_keepsAll remainder
  case string =>
    cases htype
    show KeepsAll _ _ (.ok (.emit (getStrings remainder).flatten)) ↔ _
    simpa using getStrings_keepsAll false remainder
  case cstring =>
    cases htype
    exact getStrings_keepsAll true remainder
  all_goals cases htype

/-- **Data directives.** A data directive keeps every value or returns an error exactly if it has a
    label outside of a section, if its text is a list of literals that its type can represent, or if
    a literal before the first malformed value is refused at the type at which values are read. -/
theorem keepsValues_iff (cfg : Config) (s : State) (address : UInt64)
    {line label directive remainder : Text} {keyword : Keyword} {type : DataType}
    (hline : asmLine line = some (label, directive))
    (hdirective : directiveLine directive = some (keyword, remainder))
    (htype : keyword.dataType = some type) :
    KeepsValues type remainder (parseAsmDirective cfg s line address) ↔
      label ≠ [] ∧ s.currentSection = none ∨ type.WellFormed remainder ∨
        type.Rejected remainder := by
  rw [← readDirective_keepsAll htype s directive remainder]
  unfold parseAsmDirective
  simp only [hline, hdirective]
  cases hread : readDirective s directive keyword remainder with
  | error e => exact iff_of_true (.inl ⟨e, rfl⟩) (.inr (.inl ⟨e, rfl⟩))
  | ok d =>
    have hkeeps : KeepsAll type remainder (.ok d) ↔ ∃ values encodings,
        Listed isSpace ',' type.Literal remainder values ∧
        List.Forall₂ type.Encodes values encodings ∧ d.bytes = encodings.flatten := by
      simp [KeepsAll]
    rw [hkeeps]
    by_cases hlabel : label = []
    · simp [KeepsValues, hlabel]
    · by_cases hsection : s.currentSection = none
      · simp [KeepsValues, hlabel, hsection]
      · simp [KeepsValues, hlabel, hsection]

theorem KeepsValues.listed {remainder : Text} {out : Outcome Unit}
    (h : KeepsValues type remainder out) (hok : out.status.isOk = true) :
    ∃ values encodings, Listed isSpace ',' type.Literal remainder values ∧
      List.Forall₂ type.Encodes values encodings ∧ out.bytes = encodings.flatten := by
  apply h.resolve_left
  rintro ⟨e, he⟩
  rw [he] at hok
  cases hok

/-- Two bytes, the second in hexadecimal. -/
def bytesLine : Text := ".bytes 1, 0xff".toList

theorem bytesLine_keepsValues :
    KeepsValues (.integer false 1) ['1', ',', ' ', '0', 'x', 'f', 'f']
      (parseAsmDirective ebreakConfig .initial bytesLine 0) := by
  have hline : asmLine bytesLine = some ([], bytesLine) := by decide +kernel
  have hdirective : directiveLine bytesLine =
      some (.bytes, ['1', ',', ' ', '0', 'x', 'f', 'f']) := by decide +kernel
  apply (keepsValues_iff ebreakConfig .initial 0 hline hdirective rfl).mpr
  refine .inr (.inl ⟨[['1'], ['0', 'x', 'f', 'f']], ?_, ?_⟩)
  · have hone : IsNumber ['1'] := .decimal (by decide) (List.all_eq_true.mp (by decide))
    have hhex : IsNumber ['0', 'x', 'f', 'f'] := .hex (by decide) (List.all_eq_true.mp (by decide))
    refine .more ⟨[], ['1'], [], rfl, within_nil, within_nil, rfl, hone⟩ (.last ?_) (by decide)
    exact ⟨[' '], _, [], rfl, List.all_eq_true.mp (by decide), within_nil, rfl, hhex⟩
  · intro number hnumber
    rcases List.mem_pair.mp hnumber with rfl | rfl
    · exact ⟨1, by decide, by simp [InRange]⟩
    · exact ⟨255, by decide, by simp [InRange]⟩

/-- The values behind a malformed one are dropped, and one that is too large is truncated. -/
theorem not_keepsValues :
    ¬KeepsValues (.integer false 1) "1, x, 3".toList
        (parseAsmDirective ebreakConfig .initial ".bytes 1, x, 3".toList 0) ∧
      ¬KeepsValues (.integer false 1) "256".toList
        (parseAsmDirective ebreakConfig .initial ".bytes 256".toList 0) := by
  have hreads := numberRe_reads false 1
  have hvisible := literal_visible (.integer false 1)
  constructor
  · intro h
    obtain ⟨values, encodings, hlisted, -, -⟩ := h.listed (by decide +kernel)
    have hvalues : [['1']] = values := readAll_listed hreads hvisible le_rfl hlisted
    subst hvalues
    -- The text is not the literal alone: the reader leaves something of it.
    exact absurd (hreads.last (listed_singleton.mp hlisted)) (by decide +kernel)
  · intro h
    obtain ⟨values, encodings, hlisted, hencodings, -⟩ := h.listed (by decide +kernel)
    have hvalues : ["256".toList] = values := readAll_listed hreads hvisible le_rfl hlisted
    subst hvalues
    obtain ⟨encoding, -, value, hvalue, hrange, -⟩ :=
      exists_of_forall₂ hencodings.flip (List.mem_singleton.mpr rfl)
    have h256 : numberValue "256".toList = some 256 := by decide +kernel
    obtain rfl := Option.some.inj (h256.symm.trans hvalue)
    simp [InRange] at hrange

end MpactSim.Asm
