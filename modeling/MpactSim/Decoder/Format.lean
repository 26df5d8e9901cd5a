import MpactSim.Cpp.Expr
import MpactSim.Lib.Monad

namespace MpactSim.Decoder

open Cpp Lib

/-!
# Formats: the layout of a format's components

A format lists fields and references to other formats from its most significant bit
down.  `Format.computeAndCheckFormatWidth` gives each of them its position and rejects
a format whose components do not add up to its declared width.

* `Component` is what the parser adds to a format, `FieldOrFormat` the same entry once
  it has been placed;
* `placed_bounds` says where an accepted format puts its components.
-/

/-! ### Data model -/

/-- A named field with its position in the format. -/
structure Field where
  name : String
  isSigned : Bool
  high : Int
  low : Int
  width : Nat
  deriving DecidableEq, Repr

/-- An entry of a format as it is declared: `AddField` or `AddFormatReferenceField`. -/
inductive Component where
  | field (name : String) (isSigned : Bool) (width : Nat)
  | format (formatAlias formatName : String) (size : Nat)
  deriving DecidableEq, Repr

/-- A placed entry: a field, or `size` copies of a format of the given width with the
    most significant bit at `high`. -/
inductive FieldOrFormat where
  | field (field : Field)
  | format (formatAlias : String) (width : Nat) (high : Int) (size : Nat)
  deriving DecidableEq, Repr

/-- A format as the parser leaves it. -/
structure Format where
  name : String
  declaredWidth : Nat
  baseFormatName : String
  components : List Component
  deriving DecidableEq, Repr

namespace FieldOrFormat

/-- Width of the field, or of one copy of the referenced format. -/
def width : FieldOrFormat → Nat
  | .field f => f.width
  | .format _ w _ _ => w

/-- Position of the least significant bit, of the first copy for a format. -/
def low : FieldOrFormat → Int
  | .field f => f.low
  | .format _ w high _ => high - w + 1

/-- Number of copies. -/
def size : FieldOrFormat → Nat
  | .field _ => 1
  | .format _ _ _ size => size

/-- Only a field can be signed. -/
def isSigned : FieldOrFormat → Bool
  | .field f => f.isSigned
  | .format .. => false

/-- Whether the entry is a reference to another format. -/
def isFormat : FieldOrFormat → Bool
  | .field _ => false
  | .format .. => true

end FieldOrFormat

/-! ### `ComputeAndCheckFormatWidth` -/

namespace Format

/-- The loop over the components.  `computed` is the width placed so far. -/
def placeComponents (fmt : Format) (getFormat : String → Option Nat) :
    List Component → Nat → Except String (List FieldOrFormat × Nat)
  | [], computed => .ok ([], computed)
  | .field name isSigned width :: rest, computed => do
    let high : Int := fmt.declaredWidth - computed - 1
    let (placed, total) ← fmt.placeComponents getFormat rest (computed + width)
    return (.field ⟨name, isSigned, high, high - width + 1, width⟩ :: placed, total)
  | .format formatAlias formatName size :: rest, computed => do
    match getFormat formatName with
    | none => .error s!"Format '{fmt.name}' refers to undefined format {formatName}"
    | some width =>
      let high : Int := fmt.declaredWidth - computed - 1
      let (placed, total) ← fmt.placeComponents getFormat rest (computed + width * size)
      return (.format formatAlias width high size :: placed, total)

/-- The check against the base format, if one is named. -/
def checkBaseFormat (fmt : Format) (getFormat : String → Option Nat) : Except String Unit :=
  if fmt.baseFormatName = "" then .ok ()
  else match getFormat fmt.baseFormatName with
    | none => .error s!"Format {fmt.name} refers to undefined base format {fmt.baseFormatName}"
    | some width =>
      if width ≠ fmt.declaredWidth then
        .error (s!"Format {fmt.name} ({fmt.declaredWidth}) differs in width from base format "
          ++ s!"{fmt.baseFormatName} ({width})")
      else .ok ()

/-- Look up the base format, place the components and compare the widths.
    `getFormat` gives the declared width of a format by name. -/
def computeAndCheckFormatWidth (fmt : Format) (getFormat : String → Option Nat) :
    Except String (List FieldOrFormat) := do
  fmt.checkBaseFormat getFormat
  let (placed, computed) ← fmt.placeComponents getFormat fmt.components 0
  if computed ≠ fmt.declaredWidth then
    .error (s!"Format '{fmt.name}' declared width ({fmt.declaredWidth}) differs from computed "
      ++ s!"width ({computed})")
  else .ok placed

/-! ### Bounds on positions -/

/-- Where an entry lies in a format of width `total` when `computed` bits precede it. -/
def InBounds (total computed : Nat) (c : FieldOrFormat) : Prop :=
  c.low + c.width + computed ≤ total ∧ (c.size = 1 → 0 ≤ c.low)

/-- The loop only adds width, and every entry it places lies below what was placed
    before it and above the end of the format. -/
theorem placeComponents_bounds {fmt : Format} {getFormat : String → Option Nat}
    {comps : List Component} {computed : Nat} {placed : List FieldOrFormat} {total : Nat}
    (h : fmt.placeComponents getFormat comps computed = .ok (placed, total))
    (htotal : total = fmt.declaredWidth) :
    computed ≤ total ∧ ∀ c ∈ placed, InBounds total computed c := by
  induction comps generalizing computed placed total with
  | nil =>
    simp only [placeComponents, Except.ok.injEq, Prod.mk.injEq] at h
    obtain ⟨rfl, rfl⟩ := h
    simp
  | cons comp rest ih =>
    -- Both kinds of entry place the rest first and then put themselves on top.
    cases comp with
    | field name isSigned width =>
      simp only [placeComponents] at h
      obtain ⟨⟨tail, t⟩, hrest, h⟩ := bind_eq_ok.mp h
      cases h
      obtain ⟨hle, htail⟩ := ih hrest htotal
      refine ⟨by omega, fun c hc => ?_⟩
      rcases List.mem_cons.mp hc with rfl | hc
      · simp only [InBounds, FieldOrFormat.low, FieldOrFormat.width]
        omega
      · have := htail c hc
        simp only [InBounds] at this ⊢
        omega
    | format formatAlias formatName size =>
      simp only [placeComponents] at h
      cases hfmt : getFormat formatName with
      | none => rw [hfmt] at h; cases h
      | some width =>
        rw [hfmt] at h
        obtain ⟨⟨tail, t⟩, hrest, h⟩ := bind_eq_ok.mp h
        cases h
        obtain ⟨hle, htail⟩ := ih hrest htotal
        have hcopies : computed ≤ computed + width * size := Nat.le_add_right _ _
        refine ⟨by omega, fun c hc => ?_⟩
        rcases List.mem_cons.mp hc with rfl | hc
        · simp only [InBounds, FieldOrFormat.low, FieldOrFormat.width, FieldOrFormat.size]
          refine ⟨by omega, fun hone => ?_⟩
          rw [hone, Nat.mul_one] at hle
          omega
        · have := htail c hc
          simp only [InBounds] at this ⊢
          omega

/-- **Layout.** In an accepted format every entry ends inside the format, and one that
    is not replicated starts inside it as well. -/
theorem placed_bounds {fmt : Format} {getFormat : String → Option Nat}
    {placed : List FieldOrFormat} (h : fmt.computeAndCheckFormatWidth getFormat = .ok placed)
    {c : FieldOrFormat} (hc : c ∈ placed) (hsize : c.size = 1) :
    0 ≤ c.low ∧ c.low + c.width ≤ fmt.declaredWidth := by
  obtain ⟨-, -, h⟩ := bind_eq_ok.mp h
  obtain ⟨⟨placed', computed⟩, hplace, h⟩ := bind_eq_ok.mp h
  obtain ⟨hw, h⟩ := ite_error_eq_ok.mp h
  cases h
  rw [not_not] at hw
  obtain ⟨-, hall⟩ := placeComponents_bounds hplace hw
  obtain ⟨hhigh, hlow⟩ := hall c hc
  exact ⟨hlow hsize, by omega⟩

end Format

end MpactSim.Decoder
