import MpactSim.Decoder.Inheritance
import MpactSim.Decoder.OperandComparison

namespace MpactSim.Decoder

open Cpp Lib Overlay FormatState

/-!
# Promoted extractors

An extractor that a base format has after the promotion is meant to be right for all formats derived
from it.  The comparison that decides on the promotion never tells two fields apart, and it knows
overlays by their text, without signedness and width.

* `Definition`           — the bits of a field or overlay, and how they are read;
* `Offers`               — what a base format ends up with, in terms of the definitions below it;
* `held_iff_offers`      — the two passes do so;
* `promotion_sound_iff`  — when promoted extractors are right.
-/

/-! ### Definitions -/

/-- Where the bits of a value come from, how many there are, and what number they make. -/
structure Definition where
  isSigned : Bool
  width : Nat
  copies : Nat
  bit : (Nat → Bool) → Nat → Bool

/-- The number that a word has there. -/
def Definition.value (d : Definition) (w : Nat) : Int :=
  decodePattern d.isSigned d.width (Nat.ofBits fun j : Fin d.width => d.bit w.testBit j)

/-- A field is one range of bits; so is every copy of a format. -/
def FieldOrFormat.definition (c : FieldOrFormat) : Definition :=
  ⟨c.isSigned, c.width, c.size, fun u j => decide (j < c.width) && u (c.low.toNat + j)⟩

/-- An overlay is put together from ranges of bits and constants. -/
def Overlay.definition (o : Overlay) : Definition :=
  ⟨o.isSigned, o.declaredWidth, 1, fun u j => o.componentVec.any fun c => c.exact u j⟩

/-! ### Offers -/

section Promotion

variable {getFormat : String → Option Nat} {name : String}

/-- The fields and overlays of the name. -/
def AcceptedFormat.definitions (name : String) (fmt : AcceptedFormat getFormat) :
    List Definition :=
  (fmt.placed.filter fun c => c.isFormat = false ∧ c.name = name).map FieldOrFormat.definition ++
    (fmt.overlays.filter fun o => o.name = name).map fun o => o.overlay.definition

/-- What an extractor of a format is made for. -/
def FormatState.Held.definition : Held → Definition
  | .component x => x.entry.definition
  | .overlay o => o.overlay.definition

/-- What a base ends up with: a component, if no two that meet there differ and no overlay gets
    there; or an overlay, if no two that meet there differ and components do. -/
def Offers (name : String) (t : Rose (AcceptedFormat getFormat)) : Held → Prop
  | .component x => Alike Extractor.kind (metComponents name t) ∧
      (metComponents name t).head? = some x ∧ metOverlays name t = []
  | .overlay o => (metComponents name t = [] ∨ ¬ Alike Extractor.kind (metComponents name t)) ∧
      Alike NarrowOverlay.text (metOverlays name t) ∧ (metOverlays name t).head? = some o

/-- All fields and overlays of the name in the tree have one definition. -/
def AllDefine (name : String) (d : Definition) (t : Rose (AcceptedFormat getFormat)) : Prop :=
  ∀ s ∈ t.subtrees, ∀ d' ∈ s.value.definitions name, d' = d

/-- **The two passes.**  Every format has in the end what it offers. -/
theorem held_iff_offers {t : Rose (AcceptedFormat getFormat)} {r : Rose (FormatState getFormat)}
    (h : propagateExtractorsUp (t.map FormatState.init) = some r) (name : String) (x : Held) :
    r.value.settle.held name = some x ↔ Offers name t x := by
  obtain ⟨hcomponents, hoverlays⟩ := lookup_propagateExtractorsUp h name
  rw [held_settle, hcomponents, hoverlays]
  rcases summary_cases Extractor.kind (metComponents name t) with
    ⟨hc, hcs⟩ | ⟨c, hc, hcne, hchead, hcs⟩ | ⟨hc, hcne, hcs⟩ <;>
  rcases summary_cases NarrowOverlay.text (metOverlays name t) with
    ⟨ho, hos⟩ | ⟨o, ho, hone, hohead, hos⟩ | ⟨ho, hone, hos⟩ <;>
  rw [hcs, hos] <;> cases x <;> simp [Offers, *]

/-! ### Sound promotion -/

/-- Whatever a base has for the name is right for all formats of the tree that define the name. -/
def Sound (name : String) (b : Rose (FormatState getFormat)) : Prop :=
  ∀ x, b.value.held name = some x → ∀ s ∈ b.subtrees, ∀ d ∈ s.value.fmt.definitions name,
    d = x.definition ∧ ∀ w, x.definition.value w = d.value w

/-- A format below the base defines the name and has no extractor for it, nor has any in between. -/
def Used (name : String) (b : Rose (FormatState getFormat)) : Prop :=
  ∃ s, Rose.Below (fun s => (s.value.held name).isSome) b s ∧
    s.value.fmt.definitions name ≠ []

/-- A format below the base defines the name, and neither it nor one in between offers it. -/
def Needed (name : String) (t : Rose (AcceptedFormat getFormat)) : Prop :=
  ∃ s, Rose.Below (fun s => ∃ x, Offers name s x) t s ∧ s.value.definitions name ≠ []

theorem sound_iff {u : Rose (FormatState getFormat)}
    (hu : propagateExtractorsUp ((u.map FormatState.fmt).map FormatState.init) = some u) :
    Sound name (u.map FormatState.settle) ↔
    ∀ x, Offers name (u.map FormatState.fmt) x →
      AllDefine name x.definition (u.map FormatState.fmt) := by
  have hheld : ∀ x, (u.map FormatState.settle).value.held name = some x ↔
      Offers name (u.map FormatState.fmt) x := by
    intro x
    rw [Rose.value_map]
    exact held_iff_offers hu name x
  constructor
  · intro h x hx s hs d hd
    obtain ⟨s', hs', rfl⟩ := (Rose.mem_subtrees_map _).mp hs
    rw [Rose.value_map] at hd
    refine (h x ((hheld x).mpr hx) (s'.map FormatState.settle)
      ((Rose.mem_subtrees_map _).mpr ⟨s', hs', rfl⟩) d ?_).1
    rw [Rose.value_map]
    exact hd
  · intro h x hx s hs d hd
    obtain ⟨s', hs', rfl⟩ := (Rose.mem_subtrees_map _).mp hs
    rw [Rose.value_map] at hd
    have hdef : d = x.definition := h x ((hheld x).mp hx) (s'.map FormatState.fmt)
      ((Rose.mem_subtrees_map _).mpr ⟨s', hs', rfl⟩) d (by rw [Rose.value_map]; exact hd)
    exact ⟨hdef, fun w => by rw [hdef]⟩

theorem used_iff {u : Rose (FormatState getFormat)}
    (hu : propagateExtractorsUp ((u.map FormatState.fmt).map FormatState.init) = some u) :
    Used name (u.map FormatState.settle) ↔ Needed name (u.map FormatState.fmt) := by
  have hoffers : ∀ s ∈ u.subtrees, ((s.map FormatState.settle).value.held name).isSome ↔
      ∃ x, Offers name (s.map FormatState.fmt) x := by
    intro s hs
    rw [Option.isSome_iff_exists, Rose.value_map]
    exact exists_congr fun x =>
      held_iff_offers ((propagateExtractorsUp_subtrees hu).2 s hs) name x
  constructor
  · rintro ⟨s, hs, hdef⟩
    obtain ⟨s', hs', rfl⟩ := Rose.below_map.mp hs
    refine ⟨s'.map FormatState.fmt, Rose.below_map.mpr ⟨s', ?_, rfl⟩, ?_⟩
    · exact (Rose.below_congr hoffers).mp hs'
    · rw [Rose.value_map] at hdef ⊢
      exact hdef
  · rintro ⟨s, hs, hdef⟩
    obtain ⟨s', hs', rfl⟩ := Rose.below_map.mp hs
    refine ⟨s'.map FormatState.settle, Rose.below_map.mpr ⟨s', ?_, rfl⟩, ?_⟩
    · exact (Rose.below_congr hoffers).mpr hs'
    · rw [Rose.value_map] at hdef ⊢
      exact hdef

/-- **Promotion.**  Extractors that are used in place of those of derived formats are right exactly
    if the definitions of the name agree in every subtree in which one is offered and needed; and
    all extractors that bases have are right exactly if they agree wherever one is offered. -/
theorem promotion_sound_iff {t : Rose (AcceptedFormat getFormat)}
    {r : Rose (FormatState getFormat)} (h : propagateExtractors t = some r) (name : String) :
    ((∀ b ∈ r.subtrees, Used name b → Sound name b) ↔
      ∀ b ∈ t.subtrees, Needed name b → ∀ x, Offers name b x → AllDefine name x.definition b) ∧
    ((∀ b ∈ r.subtrees, Sound name b) ↔
      ∀ b ∈ t.subtrees, ∀ x, Offers name b x → AllDefine name x.definition b) := by
  obtain ⟨u, hu, rfl⟩ := Option.map_eq_some_iff.mp h
  obtain ⟨hfmt, hsubtrees⟩ := propagateExtractorsUp_subtrees hu
  subst hfmt
  have hforall : ∀ {P : Rose (FormatState getFormat) → Prop}
      {Q : Rose (AcceptedFormat getFormat) → Prop},
      (∀ s ∈ u.subtrees, P (s.map FormatState.settle) ↔ Q (s.map FormatState.fmt)) →
      ((∀ b ∈ (propagateExtractorsDown u).subtrees, P b) ↔
        ∀ b ∈ (u.map FormatState.fmt).subtrees, Q b) := by
    intro P Q hPQ
    simp only [propagateExtractorsDown, Rose.mem_subtrees_map]
    constructor
    · rintro hP _ ⟨s, hs, rfl⟩
      exact (hPQ s hs).mp (hP _ ⟨s, hs, rfl⟩)
    · rintro hQ _ ⟨s, hs, rfl⟩
      exact (hPQ s hs).mpr (hQ _ ⟨s, hs, rfl⟩)
  refine ⟨hforall fun s hs => ?_, hforall fun s hs => sound_iff (hsubtrees s hs)⟩
  exact imp_congr (used_iff (hsubtrees s hs)) (sound_iff (hsubtrees s hs))

/-! ### Two fields of one name -/

/-- A field of the upper bits, one of the lower bits, and a reference to another format. -/
def immWidths : String → Option Nat := fun name =>
  if name = "Word" ∨ name = "Left" then some 8 else if name = "Nibble" then some 4 else none

def wordFormat : AcceptedFormat immWidths where
  format := ⟨"Word", 8, "", [.field "all" false 8]⟩
  overlays := []
  placed := [.field ⟨"all", false, 7, 0, 8⟩]
  accepted := by decide
  complete := by simp

def leftFormat : AcceptedFormat immWidths where
  format := ⟨"Left", 8, "Word", [.field "imm" false 4, .field "rest" false 4]⟩
  overlays := []
  placed := [.field ⟨"imm", false, 7, 4, 4⟩, .field ⟨"rest", false, 3, 0, 4⟩]
  accepted := by decide
  complete := by simp

def nestedFormat : AcceptedFormat immWidths where
  format := ⟨"Nested", 8, "Left", [.format "imm" "Nibble" 1, .field "tail" false 4]⟩
  overlays := []
  placed := [.format "imm" 4 7 1, .field ⟨"tail", false, 3, 0, 4⟩]
  accepted := by decide
  complete := by simp

def rightFormat : AcceptedFormat immWidths where
  format := ⟨"Right", 8, "Word", [.field "head" false 4, .field "imm" false 4]⟩
  overlays := []
  placed := [.field ⟨"head", false, 7, 4, 4⟩, .field ⟨"imm", false, 3, 0, 4⟩]
  accepted := by decide
  complete := by simp

/-- `Left` is derived from `Word` and `Nested` from it; so is `Right` from `Word`. -/
def immTree : Rose (AcceptedFormat immWidths) :=
  .node wordFormat [.node leftFormat [.node nestedFormat []], .node rightFormat []]

theorem immTree_propagates : ∃ r, propagateExtractors immTree = some r :=
  Option.isSome_iff_exists.mp (by decide +kernel)

theorem imm_promotion : ∃ r, propagateExtractors immTree = some r ∧
    ((∀ b ∈ r.subtrees, Used "imm" b → Sound "imm" b) ↔
      ∀ b ∈ immTree.subtrees, Needed "imm" b →
        ∀ x, Offers "imm" b x → AllDefine "imm" x.definition b) ∧
    ((∀ b ∈ r.subtrees, Sound "imm" b) ↔
      ∀ b ∈ immTree.subtrees, ∀ x, Offers "imm" b x → AllDefine "imm" x.definition b) := by
  obtain ⟨r, hr⟩ := immTree_propagates
  exact ⟨r, hr, promotion_sound_iff hr "imm"⟩

/-- `Word` ends up with the field of `Right`, and `Left` with none: its own one was given up for
    the reference in `Nested`. -/
theorem imm_promoted_wrongly : ∃ r, propagateExtractors immTree = some r ∧
    r.value.held "imm" = some (.component ⟨.field ⟨"imm", false, 3, 0, 4⟩, ""⟩) ∧
    Used "imm" r ∧ ¬ Sound "imm" r ∧
    (FieldOrFormat.field ⟨"imm", false, 7, 4, 4⟩).definition ∈ leftFormat.definitions "imm" ∧
    (FieldOrFormat.field ⟨"imm", false, 7, 4, 4⟩).definition.value 0x50 = 5 ∧
    (FieldOrFormat.field ⟨"imm", false, 3, 0, 4⟩).definition.value 0x50 = 0 := by
  obtain ⟨r, hr⟩ := immTree_propagates
  obtain ⟨u, hu, rfl⟩ := Option.map_eq_some_iff.mp hr
  obtain ⟨hfmt, hsubtrees⟩ := propagateExtractorsUp_subtrees hu
  have hself := hsubtrees u (Rose.self_mem_subtrees u)
  have hoffers : Offers "imm" immTree (.component ⟨.field ⟨"imm", false, 3, 0, 4⟩, ""⟩) := by
    refine ⟨by decide, by decide, by decide⟩
  have hleft : (FieldOrFormat.field ⟨"imm", false, 7, 4, 4⟩).definition ∈
      leftFormat.definitions "imm" := List.mem_cons_self
  have hdiffer : (FieldOrFormat.field ⟨"imm", false, 7, 4, 4⟩).definition.value 0x50 = 5 ∧
      (FieldOrFormat.field ⟨"imm", false, 3, 0, 4⟩).definition.value 0x50 = 0 := by decide
  refine ⟨propagateExtractorsDown u, hr, ?_, ?_, ?_, hleft, hdiffer⟩
  · rw [propagateExtractorsDown, Rose.value_map]
    exact (held_iff_offers hu "imm" _).mpr hoffers
  · refine (used_iff hself).mpr ?_
    rw [hfmt]
    refine ⟨_, .child List.mem_cons_self ?_, List.ne_nil_of_mem hleft⟩
    rintro ⟨x | o, h⟩
    · exact absurd h.1 (by decide)
    · have hnone : metOverlays "imm" (.node leftFormat [.node nestedFormat []]) = [] := by decide
      rw [Offers, hnone] at h
      cases h.2.2
  · intro h
    have hall := (sound_iff hself).mp h
    rw [hfmt] at hall
    have hdef := hall _ hoffers (.node leftFormat [.node nestedFormat []])
      (Rose.mem_subtrees.mpr (.inr ⟨_, List.mem_cons_self, Rose.self_mem_subtrees _⟩)) _ hleft
    have hvalue := hdiffer.1
    rw [hdef] at hvalue
    exact absurd (hvalue.symm.trans hdiffer.2) (by decide)

end Promotion

end MpactSim.Decoder
