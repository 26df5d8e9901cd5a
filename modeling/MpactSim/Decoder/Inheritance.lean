import Mathlib.Data.List.AList
import MpactSim.Decoder.OverlayExtract
import MpactSim.Lib.Rose

namespace MpactSim.Decoder

open Cpp Lib

/-!
# Extractors in the inheritance tree

The extractors of a format are generated in a namespace of its own.  Those of derived formats are
entered at the base format as well; a null pointer stands for an extractor that cannot be promoted.

* `Extractor.same`, `Overlay.same` — the equality of fields, formats and overlays;
* `propagateExtractorsUp`, `propagateExtractorsDown` — the two passes;
* `lookup_up`    — what the first pass leaves at a format;
* `held_settle`  — what the second pass keeps of it.

`none` is an undefined shift of the generator.
-/

/-! ### Formats and their extractors -/

/-- `format_name_` of a component. -/
def Component.formatName : Component → String
  | .field .. => ""
  | .format _ formatName _ => formatName

/-- The name of the field, or the alias of the format. -/
def FieldOrFormat.name : FieldOrFormat → String
  | .field f => f.name
  | .format formatAlias .. => formatAlias

/-- A component of a format as an extractor is made for it. -/
structure Extractor where
  entry : FieldOrFormat
  formatName : String
  deriving DecidableEq, Repr

namespace Extractor

def name (x : Extractor) : String := x.entry.name

/-- `high_`.  Only a format is given one; the position of a field is kept in the field. -/
def high (x : Extractor) : Int :=
  match x.entry with
  | .field _ => 0
  | .format _ _ high _ => high

/-- `size_`, which only formats are constructed with. -/
def size (x : Extractor) : Nat :=
  match x.entry with
  | .field _ => 0
  | .format _ _ _ size => size

/-- `FieldOrFormat::operator==`.  A format is known by its name. -/
def same (a b : Extractor) : Bool :=
  if a.entry.isFormat ≠ b.entry.isFormat then false
  else if a.entry.isFormat = false then
    if a.high ≠ b.high then false else if a.size ≠ b.size then false else true
  else if a.formatName ≠ b.formatName then false else true

/-- `FieldOrFormat::operator!=`. -/
def differs (a b : Extractor) : Option Bool := some (!a.same b)

end Extractor

/-- `Overlay::operator==`: the extractions are the same text. -/
def Overlay.same (a b : Overlay) : Option Bool :=
  if a.declaredWidth > 64 then
    some (decide (a.writeComplexValueExtractor = b.writeComplexValueExtractor))
  else do
    return decide ((← a.writeSimpleValueExtractor (.var "value")) =
      (← b.writeSimpleValueExtractor (.var "value")))

/-- An overlay as it is accepted: of at most 64 bits. -/
structure NarrowOverlay where
  overlay : Overlay
  narrow : overlay.declaredWidth ≤ 64
  deriving DecidableEq, Repr

namespace NarrowOverlay

def name (o : NarrowOverlay) : String := o.overlay.name

/-- `Overlay::operator!=`. -/
def differs (a b : NarrowOverlay) : Option Bool := (a.overlay.same b.overlay).map (!·)

end NarrowOverlay

/-- A format that has been checked, with its overlays. -/
structure AcceptedFormat (getFormat : String → Option Nat) where
  format : Format
  overlays : List NarrowOverlay
  placed : List FieldOrFormat
  accepted : format.computeAndCheckFormatWidth getFormat = .ok placed
  complete : ∀ o ∈ overlays, o.overlay.Of format placed ∧
    o.overlay.declaredWidth = o.overlay.computedWidth

/-- The components of a format. -/
def AcceptedFormat.components {getFormat : String → Option Nat} (fmt : AcceptedFormat getFormat) :
    List Extractor :=
  fmt.format.components.zipWith (fun c placed => ⟨placed, c.formatName⟩) fmt.placed

/-! ### Maps of extractors -/

/-- A map from names to pointers; `none` is a null pointer. -/
abbrev PointerMap (α : Type) := AList fun _ : String => Option α

section Maps

variable {α β : Type}

/-- `insert`, for all elements of a list.  A name that is there already keeps its pointer. -/
def insertAll (name : α → String) (l : List α) : PointerMap α :=
  l.foldl (fun m x => if name x ∈ m then m else m.insert (name x) (some x)) ∅

/-- One loop of `PropagateExtractorsUp`. -/
def promote (differs : α → α → Option Bool) (child base : PointerMap α) :
    Option (PointerMap α) :=
  child.entries.foldlM (fun base entry =>
    match entry.2 with
    | none => some base
    | some e =>
      match base.lookup entry.1 with
      | none => some (base.insert entry.1 (some e))
      | some none => some base
      | some (some b) =>
        (differs e b).map fun d => if d then base.insert entry.1 none else base) base

/-- An entry in a loop of `PropagateExtractorsDown`: a null pointer is dropped, and a name that is
    in the other map too is dropped from both. -/
def dropEntry (m : PointerMap α × PointerMap β) (entry : Sigma fun _ : String => Option α) :
    PointerMap α × PointerMap β :=
  if entry.2.isNone then (m.1.erase entry.1, m.2)
  else if entry.1 ∈ m.2 then (m.1.erase entry.1, m.2.erase entry.1)
  else m

/-- One loop of `PropagateExtractorsDown`, over the first map. -/
def dropEntries (mine : PointerMap α) (other : PointerMap β) : PointerMap α × PointerMap β :=
  mine.entries.foldl dropEntry (mine, other)

end Maps

/-! ### The passes -/

/-- A format with `extractors_` and `overlay_extractors_`. -/
structure FormatState (getFormat : String → Option Nat) where
  fmt : AcceptedFormat getFormat
  extractors : PointerMap Extractor
  overlayExtractors : PointerMap NarrowOverlay

section Passes

variable {getFormat : String → Option Nat}

namespace FormatState

/-- The maps as `ComputeAndCheckFormatWidth` fills them. -/
def init (fmt : AcceptedFormat getFormat) : FormatState getFormat :=
  ⟨fmt, insertAll Extractor.name fmt.components, insertAll NarrowOverlay.name fmt.overlays⟩

/-- `PropagateExtractorsUp` at one format, with its base. -/
def promoteTo (child base : FormatState getFormat) : Option (FormatState getFormat) := do
  let extractors ← promote Extractor.differs child.extractors base.extractors
  let overlayExtractors ← promote NarrowOverlay.differs child.overlayExtractors
    base.overlayExtractors
  return { base with extractors := extractors, overlayExtractors := overlayExtractors }

/-- `PropagateExtractorsDown` at one format. -/
def settle (s : FormatState getFormat) : FormatState getFormat :=
  let first := dropEntries s.extractors s.overlayExtractors
  let second := dropEntries first.2 first.1
  { s with extractors := second.2, overlayExtractors := second.1 }

end FormatState

mutual

/-- `PropagateExtractorsUp`. -/
def propagateExtractorsUp :
    Rose (FormatState getFormat) → Option (Rose (FormatState getFormat))
  | .node s derived => (propagateDerived s derived).map fun r => .node r.1 r.2

/-- Its loop over the derived formats: each is promoted to the base as soon as it is done. -/
def propagateDerived (s : FormatState getFormat) : List (Rose (FormatState getFormat)) →
    Option (FormatState getFormat × List (Rose (FormatState getFormat)))
  | [] => some (s, [])
  | t :: rest => do
    let t ← propagateExtractorsUp t
    let s ← t.value.promoteTo s
    let (s, rest) ← propagateDerived s rest
    return (s, t :: rest)

end

/-- `PropagateExtractorsDown`. -/
def propagateExtractorsDown (t : Rose (FormatState getFormat)) : Rose (FormatState getFormat) :=
  t.map FormatState.settle

/-- `PropagateExtractors`, for a format without base and those derived from it. -/
def propagateExtractors (t : Rose (AcceptedFormat getFormat)) :
    Option (Rose (FormatState getFormat)) :=
  (propagateExtractorsUp (t.map FormatState.init)).map propagateExtractorsDown

end Passes

/-! ### Equality by keys -/

/-- What the equality of fields and formats depends on. -/
def Extractor.kind (x : Extractor) : Option (Option String) :=
  some (if x.entry.isFormat then some x.formatName else none)

/-- What the equality of overlays depends on. -/
def NarrowOverlay.text (o : NarrowOverlay) : Option (List Expr) :=
  o.overlay.writeSimpleValueExtractor (.var "value")

theorem Extractor.differs_eq (a b : Extractor) : a.differs b = keysDiffer Extractor.kind a b := by
  obtain ⟨entry, formatName⟩ := a
  obtain ⟨entry', formatName'⟩ := b
  cases entry <;> cases entry' <;>
    simp [Extractor.differs, Extractor.same, Extractor.kind, keysDiffer, FieldOrFormat.isFormat,
      Extractor.high, Extractor.size]

theorem NarrowOverlay.differs_eq (a b : NarrowOverlay) :
    a.differs b = keysDiffer NarrowOverlay.text a b := by
  rw [NarrowOverlay.differs, Overlay.same, if_neg (not_lt.mpr a.narrow), keysDiffer,
    NarrowOverlay.text, NarrowOverlay.text]
  cases a.overlay.writeSimpleValueExtractor (.var "value") with
  | none => rfl
  | some ta =>
    cases b.overlay.writeSimpleValueExtractor (.var "value") with
    | none => rfl
    | some tb => simp

/-! ### What is found under a name -/

section Lookup

variable {α β : Type}

theorem lookup_insertAll (key : α → String) (l : List α) (name : String) :
    (insertAll key l).lookup name = (l.find? fun x => key x = name).map some := by
  have hfold : ∀ (l : List α) (m : PointerMap α),
      (l.foldl (fun m x => if key x ∈ m then m else m.insert (key x) (some x)) m).lookup name =
        (m.lookup name).or ((l.find? fun x => key x = name).map some) := by
    intro l
    induction l with
    | nil => simp
    | cons x rest ih =>
      intro m
      rw [List.foldl_cons, ih, List.find?_cons]
      by_cases hname : key x = name
      · subst hname
        rw [decide_eq_true rfl]
        split
        · next hmem =>
          obtain ⟨p, hp⟩ := Option.isSome_iff_exists.mp (AList.lookup_isSome.mpr hmem)
          rw [hp, Option.some_or, Option.some_or]
        · next hmem =>
          rw [AList.lookup_insert, AList.lookup_eq_none.mpr hmem]
          rfl
      · rw [decide_eq_false hname]
        split
        · rfl
        · rw [AList.lookup_insert_ne (Ne.symm hname)]
  rw [insertAll, hfold, AList.lookup_empty]
  rfl

/-- What the loop does for one entry, at the name of the entry and elsewhere. -/
theorem promoteStep_lookup {differs : α → α → Option Bool} {base base' : PointerMap α}
    {k : String} {p : Option α}
    (h : (match p with
      | none => some base
      | some e =>
        match base.lookup k with
        | none => some (base.insert k (some e))
        | some none => some base
        | some (some b) => (differs e b).map fun d => if d then base.insert k none else base) =
          some base') :
    join differs (some p) (base.lookup k) = some (base'.lookup k) ∧
      ∀ name ≠ k, base'.lookup name = base.lookup name := by
  cases p with
  | none =>
    cases h
    exact ⟨rfl, fun _ _ => rfl⟩
  | some e =>
    cases hbase : base.lookup k with
    | none =>
      simp only [hbase] at h
      cases h
      exact ⟨by rw [AList.lookup_insert]; rfl, fun name hname => AList.lookup_insert_ne hname⟩
    | some q =>
      cases q with
      | none =>
        simp only [hbase] at h
        cases h
        exact ⟨by rw [hbase]; rfl, fun _ _ => rfl⟩
      | some b =>
        simp only [hbase] at h
        obtain ⟨d, hd, rfl⟩ := Option.map_eq_some_iff.mp h
        rw [join, hd, Option.map_some]
        cases d with
        | true =>
          exact ⟨by rw [if_pos rfl, if_pos rfl, AList.lookup_insert], fun name hname => by
            rw [if_pos rfl, AList.lookup_insert_ne hname]⟩
        | false => exact ⟨by simp [hbase], fun name _ => by simp⟩

theorem lookup_promote {differs : α → α → Option Bool} {child base m : PointerMap α}
    (h : promote differs child base = some m) (name : String) :
    join differs (child.lookup name) (base.lookup name) = some (m.lookup name) := by
  obtain ⟨entries, hnodup⟩ := child
  rw [promote] at h
  change join differs (entries.dlookup name) _ = _
  replace h : entries.foldlM _ base = some m := h
  induction entries generalizing base with
  | nil =>
    cases h
    rfl
  | cons entry rest ih =>
    obtain ⟨k, p⟩ := entry
    obtain ⟨hk, hrest⟩ := List.nodupKeys_cons.mp hnodup
    rw [List.foldlM_cons] at h
    obtain ⟨base', hstep, h⟩ := Option.bind_eq_some_iff.mp h
    have hih := ih hrest h
    obtain ⟨hat, helse⟩ := promoteStep_lookup hstep
    by_cases hname : name = k
    · subst hname
      rw [List.dlookup_eq_none.mpr hk] at hih
      rw [List.dlookup_cons_eq, hat]
      exact hih
    · rw [List.dlookup_cons_ne _ _ hname, ← helse name hname]
      exact hih

theorem dropEntry_of_ne (m : PointerMap α × PointerMap β) {k name : String} (hname : name ≠ k)
    (p : Option α) : (dropEntry m ⟨k, p⟩).1.lookup name = m.1.lookup name ∧
      (dropEntry m ⟨k, p⟩).2.lookup name = m.2.lookup name := by
  rw [dropEntry]
  split_ifs <;> simp only [AList.lookup_erase_ne hname, and_self]

theorem dropEntry_at (m : PointerMap α × PointerMap β) (k : String) (p : Option α) :
    (dropEntry m ⟨k, p⟩).1.lookup k =
        (match p, m.2.lookup k with
          | some _, none => m.1.lookup k
          | _, _ => none) ∧
      (dropEntry m ⟨k, p⟩).2.lookup k =
        (match p with
          | some _ => none
          | none => m.2.lookup k) := by
  cases p with
  | none => exact ⟨AList.lookup_erase k m.1, rfl⟩
  | some e =>
    rw [dropEntry, if_neg (by simp)]
    by_cases hmem : k ∈ m.2
    · obtain ⟨o, ho⟩ := Option.isSome_iff_exists.mp (AList.lookup_isSome.mpr hmem)
      rw [if_pos hmem, ho]
      exact ⟨AList.lookup_erase k m.1, AList.lookup_erase k m.2⟩
    · rw [if_neg hmem, AList.lookup_eq_none.mpr hmem]
      exact ⟨rfl, rfl⟩

theorem lookup_foldl_dropEntry (rest : List (Sigma fun _ : String => Option α))
    (hnodup : rest.NodupKeys) (m : PointerMap α × PointerMap β) (name : String) :
    (rest.foldl dropEntry m).1.lookup name =
        (match rest.dlookup name, m.2.lookup name with
          | none, _ => m.1.lookup name
          | some (some _), none => m.1.lookup name
          | _, _ => none) ∧
      (rest.foldl dropEntry m).2.lookup name =
        (match rest.dlookup name with
          | some (some _) => none
          | _ => m.2.lookup name) := by
  induction rest generalizing m with
  | nil => exact ⟨rfl, rfl⟩
  | cons entry rest ih =>
    obtain ⟨k, p⟩ := entry
    obtain ⟨hk, hrest⟩ := List.nodupKeys_cons.mp hnodup
    obtain ⟨hfirst, hsecond⟩ := ih hrest (dropEntry m ⟨k, p⟩)
    rw [List.foldl_cons, hfirst, hsecond]
    by_cases hname : name = k
    · subst hname
      obtain ⟨hat, hat'⟩ := dropEntry_at m name p
      rw [List.dlookup_eq_none.mpr hk, List.dlookup_cons_eq, hat, hat']
      cases p <;> cases m.2.lookup name <;> exact ⟨rfl, rfl⟩
    · obtain ⟨helse, helse'⟩ := dropEntry_of_ne m hname p
      rw [List.dlookup_cons_ne _ _ hname, helse, helse']
      exact ⟨rfl, rfl⟩

theorem lookup_dropEntries (mine : PointerMap α) (other : PointerMap β) (name : String) :
    (dropEntries mine other).1.lookup name =
        (match mine.lookup name, other.lookup name with
          | some (some x), none => some (some x)
          | _, _ => none) ∧
      (dropEntries mine other).2.lookup name =
        (match mine.lookup name with
          | some (some _) => none
          | _ => other.lookup name) := by
  obtain ⟨hfirst, hsecond⟩ :=
    lookup_foldl_dropEntry mine.entries mine.nodupKeys (mine, other) name
  rw [dropEntries, hfirst, hsecond]
  have hlookup : mine.entries.dlookup name = mine.lookup name := rfl
  rw [hlookup]
  cases mine.lookup name with
  | none => exact ⟨rfl, rfl⟩
  | some p => cases p <;> cases other.lookup name <;> exact ⟨rfl, rfl⟩

end Lookup

/-! ### The passes at a name -/

section Passes

variable {getFormat : String → Option Nat}

/-- The first component of the name. -/
def AcceptedFormat.component (name : String) (fmt : AcceptedFormat getFormat) : Option Extractor :=
  fmt.components.find? fun x => x.name = name

/-- The overlay of the name. -/
def AcceptedFormat.overlay (name : String) (fmt : AcceptedFormat getFormat) :
    Option NarrowOverlay :=
  fmt.overlays.find? fun o => o.name = name

/-- The components of the name that meet at a format. -/
def metComponents (name : String) (t : Rose (AcceptedFormat getFormat)) : List Extractor :=
  t.counting (AcceptedFormat.component name) Extractor.kind

/-- The overlays of the name that meet at a format. -/
def metOverlays (name : String) (t : Rose (AcceptedFormat getFormat)) : List NarrowOverlay :=
  t.counting (AcceptedFormat.overlay name) NarrowOverlay.text

namespace FormatState

/-- An extractor of either kind. -/
inductive Held where
  | component (x : Extractor)
  | overlay (o : NarrowOverlay)
  deriving DecidableEq, Repr

/-- The extractor that a format has for a name, as `HasExtract` and `HasOverlayExtract` see it. -/
def held (s : FormatState getFormat) (name : String) : Option Held :=
  match s.extractors.lookup name with
  | some (some x) => some (.component x)
  | _ =>
    match s.overlayExtractors.lookup name with
    | some (some o) => some (.overlay o)
    | _ => none

/-- A pointer of one kind is kept unless the name is also in the other map, or at least, for an
    overlay, as another pointer than null. -/
theorem held_settle (s : FormatState getFormat) (name : String) :
    s.settle.held name =
      match s.extractors.lookup name, s.overlayExtractors.lookup name with
      | some (some x), none => some (.component x)
      | some (some _), some _ => none
      | _, some (some o) => some (.overlay o)
      | _, _ => none := by
  obtain ⟨hfirst, hfirst'⟩ := lookup_dropEntries s.extractors s.overlayExtractors name
  obtain ⟨hsecond, hsecond'⟩ := lookup_dropEntries
    (dropEntries s.extractors s.overlayExtractors).2
    (dropEntries s.extractors s.overlayExtractors).1 name
  rw [hfirst, hfirst'] at hsecond hsecond'
  rw [held, show s.settle.extractors.lookup name = _ from hsecond',
    show s.settle.overlayExtractors.lookup name = _ from hsecond]
  cases s.extractors.lookup name with
  | none =>
    cases s.overlayExtractors.lookup name with
    | none => rfl
    | some o => cases o <;> rfl
  | some p =>
    cases p <;> cases s.overlayExtractors.lookup name with
    | none => rfl
    | some o => cases o <;> rfl

theorem promoteTo_spec {child base s : FormatState getFormat} (h : child.promoteTo base = some s) :
    s.fmt = base.fmt ∧
      promote Extractor.differs child.extractors base.extractors = some s.extractors ∧
      promote NarrowOverlay.differs child.overlayExtractors base.overlayExtractors =
        some s.overlayExtractors := by
  obtain ⟨extractors, he, h⟩ := Option.bind_eq_some_iff.mp h
  obtain ⟨overlayExtractors, ho, h⟩ := Option.bind_eq_some_iff.mp h
  cases h
  exact ⟨rfl, he, ho⟩

theorem init_lookup (fmt : AcceptedFormat getFormat) (name : String) :
    (init fmt).extractors.lookup name = summary Extractor.kind (AcceptedFormat.component name fmt).toList ∧
      (init fmt).overlayExtractors.lookup name =
        summary NarrowOverlay.text (AcceptedFormat.overlay name fmt).toList := by
  have hsingle : ∀ {β κ : Type} [DecidableEq κ] (key : β → Option κ) (o : Option β),
      o.map some = summary key o.toList := by
    intro β κ _ key o
    cases o with
    | none => rfl
    | some b =>
      refine (summary_of_alike fun a ha a' ha' => ?_).symm
      rw [List.mem_singleton.mp ha, List.mem_singleton.mp ha']
  exact ⟨(lookup_insertAll ..).trans (hsingle _ _), (lookup_insertAll ..).trans (hsingle _ _)⟩

end FormatState

variable {s s' : FormatState getFormat} {ts : List (Rose (FormatState getFormat))}
  {r : Rose (FormatState getFormat)}

theorem propagateDerived_spec {ts' : List (Rose (FormatState getFormat))}
    (h : propagateDerived s ts = some (s', ts')) :
    List.Forall₂ (fun t t' => propagateExtractorsUp t = some t') ts ts' ∧
      ts'.foldlM (fun s t => t.value.promoteTo s) s = some s' := by
  induction ts generalizing s ts' with
  | nil =>
    cases h
    exact ⟨.nil, rfl⟩
  | cons t rest ih =>
    rw [propagateDerived] at h
    obtain ⟨t', ht, h⟩ := Option.bind_eq_some_iff.mp h
    obtain ⟨base, hbase, h⟩ := Option.bind_eq_some_iff.mp h
    obtain ⟨⟨s'', rest'⟩, hrest, h⟩ := Option.bind_eq_some_iff.mp h
    cases h
    obtain ⟨hall, hfold⟩ := ih hrest
    refine ⟨.cons ht hall, ?_⟩
    rw [List.foldlM_cons, hbase]
    exact hfold

theorem propagateExtractorsUp_node (h : propagateExtractorsUp (.node s ts) = some r) :
    List.Forall₂ (fun t t' => propagateExtractorsUp t = some t') ts r.children ∧
      r.children.foldlM (fun s t => t.value.promoteTo s) s = some r.value := by
  rw [propagateExtractorsUp] at h
  obtain ⟨r', hr, rfl⟩ := Option.map_eq_some_iff.mp h
  exact propagateDerived_spec hr

theorem foldlM_promoteTo_fmt (h : ts.foldlM (fun s t => t.value.promoteTo s) s = some s') :
    s'.fmt = s.fmt :=
  foldlM_invariant (fun a => a.fmt = s.fmt)
    (fun _ _ _ _ ha hstep => (FormatState.promoteTo_spec hstep).1.trans ha) h rfl

/-- The first pass keeps the formats in their places, and what it does in a subtree does not depend
    on the rest of the tree. -/
theorem propagateExtractorsUp_subtrees {t : Rose (AcceptedFormat getFormat)}
    (h : propagateExtractorsUp (t.map FormatState.init) = some r) :
    r.map FormatState.fmt = t ∧ ∀ s ∈ r.subtrees,
      propagateExtractorsUp ((s.map FormatState.fmt).map FormatState.init) = some s := by
  induction t using Rose.induct generalizing r with
  | node fmt ts ih =>
    have hup := h
    rw [Rose.map_node] at h
    obtain ⟨hall, hfold⟩ := propagateExtractorsUp_node h
    rw [List.forall₂_map_left_iff] at hall
    have hfmt : r.map FormatState.fmt = .node fmt ts := by
      rw [← r.node_eta, Rose.map_node, foldlM_promoteTo_fmt hfold,
        map_eq_of_forall₂ hall fun t ht c hc => (ih t ht hc).1]
      rfl
    refine ⟨hfmt, fun s hs => ?_⟩
    rcases Rose.mem_subtrees.mp hs with rfl | ⟨c, hc, hs⟩
    · rw [hfmt]
      exact hup
    · obtain ⟨t, ht, htc⟩ := exists_of_forall₂ hall hc
      exact (ih t ht htc).2 s hs

/-- The maps of a base after those of its derived formats have been promoted one after the other. -/
theorem lookup_foldlM_promoteTo {name : String} {ts : List (Rose (AcceptedFormat getFormat))}
    {ts' : List (Rose (FormatState getFormat))} (hts : List.Forall₂ (fun t t' =>
      t'.value.extractors.lookup name = summary Extractor.kind (metComponents name t) ∧
        t'.value.overlayExtractors.lookup name = summary NarrowOverlay.text (metOverlays name t))
      ts ts') (h : ts'.foldlM (fun s t => t.value.promoteTo s) s = some s') {xs : List Extractor}
    {os : List NarrowOverlay} (hxs : s.extractors.lookup name = summary Extractor.kind xs)
    (hos : s.overlayExtractors.lookup name = summary NarrowOverlay.text os) :
    s'.extractors.lookup name = summary Extractor.kind
        (xs ++ Rose.countingAll (AcceptedFormat.component name) Extractor.kind ts) ∧
      s'.overlayExtractors.lookup name = summary NarrowOverlay.text
        (os ++ Rose.countingAll (AcceptedFormat.overlay name) NarrowOverlay.text ts) := by
  induction hts generalizing s xs os with
  | nil =>
    cases h
    rw [Rose.countingAll, Rose.countingAll, List.append_nil, List.append_nil]
    exact ⟨hxs, hos⟩
  | cons hhead _ ih =>
    rw [List.foldlM_cons] at h
    obtain ⟨base, hbase, h⟩ := Option.bind_eq_some_iff.mp h
    obtain ⟨-, he, ho⟩ := FormatState.promoteTo_spec hbase
    have hjoin := lookup_promote he name
    have hjoin' := lookup_promote ho name
    rw [hhead.1, hxs] at hjoin
    rw [hhead.2, hos] at hjoin'
    rw [Rose.countingAll, Rose.countingAll, ← List.append_assoc, ← List.append_assoc]
    exact ih h (summary_join Extractor.differs_eq hjoin)
      (summary_join NarrowOverlay.differs_eq hjoin')

/-- **The first pass.**  A format has for a name what is remembered of the definitions that meet at
    it. -/
theorem lookup_propagateExtractorsUp {t : Rose (AcceptedFormat getFormat)}
    (h : propagateExtractorsUp (t.map FormatState.init) = some r) (name : String) :
    r.value.extractors.lookup name = summary Extractor.kind (metComponents name t) ∧
      r.value.overlayExtractors.lookup name = summary NarrowOverlay.text (metOverlays name t) := by
  induction t using Rose.induct generalizing r with
  | node fmt ts ih =>
    rw [Rose.map_node] at h
    obtain ⟨hall, hfold⟩ := propagateExtractorsUp_node h
    rw [List.forall₂_map_left_iff] at hall
    obtain ⟨hxs, hos⟩ := FormatState.init_lookup fmt name
    exact lookup_foldlM_promoteTo (forall₂_imp_of_mem hall fun t ht c hc => ih t ht hc) hfold hxs hos

end Passes

end MpactSim.Decoder
