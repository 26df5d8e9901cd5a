import MpactSim.Lib.Scans

namespace MpactSim.Lib

/-!
# Lists of items in a text

Items stand between white space, with a separator between two of them.  A reader takes one item off
the front of a text, with the separator behind it or to the end.  A loop that reads until the reader
does not match cannot tell the end of a list from an item that is malformed.

* `Listed`          — the text is a list of items, and nothing else;
* `Begins`          — the text begins with items;
* `Reads`           — a reader of exactly the items;
* `begins_iff`      — the text begins with what the loop reads, and with nothing more;
* `readAll_listed`  — the loop reads a list of items to its end.
-/

universe u v

variable {α : Type u} {β : Type v} (space : α → Bool) (sep : α) (Item : List α → β → Prop)

/-- An item between white space; items stand for values. -/
def Padded (piece : List α) (b : β) : Prop :=
  ∃ front item back, piece = front ++ item ++ back ∧ Within space front ∧ Within space back ∧
    Item item b

/-- A list of items, with separators between them.  A blank text is the empty list. -/
inductive Listed : List α → List β → Prop
  | blank {text : List α} : Within space text → Listed text []
  | last {piece : List α} {b : β} : Padded space Item piece b → Listed piece [b]
  | more {piece rest : List α} {b : β} {bs : List β} : Padded space Item piece b →
      Listed rest bs → bs ≠ [] → Listed (piece ++ sep :: rest) (b :: bs)

/-- A text that begins with items, each of which ends with a separator or with the text. -/
inductive Begins : List α → List β → Prop
  | none {text : List α} : Begins text []
  | last {piece : List α} {b : β} : Padded space Item piece b → Begins piece [b]
  | more {piece rest : List α} {b : β} {bs : List β} : Padded space Item piece b →
      Begins rest bs → Begins (piece ++ sep :: rest) (b :: bs)

/-- A reader of items: it takes one off, with the separator behind it or to the end. -/
def Reads (re : List α → Option (β × List α)) : Prop :=
  ∀ text b rest, re text = some (b, rest) ↔ ∃ piece, Padded space Item piece b ∧
    (text = piece ∧ rest = [] ∨ text = piece ++ sep :: rest)

/-- The reader is used until it does not match; `fuel` bounds the number of items. -/
def readAll (re : List α → Option (β × List α)) : Nat → List α → List β
  | 0, _ => []
  | fuel + 1, text =>
    match re text with
    | some (b, rest) => b :: readAll re fuel rest
    | none => []

variable {space sep Item} {re : List α → Option (β × List α)} {text piece rest : List α} {b b' : β}
  {bs : List β} {fuel : Nat}

/-- What makes the items of a list visible: they are not white space. -/
def Visible (space : α → Bool) (Item : List α → β → Prop) : Prop :=
  ∀ item b, Item item b → ¬Within space item

theorem Padded.not_within (hitem : Visible space Item) (h : Padded space Item piece b) :
    ¬Within space piece := by
  obtain ⟨front, item, back, rfl, -, -, hb⟩ := h
  intro hpiece
  rw [within_append, within_append] at hpiece
  exact hitem item b hb hpiece.1.2

theorem Padded.length_pos (hitem : Visible space Item) (h : Padded space Item piece b) :
    0 < piece.length := by
  rw [List.length_pos_iff]
  rintro rfl
  exact h.not_within hitem within_nil

theorem Reads.last (hre : Reads space sep Item re) (h : Padded space Item piece b) :
    re piece = some (b, []) := (hre piece b []).mpr ⟨piece, h, .inl ⟨rfl, rfl⟩⟩

theorem Reads.more (hre : Reads space sep Item re) (h : Padded space Item piece b)
    (rest : List α) : re (piece ++ sep :: rest) = some (b, rest) :=
  (hre _ b rest).mpr ⟨piece, h, .inr rfl⟩

theorem Reads.length_lt (hre : Reads space sep Item re) (hitem : Visible space Item)
    (h : re text = some (b, rest)) : rest.length < text.length := by
  obtain ⟨piece, hpiece, ⟨rfl, rfl⟩ | rfl⟩ := (hre text b rest).mp h
  · exact hpiece.length_pos hitem
  · rw [List.length_append, List.length_cons]
    omega

theorem Reads.eq_none (hre : Reads space sep Item re) (hitem : Visible space Item)
    (h : Within space text) : re text = none := by
  by_contra hsome
  obtain ⟨⟨b, rest⟩, hread⟩ := Option.ne_none_iff_exists'.mp hsome
  obtain ⟨piece, hpiece, ⟨rfl, rfl⟩ | rfl⟩ := (hre text b rest).mp hread
  · exact hpiece.not_within hitem h
  · exact hpiece.not_within hitem (within_append.mp h).1

theorem Begins.exists_item (h : Begins space sep Item text bs) (hb : b ∈ bs) :
    ∃ item, Item item b := by
  induction h with
  | none => cases hb
  | last hpiece =>
    obtain ⟨front, item, back, -, -, -, hitem⟩ := hpiece
    obtain rfl := List.mem_singleton.mp hb
    exact ⟨item, hitem⟩
  | more hpiece hrest ih =>
    rcases List.mem_cons.mp hb with rfl | hb
    · obtain ⟨front, item, back, -, -, -, hitem⟩ := hpiece
      exact ⟨item, hitem⟩
    · exact ih hb

theorem begins_nil (hitem : Visible space Item) : Begins space sep Item [] bs ↔ bs = [] := by
  constructor
  · intro h
    generalize htext : ([] : List α) = text at h
    cases h with
    | none => rfl
    | last hpiece =>
      subst htext
      exact absurd within_nil (hpiece.not_within hitem)
    | more hpiece hrest => simp at htext
  · rintro rfl
    exact .none

theorem begins_cons (hre : Reads space sep Item re) (hitem : Visible space Item)
    (h : re text = some (b, rest)) :
    Begins space sep Item text (b' :: bs) ↔ b' = b ∧ Begins space sep Item rest bs := by
  constructor
  · intro hbegins
    cases hbegins with
    | last hpiece =>
      rw [hre.last hpiece] at h
      cases h
      exact ⟨rfl, .none⟩
    | more hpiece hrest =>
      rw [hre.more hpiece] at h
      cases h
      exact ⟨rfl, hrest⟩
  · rintro ⟨rfl, hrest⟩
    obtain ⟨piece, hpiece, ⟨rfl, rfl⟩ | rfl⟩ := (hre _ _ _).mp h
    · obtain rfl := (begins_nil hitem).mp hrest
      exact .last hpiece
    · exact .more hpiece hrest

theorem begins_eq_nil (hre : Reads space sep Item re) (h : re text = none) :
    Begins space sep Item text bs ↔ bs = [] := by
  constructor
  · intro hbegins
    cases hbegins with
    | none => rfl
    | last hpiece =>
      rw [hre.last hpiece] at h
      cases h
    | more hpiece hrest =>
      rw [hre.more hpiece] at h
      cases h
  · rintro rfl
    exact .none

/-- **The loop.** A text begins with what is read from it, and with nothing more. -/
theorem begins_iff (hre : Reads space sep Item re) (hitem : Visible space Item)
    (hfuel : text.length ≤ fuel) :
    Begins space sep Item text bs ↔ bs <+: readAll re fuel text := by
  induction fuel generalizing text bs with
  | zero =>
    obtain rfl := List.length_eq_zero_iff.mp (Nat.le_zero.mp hfuel)
    rw [begins_nil hitem, readAll, List.prefix_nil]
  | succ fuel ih =>
    rw [readAll]
    cases hread : re text with
    | none =>
      rw [begins_eq_nil hre hread]
      exact List.prefix_nil.symm
    | some p =>
      obtain ⟨b, rest⟩ := p
      cases bs with
      | nil => exact iff_of_true .none List.nil_prefix
      | cons b' bs =>
        have hlt := hre.length_lt hitem hread
        rw [begins_cons hre hitem hread, List.cons_prefix_cons, ih (by omega)]

theorem listed_singleton : Listed space sep Item text [b] ↔ Padded space Item text b := by
  constructor
  · intro h
    cases h with
    | last hpiece => exact hpiece
    | more _ _ hne => exact absurd rfl hne
  · exact .last

theorem readAll_listed (hre : Reads space sep Item re) (hitem : Visible space Item)
    (hfuel : text.length ≤ fuel) (h : Listed space sep Item text bs) :
    readAll re fuel text = bs := by
  induction h generalizing fuel with
  | blank hblank =>
    cases fuel with
    | zero => rfl
    | succ fuel => rw [readAll, hre.eq_none hitem hblank]
  | @last piece b hpiece =>
    have hpos := hpiece.length_pos hitem
    obtain ⟨fuel, rfl⟩ := Nat.exists_eq_succ_of_ne_zero (show fuel ≠ 0 by omega)
    rw [readAll, hre.last hpiece]
    cases fuel with
    | zero => rfl
    | succ fuel =>
      show b :: readAll re (fuel + 1) [] = [b]
      rw [readAll, hre.eq_none hitem within_nil]
  | @more piece rest b bs hpiece hrest hne ih =>
    rw [List.length_append, List.length_cons] at hfuel
    obtain ⟨fuel, rfl⟩ := Nat.exists_eq_succ_of_ne_zero (show fuel ≠ 0 by omega)
    rw [readAll, hre.more hpiece]
    show b :: readAll re fuel rest = b :: bs
    rw [ih (by omega)]

end MpactSim.Lib
