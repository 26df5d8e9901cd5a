import Mathlib.Data.List.Pairwise
import Mathlib.Order.Lattice
import Mathlib.Tactic.Common

namespace MpactSim.Lib

/-!
# Binary search in ordered maps

A tree is searched by a predicate that sends the search left or right at an entry.  Where the
predicate changes its value at most once along the entries, the result does not depend on the shape
of the tree.  A map of ranges is searched by the relation of lying before; ranges that overlap are
not ordered by it, and the empty ones lie before themselves.

* `lowerBound_eq`, `predecessor_eq`, `entries_place` — searches as list operations;
* `Rebalancing`    — a change of the shape;
* `RangesOrdered`  — each range lies before those that follow;
* `insert_spec`    — insertion of a range, and what it keeps;
* `all_predecessor_iff` — a range is inserted if it clashes with none that is there.
-/

/-- A binary tree with its entries in order. -/
inductive SearchTree (α : Type*) where
  | leaf
  | node (left : SearchTree α) (entry : α) (right : SearchTree α)

namespace SearchTree

variable {α : Type*}

/-- The entries from left to right. -/
def entries : SearchTree α → List α
  | leaf => []
  | node left e right => left.entries ++ e :: right.entries

/-- The first entry that the search does not pass; it passes one to the right. -/
def lowerBound (passes : α → Bool) : SearchTree α → Option α
  | leaf => none
  | node left e right =>
    if passes e then right.lowerBound passes else (left.lowerBound passes).or (some e)

/-- The last entry that a search passes. -/
def predecessor (passes : α → Bool) : SearchTree α → Option α
  | leaf => none
  | node left e right =>
    if passes e then (right.predecessor passes).or (some e) else left.predecessor passes

/-- A new entry where a search ends. -/
def place (passes : α → Bool) (new : α) : SearchTree α → SearchTree α
  | leaf => node leaf new leaf
  | node left e right =>
    if passes e then node left e (right.place passes new) else node (left.place passes new) e right

/-! ### Searches -/

/-- The entries that are passed come first. -/
def Monotone (passes : α → Bool) (l : List α) : Prop :=
  l.Pairwise fun x y => passes y = true → passes x = true

variable {passes : α → Bool} {t : SearchTree α}

theorem monotone_node {left right : SearchTree α} {e : α}
    (h : Monotone passes (node left e right).entries) :
    Monotone passes left.entries ∧ Monotone passes right.entries ∧
      (passes e = true → ∀ x ∈ left.entries, passes x = true) ∧
        (passes e = false → ∀ x ∈ right.entries, passes x = false) := by
  obtain ⟨hleft, hright, hacross⟩ := List.pairwise_append.mp h
  obtain ⟨he, hright⟩ := List.pairwise_cons.mp hright
  refine ⟨hleft, hright, fun hpass x hx => hacross x hx e List.mem_cons_self hpass, ?_⟩
  intro hstop x hx
  by_contra hne
  rw [Bool.not_eq_false] at hne
  rw [he x hx hne] at hstop
  cases hstop

/-- The search finds the first entry that is not passed. -/
theorem lowerBound_eq (h : Monotone passes t.entries) :
    t.lowerBound passes = t.entries.find? fun e => !passes e := by
  induction t with
  | leaf => rfl
  | node left e right ihleft ihright =>
    obtain ⟨hleft, hright, hpassed, -⟩ := monotone_node h
    rw [lowerBound, entries, List.find?_append, List.find?_cons, ihleft hleft, ihright hright]
    cases he : passes e with
    | true =>
      have hnone : left.entries.find? (fun e => !passes e) = none := by
        rw [List.find?_eq_none]
        intro x hx
        simp [hpassed he x hx]
      simp [hnone]
    | false => simp

theorem takeWhile_append_eq {l l' : List α} (hl : ∀ x ∈ l, passes x = true)
    (hl' : ∀ x ∈ l', passes x = false) :
    (l ++ l').takeWhile passes = l ∧ (l ++ l').dropWhile passes = l' := by
  have htake : l'.takeWhile passes = [] := by
    cases l' with
    | nil => rfl
    | cons x rest => rw [List.takeWhile_cons_of_neg (by simp [hl' x List.mem_cons_self])]
  have hdrop : l'.dropWhile passes = l' := by
    cases l' with
    | nil => rfl
    | cons x rest => rw [List.dropWhile_cons_of_neg (by simp [hl' x List.mem_cons_self])]
  rw [List.takeWhile_append_of_pos hl, List.dropWhile_append_of_pos hl, htake, hdrop]
  exact ⟨List.append_nil l, rfl⟩

theorem exists_split {l : List α} (h : Monotone passes l) :
    ∃ before after, l = before ++ after ∧ (∀ x ∈ before, passes x = true) ∧
      ∀ x ∈ after, passes x = false := by
  induction l with
  | nil => exact ⟨[], [], rfl, by simp, by simp⟩
  | cons x rest ih =>
    obtain ⟨hx, hrest⟩ := List.pairwise_cons.mp h
    cases hpass : passes x with
    | false =>
      refine ⟨[], x :: rest, rfl, by simp, fun y hy => ?_⟩
      rcases List.mem_cons.mp hy with rfl | hy
      · exact hpass
      · by_contra hne
        rw [hx y hy (by simpa using hne)] at hpass
        cases hpass
    | true =>
      obtain ⟨before, after, rfl, hbefore, hafter⟩ := ih hrest
      exact ⟨x :: before, after, rfl, List.forall_mem_cons.mpr ⟨hpass, hbefore⟩, hafter⟩

theorem takeWhile_node {left right : SearchTree α} {e : α}
    (h : Monotone passes (node left e right).entries) :
    (node left e right).entries.takeWhile passes =
        (if passes e then left.entries ++ e :: right.entries.takeWhile passes
          else left.entries.takeWhile passes) ∧
      (node left e right).entries.dropWhile passes =
        if passes e then right.entries.dropWhile passes
          else left.entries.dropWhile passes ++ e :: right.entries := by
  obtain ⟨hleft, hright, hpassed, hstopped⟩ := monotone_node h
  obtain ⟨before, after, hsplit, hbefore, hafter⟩ := exists_split hleft
  obtain ⟨before', after', hsplit', hbefore', hafter'⟩ := exists_split hright
  rw [entries]
  cases he : passes e with
  | true =>
    have hall : ∀ x ∈ left.entries ++ e :: before', passes x = true := by
      intro x hx
      rcases List.mem_append.mp hx with hx | hx
      · exact hpassed he x hx
      · rcases List.mem_cons.mp hx with rfl | hx
        · exact he
        · exact hbefore' x hx
    obtain ⟨htake, hdrop⟩ := takeWhile_append_eq hall hafter'
    obtain ⟨htake', hdrop'⟩ := takeWhile_append_eq hbefore' hafter'
    rw [List.append_assoc, List.cons_append] at htake hdrop
    rw [if_pos rfl, if_pos rfl, hsplit', htake, hdrop, htake', hdrop']
    exact ⟨rfl, rfl⟩
  | false =>
    have hnone : ∀ x ∈ after ++ e :: right.entries, passes x = false := by
      intro x hx
      rcases List.mem_append.mp hx with hx | hx
      · exact hafter x hx
      · rcases List.mem_cons.mp hx with rfl | hx
        · exact he
        · exact hstopped he x hx
    obtain ⟨htake, hdrop⟩ := takeWhile_append_eq hbefore hnone
    obtain ⟨htake', hdrop'⟩ := takeWhile_append_eq hbefore hafter
    rw [← List.append_assoc] at htake hdrop
    rw [if_neg Bool.false_ne_true, if_neg Bool.false_ne_true, hsplit, htake, hdrop, htake', hdrop']
    exact ⟨rfl, rfl⟩

theorem predecessor_eq (h : Monotone passes t.entries) :
    t.predecessor passes = (t.entries.takeWhile passes).getLast? := by
  induction t with
  | leaf => rfl
  | node left e right ihleft ihright =>
    obtain ⟨hleft, hright, -, -⟩ := monotone_node h
    rw [(takeWhile_node h).1, predecessor, ihleft hleft, ihright hright]
    split
    · rw [List.getLast?_append, List.getLast?_cons]
      cases (right.entries.takeWhile passes).getLast? <;> simp
    · rfl

theorem entries_place (h : Monotone passes t.entries) (new : α) : (t.place passes new).entries =
      t.entries.takeWhile passes ++ new :: t.entries.dropWhile passes := by
  induction t with
  | leaf => rfl
  | node left e right ihleft ihright =>
    obtain ⟨hleft, hright, -, -⟩ := monotone_node h
    obtain ⟨htake, hdrop⟩ := takeWhile_node h
    rw [htake, hdrop, place]
    split
    · rw [entries, ihright hright, List.append_assoc, List.cons_append]
    · rw [entries, ihleft hleft, List.append_assoc, List.cons_append]

end SearchTree

/-- A change of the shape of a tree. -/
structure Rebalancing (α : Type*) where
  apply : SearchTree α → SearchTree α
  entries_apply : ∀ t, (apply t).entries = t.entries

namespace SearchTree

variable {α : Type*}

/-- `insert` of an ordered map: an entry that is not ordered after its predecessor is not
    inserted. -/
def insert (less : α → α → Bool) (rebalancing : Rebalancing α) (new : α) (t : SearchTree α) :
    SearchTree α :=
  let passes := fun e => !less new e
  if (t.predecessor passes).all fun e => less e new
  then rebalancing.apply (t.place passes new) else t

/-- `find` of an ordered map: the first entry that is not less than the key, unless the key is less
    than it. -/
def find? (isLess isGreater : α → Bool) (t : SearchTree α) : Option α :=
  (t.lowerBound isLess).filter fun e => !isGreater e

end SearchTree

/-! ### Ranges -/

section Ranges

variable {α β : Type*} [LinearOrder β] (lo hi : α → β)

/-- The first range ends before the second one starts. -/
def precedes (x y : α) : Bool := decide (hi x ≤ lo y)

/-- Two ranges have a point in common, or an empty one lies inside the other. -/
def Clash (x y : α) : Prop := lo x < hi y ∧ lo y < hi x

instance : DecidableRel (Clash lo hi) := fun x y => inferInstanceAs (Decidable (lo x < hi y ∧ _))

/-- Each range lies before those that follow. -/
structure RangesOrdered (l : List α) : Prop where
  pairwise : l.Pairwise fun x y => hi x ≤ lo y
  valid : ∀ x ∈ l, lo x ≤ hi x


variable {lo hi} {t : SearchTree α} {new : α}

variable (new) in
theorem monotone_of_ordered (h : RangesOrdered lo hi t.entries) :
    SearchTree.Monotone (fun e => !precedes lo hi new e) t.entries := by
  refine (List.pairwise_iff_forall_sublist.mpr fun {x y} hsub => ?_)
  have hxy := List.pairwise_iff_forall_sublist.mp h.pairwise hsub
  have hx := h.valid x (hsub.subset List.mem_cons_self)
  simp only [precedes, Bool.not_eq_true', decide_eq_false_iff_not, not_le]
  intro hy
  exact lt_of_le_of_lt (le_trans hx hxy) hy

variable (new) in
/-- A range is inserted if it clashes with none that is there. -/
theorem all_predecessor_iff (h : RangesOrdered lo hi t.entries) :
    ((t.predecessor fun e => !precedes lo hi new e).all fun e => precedes lo hi e new) = true ↔
      ∀ x ∈ t.entries, ¬ Clash lo hi x new := by
  have hmono := monotone_of_ordered new h
  obtain ⟨before, after, hsplit, hbefore, hafter⟩ := SearchTree.exists_split hmono
  rw [SearchTree.predecessor_eq hmono, hsplit,
    (SearchTree.takeWhile_append_eq hbefore hafter).1]
  simp only [precedes, Bool.not_eq_true', Bool.not_eq_false', decide_eq_false_iff_not, not_le,
    decide_eq_true_eq] at hbefore hafter
  -- Only the ranges up to the place can clash with the new one.
  have hclear : ∀ x ∈ after, ¬ Clash lo hi x new := by
    intro x hx hclash
    exact absurd hclash.1 (not_lt.mpr (hafter x hx))
  rw [List.forall_mem_append, and_iff_left hclear]
  rcases List.eq_nil_or_concat before with rfl | ⟨front, last, rfl⟩
  · simp
  · rw [List.concat_eq_append] at hsplit hbefore ⊢
    rw [List.getLast?_append, List.getLast?_singleton, Option.some_or, Option.all_some, precedes,
      decide_eq_true_eq]
    have hlast : last ∈ front ++ [last] := List.mem_append_right _ List.mem_cons_self
    constructor
    · intro hle x hx hclash
      rcases List.mem_append.mp hx with hx | hx
      · -- The others end before the last one starts.
        have hpair := h.pairwise
        rw [hsplit, List.append_assoc, List.pairwise_append] at hpair
        have hxl := hpair.2.2 x hx last (List.mem_append_left _ List.mem_cons_self)
        have hvalid := h.valid last (hsplit ▸ List.mem_append_left _ hlast)
        exact absurd hclash.2 (not_lt.mpr (le_trans (le_trans hxl hvalid) hle))
      · rw [List.mem_singleton.mp hx] at hclash
        exact absurd hclash.2 (not_lt.mpr hle)
    · intro hno
      by_contra hgt
      exact hno last hlast ⟨hbefore last hlast, not_le.mp hgt⟩

/-- Insertion keeps the order, and adds the range if it does not clash. -/
theorem insert_spec (rebalancing : Rebalancing α) (h : RangesOrdered lo hi t.entries)
    (hnew : lo new ≤ hi new) :
    RangesOrdered lo hi (t.insert (precedes lo hi) rebalancing new).entries ∧
      ∀ x, x ∈ (t.insert (precedes lo hi) rebalancing new).entries ↔
        x ∈ t.entries ∨ (x = new ∧ ∀ y ∈ t.entries, ¬ Clash lo hi y new) := by
  have hiff := all_predecessor_iff new h
  unfold SearchTree.insert
  dsimp only
  split
  · rename_i hinsert
    have hclear := hiff.mp hinsert
    have hmono := monotone_of_ordered new h
    obtain ⟨before, after, hsplit, hbefore, hafter⟩ := SearchTree.exists_split hmono
    obtain ⟨htake, hdrop⟩ := SearchTree.takeWhile_append_eq hbefore hafter
    rw [rebalancing.entries_apply, SearchTree.entries_place hmono, hsplit, htake, hdrop]
    simp only [precedes, Bool.not_eq_true', Bool.not_eq_false', decide_eq_false_iff_not, not_le,
      decide_eq_true_eq] at hbefore hafter
    have hpair := h.pairwise
    have hvalid := h.valid
    rw [hsplit] at hpair hvalid hclear
    obtain ⟨hpair₁, hpair₂, hacross⟩ := List.pairwise_append.mp hpair
    obtain ⟨hvalid₁, hvalid₂⟩ := List.forall_mem_append.mp hvalid
    have hends : ∀ x ∈ before, hi x ≤ lo new := by
      intro x hx
      by_contra hgt
      exact hclear x (List.mem_append_left _ hx) ⟨hbefore x hx, not_le.mp hgt⟩
    refine ⟨⟨List.pairwise_append.mpr ⟨hpair₁, List.pairwise_cons.mpr ⟨hafter, hpair₂⟩, ?_⟩,
      ?_⟩, ?_⟩
    · intro x hx y hy
      rcases List.mem_cons.mp hy with rfl | hy
      · exact hends x hx
      · exact hacross x hx y hy
    · exact List.forall_mem_append.mpr ⟨hvalid₁, List.forall_mem_cons.mpr ⟨hnew, hvalid₂⟩⟩
    · intro x
      rw [and_iff_left hclear, List.mem_append, List.mem_cons, List.mem_append]
      tauto
  · rename_i hkeep
    refine ⟨h, fun x => ?_⟩
    rw [hiff] at hkeep
    simp [hkeep]

/-- The range that contains a point is the first one that does not end before it. -/
theorem find?_ordered (h : RangesOrdered lo hi t.entries) (a : β) {x : α} :
    t.find? (fun e => decide (hi e ≤ a)) (fun e => decide (a < lo e)) = some x ↔
      x ∈ t.entries ∧ lo x ≤ a ∧ a < hi x := by
  have hmono : SearchTree.Monotone (fun e => decide (hi e ≤ a)) t.entries := by
    refine (List.pairwise_iff_forall_sublist.mpr fun {x y} hsub => ?_)
    have hxy := List.pairwise_iff_forall_sublist.mp h.pairwise hsub
    have hy := h.valid y (hsub.subset (List.mem_cons_of_mem _ List.mem_cons_self))
    simp only [decide_eq_true_eq]
    intro hle
    exact le_trans hxy (le_trans hy hle)
  rw [SearchTree.find?, SearchTree.lowerBound_eq hmono, Option.filter_eq_some_iff]
  simp only [Bool.not_eq_true', decide_eq_false_iff_not, not_lt]
  have hpair := h.pairwise
  generalize t.entries = l at hpair ⊢
  constructor
  · rintro ⟨hfind, hlo⟩
    have hhi := List.find?_some hfind
    simp only [Bool.not_eq_true', decide_eq_false_iff_not, not_le] at hhi
    exact ⟨List.mem_of_find?_eq_some hfind, hlo, hhi⟩
  · rintro ⟨hmem, hlo, hhi⟩
    refine ⟨?_, hlo⟩
    obtain ⟨front, back, rfl⟩ := List.append_of_mem hmem
    obtain ⟨-, -, hacross⟩ := List.pairwise_append.mp hpair
    -- All ranges in front of it end before the point.
    have hfront : front.find? (fun e => !decide (hi e ≤ a)) = none := by
      rw [List.find?_eq_none]
      intro y hy
      have hle := le_trans (hacross y hy x List.mem_cons_self) hlo
      simpa using hle
    rw [List.find?_append, hfront, Option.none_or, List.find?_cons_of_pos]
    simpa using hhi

end Ranges

end MpactSim.Lib
