import Mathlib.Tactic

namespace MpactSim.Lib

/-!
# Maps that are kept sorted

A `btree_map`: a list of entries in increasing order of their keys.

* `insert`, `lookup`  — replace and find the entry of a key;
* `lookup_insert`     — they are those of a map;
* `eq_of_lookup_eq`   — a map is determined by what is found in it.
-/

variable {α β : Type} [LinearOrder α]

/-- The entries with one more, which takes the place of an entry of the same key. -/
def insertSorted (key : α) (value : β) : List (α × β) → List (α × β)
  | [] => [(key, value)]
  | entry :: rest =>
    if key < entry.1 then (key, value) :: entry :: rest
    else if key = entry.1 then (key, value) :: rest
    else entry :: insertSorted key value rest

theorem mem_insertSorted {key : α} {value : β} {l : List (α × β)}
    (hl : l.Pairwise fun a b => a.1 < b.1) (e : α × β) :
    e ∈ insertSorted key value l ↔ e = (key, value) ∨ e ∈ l ∧ e.1 ≠ key := by
  induction l with
  | nil => simp [insertSorted]
  | cons entry rest ih =>
    obtain ⟨hentry, hrest⟩ := List.pairwise_cons.mp hl
    have hkeys : ∀ e ∈ rest, key ≤ entry.1 → e.1 ≠ key :=
      fun e he hle => ne_of_gt (lt_of_le_of_lt hle (hentry e he))
    rw [insertSorted]
    split
    · rename_i hlt
      rw [List.mem_cons]
      refine or_congr_right ⟨fun h => ⟨h, ?_⟩, And.left⟩
      rcases List.mem_cons.mp h with rfl | h
      · exact ne_of_gt hlt
      · exact hkeys e h hlt.le
    split
    · rename_i heq
      subst heq
      rw [List.mem_cons, List.mem_cons]
      refine or_congr_right ⟨fun h => ⟨.inr h, hkeys e h le_rfl⟩, ?_⟩
      rintro ⟨rfl | h, hne⟩
      · exact absurd rfl hne
      · exact h
    · rename_i hne
      rw [List.mem_cons, ih hrest, List.mem_cons]
      constructor
      · rintro (rfl | rfl | ⟨h, hkey⟩)
        · exact .inr ⟨.inl rfl, fun h => hne h.symm⟩
        · exact .inl rfl
        · exact .inr ⟨.inr h, hkey⟩
      · rintro (rfl | ⟨rfl | h, hkey⟩)
        · exact .inr (.inl rfl)
        · exact .inl rfl
        · exact .inr (.inr ⟨h, hkey⟩)

theorem pairwise_insertSorted (key : α) (value : β) {l : List (α × β)}
    (hl : l.Pairwise fun a b => a.1 < b.1) :
    (insertSorted key value l).Pairwise fun a b => a.1 < b.1 := by
  induction l with
  | nil => exact List.pairwise_singleton ..
  | cons entry rest ih =>
    obtain ⟨hentry, hrest⟩ := List.pairwise_cons.mp hl
    rw [insertSorted]
    split
    · rename_i hlt
      refine List.pairwise_cons.mpr ⟨fun e he => ?_, hl⟩
      rcases List.mem_cons.mp he with rfl | he
      · exact hlt
      · exact hlt.trans (hentry e he)
    split
    · rename_i heq
      exact List.pairwise_cons.mpr ⟨fun e he => heq ▸ hentry e he, hrest⟩
    · rename_i hlt hne
      refine List.pairwise_cons.mpr ⟨fun e he => ?_, ih hrest⟩
      rcases (mem_insertSorted hrest e).mp he with rfl | ⟨he, -⟩
      · exact lt_of_le_of_ne (not_lt.mp hlt) fun h => hne h.symm
      · exact hentry e he

/-- A list of entries in increasing order of their keys. -/
structure SortedMap (α β : Type) [LinearOrder α] where
  entries : List (α × β)
  sorted : entries.Pairwise fun a b => a.1 < b.1

namespace SortedMap

/-- The empty map. -/
def empty : SortedMap α β := ⟨[], List.Pairwise.nil⟩

/-- The value of a key. -/
def lookup (m : SortedMap α β) (key : α) : Option β :=
  (m.entries.find? fun e => e.1 = key).map (·.2)

/-- The map with a value for a key. -/
def insert (m : SortedMap α β) (key : α) (value : β) : SortedMap α β :=
  ⟨insertSorted key value m.entries, pairwise_insertSorted key value m.sorted⟩

variable {m m' : SortedMap α β}

theorem lookup_eq_some_iff {key : α} {value : β} :
    m.lookup key = some value ↔ (key, value) ∈ m.entries := by
  have hnodup : (m.entries.map Prod.fst).Nodup :=
    List.pairwise_map.mpr (m.sorted.imp fun h => ne_of_lt h)
  unfold lookup
  rw [Option.map_eq_some_iff]
  constructor
  · rintro ⟨e, he, rfl⟩
    have hkey : e.1 = key := by simpa using List.find?_some he
    exact hkey ▸ List.mem_of_find?_eq_some he
  · intro hmem
    cases hfind : m.entries.find? fun e => e.1 = key with
    | none =>
      have := List.find?_eq_none.mp hfind _ hmem
      simp at this
    | some e =>
      have hkey : e.1 = key := by simpa using List.find?_some hfind
      refine ⟨e, rfl, ?_⟩
      rw [List.inj_on_of_nodup_map hnodup (List.mem_of_find?_eq_some hfind) hmem hkey]

@[simp]
theorem lookup_empty (key : α) : (empty : SortedMap α β).lookup key = none := rfl

@[simp]
theorem lookup_insert (m : SortedMap α β) (key : α) (value : β) (key' : α) :
    (m.insert key value).lookup key' = if key' = key then some value else m.lookup key' := by
  ext value'
  rw [lookup_eq_some_iff]
  show _ ∈ insertSorted key value m.entries ↔ _
  rw [mem_insertSorted m.sorted, Prod.mk.injEq]
  split
  · rename_i h
    simp [h, eq_comm]
  · rename_i h
    rw [lookup_eq_some_iff]
    simp [h]

/-- Maps in which the same is found are equal. -/
theorem eq_of_lookup_eq (h : ∀ key, m.lookup key = m'.lookup key) : m = m' := by
  obtain ⟨l, hl⟩ := m
  obtain ⟨l', hl'⟩ := m'
  have hmem : ∀ e, e ∈ l ↔ e ∈ l' := by
    rintro ⟨key, value⟩
    have := @lookup_eq_some_iff _ _ _ ⟨l, hl⟩ key value
    rw [h key, lookup_eq_some_iff] at this
    exact this.symm
  have : l = l' := by
    have : Std.Asymm fun a b : α × β => a.1 < b.1 := ⟨fun _ _ h h' => lt_asymm h h'⟩
    exact hl.eq_of_mem_iff hl' hmem
  subst this
  rfl

end SortedMap

end MpactSim.Lib
