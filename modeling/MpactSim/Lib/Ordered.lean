import Mathlib.Tactic

namespace MpactSim.Lib

/-!
# Ordered key sets

`btree_set` and `btree_map` are iterated in increasing order of their keys, each key
once.  `keys l` is that order for the keys inserted from the list `l`.

* `map_keys_of_strictMonoOn` — a map that is increasing on the keys carries the order
  over to its image.
* `idxOf_keys_lt_iff` — the position of a key reflects the order.
-/

variable {α β : Type} [LinearOrder α] [LinearOrder β]

/-- The keys inserted from a list, in the order of iteration. -/
def keys (l : List α) : List α := l.dedup.insertionSort (· ≤ ·)

@[simp]
theorem mem_keys {l : List α} {a : α} : a ∈ keys l ↔ a ∈ l := by
  rw [keys, List.mem_insertionSort, List.mem_dedup]

theorem nodup_keys (l : List α) : (keys l).Nodup :=
  (List.perm_insertionSort _ _).nodup_iff.mpr l.nodup_dedup

theorem pairwise_keys (l : List α) : (keys l).Pairwise (· < ·) := by
  have hle : (keys l).Pairwise (· ≤ ·) := List.pairwise_insertionSort _ _
  exact (hle.and (nodup_keys l)).imp (fun h => lt_of_le_of_ne h.1 h.2)

theorem length_keys {l : List α} (h : l.Nodup) : (keys l).length = l.length := by
  rw [keys, List.length_insertionSort, List.Nodup.dedup h]

theorem idxOf_keys_lt_iff [BEq α] [LawfulBEq α] {l : List α} {a b : α} (ha : a ∈ l) (hb : b ∈ l) :
    (keys l).idxOf a < (keys l).idxOf b ↔ a < b := by
  have hia : (keys l).idxOf a < (keys l).length := List.idxOf_lt_length_of_mem (mem_keys.mpr ha)
  have hib : (keys l).idxOf b < (keys l).length := List.idxOf_lt_length_of_mem (mem_keys.mpr hb)
  have hget := List.pairwise_iff_getElem.mp (pairwise_keys l)
  constructor
  · intro h
    have := hget _ _ hia hib h
    rwa [List.getElem_idxOf, List.getElem_idxOf] at this
  · intro h
    rcases Nat.lt_trichotomy ((keys l).idxOf a) ((keys l).idxOf b) with hlt | heq | hgt
    · exact hlt
    · have : a = b := by
        rw [← List.getElem_idxOf hia, ← List.getElem_idxOf hib]
        simp only [heq]
      exact absurd h (this ▸ lt_irrefl a)
    · have := hget _ _ hib hia hgt
      rw [List.getElem_idxOf, List.getElem_idxOf] at this
      exact absurd h (lt_asymm this)

/-- A function that is increasing on the keys maps the order of iteration of the keys
    to that of their images. -/
theorem map_keys_of_strictMonoOn {l : List α} {f : α → β} (hl : l.Nodup)
    (hf : ∀ a ∈ l, ∀ b ∈ l, a < b → f a < f b) : (keys l).map f = keys (l.map f) := by
  have hinj : ∀ a ∈ l, ∀ b ∈ l, f a = f b → a = b := by
    intro a ha b hb heq
    rcases lt_trichotomy a b with h | h | h
    · exact absurd heq (hf a ha b hb h).ne
    · exact h
    · exact absurd heq (hf b hb a ha h).ne'
  have hle : ∀ a ∈ l, ∀ b ∈ l, a ≤ b ↔ f a ≤ f b := by
    intro a ha b hb
    constructor
    · intro h
      rcases h.lt_or_eq with h | rfl
      · exact (hf a ha b hb h).le
      · exact le_rfl
    · intro h
      by_contra hlt
      exact absurd (hf b hb a ha (not_le.mp hlt)) (not_lt.mpr h)
  rw [keys, keys, List.Nodup.dedup hl, List.Nodup.dedup (hl.map_on hinj),
    List.map_insertionSort _ _ _ _ hle]

end MpactSim.Lib
