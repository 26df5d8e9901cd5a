import Mathlib.Data.List.Count
import Mathlib.Data.Option.Basic

namespace MpactSim.Lib

/-!
# Direct-mapped stores

A list of slots in which an item can only be in the slot that its key has.

* `Placed` — every item is in the slot of its key, so that it is in one slot at most;
* `clear`  — the items with certain keys are taken out.
-/

universe u v

variable {κ : Type u} {ι : Type v} (key : ι → κ) (index : κ → ℕ)

/-- Every item is in the slot of its key. -/
def Placed (slots : List (Option ι)) : Prop :=
  ∀ k i, slots[k]? = some (some i) → index (key i) = k

/-- The slots without the items whose keys satisfy `p`. -/
def clear (p : κ → Bool) (slots : List (Option ι)) : List (Option ι) :=
  slots.map (Option.filter fun i => !p (key i))

variable {key index} {slots : List (Option ι)} {p q : κ → Bool} {i j : ι} {k : ℕ}

theorem Placed.mem_iff (h : Placed key index slots) :
    some i ∈ slots ↔ slots[index (key i)]? = some (some i) := by
  constructor
  · intro hi
    obtain ⟨k, hk⟩ := List.mem_iff_getElem?.mp hi
    rw [h k i hk]
    exact hk
  · exact List.mem_of_getElem?

theorem placed_replicate_none (n : ℕ) : Placed key index (List.replicate n none) := by
  intro k i hk
  have hmem := List.mem_of_getElem? hk
  rw [List.mem_replicate] at hmem
  exact absurd hmem.2 (Option.some_ne_none i)

/-! ### Items that are put in -/

theorem Placed.set (h : Placed key index slots) (hk : index (key i) = k) :
    Placed key index (slots.set k (some i)) := by
  intro k' j hj
  rw [List.getElem?_set] at hj
  split at hj
  · rename_i heq
    split at hj
    · obtain rfl := Option.some.inj (Option.some.inj hj)
      exact hk.trans heq
    · cases hj
  · exact h k' j hj

theorem Placed.mem_set (h : Placed key index slots) (hk : index (key i) = k)
    (hlen : k < slots.length) :
    some j ∈ slots.set k (some i) ↔ j = i ∨ some j ∈ slots ∧ index (key j) ≠ k := by
  rw [(h.set hk).mem_iff, List.getElem?_set]
  split
  · rename_i heq
    constructor
    · intro hji
      exact .inl (Option.some.inj (Option.some.inj hji)).symm
    · rintro (rfl | ⟨-, hne⟩)
      · rfl
      · exact absurd heq.symm hne
  · rename_i hne
    rw [← h.mem_iff]
    constructor
    · intro hj
      exact .inr ⟨hj, Ne.symm hne⟩
    · rintro (rfl | ⟨hj, -⟩)
      · exact absurd hk.symm hne
      · exact hj

/-! ### Items that are taken out -/

@[simp]
theorem length_clear : (clear key p slots).length = slots.length := List.length_map ..

theorem getElem?_clear (k : ℕ) :
    (clear key p slots)[k]? = slots[k]?.map (Option.filter fun i => !p (key i)) :=
  List.getElem?_map

theorem mem_clear : some i ∈ clear key p slots ↔ some i ∈ slots ∧ p (key i) = false := by
  rw [clear, List.mem_map]
  constructor
  · rintro ⟨o, ho, hfilter⟩
    obtain ⟨rfl, hp⟩ := Option.filter_eq_some_iff.mp hfilter
    exact ⟨ho, by simpa using hp⟩
  · rintro ⟨hi, hp⟩
    exact ⟨some i, hi, Option.filter_eq_some_iff.mpr ⟨rfl, by simp [hp]⟩⟩

theorem Placed.clear (h : Placed key index slots) : Placed key index (clear key p slots) := by
  intro k i hk
  rw [getElem?_clear] at hk
  obtain ⟨o, ho, hfilter⟩ := Option.map_eq_some_iff.mp hk
  obtain ⟨rfl, -⟩ := Option.filter_eq_some_iff.mp hfilter
  exact h k i ho

theorem clear_clear : clear key q (clear key p slots) = clear key (fun x => p x || q x) slots := by
  rw [clear, clear, clear, List.map_map]
  apply List.map_congr_left
  intro o _
  show (o.filter _).filter _ = _
  rw [Option.filter_filter]
  congr 1
  funext i
  simp

theorem clear_eq_self (h : ∀ i, some i ∈ slots → p (key i) = false) : clear key p slots = slots := by
  rw [clear]
  conv_rhs => rw [← List.map_id slots]
  apply List.map_congr_left
  intro o ho
  cases o with
  | none => rfl
  | some i => exact Option.filter_some_pos (by simp [h i ho])

/-- Emptying the slot of a key takes out the item with the key, if it holds that. -/
theorem Placed.set_none [DecidableEq κ] (h : Placed key index slots)
    (hi : slots[index (key i)]? = some (some i)) :
    slots.set (index (key i)) none = Lib.clear key (fun x => decide (x = key i)) slots := by
  apply List.ext_getElem?
  intro k
  rw [List.getElem?_set, getElem?_clear]
  split
  · rename_i heq
    subst heq
    rw [hi, if_pos (List.getElem?_eq_some_iff.mp hi).1]
    simp [Option.filter]
  · rename_i hne
    cases hk : slots[k]? with
    | none => rfl
    | some o =>
      cases o with
      | none => rfl
      | some j =>
        have hkey : key j ≠ key i := by
          intro hkey
          apply hne
          rw [← hkey]
          exact h k j hk
        simp [Option.filter, hkey]

/-! ### Counts -/

section Counts

variable [DecidableEq ι]

theorem Placed.count_eq (h : Placed key index slots) :
    slots.count (some i) = if some i ∈ slots then 1 else 0 := by
  split
  · rename_i hi
    have hslot := h.mem_iff.mp hi
    obtain ⟨hlen, hget⟩ := List.getElem?_eq_some_iff.mp hslot
    -- The other slots are those of other keys.
    have hothers : (slots.set (index (key i)) none).count (some i) = 0 := by
      apply List.count_eq_zero.mpr
      intro hmem
      obtain ⟨k, hk⟩ := List.mem_iff_getElem?.mp hmem
      rw [List.getElem?_set] at hk
      split at hk
      · cases hk
      · rename_i hne
        exact hne (h k i hk)
    have hpos := List.count_pos_iff.mpr hi
    rw [List.count_set hlen, hget] at hothers
    simp at hothers
    omega
  · rename_i hi
    exact List.count_eq_zero.mpr hi

end Counts

end MpactSim.Lib
