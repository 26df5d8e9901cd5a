import Mathlib.Data.Nat.Bitwise
import Mathlib.Tactic

namespace MpactSim.Lib

/-!
# Packed bits

The bits that a mask selects, packed to the low end in their order.

* `selected`, `packed` — the positions that are selected, and the bits there;
* `packed_congr_iff`   — equal packed bits are equal selected bits;
* `rises_packed_iff`   — packing keeps the order of numbers.

Masks and values are functions from positions to bits.
-/

/-- The positions below `n` that a mask selects. -/
def selected (mask : Nat → Bool) (n : Nat) : List Nat := (List.range n).filter mask

/-- The selected bits, packed to the low end. -/
def packed (mask value : Nat → Bool) (n i : Nat) : Bool := (selected mask n)[i]?.elim false value

section

variable {mask value value' : Nat → Bool} {n i p : Nat}

/-! ### Positions -/

theorem mem_selected : p ∈ selected mask n ↔ p < n ∧ mask p = true := by
  rw [selected, List.mem_filter, List.mem_range]

theorem pairwise_selected (mask : Nat → Bool) (n : Nat) : (selected mask n).Pairwise (· < ·) :=
  List.pairwise_lt_range.filter mask

theorem selected_succ (mask : Nat → Bool) (n : Nat) : selected mask (n + 1) =
    (if mask 0 = true then [0] else []) ++ (selected (fun p => mask (p + 1)) n).map (· + 1) := by
  rw [selected, List.range_succ_eq_map, List.filter_cons, List.filter_map]
  split <;> rfl

theorem packed_of_getElem (h : i < (selected mask n).length) :
    packed mask value n i = value (selected mask n)[i] := by
  rw [packed, List.getElem?_eq_getElem h]
  rfl

theorem packed_of_length_le (h : (selected mask n).length ≤ i) : packed mask value n i = false := by
  rw [packed, List.getElem?_eq_none h]
  rfl

/-! ### Equal packed bits -/

/-- **Packing.** Two values have the same packed bits if and only if they agree where the mask
    selects. -/
theorem packed_congr_iff : (∀ i, packed mask value n i = packed mask value' n i) ↔
    ∀ p < n, mask p = true → value p = value' p := by
  constructor
  · intro h p hp hmask
    obtain ⟨i, hi, rfl⟩ := List.getElem_of_mem (mem_selected.mpr ⟨hp, hmask⟩)
    exact (packed_of_getElem hi).symm.trans ((h i).trans (packed_of_getElem hi))
  · intro h i
    by_cases hi : i < (selected mask n).length
    · obtain ⟨hp, hmask⟩ := mem_selected.mp (List.getElem_mem hi)
      rw [packed_of_getElem hi, packed_of_getElem hi, h _ hp hmask]
    · rw [packed_of_length_le (not_lt.mp hi), packed_of_length_le (not_lt.mp hi)]

end

/-! ### Order -/

/-- The highest bit in which two values differ is one in the second. -/
def Rises (a b : Nat → Bool) : Prop :=
  ∃ i, a i = false ∧ b i = true ∧ ∀ j, i < j → a j = b j

/-- Numbers are ordered by the highest bit in which they differ. -/
theorem lt_iff_rises (a b : Nat) : a < b ↔ Rises a.testBit b.testBit := by
  constructor
  · intro hlt
    have hne : a ^^^ b ≠ 0 := fun h => hlt.ne (Nat.xor_eq_zero_iff.mp h)
    obtain ⟨i, hi, habove⟩ := Nat.exists_most_significant_bit hne
    have heq : ∀ j, i < j → a.testBit j = b.testBit j := by
      intro j hj
      have hxor := habove j hj
      rw [Nat.testBit_xor] at hxor
      simpa using hxor
    rw [Nat.testBit_xor] at hi
    cases ha : a.testBit i with
    | false => exact ⟨i, ha, by simpa [ha] using hi, heq⟩
    | true =>
      -- The other way round the second number would be smaller.
      have hb : b.testBit i = false := by simpa [ha] using hi
      exact absurd (Nat.lt_of_testBit i hb ha fun j hj => (heq j hj).symm) (not_lt.mpr hlt.le)
  · intro ⟨i, ha, hb, heq⟩
    exact Nat.lt_of_testBit i ha hb heq

/-- **Order.** Packed values are ordered as the values under the mask. -/
theorem rises_packed_iff {mask value value' : Nat → Bool} {n : Nat} :
    Rises (packed mask value n) (packed mask value' n) ↔
      Rises (fun p => decide (p < n) && mask p && value p)
        (fun p => decide (p < n) && mask p && value' p) := by
  have hsorted := pairwise_selected mask n
  -- What a position outside the mask contributes, and what one inside does.
  have hbit : ∀ (v : Nat → Bool) {i : Nat} (hi : i < (selected mask n).length),
      (decide ((selected mask n)[i] < n) && mask (selected mask n)[i] && v (selected mask n)[i]) =
        packed mask v n i := by
    intro v i hi
    obtain ⟨hp, hmask⟩ := mem_selected.mp (List.getElem_mem hi)
    rw [packed_of_getElem hi, decide_eq_true hp, hmask]
    rfl
  constructor
  · intro ⟨i, hzero, hone, habove⟩
    have hi : i < (selected mask n).length := by
      by_contra hge
      rw [packed_of_length_le (not_lt.mp hge)] at hone
      cases hone
    refine ⟨(selected mask n)[i], (hbit _ hi).trans hzero, (hbit _ hi).trans hone, fun p hp => ?_⟩
    by_cases hmem : p < n ∧ mask p = true
    · obtain ⟨j, hj, rfl⟩ := List.getElem_of_mem (mem_selected.mpr hmem)
      have hij : i < j := by
        by_contra hle
        rcases Nat.lt_or_eq_of_le (not_lt.mp hle) with hlt | rfl
        · exact absurd (List.pairwise_iff_getElem.mp hsorted j i hj hi hlt) (not_lt.mpr hp.le)
        · exact absurd hp (lt_irrefl _)
      exact (hbit _ hj).trans ((habove j hij).trans (hbit _ hj).symm)
    · have hzero : (decide (p < n) && mask p) = false := by
        rw [Bool.eq_false_iff]
        intro h
        rw [Bool.and_eq_true, decide_eq_true_iff] at h
        exact hmem h
      simp only [hzero, Bool.false_and]
  · intro ⟨p, hzero, hone, habove⟩
    have hmem : p ∈ selected mask n := by
      rw [Bool.and_eq_true, Bool.and_eq_true, decide_eq_true_iff] at hone
      exact mem_selected.mpr hone.1
    obtain ⟨i, hi, rfl⟩ := List.getElem_of_mem hmem
    refine ⟨i, (hbit _ hi).symm.trans hzero, (hbit _ hi).symm.trans hone, fun j hij => ?_⟩
    by_cases hj : j < (selected mask n).length
    · have hlt := List.pairwise_iff_getElem.mp hsorted i j hi hj hij
      exact (hbit _ hj).symm.trans ((habove _ hlt).trans (hbit _ hj))
    · rw [packed_of_length_le (not_lt.mp hj), packed_of_length_le (not_lt.mp hj)]

end MpactSim.Lib
