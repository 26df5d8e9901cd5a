import Mathlib.Tactic

namespace MpactSim.Lib

/-!
# Strict weak orders along a line

A relation that only ever puts later elements before earlier ones.  Irreflexivity and asymmetry
come for free, and what is left are conditions on three elements.

* `Backward`       — the relation puts later elements first;
* `isStrictWeakOrder_iff` — the condition for a strict weak order.
-/

universe u

/-- Only a later element is less than another one. -/
def Backward {ι : Type u} [LinearOrder ι] (r : ι → ι → Prop) : Prop := ∀ i j, r i j → j < i

variable {ι : Type u} [LinearOrder ι] {r : ι → ι → Prop}

theorem Backward.not_lt (h : Backward r) {i j : ι} (hij : i ≤ j) : ¬ r i j :=
  fun hr => absurd (h i j hr) (not_lt_of_ge hij)

/-- Of three elements, the last is before the first if and only if a step between neighbours goes
    down. -/
def StepsDecide (r : ι → ι → Prop) : Prop :=
  ∀ i j k, i < j → j < k → (r k i ↔ r j i ∨ r k j)

/-- The steps of a strict weak order decide. -/
theorem stepsDecide_of_isStrictWeakOrder (h : Backward r) (hweak : IsStrictWeakOrder ι r) :
    StepsDecide r := by
  intro i j k hij hjk
  have hik := hij.trans hjk
  constructor
  · intro hki
    by_contra hnone
    rw [not_or] at hnone
    exact (hweak.incomp_trans i j k ⟨h.not_lt hij.le, hnone.1⟩ ⟨h.not_lt hjk.le, hnone.2⟩).2 hki
  · intro hstep
    by_contra hki
    rcases hstep with hji | hkj
    · -- The last is then not before the second, so it is like the first and the second.
      by_cases hkj : r k j
      · exact hki (hweak.trans k j i hkj hji)
      · exact (hweak.incomp_trans i k j ⟨h.not_lt hik.le, hki⟩ ⟨hkj, h.not_lt hjk.le⟩).2 hji
    · by_cases hji : r j i
      · exact hki (hweak.trans k j i hkj hji)
      · exact (hweak.incomp_trans j i k ⟨hji, h.not_lt hij.le⟩ ⟨h.not_lt hik.le, hki⟩).2 hkj

theorem incomp_trans_of_stepsDecide (hsteps : StepsDecide r) {a b c : ι}
    (hab : ¬ r a b ∧ ¬ r b a) (hbc : ¬ r b c ∧ ¬ r c b) (hac : a < c) : ¬ r c a := by
  intro hca
  rcases lt_trichotomy b a with hlt | heq | hgt
  · exact hbc.2 ((hsteps b a c hlt hac).mpr (.inr hca))
  · exact hbc.2 (heq ▸ hca)
  · rcases lt_trichotomy b c with hlt' | heq' | hgt'
    · rcases (hsteps a b c hgt hlt').mp hca with hba | hcb
      · exact hab.2 hba
      · exact hbc.2 hcb
    · exact hab.2 (heq' ▸ hca)
    · exact hab.2 ((hsteps a c b hac hgt').mpr (.inl hca))

/-- **Strict weak orders.** -/
theorem isStrictWeakOrder_iff (h : Backward r) : IsStrictWeakOrder ι r ↔ StepsDecide r := by
  refine ⟨stepsDecide_of_isStrictWeakOrder h, fun hsteps => ?_⟩
  refine { irrefl := fun i => h.not_lt le_rfl, trans := ?_, incomp_trans := ?_ }
  · intro a b c hab hbc
    exact (hsteps c b a (h b c hbc) (h a b hab)).mpr (.inl hbc)
  · intro a b c hab hbc
    rcases lt_trichotomy a c with hlt | heq | hgt
    · exact ⟨h.not_lt hlt.le, incomp_trans_of_stepsDecide hsteps hab hbc hlt⟩
    · exact ⟨heq ▸ h.not_lt le_rfl, heq ▸ h.not_lt le_rfl⟩
    · exact ⟨incomp_trans_of_stepsDecide hsteps hbc.symm hab.symm hgt, h.not_lt hgt.le⟩

end MpactSim.Lib
