import Mathlib.Tactic

namespace MpactSim.Lib

/-!
# Hexadecimal digits

Numbers that are printed without padding can be read back, also from a sequence of them
with separators.
-/

theorem digitChar_inj : ∀ m < 16, ∀ n < 16, Nat.digitChar m = Nat.digitChar n → m = n := by decide

theorem digitChar_ne_underscore : ∀ n < 16, Nat.digitChar n ≠ '_' := by decide

theorem toDigits_injective : Function.Injective (Nat.toDigits 16) := by
  intro m
  -- Induction on the first number; the last digits and the rest are compared.
  induction m using Nat.strong_induction_on with
  | _ m ih =>
    intro n h
    rw [Nat.toDigits_eq_if (by decide), Nat.toDigits_eq_if (n := n) (by decide)] at h
    split at h <;> split at h
    · exact digitChar_inj m ‹_› n ‹_› (List.singleton_inj.mp h)
    · exact absurd (List.append_eq_singleton_iff.mp h.symm) (by simp)
    · exact absurd (List.append_eq_singleton_iff.mp h) (by simp)
    · obtain ⟨hdiv, hmod⟩ := List.append_inj' h rfl
      have hdiv := ih (m / 16) (by omega) hdiv
      have hmod := digitChar_inj _ (Nat.mod_lt _ (by decide)) _ (Nat.mod_lt _ (by decide))
        (List.singleton_inj.mp hmod)
      omega

theorem underscore_not_mem_toDigits (n : Nat) : '_' ∉ Nat.toDigits 16 n := by
  induction n using Nat.strong_induction_on with
  | _ n ih =>
    rw [Nat.toDigits_eq_if (by decide)]
    split
    · rw [List.mem_singleton]
      exact (digitChar_ne_underscore n ‹_›).symm
    · rw [List.mem_append, List.mem_singleton, not_or]
      exact ⟨ih _ (by omega), (digitChar_ne_underscore _ (Nat.mod_lt _ (by decide))).symm⟩

/-- Numbers, each after an underscore. -/
def hexPath : List Nat → List Char
  | [] => []
  | n :: rest => '_' :: Nat.toDigits 16 n ++ hexPath rest

theorem hexPath_append (l l' : List Nat) : hexPath (l ++ l') = hexPath l ++ hexPath l' := by
  induction l with
  | nil => rfl
  | cons n rest ih => rw [List.cons_append, hexPath, hexPath, ih, List.append_assoc]

theorem takeWhile_hexPath (n : Nat) (rest : List Nat) :
    (Nat.toDigits 16 n ++ hexPath rest).takeWhile (· ≠ '_') = Nat.toDigits 16 n := by
  have hall : ∀ c ∈ Nat.toDigits 16 n, decide (c ≠ '_') = true := by
    intro c hc
    rw [decide_eq_true_eq]
    rintro rfl
    exact underscore_not_mem_toDigits n hc
  rw [List.takeWhile_append_of_pos hall]
  cases rest <;> simp [hexPath]

/-- The numbers can be read off. -/
theorem hexPath_injective : Function.Injective hexPath := by
  intro l
  induction l with
  | nil =>
    intro l' h
    cases l' with
    | nil => rfl
    | cons n rest => cases h
  | cons m rest ih =>
    intro l' h
    cases l' with
    | nil => cases h
    | cons n rest' =>
      have h := (List.cons.inj h).2
      have hdigits := congrArg (List.takeWhile (· ≠ '_')) h
      change (Nat.toDigits 16 m ++ hexPath rest).takeWhile (· ≠ '_') =
        (Nat.toDigits 16 n ++ hexPath rest').takeWhile (· ≠ '_') at hdigits
      rw [takeWhile_hexPath, takeWhile_hexPath] at hdigits
      obtain rfl := toDigits_injective hdigits
      rw [ih (List.append_cancel_left h)]

end MpactSim.Lib
