import Mathlib.Data.List.Basic

namespace MpactSim.Lib

/-!
# Texts with holes

A template is a list of characters and variables.  `fill` replaces the variables by texts.

* `eq_of_forall_fill` — templates that give the same text for texts that tell the variables apart
  are the same.
-/

variable {χ ν : Type*}

/-- The text of a template for texts of its variables. -/
def fill (text : ν → List χ) (template : List (χ ⊕ ν)) : List χ :=
  template.flatMap (Sum.elim (fun c => [c]) text)

@[simp]
theorem fill_nil (text : ν → List χ) : fill text [] = [] := rfl

@[simp]
theorem fill_inl (text : ν → List χ) (c : χ) (template : List (χ ⊕ ν)) :
    fill text (.inl c :: template) = c :: fill text template := rfl

@[simp]
theorem fill_inr (text : ν → List χ) (x : ν) (template : List (χ ⊕ ν)) :
    fill text (.inr x :: template) = text x ++ fill text template := rfl

@[simp]
theorem fill_append (text : ν → List χ) (template template' : List (χ ⊕ ν)) :
    fill text (template ++ template') = fill text template ++ fill text template' :=
  List.flatMap_append

theorem fill_map_inl (text : ν → List χ) (cs : List χ) :
    fill text (cs.map Sum.inl) = cs := by
  induction cs with
  | nil => rfl
  | cons c cs ih => rw [List.map_cons, fill_inl, ih]

theorem length_le_fill (text : ν → List χ) {x : ν} {template : List (χ ⊕ ν)}
    (h : .inr x ∈ template) : (text x).length ≤ (fill text template).length := by
  induction template with
  | nil => exact absurd h List.not_mem_nil
  | cons s rest ih =>
    rcases List.mem_cons.mp h with rfl | hrest
    · simp
    · cases s with
      | inl c => exact Nat.le_trans (ih hrest) (by simp)
      | inr y => exact Nat.le_trans (ih hrest) (by simp)

theorem fill_cons_ne_nil {text : ν → List χ} (h : ∀ x, text x ≠ []) (s : χ ⊕ ν)
    (template : List (χ ⊕ ν)) : fill text (s :: template) ≠ [] := by
  cases s with
  | inl c => exact List.cons_ne_nil _ _
  | inr x =>
    rw [fill_inr]
    exact List.append_ne_nil_of_left_ne_nil (h x) _

/-- Texts that tell the variables apart: by their first characters from each other, and from any
    character. -/
structure Separates (P : (ν → List χ) → Prop) : Prop where
  ne_nil : ∀ text, P text → ∀ x, text x ≠ []
  head : ∀ (c : χ) (x : ν), ∃ text, P text ∧ (text x).head? ≠ some c
  distinct : ∀ x y : ν, x ≠ y → ∃ text, P text ∧ (text x).head? ≠ (text y).head?

theorem head?_fill_inr {text : ν → List χ} {x : ν} (h : text x ≠ []) (template : List (χ ⊕ ν)) :
    (fill text (.inr x :: template)).head? = (text x).head? := by
  rw [fill_inr, List.head?_append_of_ne_nil _ h]

/-- **Templates.** Templates with the same text for enough texts of the variables are equal. -/
theorem eq_of_forall_fill {P : (ν → List χ) → Prop} (hP : Separates P) (hne : ∃ text, P text)
    (u v : List (χ ⊕ ν)) (h : ∀ text, P text → fill text u = fill text v) : u = v := by
  obtain ⟨text₀, htext₀⟩ := hne
  induction u generalizing v with
  | nil =>
    cases v with
    | nil => rfl
    | cons t v => exact absurd (h _ htext₀).symm (fill_cons_ne_nil (hP.ne_nil _ htext₀) t v)
  | cons s u ih =>
    cases v with
    | nil => exact absurd (h _ htext₀) (fill_cons_ne_nil (hP.ne_nil _ htext₀) s u)
    | cons t v =>
      cases s with
      | inl a =>
        cases t with
        | inl b =>
          obtain ⟨rfl, -⟩ := List.cons.inj (h _ htext₀)
          rw [ih v fun text htext => (List.cons.inj (h text htext)).2]
        | inr y =>
          obtain ⟨text, htext, hchar⟩ := hP.head a y
          have hhead := congrArg List.head? (h text htext)
          rw [head?_fill_inr (hP.ne_nil _ htext y)] at hhead
          exact absurd hhead.symm hchar
      | inr x =>
        cases t with
        | inl b =>
          obtain ⟨text, htext, hchar⟩ := hP.head b x
          have hhead := congrArg List.head? (h text htext)
          rw [head?_fill_inr (hP.ne_nil _ htext x)] at hhead
          exact absurd hhead hchar
        | inr y =>
          by_cases hxy : x = y
          · subst hxy
            rw [ih v fun text htext => List.append_cancel_left (h text htext)]
          · obtain ⟨text, htext, hvariable⟩ := hP.distinct x y hxy
            have hhead := congrArg List.head? (h text htext)
            rw [head?_fill_inr (hP.ne_nil _ htext x), head?_fill_inr (hP.ne_nil _ htext y)] at hhead
            exact absurd hhead hvariable

end MpactSim.Lib
