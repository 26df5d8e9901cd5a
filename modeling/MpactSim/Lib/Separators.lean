import Mathlib.Data.List.Basic

namespace MpactSim.Lib

/-!
# Texts with separators

A text in which a separator stands behind something that does not have it can be read in one way
only.
-/

variable {α : Type*} {c : α}

variable {xs ys : List α} {l : List (List α)}

theorem cut_inj {s t : List α} (hx : c ∉ xs) (hy : c ∉ ys) (h : xs ++ c :: s = ys ++ c :: t) :
    xs = ys ∧ s = t := by
  induction xs generalizing ys with
  | nil =>
    cases ys with
    | nil => exact ⟨rfl, (List.cons_inj_right c).mp h⟩
    | cons y ys =>
      obtain ⟨rfl, -⟩ := List.cons.inj h
      exact absurd List.mem_cons_self hy
  | cons x xs ih =>
    rw [List.mem_cons, not_or] at hx
    cases ys with
    | nil => exact absurd (List.cons.inj h).1.symm hx.1
    | cons y ys =>
      rw [List.mem_cons, not_or] at hy
      obtain ⟨rfl, htail⟩ := List.cons.inj h
      obtain ⟨rfl, hst⟩ := ih hx.2 hy.2 htail
      exact ⟨rfl, hst⟩

theorem cut_ne {s : List α} (hy : c ∉ ys) : xs ++ c :: s ≠ ys := by
  rintro rfl
  exact hy (List.mem_append_right _ List.mem_cons_self)

theorem terminated_inj {l' : List (List α)} (h : ∀ x ∈ l, c ∉ x) (h' : ∀ x ∈ l', c ∉ x)
    (heq : (l.flatMap fun x => x ++ [c]) = l'.flatMap fun x => x ++ [c]) : l = l' := by
  induction l generalizing l' with
  | nil =>
    cases l' with
    | nil => rfl
    | cons y rest' => simp at heq
  | cons x rest ih =>
    cases l' with
    | nil => simp at heq
    | cons y rest' =>
      obtain ⟨hx, hrest⟩ := List.forall_mem_cons.mp h
      obtain ⟨hy, hrest'⟩ := List.forall_mem_cons.mp h'
      rw [List.flatMap_cons, List.flatMap_cons, List.append_assoc, List.append_assoc] at heq
      obtain ⟨rfl, htail⟩ := cut_inj hx hy heq
      rw [ih hrest hrest' htail]

theorem intercalate_append (hne : l ≠ []) :
    [c].intercalate l ++ [c] = l.flatMap fun x => x ++ [c] := by
  induction l with
  | nil => exact absurd rfl hne
  | cons x rest ih =>
    cases rest with
    | nil => simp
    | cons y rest =>
      rw [List.intercalate_cons_cons, List.append_assoc, ih (List.cons_ne_nil y rest)]
      rfl

theorem notMem_intercalate {d : α} (hd : d ≠ c) (h : ∀ x ∈ l, d ∉ x) : d ∉ [c].intercalate l := by
  by_cases hl : l = []
  · subst hl
    exact List.not_mem_nil
  · intro hmem
    have hmem := List.mem_append_left [c] hmem
    rw [intercalate_append hl] at hmem
    obtain ⟨x, hx, hmem⟩ := List.mem_flatMap.mp hmem
    rcases List.mem_append.mp hmem with hmem | hmem
    · exact h x hx hmem
    · exact hd (List.mem_singleton.mp hmem)

theorem intercalate_ne_nil (hne : l ≠ []) (h : ∀ x ∈ l, x ≠ []) : [c].intercalate l ≠ [] := by
  intro hnil
  have hlen := congrArg List.length (intercalate_append (c := c) hne)
  obtain ⟨x, rest, rfl⟩ := List.exists_cons_of_ne_nil hne
  have hx := List.length_pos_iff.mpr (h x List.mem_cons_self)
  rw [hnil, List.flatMap_cons] at hlen
  simp only [List.nil_append, List.length_singleton, List.length_append] at hlen
  omega

/-- Parts with separators between them are read back.  Parts are not empty, so that one empty part
    is not taken for none. -/
theorem intercalate_inj {l' : List (List α)} (h : ∀ x ∈ l, x ≠ [] ∧ c ∉ x)
    (h' : ∀ x ∈ l', x ≠ [] ∧ c ∉ x) (heq : [c].intercalate l = [c].intercalate l') : l = l' := by
  by_cases hl : l = []
  · subst hl
    by_contra hne
    exact intercalate_ne_nil (Ne.symm hne) (fun x hx => (h' x hx).1) heq.symm
  · have hl' : l' ≠ [] := by
      rintro rfl
      exact intercalate_ne_nil hl (fun x hx => (h x hx).1) heq
    refine terminated_inj (fun x hx => (h x hx).2) (fun x hx => (h' x hx).2) ?_
    rw [← intercalate_append hl, ← intercalate_append hl', heq]

theorem doubled_inj {sep : List α} (h : xs ++ sep ++ xs = ys ++ sep ++ ys) : xs = ys := by
  have hlen := congrArg List.length h
  simp only [List.length_append] at hlen
  rw [List.append_assoc, List.append_assoc] at h
  exact (List.append_inj h (by omega)).1

end MpactSim.Lib
