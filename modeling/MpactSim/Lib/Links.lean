import Mathlib.Data.List.Infix

namespace MpactSim.Lib

/-!
# Linked lists

A map from each node to the next one, if there is one, and a start give a list.

* `Starts` — the first nodes of a list;
* `Whole`   — all the nodes of a list that ends;
* `Whole.concat` — the list with a node linked to its last one.
-/

variable {α : Type*}

/-- The first nodes from a start. -/
def Starts (next : α → Option α) : Option α → List α → Prop
  | _, [] => True
  | start, x :: l => start = some x ∧ Starts next (next x) l

/-- All the nodes from a start. -/
def Whole (next : α → Option α) : Option α → List α → Prop
  | start, [] => start = none
  | start, x :: l => start = some x ∧ Whole next (next x) l

variable {next : α → Option α} {start : Option α} {l l' : List α}

theorem starts_prefix_of_whole (h : Starts next start l) (h' : Whole next start l') : l <+: l' := by
  induction l generalizing start l' with
  | nil => exact List.nil_prefix
  | cons x l ih =>
    obtain ⟨hx, hrest⟩ := h
    cases l' with
    | nil =>
      have hnone : start = none := h'
      rw [hx] at hnone
      cases hnone
    | cons y l' =>
      obtain ⟨hy, hrest'⟩ := h'
      rw [hx] at hy
      rw [← Option.some.inj hy] at hrest' ⊢
      exact List.cons_prefix_cons.mpr ⟨rfl, ih hrest hrest'⟩

theorem Whole.starts (h : Whole next start l) : Starts next start l := by
  induction l generalizing start with
  | nil => trivial
  | cons x l ih => exact ⟨h.1, ih h.2⟩

theorem whole_unique (h : Whole next start l) (h' : Whole next start l') : l = l' :=
  List.IsPrefix.eq_of_length_le (starts_prefix_of_whole h.starts h')
    (starts_prefix_of_whole h'.starts h).length_le

theorem Whole.of_append {front : List α} {x : α} (h : Whole next start (front ++ x :: l)) :
    Whole next (next x) l := by
  induction front generalizing start with
  | nil => exact h.2
  | cons y front ih => exact ih h.2

theorem Whole.nodup (h : Whole next start l) : l.Nodup := by
  induction l generalizing start with
  | nil => exact List.nodup_nil
  | cons x l ih =>
    refine List.nodup_cons.mpr ⟨fun hx => ?_, ih h.2⟩
    obtain ⟨front, back, rfl⟩ := List.append_of_mem hx
    -- Both are what follows the node.
    have heq := congrArg List.length (whole_unique h.2 h.2.of_append)
    rw [List.length_append, List.length_cons] at heq
    omega

theorem Whole.next_getLast (h : Whole next start l) (hne : l ≠ []) : next (l.getLast hne) = none := by
  induction l generalizing start with
  | nil => exact absurd rfl hne
  | cons x l ih =>
    cases l with
    | nil => exact h.2
    | cons y l =>
      rw [List.getLast_cons (List.cons_ne_nil y l)]
      exact ih h.2 (List.cons_ne_nil y l)

variable {next' : α → Option α}

theorem Starts.congr {P : α → Prop} (h : Starts next start l) (hstart : ∀ x ∈ start, P x)
    (hnext : ∀ x, P x → next' x = next x ∧ ∀ y ∈ next x, P y) : Starts next' start l := by
  induction l generalizing start with
  | nil => trivial
  | cons x l ih =>
    obtain ⟨heq, hreached⟩ := hnext x (hstart x h.1)
    refine ⟨h.1, ?_⟩
    rw [heq]
    exact ih h.2 hreached

theorem Starts.forall_mem {P : α → Prop} (h : Starts next start l) (hstart : ∀ x ∈ start, P x)
    (hnext : ∀ x, P x → ∀ y ∈ next x, P y) : ∀ x ∈ l, P x := by
  induction l generalizing start with
  | nil => exact fun x hx => absurd hx List.not_mem_nil
  | cons x l ih =>
    have hx := hstart x h.1
    exact List.forall_mem_cons.mpr ⟨hx, ih h.2 (hnext x hx)⟩

theorem Starts.mono (h : Starts next start l) (hgrows : ∀ x y, next x = some y → next' x = some y) :
    Starts next' start l := by
  induction l generalizing start with
  | nil => trivial
  | cons x l ih =>
    refine ⟨h.1, ?_⟩
    cases l with
    | nil => trivial
    | cons y l =>
      rw [hgrows x y h.2.1, ← h.2.1]
      exact ih h.2

theorem Whole.concat (h : Whole next start l) (hne : l ≠ []) {new : α}
    (hgrows : ∀ x y, next x = some y → next' x = some y) (hlast : next' (l.getLast hne) = some new) : Starts next' start (l ++ [new]) := by
  induction l generalizing start with
  | nil => exact absurd rfl hne
  | cons x l ih =>
    refine ⟨h.1, ?_⟩
    cases l with
    | nil => exact ⟨hlast, trivial⟩
    | cons y l =>
      rw [hgrows x y h.2.1, ← h.2.1]
      exact ih h.2 (List.cons_ne_nil y l) hlast

end MpactSim.Lib
