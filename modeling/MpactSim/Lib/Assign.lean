import Mathlib.Data.List.Nodup

namespace MpactSim.Lib

/-!
# Assignments

Values are assigned to keys, one after the other.

* `assign f l`        — the function after the assignments;
* `forall_assign_iff` — what was assigned is there at the end if and only if no key was assigned two
  values.
-/

universe u v

variable {κ : Type u} {β : Type v} [DecidableEq κ]

/-- A function after values are assigned to keys. -/
def assign (f : κ → β) (l : List (κ × β)) : κ → β :=
  l.foldl (fun f p => Function.update f p.1 p.2) f

/-- No key is assigned two values. -/
def Consistent (l : List (κ × β)) : Prop := ∀ p ∈ l, ∀ q ∈ l, p.1 = q.1 → p.2 = q.2

@[simp]
theorem assign_nil (f : κ → β) : assign f [] = f := rfl

theorem assign_cons (f : κ → β) (p : κ × β) (l : List (κ × β)) :
    assign f (p :: l) = assign (Function.update f p.1 p.2) l := rfl

theorem assign_append (f : κ → β) (l l' : List (κ × β)) :
    assign f (l ++ l') = assign (assign f l) l' := List.foldl_append

variable {f : κ → β} {l : List (κ × β)}

theorem assign_of_notMem {k : κ} (h : k ∉ l.map Prod.fst) : assign f l k = f k := by
  induction l generalizing f with
  | nil => rfl
  | cons p l ih =>
    rw [List.map_cons, List.mem_cons, not_or] at h
    rw [assign_cons, ih h.2, Function.update_of_ne h.1]

theorem exists_mem_assign {k : κ} (h : k ∈ l.map Prod.fst) : (k, assign f l k) ∈ l := by
  induction l generalizing f with
  | nil => cases h
  | cons p l ih =>
    rw [assign_cons]
    by_cases hk : k ∈ l.map Prod.fst
    · exact List.mem_cons_of_mem p (ih hk)
    · have hp : k = p.1 := (List.mem_cons.mp h).resolve_right hk
      rw [assign_of_notMem hk, hp, Function.update_self]
      exact List.mem_cons_self

/-- **Assignment rule.** What was assigned is there if and only if the assignments agree. -/
theorem forall_assign_iff : (∀ p ∈ l, assign f l p.1 = p.2) ↔ Consistent l := by
  constructor
  · intro h p hp q hq heq
    rw [← h p hp, ← h q hq, heq]
  · intro h p hp
    exact h _ (exists_mem_assign (List.mem_map_of_mem hp)) p hp rfl

omit [DecidableEq κ] in
theorem consistent_zip {l : List κ} (h : l.Nodup) (m : List β) : Consistent (l.zip m) := by
  intro p hp q hq heq
  obtain ⟨i, hi, rfl⟩ := List.mem_iff_getElem.mp hp
  obtain ⟨j, hj, rfl⟩ := List.mem_iff_getElem.mp hq
  rw [List.getElem_zip, List.getElem_zip] at heq
  obtain rfl := (List.Nodup.getElem_inj_iff h).mp heq
  rfl

end MpactSim.Lib
