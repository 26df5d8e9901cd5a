import Mathlib.Tactic

namespace MpactSim.Lib

/-!
# Two sorted lists compared in lockstep

Two lists of entries, each sorted by its keys, are read together.  The comparison ends at the
first key that is in one list only, or whose two entries decide it.

* `lockstep`      — the comparison;
* `decision`      — what is decided at a key, by look-up;
* `lockstep_cases` — the comparison is decided at the least key where something is.
-/

universe u v w

variable {κ : Type u} {α : Type v} {β : Type w}

/-- The entries are sorted by distinct keys. -/
def SortedKeys [LT κ] (l : List (κ × α)) : Prop := l.Pairwise fun p q => p.1 < q.1

section Definitions

variable [DecidableEq κ] (judge : α → α → Option β) (differ agree : β)

/-- The comparison of two lists.  `judge` decides on two entries of one key, or goes on; the
    answer is `differ` where the keys do, and `agree` at the common end. -/
def lockstep : List (κ × α) → List (κ × α) → β
  | (k, a) :: l, (k', b) :: r => if k = k' then (judge a b).getD (lockstep l r) else differ
  | [], [] => agree
  | _ :: _, [] | [], _ :: _ => differ

/-- What is decided at a key. -/
def decision (l r : List (κ × α)) (k : κ) : Option β :=
  match l.lookup k, r.lookup k with
  | none, none => none
  | some a, some b => judge a b
  | some _, none | none, some _ => some differ

end Definitions

variable [LinearOrder κ] {judge : α → α → Option β} {differ agree : β} {l r : List (κ × α)}

theorem lookup_eq_none_of_lt {k : κ} (h : ∀ p ∈ l, k < p.1) : l.lookup k = none := by
  rw [List.lookup_eq_none_iff]
  intro p hp
  simpa using (h p hp).ne

theorem decision_eq_none {k : κ} (hl : l.lookup k = none) (hr : r.lookup k = none) :
    decision judge differ l r k = none := by
  unfold decision
  rw [hl, hr]

theorem decision_cons_of_ne {k k' : κ} (h : k' ≠ k) (a b : α) :
    decision judge differ ((k, a) :: l) ((k, b) :: r) k' = decision judge differ l r k' := by
  have hne : (k' == k) = false := by simpa using h
  unfold decision
  rw [List.lookup_cons, hne, List.lookup_cons, hne]

theorem decision_cons_self (k : κ) (a b : α) :
    decision judge differ ((k, a) :: l) ((k, b) :: r) k = judge a b := by
  unfold decision
  rw [List.lookup_cons_self, List.lookup_cons_self]

/-- **Lockstep rule.** Either nothing is decided at any key and the lists agree, or the answer is
    what is decided at the least key where something is. -/
theorem lockstep_cases (hl : SortedKeys l) (hr : SortedKeys r) :
    ((∀ k, decision judge differ l r k = none) ∧ lockstep judge differ agree l r = agree) ∨
      ∃ k, (∀ j < k, decision judge differ l r j = none) ∧
        decision judge differ l r k = some (lockstep judge differ agree l r) := by
  -- Induction on both lists; where the first keys differ, the smaller one decides.
  induction l generalizing r with
  | nil =>
    cases r with
    | nil => exact .inl ⟨fun k => rfl, rfl⟩
    | cons q r =>
      refine .inr ⟨q.1, fun j hj => decision_eq_none rfl (lookup_eq_none_of_lt ?_), ?_⟩
      · intro p hp
        rcases List.mem_cons.mp hp with rfl | hp
        · exact hj
        · exact hj.trans ((List.pairwise_cons.mp hr).1 p hp)
      · unfold decision
        rw [List.lookup_cons_self, List.lookup_nil]
        rfl
  | cons p l ih =>
    obtain ⟨hpl, hl'⟩ := List.pairwise_cons.mp hl
    have hbelow : ∀ j, j < p.1 → (p :: l).lookup j = none := by
      intro j hj
      refine lookup_eq_none_of_lt fun p' hp' => ?_
      rcases List.mem_cons.mp hp' with rfl | hp'
      · exact hj
      · exact hj.trans (hpl p' hp')
    cases r with
    | nil =>
      refine .inr ⟨p.1, fun j hj => decision_eq_none (hbelow j hj) rfl, ?_⟩
      unfold decision
      rw [List.lookup_cons_self, List.lookup_nil]
      rfl
    | cons q r =>
      obtain ⟨hqr, hr'⟩ := List.pairwise_cons.mp hr
      have hbelow' : ∀ j, j < q.1 → (q :: r).lookup j = none := by
        intro j hj
        refine lookup_eq_none_of_lt fun q' hq' => ?_
        rcases List.mem_cons.mp hq' with rfl | hq'
        · exact hj
        · exact hj.trans (hqr q' hq')
      obtain ⟨k, a⟩ := p
      obtain ⟨k', b⟩ := q
      rcases lt_trichotomy k k' with hlt | rfl | hlt
      · refine .inr ⟨k, fun j hj => decision_eq_none (hbelow j hj)
          (hbelow' j (hj.trans hlt)), ?_⟩
        unfold decision
        rw [List.lookup_cons_self, hbelow' k hlt, lockstep, if_neg hlt.ne]
      · rw [lockstep, if_pos rfl]
        cases hjudge : judge a b with
        | some x =>
          refine .inr ⟨k, fun j hj => decision_eq_none (hbelow j hj) (hbelow' j hj), ?_⟩
          rw [decision_cons_self, hjudge]
          rfl
        | none =>
          rw [Option.getD_none]
          have hself : decision judge differ ((k, a) :: l) ((k, b) :: r) k = none := by
            rw [decision_cons_self, hjudge]
          rcases ih hl' hr' with ⟨hnone, hagree⟩ | ⟨k', hnone, hk'⟩
          · refine .inl ⟨fun j => ?_, hagree⟩
            by_cases hj : j = k
            · rw [hj, hself]
            · rw [decision_cons_of_ne hj, hnone]
          · have hne : k' ≠ k := by
              rintro rfl
              rw [decision_eq_none (lookup_eq_none_of_lt hpl)
                (lookup_eq_none_of_lt hqr)] at hk'
              cases hk'
            refine .inr ⟨k', fun j hj => ?_, by rw [decision_cons_of_ne hne, hk']⟩
            by_cases hjk : j = k
            · rw [hjk, hself]
            · rw [decision_cons_of_ne hjk, hnone j hj]
      · refine .inr ⟨k', fun j hj => decision_eq_none (hbelow j (hj.trans hlt))
          (hbelow' j hj), ?_⟩
        unfold decision
        rw [List.lookup_cons_self, hbelow k' hlt, lockstep, if_neg hlt.ne']

end MpactSim.Lib
