import Mathlib.Data.List.TakeWhile

namespace MpactSim.Lib

/-!
# Scans of a text

A scanner reads the longest part of a text of characters of one kind.  A text of that kind is what
it reads exactly if what follows does not begin with such a character.
-/

variable {α : Type*} {p q : α → Bool} {a a' s s' : List α} {c : α}

/-- Every character is of a kind. -/
def Within (p : α → Bool) (s : List α) : Prop := ∀ c ∈ s, p c = true

/-- A text does not begin with a character of a kind. -/
def Stops (p : α → Bool) (s : List α) : Prop := ∀ c ∈ s.head?, p c = false

@[simp] theorem within_nil : Within p [] := fun _ hc => absurd hc List.not_mem_nil

@[simp] theorem within_cons : Within p (c :: s) ↔ p c = true ∧ Within p s := List.forall_mem_cons

theorem within_append : Within p (a ++ s) ↔ Within p a ∧ Within p s := List.forall_mem_append

@[simp] theorem stops_nil : Stops p [] := fun _ hc => absurd hc (Option.not_mem_none _)

@[simp] theorem stops_cons : Stops p (c :: s) ↔ p c = false := by
  simp [Stops]

theorem stops_append (h : a ≠ []) : Stops p (a ++ s) ↔ Stops p a := by
  cases a with
  | nil => exact absurd rfl h
  | cons c a => rw [List.cons_append, stops_cons, stops_cons]

theorem Stops.append_left (hs : Stops p s) (ha : Within q a) (hq : ∀ c, q c = true → p c = false) :
    Stops p (a ++ s) := by
  cases a with
  | nil => exact hs
  | cons c a => exact stops_cons.mpr (hq c (within_cons.mp ha).1)

theorem within_takeWhile (p : α → Bool) (s : List α) : Within p (s.takeWhile p) :=
  fun _ hc => List.mem_takeWhile_imp hc

theorem stops_dropWhile (p : α → Bool) (s : List α) : Stops p (s.dropWhile p) := by
  intro c hc
  have hne : s.dropWhile p ≠ [] := by
    rintro hnil
    rw [hnil] at hc
    cases hc
  rw [List.head?_eq_some_head hne] at hc
  cases hc
  have h := List.head_dropWhile_not p hne
  exact Bool.eq_false_iff.mpr fun htrue => by simp [htrue] at h

theorem takeWhile_of_stops (h : Stops p s) : s.takeWhile p = [] := by
  cases s with
  | nil => rfl
  | cons c s => rw [List.takeWhile_cons_of_neg (by simp [stops_cons.mp h])]

theorem dropWhile_of_stops (h : Stops p s) : s.dropWhile p = s := by
  cases s with
  | nil => rfl
  | cons c s => rw [List.dropWhile_cons_of_neg (by simp [stops_cons.mp h])]

theorem takeWhile_append_of_stops (ha : Within p a) (hs : Stops p s) :
    (a ++ s).takeWhile p = a := by
  rw [List.takeWhile_append_of_pos ha, takeWhile_of_stops hs, List.append_nil]

theorem dropWhile_append_of_stops (ha : Within p a) (hs : Stops p s) :
    (a ++ s).dropWhile p = s := by
  rw [List.dropWhile_append_of_pos ha, dropWhile_of_stops hs]

theorem exists_scan (p : α → Bool) (s : List α) :
    ∃ a r, s = a ++ r ∧ Within p a ∧ Stops p r :=
  ⟨s.takeWhile p, s.dropWhile p, List.takeWhile_append_dropWhile.symm, within_takeWhile p s,
    stops_dropWhile p s⟩

theorem scan_unique (ha : Within p a) (hs : Stops p s) (ha' : Within p a') (hs' : Stops p s')
    (h : a ++ s = a' ++ s') : a = a' ∧ s = s' := by
  have htake := congrArg (List.takeWhile p) h
  have hdrop := congrArg (List.dropWhile p) h
  rw [takeWhile_append_of_stops ha hs, takeWhile_append_of_stops ha' hs'] at htake
  rw [dropWhile_append_of_stops ha hs, dropWhile_append_of_stops ha' hs'] at hdrop
  exact ⟨htake, hdrop⟩

theorem dropWhile_eq_nil_iff_within : s.dropWhile p = [] ↔ Within p s :=
  List.dropWhile_eq_nil_iff

end MpactSim.Lib
