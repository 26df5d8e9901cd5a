import Mathlib.Tactic

namespace MpactSim.Lib

/-!
# Maps whose keys are ranges

An ordered map is kept with ranges as keys, and one range is less than another if it ends
before the other starts.  Under this comparator ranges that overlap are equivalent.  The map
is the list of its entries in order; `lowerBound`, `find?`, `equalRange` and `insert` do what
a binary search by the comparator does.

* `RangeMap.Sorted`     — the ranges are not empty, in order and disjoint;
* `equalRange_eq_filter` — a search then finds exactly the ranges that overlap the key;
* `find?_eq_some_iff`    — the one that is found is the first of these.
-/

universe u v

/-- A range with both its ends. -/
structure Range (β : Type u) where
  lo : β
  hi : β
  deriving DecidableEq, Repr

variable {β : Type u} [LinearOrder β] {γ : Type v}

namespace Range

/-- The comparator: `r` ends before `s` starts. -/
def less (r s : Range β) : Bool := r.hi < s.lo

/-- Neither range is less than the other. -/
def Overlaps (r s : Range β) : Prop := r.lo ≤ s.hi ∧ s.lo ≤ r.hi

/-- All of `s` is in `r`. -/
def Contains (r s : Range β) : Prop := r.lo ≤ s.lo ∧ s.hi ≤ r.hi

instance (r s : Range β) : Decidable (r.Overlaps s) :=
  inferInstanceAs (Decidable (_ ∧ _))

instance (r s : Range β) : Decidable (r.Contains s) :=
  inferInstanceAs (Decidable (_ ∧ _))

end Range

/-- The entries of an ordered map with ranges as keys. -/
abbrev RangeMap (β : Type u) (γ : Type v) := List (Range β × γ)

namespace RangeMap

variable (m : RangeMap β γ) (key : Range β)

/-- The entries from the first one that is not less than the key. -/
def lowerBound : RangeMap β γ := m.dropWhile fun e => e.1.less key

/-- The first entry that is equivalent to the key. -/
def find? : Option (Range β × γ) := (lowerBound m key).head?.filter fun e => !key.less e.1

/-- The entries that are equivalent to the key. -/
def equalRange : RangeMap β γ := (lowerBound m key).takeWhile fun e => !key.less e.1

/-- Insert an entry before the first one that its key is less than. -/
def insert (e : Range β × γ) : RangeMap β γ :=
  m.takeWhile (fun x => !e.1.less x.1) ++ e :: m.dropWhile (fun x => !e.1.less x.1)

/-- Erase the entry that `find?` returns. -/
def eraseFound : RangeMap β γ := m.takeWhile (fun e => e.1.less key) ++ (lowerBound m key).tail

/-- The ranges are not empty, in order and disjoint. -/
structure Sorted : Prop where
  wellFormed : ∀ e ∈ m, e.1.lo ≤ e.1.hi
  pairwise : m.Pairwise fun e f => e.1.hi < f.1.lo

variable {m key}

theorem sorted_nil : Sorted ([] : RangeMap β γ) := ⟨by simp, List.Pairwise.nil⟩

variable {e : Range β × γ}

theorem Sorted.tail {rest : RangeMap β γ} (h : Sorted (e :: rest)) : Sorted rest :=
  ⟨fun f hf => h.wellFormed f (List.mem_cons_of_mem _ hf), (List.pairwise_cons.mp h.pairwise).2⟩

theorem Sorted.sublist {m' : RangeMap β γ} (h : Sorted m) (hsub : List.Sublist m' m) : Sorted m' :=
  ⟨fun e he => h.wellFormed e (hsub.subset he), h.pairwise.sublist hsub⟩

theorem Sorted.nodup (h : Sorted m) : m.Nodup := by
  refine h.pairwise.imp_of_mem fun {e f} he hf hlt heq => ?_
  subst heq
  exact absurd hlt (not_lt.mpr (h.wellFormed e he))

theorem Sorted.eq_of_mem (h : Sorted m) {f : Range β × γ} (he : e ∈ m) (hf : f ∈ m) {b : β}
    (hlo : e.1.lo ≤ b) (hhi : b ≤ e.1.hi) (hlo' : f.1.lo ≤ b) (hhi' : b ≤ f.1.hi) : e = f := by
  induction m with
  | nil => exact absurd he List.not_mem_nil
  | cons first rest ih =>
    have hfirst := (List.pairwise_cons.mp h.pairwise).1
    rcases List.mem_cons.mp he with rfl | he'
    · rcases List.mem_cons.mp hf with rfl | hf'
      · rfl
      · exact absurd (hlo'.trans hhi) (not_le.mpr (hfirst f hf'))
    · rcases List.mem_cons.mp hf with rfl | hf'
      · exact absurd (hlo.trans hhi') (not_le.mpr (hfirst e he'))
      · exact ih h.tail he' hf'

/-- A prefix of a list is a filter of it, if what fails once fails from there on. -/
theorem takeWhile_eq_filter {α : Type*} {p : α → Bool} {l : List α}
    (h : l.Pairwise fun a b => p b = true → p a = true) : l.takeWhile p = l.filter p := by
  induction l with
  | nil => rfl
  | cons a rest ih =>
    obtain ⟨hfirst, hrest⟩ := List.pairwise_cons.mp h
    cases ha : p a with
    | true => rw [List.takeWhile_cons_of_pos ha, List.filter_cons_of_pos ha, ih hrest]
    | false =>
      have hnone : rest.filter p = [] := by
        rw [List.filter_eq_nil_iff]
        intro b hb hpb
        rw [hfirst b hb hpb] at ha
        exact absurd ha (by decide)
      rw [List.takeWhile_cons_of_neg (by simp [ha]), List.filter_cons_of_neg (by simp [ha]), hnone]

/-- The rest of a list is a filter of it, if what fails once fails from there on. -/
theorem dropWhile_eq_filter {α : Type*} {p : α → Bool} {l : List α}
    (h : l.Pairwise fun a b => p b = true → p a = true) :
    l.dropWhile p = l.filter fun a => !p a := by
  induction l with
  | nil => rfl
  | cons a rest ih =>
    obtain ⟨hfirst, hrest⟩ := List.pairwise_cons.mp h
    cases ha : p a with
    | true => rw [List.dropWhile_cons_of_pos ha, List.filter_cons_of_neg (by simp [ha]), ih hrest]
    | false =>
      have hall : rest.filter (fun b => !p b) = rest := by
        rw [List.filter_eq_self]
        intro b hb
        cases hpb : p b with
        | false => rfl
        | true =>
          rw [hfirst b hb hpb] at ha
          exact absurd ha (by decide)
      rw [List.dropWhile_cons_of_neg (by simp [ha]), List.filter_cons_of_pos (by simp [ha]), hall]

theorem Sorted.pairwise_less (h : Sorted m) (key : Range β) :
    m.Pairwise fun e f => f.1.less key = true → e.1.less key = true := by
  refine h.pairwise.imp_of_mem fun {e f} he hf hlt hless => ?_
  have hf' := h.wellFormed f hf
  have hless' := of_decide_eq_true hless
  exact decide_eq_true ((hlt.trans_le hf').trans hless')

theorem Sorted.pairwise_not_greater (h : Sorted m) (key : Range β) :
    m.Pairwise fun e f => (!key.less f.1) = true → (!key.less e.1) = true := by
  refine h.pairwise.imp_of_mem fun {e f} he hf hlt hless => ?_
  have he' := h.wellFormed e he
  rw [Bool.not_eq_true', Range.less, decide_eq_false_iff_not, not_lt] at hless ⊢
  exact (he'.trans hlt.le).trans hless

/-- **Search.** Exactly the ranges that overlap the key are equivalent to it. -/
theorem equalRange_eq_filter (h : Sorted m) (key : Range β) :
    equalRange m key = m.filter fun e => decide (e.1.Overlaps key) := by
  have hlower : lowerBound m key = m.filter fun e => !e.1.less key :=
    dropWhile_eq_filter (h.pairwise_less key)
  have hsub : List.Sublist (lowerBound m key) m := List.dropWhile_sublist _
  rw [equalRange, takeWhile_eq_filter ((h.sublist hsub).pairwise_not_greater key), hlower,
    List.filter_filter]
  apply List.filter_congr
  intro e _
  rw [Range.less, Range.less, ← decide_not, ← decide_not, ← Bool.decide_and]
  apply decide_eq_decide.mpr
  rw [not_lt, not_lt]
  exact Iff.rfl

theorem find?_eq_head? (m : RangeMap β γ) (key : Range β) : find? m key = (equalRange m key).head? := by
  rw [find?, equalRange, List.head?_takeWhile]

theorem find?_eq_none_iff (h : Sorted m) (key : Range β) :
    find? m key = none ↔ ∀ e ∈ m, ¬ e.1.Overlaps key := by
  rw [find?_eq_head?, equalRange_eq_filter h, List.head?_eq_none_iff, List.filter_eq_nil_iff]
  simp

theorem mem_of_find?_eq_some (h : Sorted m) {key : Range β} (hfind : find? m key = some e) :
    e ∈ m ∧ e.1.Overlaps key := by
  rw [find?_eq_head?, equalRange_eq_filter h] at hfind
  have hmem := List.mem_of_mem_head? hfind
  rw [List.mem_filter, decide_eq_true_eq] at hmem
  exact hmem

/-- A range that has the start of the key, and does not start after its end, is found. -/
theorem find?_eq_some_of_mem (h : Sorted m) {key : Range β} (he : e ∈ m) (hlo : e.1.lo ≤ key.lo)
    (hhi : key.lo ≤ e.1.hi) (hkey : e.1.lo ≤ key.hi) : find? m key = some e := by
  obtain ⟨before, after, rfl⟩ := List.append_of_mem he
  have hbefore : ∀ f ∈ before, ¬ f.1.Overlaps key := by
    intro f hf hoverlap
    have hlt := (List.pairwise_append.mp h.pairwise).2.2 f hf e (List.mem_cons_self ..)
    exact absurd hoverlap.2 (not_le.mpr (hlt.trans_le hlo))
  have hfound : decide (e.1.Overlaps key) = true := decide_eq_true ⟨hkey, hhi⟩
  rw [find?_eq_head?, equalRange_eq_filter h, List.filter_append,
    List.filter_eq_nil_iff.mpr (by simpa using hbefore), List.nil_append, List.filter_cons,
    if_pos hfound]
  rfl

theorem mem_insert {f : Range β × γ} : f ∈ insert m e ↔ f = e ∨ f ∈ m := by
  conv_rhs => rw [← List.takeWhile_append_dropWhile (p := fun x => !e.1.less x.1) (l := m),
    List.mem_append]
  rw [insert, List.mem_append, List.mem_cons]
  exact or_left_comm

/-- A range that overlaps no entry is put between those before and those after it. -/
theorem Sorted.insert (h : Sorted m) (he : e.1.lo ≤ e.1.hi)
    (hdisjoint : ∀ f ∈ m, ¬ f.1.Overlaps e.1) : Sorted (insert m e) := by
  have hgreater := h.pairwise_not_greater e.1
  have hbefore : ∀ f ∈ m.takeWhile (fun x => !e.1.less x.1), f ∈ m ∧ f.1.hi < e.1.lo := by
    intro f hf
    rw [takeWhile_eq_filter hgreater, List.mem_filter, Bool.not_eq_true', Range.less,
      decide_eq_false_iff_not, not_lt] at hf
    refine ⟨hf.1, ?_⟩
    by_contra hle
    exact hdisjoint f hf.1 ⟨hf.2, not_lt.mp hle⟩
  have hafter : ∀ f ∈ m.dropWhile (fun x => !e.1.less x.1), f ∈ m ∧ e.1.hi < f.1.lo := by
    intro f hf
    rw [dropWhile_eq_filter hgreater, List.mem_filter, Bool.not_not] at hf
    exact ⟨hf.1, of_decide_eq_true hf.2⟩
  constructor
  · intro f hf
    rcases List.mem_append.mp hf with hf | hf
    · exact h.wellFormed f (hbefore f hf).1
    · rcases List.mem_cons.mp hf with rfl | hf
      · exact he
      · exact h.wellFormed f (hafter f hf).1
  · refine List.pairwise_append.mpr ⟨h.pairwise.sublist (List.takeWhile_sublist _), ?_, ?_⟩
    · exact List.pairwise_cons.mpr
        ⟨fun f hf => (hafter f hf).2, h.pairwise.sublist (List.dropWhile_sublist _)⟩
    · intro f hf g hg
      have hfe := (hbefore f hf).2
      rcases List.mem_cons.mp hg with rfl | hg
      · exact hfe
      · exact (hfe.trans_le he).trans (hafter g hg).2

theorem Sorted.eraseFound (h : Sorted m) (key : Range β) : Sorted (eraseFound m key) := by
  refine h.sublist ?_
  have hsub : List.Sublist (m.takeWhile (fun e => e.1.less key) ++ (lowerBound m key).tail)
      (m.takeWhile (fun e => e.1.less key) ++ lowerBound m key) :=
    List.Sublist.append_left (List.tail_sublist _) _
  rwa [lowerBound, List.takeWhile_append_dropWhile] at hsub

end RangeMap

end MpactSim.Lib
