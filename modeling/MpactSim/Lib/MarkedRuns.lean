import Mathlib.Tactic

namespace MpactSim.Lib

/-!
# Runs of marked positions

Positions come in order, each with a mark or without, and not all positions need to come.  A scan
opens a run at a mark and closes it at the next position without one.

* `scanRuns`          — the runs that a scan closes;
* `IsRun`             — a maximal run of a set of positions;
* `scanRuns_exact`    — the runs are the maximal ones, if a position follows every mark;
* `exists_isRun`      — a mark without a mark behind it ends a maximal run.
-/

/-- The scan: the start of the run that is open, and the runs that have been closed. -/
def runStep : Option Nat × List (Nat × Nat) → Nat × Bool → Option Nat × List (Nat × Nat)
  | (none, out), (_, false) => (none, out)
  | (none, out), (p, true) => (some p, out)
  | (some s, out), (_, true) => (some s, out)
  | (some s, out), (p, false) => (none, out ++ [(s, p)])

/-- The runs that a scan closes, each with its start and the position behind its end. -/
def scanRuns : Option Nat → List (Nat × Bool) → List (Nat × Nat)
  | _, [] => []
  | none, (_, false) :: rest => scanRuns none rest
  | none, (p, true) :: rest => scanRuns (some p) rest
  | some s, (_, true) :: rest => scanRuns (some s) rest
  | some s, (p, false) :: rest => (s, p) :: scanRuns none rest

theorem foldl_runStep (l : List (Nat × Bool)) (o : Option Nat) (out : List (Nat × Nat)) :
    (l.foldl runStep (o, out)).2 = out ++ scanRuns o l := by
  induction l generalizing o out with
  | nil => cases o <;> exact (List.append_nil out).symm
  | cons x rest ih =>
    obtain ⟨p, marked⟩ := x
    cases o with
    | none =>
      cases marked with
      | false => exact ih none out
      | true => exact ih (some p) out
    | some s =>
      cases marked with
      | false => exact (ih none _).trans (by rw [scanRuns, List.append_assoc]; rfl)
      | true => exact ih (some s) out

/-- A maximal run: positions from `s` on and before `a`, all in the set, with none of the set on
    either side. -/
structure IsRun (P : Nat → Prop) (s a : Nat) : Prop where
  lt : s < a
  all : ∀ p, s ≤ p → p < a → P p
  before : ∀ p, p + 1 = s → ¬P p
  behind : ¬P a

/-- A list has exactly the maximal runs of a set, in order. -/
structure ExactRuns (P : Nat → Prop) (runs : List (Nat × Nat)) : Prop where
  pairwise : runs.Pairwise fun r r' => r.2 < r'.1
  mem_iff : ∀ r, r ∈ runs ↔ IsRun P r.1 r.2

/-- Positions in order, such that a position follows every mark directly. -/
structure Followed (l : List (Nat × Bool)) : Prop where
  sorted : l.Pairwise fun x y => x.1 < y.1
  next : ∀ p, (p, true) ∈ l → ∃ marked, (p + 1, marked) ∈ l

variable {l rest : List (Nat × Bool)} {P Q : Nat → Prop} {s a p : Nat}

theorem ExactRuns.congr (h : ∀ p, P p ↔ Q p) {runs : List (Nat × Nat)} (hP : ExactRuns P runs) :
    ExactRuns Q runs := by
  obtain rfl : P = Q := funext fun p => propext (h p)
  exact hP

theorem Followed.tail {x : Nat × Bool} (h : Followed (x :: rest)) : Followed rest := by
  obtain ⟨hfirst, hsorted⟩ := List.pairwise_cons.mp h.sorted
  refine ⟨hsorted, fun p hp => ?_⟩
  obtain ⟨marked, hnext⟩ := h.next p (List.mem_cons_of_mem _ hp)
  refine ⟨marked, (List.mem_cons.mp hnext).resolve_left ?_⟩
  rintro rfl
  exact absurd (hfirst _ hp) (by show ¬p + 1 < p; omega)

/-- The position that follows a mark comes next. -/
theorem Followed.exists_cons (h : Followed ((p, true) :: rest)) :
    ∃ marked rest', rest = (p + 1, marked) :: rest' := by
  obtain ⟨hfirst, hsorted⟩ := List.pairwise_cons.mp h.sorted
  obtain ⟨marked, hnext⟩ := h.next p List.mem_cons_self
  have hmem : (p + 1, marked) ∈ rest := by
    refine (List.mem_cons.mp hnext).resolve_left fun heq => ?_
    have := congrArg Prod.fst heq
    simp at this
  cases rest with
  | nil => cases hmem
  | cons x rest' =>
    rcases List.mem_cons.mp hmem with rfl | hlater
    · exact ⟨marked, rest', rfl⟩
    · have hlt := (List.pairwise_cons.mp hsorted).1 _ hlater
      have hgt := hfirst x List.mem_cons_self
      simp only at hlt hgt
      omega

/-- The runs of a set that has one run up to a position, and is `Q` behind it. -/
theorem isRun_split (hlt : s < a) (hQ : ∀ p, Q p → a < p) (s' a' : Nat) :
    IsRun (fun p => (s ≤ p ∧ p < a) ∨ Q p) s' a' ↔ (s' = s ∧ a' = a) ∨ IsRun Q s' a' := by
  constructor
  · rintro ⟨hlt', hall, hbefore, hbehind⟩
    have hnot : ¬((s ≤ a ∧ a < a) ∨ Q a) := by
      rintro (⟨-, h⟩ | h)
      · exact absurd h (lt_irrefl a)
      · exact absurd (hQ a h) (lt_irrefl a)
    rcases hall s' le_rfl hlt' with ⟨hge, hend⟩ | hin
    · refine .inl ⟨?_, ?_⟩
      · by_contra hne
        exact hbefore (s' - 1) (by omega) (.inl ⟨by omega, by omega⟩)
      · by_contra hne
        rcases Nat.lt_or_gt_of_ne hne with h | h
        · exact hbehind (.inl ⟨by omega, h⟩)
        · exact hnot (hall a hend.le h)
    · have hgt := hQ s' hin
      refine .inr ⟨hlt', fun p hp hp' => ?_, fun p hp hQp => hbefore p hp (.inr hQp),
        fun hQa => hbehind (.inr hQa)⟩
      exact (hall p hp hp').resolve_left fun h => by omega
  · rintro (⟨rfl, rfl⟩ | ⟨hlt', hall, hbefore, hbehind⟩)
    · refine ⟨hlt, fun p hp hp' => .inl ⟨hp, hp'⟩, fun p hp => ?_, ?_⟩
      · rintro (h | h)
        · omega
        · have := hQ p h
          omega
      · rintro (h | h)
        · omega
        · exact absurd (hQ _ h) (lt_irrefl _)
    · have hgt := hQ s' (hall s' le_rfl hlt')
      refine ⟨hlt', fun p hp hp' => .inr (hall p hp hp'), fun p hp => ?_, ?_⟩
      · rintro (h | h)
        · omega
        · exact hbefore p hp h
      · rintro (h | h)
        · omega
        · exact hbehind h

/-- **The scan closes exactly the maximal runs** of marks, if a position follows every mark. -/
theorem scanRuns_exact (h : Followed l) :
    ExactRuns (fun p => (p, true) ∈ l) (scanRuns none l) ∧
      ∀ s p marked rest, l = (p, marked) :: rest → s < p →
        ExactRuns (fun q => (s ≤ q ∧ q < p) ∨ (q, true) ∈ l) (scanRuns (some s) l) := by
  induction l with
  | nil =>
    refine ⟨⟨List.Pairwise.nil, fun r => iff_of_false List.not_mem_nil fun hrun => ?_⟩, ?_⟩
    · exact absurd (hrun.all _ le_rfl hrun.lt) List.not_mem_nil
    · intro s p marked rest heq
      cases heq
  | cons x rest ih =>
    obtain ⟨p, marked⟩ := x
    obtain ⟨hnone, hsome⟩ := ih h.tail
    obtain ⟨hfirst, -⟩ := List.pairwise_cons.mp h.sorted
    cases marked with
    | false =>
      have hmem : ∀ q, (q, true) ∈ (p, false) :: rest ↔ (q, true) ∈ rest := by simp
      refine ⟨hnone.congr fun q => (hmem q).symm, ?_⟩
      rintro s p' marked rest' heq hlt
      cases heq
      have hsplit := isRun_split hlt (fun q hq => hfirst (q, true) hq)
      have hstart : ∀ r ∈ scanRuns none rest, p < r.1 := by
        intro r hr
        have hrun := (hnone.mem_iff r).mp hr
        exact hfirst _ (hrun.all _ le_rfl hrun.lt)
      refine ExactRuns.congr (fun q => or_congr_right (hmem q).symm)
        ⟨List.pairwise_cons.mpr ⟨hstart, hnone.pairwise⟩, fun r => ?_⟩
      rw [scanRuns, List.mem_cons, hnone.mem_iff, hsplit r.1 r.2, Prod.ext_iff]
    | true =>
      obtain ⟨marked', rest', hrest⟩ := h.exists_cons
      refine ⟨(hsome p (p + 1) marked' rest' hrest (Nat.lt_succ_self p)).congr fun q => ?_, ?_⟩
      · rw [List.mem_cons, Prod.mk.injEq, eq_self, and_true]
        refine or_congr_left ?_
        omega
      · rintro s p' marked rest'' heq hlt
        cases heq
        refine (hsome s (p + 1) marked' rest' hrest (by omega)).congr fun q => ?_
        rw [List.mem_cons, Prod.mk.injEq, eq_self, and_true, ← or_assoc]
        refine or_congr_left ?_
        omega

theorem end_mem_of_mem_scanRuns {o : Option Nat} {r : Nat × Nat} (hr : r ∈ scanRuns o l) :
    (r.2, false) ∈ l := by
  induction l generalizing o with
  | nil => cases o <;> cases hr
  | cons x rest ih =>
    obtain ⟨p, marked⟩ := x
    cases o with
    | none => cases marked <;> exact List.mem_cons_of_mem _ (ih hr)
    | some s =>
      cases marked with
      | true => exact List.mem_cons_of_mem _ (ih hr)
      | false =>
        rcases List.mem_cons.mp hr with rfl | hlater
        · exact List.mem_cons_self
        · exact List.mem_cons_of_mem _ (ih hlater)

theorem lt_of_mem_scanRuns {o : Option Nat} {r : Nat × Nat}
    (hsorted : l.Pairwise fun x y => x.1 < y.1) (ho : ∀ s, o = some s → ∀ x ∈ l, s < x.1)
    (hr : r ∈ scanRuns o l) : r.1 < r.2 := by
  induction l generalizing o with
  | nil => cases o <;> cases hr
  | cons x rest ih =>
    obtain ⟨p, marked⟩ := x
    obtain ⟨hfirst, hrest⟩ := List.pairwise_cons.mp hsorted
    have hnone : ∀ s, none = some s → ∀ x ∈ rest, s < x.1 := by
      intro s hs
      cases hs
    cases o with
    | none =>
      cases marked with
      | false => exact ih hrest hnone hr
      | true =>
        refine ih hrest (fun s hs y hy => ?_) hr
        cases hs
        exact hfirst y hy
    | some s =>
      cases marked with
      | true => exact ih hrest (fun s' hs y hy => ho s' hs y (List.mem_cons_of_mem _ hy)) hr
      | false =>
        rcases List.mem_cons.mp hr with rfl | hlater
        · exact ho s rfl (p, false) List.mem_cons_self
        · exact ih hrest hnone hlater

theorem exists_isRun (hp : P p) (hnext : ¬P (p + 1)) : ∃ s, IsRun P s (p + 1) := by
  have hback : ∀ p, P p → ∃ s ≤ p, (∀ q, s ≤ q → q < p + 1 → P q) ∧ ∀ q, q + 1 = s → ¬P q := by
    intro p
    induction p with
    | zero =>
      intro hp
      refine ⟨0, le_rfl, fun q _ hq => ?_, fun q hq => by omega⟩
      obtain rfl : q = 0 := by omega
      exact hp
    | succ p ih =>
      intro hp
      by_cases hprev : P p
      · obtain ⟨s, hle, hall, hbefore⟩ := ih hprev
        refine ⟨s, by omega, fun q hq hq' => ?_, hbefore⟩
        by_cases hlast : q = p + 1
        · rwa [hlast]
        · exact hall q hq (by omega)
      · refine ⟨p + 1, le_rfl, fun q hq hq' => ?_, fun q hq => ?_⟩
        · obtain rfl : q = p + 1 := by omega
          exact hp
        · obtain rfl : q = p := by omega
          exact hprev
  obtain ⟨s, hle, hall, hbefore⟩ := hback p hp
  exact ⟨s, by omega, hall, hbefore, hnext⟩

end MpactSim.Lib
