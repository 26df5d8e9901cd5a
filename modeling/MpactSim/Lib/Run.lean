import Mathlib.Tactic

namespace MpactSim.Lib

/-!
# Runs of a deterministic system

A system is a step function on states.  For a list of requests:

* `run step s reqs`   — the state after serving them in order;
* `Along step P s reqs` — `P` holds of every request at the state it is served in;
* `Since step start keep s reqs` — some request of the run was a `start`, and every
  request after it kept `keep`.
* `settle f` — the step of a system whose steps `f` may fail; a failed one changes
  nothing.

`since_of_step` turns a fact about one step into one about whole runs, and
`forall_run_iff_along` one about what exactly keeps an invariant.
-/

universe u v

variable {σ : Type u} {ρ : Type v} (step : σ → ρ → σ)

/-- The state after a list of requests. -/
def run (s : σ) (reqs : List ρ) : σ := reqs.foldl step s

/-- A property of states and requests that holds all along a run. -/
def Along (P : σ → ρ → Prop) : σ → List ρ → Prop
  | _, [] => True
  | s, r :: rest => P s r ∧ Along P (step s r) rest

/-- Some request was a `start`, and `keep` held at every request after it. -/
def Since (start keep : σ → ρ → Prop) (s : σ) (reqs : List ρ) : Prop :=
  ∃ before r after, reqs = before ++ r :: after ∧ start (run step s before) r ∧
    Along step keep (run step s (before ++ [r])) after

variable {step}

@[simp]
theorem run_nil (s : σ) : run step s [] = s := rfl

theorem run_append (s : σ) (before after : List ρ) :
    run step s (before ++ after) = run step (run step s before) after := by
  rw [run, run, run, List.foldl_append]

theorem run_snoc (s : σ) (reqs : List ρ) (r : ρ) :
    run step s (reqs ++ [r]) = step (run step s reqs) r := by
  rw [run_append]
  rfl

variable {P Q ok start keep : σ → ρ → Prop} {s s' : σ} {reqs : List ρ} {r : ρ}
  {f : σ → ρ → Option σ}

theorem along_append {before after : List ρ} :
    Along step P s (before ++ after) ↔
      Along step P s before ∧ Along step P (run step s before) after := by
  induction before generalizing s with
  | nil => simp [Along, run]
  | cons r rest ih =>
    rw [List.cons_append, Along, Along, ih, and_assoc]
    rfl

theorem along_snoc :
    Along step P s (reqs ++ [r]) ↔ Along step P s reqs ∧ P (run step s reqs) r := by
  rw [along_append]
  simp [Along]

theorem along_iff_forall :
    Along step P s reqs ↔ ∀ before r after, reqs = before ++ r :: after → P (run step s before) r := by
  constructor
  · rintro h before r after rfl
    exact (along_append.mp h).2.1
  · intro h
    induction reqs generalizing s with
    | nil => trivial
    | cons r rest ih =>
      refine ⟨h [] r rest rfl, ih ?_⟩
      rintro before r' after rfl
      exact h (r :: before) r' after rfl

theorem along_of_forall (h : ∀ s r, P s r) : Along step P s reqs := by
  induction reqs generalizing s with
  | nil => trivial
  | cons r rest ih => exact ⟨h s r, ih⟩

theorem along_and (hP : Along step P s reqs) (hQ : Along step Q s reqs) :
    Along step (fun s r => P s r ∧ Q s r) s reqs := by
  induction reqs generalizing s with
  | nil => trivial
  | cons r rest ih => exact ⟨⟨hP.1, hQ.1⟩, ih hP.2 hQ.2⟩

/-- **Step rule.** What holds of a step exactly when it is `ok`, in the states of an invariant
    that it keeps, holds all along a run exactly when every step is `ok`. -/
theorem along_iff_along (P : σ → Prop) (hstep : ∀ s r, P s → (Q s r ↔ ok s r))
    (hkeep : ∀ s r, P s → Q s r → P (step s r)) (hs : P s) :
    Along step Q s reqs ↔ Along step ok s reqs := by
  induction reqs generalizing s with
  | nil => rfl
  | cons r rest ih =>
    rw [Along, Along, hstep s r hs, and_congr_right_iff]
    intro hok
    exact ih (hkeep s r hs ((hstep s r hs).mpr hok))

theorem along_of_along (P : σ → Prop) (hkeep : ∀ s r, P s → ok s r → P (step s r))
    (hQ : ∀ s r, P s → ok s r → Q s r) (hs : P s) (h : Along step ok s reqs) :
    Along step Q s reqs := by
  induction reqs generalizing s with
  | nil => trivial
  | cons r rest ih => exact ⟨hQ s r hs h.1, ih (hkeep s r hs h.1) h.2⟩

/-- **Invariant rule.** What every step that is `ok` keeps, a run of such steps keeps. -/
theorem run_invariant (P : σ → Prop) (hstep : ∀ s r, P s → ok s r → P (step s r)) (hs : P s)
    (hok : Along step ok s reqs) : P (run step s reqs) := by
  induction reqs generalizing s with
  | nil => exact hs
  | cons r rest ih => exact ih (hstep s r hs hok.1) hok.2

/-- **Exact invariant rule.** If a step keeps the invariant exactly when it is `ok`, the
    invariant holds in every state of a run exactly when all its steps are. -/
theorem forall_run_iff_along (P : σ → Prop) {ok : σ → ρ → Prop}
    (hstep : ∀ s r, P s → (P (step s r) ↔ ok s r)) {s : σ} (hs : P s) {reqs : List ρ} :
    (∀ before after, reqs = before ++ after → P (run step s before)) ↔
      Along step ok s reqs := by
  constructor
  · intro h
    induction reqs generalizing s with
    | nil => trivial
    | cons r rest ih =>
      have hfirst : P (step s r) := h [r] rest rfl
      refine ⟨(hstep s r hs).mp hfirst, ih hfirst ?_⟩
      rintro before after rfl
      exact h (r :: before) after rfl
  · rintro h before after rfl
    exact run_invariant P (fun s r hP hr => (hstep s r hP).mpr hr) hs (along_append.mp h).1

theorem Since.snoc {start keep : σ → ρ → Prop} {s : σ} {reqs : List ρ} {r : ρ}
    (h : Since step start keep s reqs) (hr : keep (run step s reqs) r) :
    Since step start keep s (reqs ++ [r]) := by
  obtain ⟨before, r₀, after, rfl, hstart, hkeep⟩ := h
  refine ⟨before, r₀, after ++ [r], by simp, hstart, along_snoc.mpr ⟨hkeep, ?_⟩⟩
  rwa [← run_append, List.append_assoc, List.singleton_append]

theorem not_since_snoc (reqs : List ρ) (hstart : ∀ s, ¬start s r) (hkeep : ∀ s, ¬keep s r) :
    ¬Since step start keep s (reqs ++ [r]) := by
  rintro ⟨before, r₀, after, hsplit, hstart₀, halong⟩
  rcases List.eq_nil_or_concat' after with rfl | ⟨after, last, rfl⟩
  · obtain ⟨-, hlast⟩ := List.append_inj' hsplit rfl
    cases hlast
    exact hstart _ hstart₀
  · rw [← List.cons_append, ← List.append_assoc] at hsplit
    obtain ⟨-, hlast⟩ := List.append_inj' hsplit rfl
    cases hlast
    exact hkeep _ (along_snoc.mp halong).2

/-- **Since rule.** A mark that is absent at first, and that one step leaves only where
    the request starts it or where it was there and the request keeps it, is present
    after a run only if it has been kept since a start. -/
theorem since_of_step (mark : σ → Prop) (hinit : ¬ mark s)
    (hstep : ∀ s r, ok s r → mark (step s r) → start s r ∨ (mark s ∧ keep s r))
    (hok : Along step ok s reqs) (hmark : mark (run step s reqs)) :
    Since step start keep s reqs := by
  -- Induction on the end of the run: the last request decides where the mark is from.
  induction reqs using List.reverseRecOn with
  | nil => exact absurd hmark hinit
  | append_singleton reqs r ih =>
    obtain ⟨hok', hr⟩ := along_snoc.mp hok
    rw [run_snoc] at hmark
    rcases hstep _ _ hr hmark with hstart | ⟨hmark', hkeep⟩
    · exact ⟨reqs, r, [], rfl, hstart, trivial⟩
    · exact (ih hok' hmark').snoc hkeep

/-- **Exact since rule.** A mark that is absent at first, and that a step leaves exactly where the
    request starts it, or where it was there and the request keeps it, is present after a run
    exactly if it has been kept since a start. -/
theorem iff_since_of_step (mark : σ → Prop) (hinit : ¬ mark s)
    (hstep : ∀ s r, ok s r → (mark (step s r) ↔ start s r ∨ (mark s ∧ keep s r)))
    (hok : Along step ok s reqs) : mark (run step s reqs) ↔ Since step start keep s reqs := by
  refine ⟨since_of_step mark hinit (fun s r hr => (hstep s r hr).mp) hok, ?_⟩
  rintro ⟨before, r, after, rfl, hstart, hkeep⟩
  obtain ⟨-, hr, hafter⟩ := along_append.mp hok
  have hmark : mark (run step s (before ++ [r])) := by
    rw [run_snoc]
    exact (hstep _ _ hr).mpr (.inl hstart)
  rw [run_append]
  change Along step ok (step (run step s before) r) after at hafter
  change mark (run step (step (run step s before) r) after)
  rw [run_snoc] at hkeep hmark
  clear hstart hr hok
  generalize step (run step s before) r = mid at *
  induction after generalizing mid with
  | nil => exact hmark
  | cons r rest ih =>
    obtain ⟨hkr, hkrest⟩ := hkeep
    obtain ⟨hor, horest⟩ := hafter
    exact ih _ hkrest ((hstep _ _ hor).mpr (.inr ⟨hmark, hkr⟩)) horest

/-- The step of a system whose steps may fail. -/
def settle {ε : Type*} (f : σ → ρ → Except ε σ) (s : σ) (r : ρ) : σ := ((f s r).toOption).getD s

/-- **Invariant rule.** What every successful step keeps, a run of the system keeps. -/
theorem settle_invariant {ε : Type*} {f : σ → ρ → Except ε σ} (P : σ → Prop)
    (hstep : ∀ s r s', P s → f s r = .ok s' → P s') (hs : P s) (reqs : List ρ) :
    P (run (settle f) s reqs) := by
  refine run_invariant P (fun s r hP _ => ?_) hs (along_of_forall fun _ _ => trivial)
  unfold settle
  cases hr : f s r with
  | error e => exact hP
  | ok s' => exact hstep s r s' hP hr

theorem run_settle_of_foldlM {ε : Type*} {f : σ → ρ → Except ε σ} (h : reqs.foldlM f s = .ok s') :
    run (settle f) s reqs = s' := by
  induction reqs generalizing s with
  | nil =>
    rw [List.foldlM_nil] at h
    cases h
    rfl
  | cons r rest ih =>
    rw [List.foldlM_cons] at h
    cases hr : f s r with
    | error e =>
      rw [hr] at h
      cases h
    | ok t =>
      rw [hr] at h
      have hstep : settle f s r = t := by rw [settle, hr]; rfl
      change run (settle f) (settle f s r) rest = s'
      rw [hstep]
      exact ih h

/-- The step of a system whose steps may have no result. -/
def attempt (f : σ → ρ → Option σ) (s : σ) (r : ρ) : σ := (f s r).getD s

theorem attempt_eq (h : f s r = some s') : attempt f s r = s' := by
  rw [attempt, h, Option.getD_some]

theorem foldlM_snoc_eq_some_iff {before : List ρ} :
    (before ++ [r]).foldlM f s = some s' ↔
      ∃ mid, before.foldlM f s = some mid ∧ f mid r = some s' := by
  simp [List.foldlM_append, Option.bind_eq_some_iff]

theorem run_attempt_of_foldlM (h : reqs.foldlM f s = some s') :
    run (attempt f) s reqs = s' ∧ Along (attempt f) (fun s r => ∃ s', f s r = some s') s reqs := by
  induction reqs generalizing s with
  | nil =>
    cases h
    exact ⟨rfl, trivial⟩
  | cons r rest ih =>
    rw [List.foldlM_cons] at h
    obtain ⟨mid, hmid, hrest⟩ := Option.bind_eq_some_iff.mp h
    obtain ⟨hrun, halong⟩ := ih hrest
    rw [← attempt_eq hmid] at hrun halong
    exact ⟨hrun, ⟨mid, hmid⟩, halong⟩

end MpactSim.Lib
