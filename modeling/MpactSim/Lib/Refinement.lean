import MpactSim.Lib.Run

namespace MpactSim.Lib

/-!
# Refinement of systems with outputs

A system takes steps that may have no result; a run has the outputs of its steps and the last
state.  A system refines a total one if related states step to related states with the same output.

* `runM`, `runOut`  — runs of the two;
* `AlongM`          — a property of the steps of a run;
* `runM_refines`    — the refinement of steps is one of runs.
-/

universe u v

variable {σ τ : Type u} {ρ : Type v} {β : Type u}

/-- The outputs and the last state of a run. -/
def runM (step : σ → ρ → Option (β × σ)) : σ → List ρ → Option (List β × σ)
  | s, [] => some ([], s)
  | s, r :: rest =>
    match step s r with
    | none => none
    | some (b, s') => (runM step s' rest).map fun (bs, last) => (b :: bs, last)

/-- The outputs and the last state of a run without failures. -/
def runOut (step : τ → ρ → β × τ) : τ → List ρ → List β × τ
  | t, [] => ([], t)
  | t, r :: rest => ((step t r).1 :: (runOut step (step t r).2 rest).1,
      (runOut step (step t r).2 rest).2)

/-- A property of states and requests that holds all along a run, as far as that has a result. -/
def AlongM (step : σ → ρ → Option (β × σ)) (P : σ → ρ → Prop) : σ → List ρ → Prop
  | _, [] => True
  | s, r :: rest => P s r ∧ ∀ b s', step s r = some (b, s') → AlongM step P s' rest

variable {step : σ → ρ → Option (β × σ)} {s : σ} {rs : List ρ} {P : σ → ρ → Prop}

/-- **Congruence.** Two systems whose steps are the same along a run of the first have the same
    run. -/
theorem runM_congr {step' : σ → ρ → Option (β × σ)}
    (h : AlongM step (fun s r => step s r = step' s r) s rs) :
    runM step s rs = runM step' s rs := by
  induction rs generalizing s with
  | nil => rfl
  | cons r rest ih =>
    obtain ⟨hr, hrest⟩ := h
    rw [runM, runM, ← hr]
    cases hstep : step s r with
    | none => rfl
    | some result =>
      dsimp only
      rw [ih (hrest _ _ hstep)]

theorem AlongM.imp {Q : σ → ρ → Prop} (himp : ∀ s r, P s r → Q s r) (h : AlongM step P s rs) :
    AlongM step Q s rs := by
  induction rs generalizing s with
  | nil => trivial
  | cons r rest ih => exact ⟨himp s r h.1, fun b s' hstep => ih (h.2 b s' hstep)⟩

theorem AlongM.of_append {before after : List ρ} (h : AlongM step P s (before ++ after)) :
    AlongM step P s before := by
  induction before generalizing s with
  | nil => trivial
  | cons r rest ih => exact ⟨h.1, fun b s' hstep => ih (h.2 b s' hstep)⟩

theorem along_of_alongM {ρ' : Type*} {τ' : Type*} {astep : τ' → ρ' → τ'} (f : ρ → ρ')
    (R : σ → τ' → Prop) {Q : τ' → ρ' → Prop} (hP : ∀ s t r, R s t → P s r → Q t (f r))
    (hstep : ∀ s t r b s', R s t → step s r = some (b, s') → R s' (astep t (f r))) {last : σ}
    {t : τ'} (h : R s t) {bs : List β} (hrun : runM step s rs = some (bs, last))
    (halong : AlongM step P s rs) :
    R last (run astep t (rs.map f)) ∧ Along astep Q t (rs.map f) := by
  induction rs generalizing s t bs with
  | nil =>
    cases hrun
    exact ⟨h, trivial⟩
  | cons r rest ih =>
    rw [runM] at hrun
    cases hmid : step s r with
    | none =>
      rw [hmid] at hrun
      cases hrun
    | some result =>
      obtain ⟨b, mid⟩ := result
      rw [hmid] at hrun
      obtain ⟨⟨bs', last'⟩, hrest, hlast⟩ := Option.map_eq_some_iff.mp hrun
      cases hlast
      obtain ⟨hR, hQ⟩ := ih (hstep s t r b mid h hmid) hrest (halong.2 b mid hmid)
      exact ⟨hR, hP s t r h halong.1, hQ⟩

/-- **Refinement rule.** If each step has a result with the output of the abstract step, and takes
    related states to related states, so do runs. -/
theorem runM_refines {astep : τ → ρ → β × τ} (R : σ → τ → Prop) {ok : σ → ρ → Prop}
    (hstep : ∀ s t r, R s t → ok s r → ∃ s', step s r = some ((astep t r).1, s') ∧
      R s' (astep t r).2) {t : τ} (h : R s t) (hok : AlongM step ok s rs) :
    ∃ s', runM step s rs = some ((runOut astep t rs).1, s') ∧ R s' (runOut astep t rs).2 := by
  induction rs generalizing s t with
  | nil => exact ⟨s, rfl, h⟩
  | cons r rest ih =>
    obtain ⟨hr, hrest⟩ := hok
    obtain ⟨mid, hmid, hR⟩ := hstep s t r h hr
    obtain ⟨last, hlast, hR'⟩ := ih hR (hrest _ _ hmid)
    refine ⟨last, ?_, hR'⟩
    rw [runM, hmid]
    simp only [hlast, Option.map_some]
    rfl

end MpactSim.Lib
