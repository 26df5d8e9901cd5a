import Mathlib.Tactic

namespace MpactSim.Lib

/-!
# Functions that overwrite

What is observed of a state is overwritten by a function if it becomes a constant, and kept if it
stays what it was.  When functions do one or the other to every observation, doing them again
undoes whatever was done by some of them before.

* `Overwrites`    — such a function, on the states with a property;
* `foldl_absorb`  — the functions of a list absorb what some of them did before.
-/

variable {α ι κ : Type} {β : κ → Type} {P : α → Prop} {obs : ∀ k, α → β k}

/-- On the states with `P`, every observation is kept or becomes a constant. -/
structure Overwrites (P : α → Prop) (obs : ∀ k, α → β k) (f : α → α) : Prop where
  preserves : ∀ x, P x → P (f x)
  effect : ∀ k, (∀ x, P x → obs k (f x) = obs k x) ∨ ∃ c, ∀ x, P x → obs k (f x) = c

theorem overwrites_id : Overwrites P obs id :=
  ⟨fun _ hx => hx, fun _ => .inl fun _ _ => rfl⟩

theorem Overwrites.comp {f g : α → α} (hg : Overwrites P obs g) (hf : Overwrites P obs f) :
    Overwrites P obs (g ∘ f) := by
  refine ⟨fun x hx => hg.preserves _ (hf.preserves x hx), fun k => ?_⟩
  rcases hg.effect k with hkeep | ⟨c, hc⟩
  · rcases hf.effect k with hkeep' | ⟨c, hc⟩
    · exact .inl fun x hx => (hkeep _ (hf.preserves x hx)).trans (hkeep' x hx)
    · exact .inr ⟨c, fun x hx => (hkeep _ (hf.preserves x hx)).trans (hc x hx)⟩
  · exact .inr ⟨c, fun x hx => hc _ (hf.preserves x hx)⟩

theorem Overwrites.congr {f g : α → α} (hg : Overwrites P obs g) (h : ∀ x, P x → f x = g x) :
    Overwrites P obs f := by
  refine ⟨fun x hx => h x hx ▸ hg.preserves x hx, fun k => ?_⟩
  rcases hg.effect k with hkeep | ⟨c, hc⟩
  · exact .inl fun x hx => by rw [h x hx, hkeep x hx]
  · exact .inr ⟨c, fun x hx => by rw [h x hx, hc x hx]⟩

section List

variable {f : α → ι → α} {l l' : List ι}

theorem overwrites_foldl (h : ∀ i ∈ l, Overwrites P obs fun x => f x i) :
    Overwrites P obs fun x => l.foldl f x := by
  induction l with
  | nil => exact overwrites_id
  | cons i l ih =>
    exact (ih fun j hj => h j (List.mem_cons_of_mem i hj)).comp (h i List.mem_cons_self)

theorem obs_foldl_of_keep (h : ∀ i ∈ l, Overwrites P obs fun x => f x i) {k : κ}
    (hkeep : ∀ i ∈ l, ∀ x, P x → obs k (f x i) = obs k x) {x : α} (hx : P x) :
    obs k (l.foldl f x) = obs k x := by
  induction l generalizing x with
  | nil => rfl
  | cons i l ih =>
    have hi := h i List.mem_cons_self
    rw [List.foldl_cons, ih (fun j hj => h j (List.mem_cons_of_mem i hj))
      (fun j hj => hkeep j (List.mem_cons_of_mem i hj)) (hi.preserves x hx)]
    exact hkeep i List.mem_cons_self x hx

/-- An observation that some function does not keep becomes a constant. -/
theorem obs_foldl_of_not_keep (h : ∀ i ∈ l, Overwrites P obs fun x => f x i) {k : κ}
    (hkeep : ¬ ∀ i ∈ l, ∀ x, P x → obs k (f x i) = obs k x) :
    ∃ c, ∀ x, P x → obs k (l.foldl f x) = c := by
  induction l with
  | nil => exact absurd (fun _ hi => nomatch hi) hkeep
  | cons i l ih =>
    have hi := h i List.mem_cons_self
    have hl := fun j hj => h j (List.mem_cons_of_mem i hj)
    by_cases hrest : ∀ j ∈ l, ∀ x, P x → obs k (f x j) = obs k x
    · -- The first function is the last one that does not keep it.
      have hfirst : ¬ ∀ x, P x → obs k (f x i) = obs k x :=
        fun hfirst => hkeep (List.forall_mem_cons.mpr ⟨hfirst, hrest⟩)
      obtain ⟨c, hc⟩ := (hi.effect k).resolve_left hfirst
      refine ⟨c, fun x hx => ?_⟩
      rw [List.foldl_cons, obs_foldl_of_keep hl hrest (hi.preserves x hx)]
      exact hc x hx
    · obtain ⟨c, hc⟩ := ih hl hrest
      exact ⟨c, fun x hx => hc _ (hi.preserves x hx)⟩

/-- **Absorption.** What some of the functions did before does not show after all of them. -/
theorem foldl_absorb (h : ∀ i ∈ l', Overwrites P obs fun x => f x i) (hsub : l ⊆ l')
    (hext : ∀ x y, P x → P y → (∀ k, obs k x = obs k y) → x = y) {x : α} (hx : P x) :
    l'.foldl f (l.foldl f x) = l'.foldl f x := by
  have hl : ∀ i ∈ l, Overwrites P obs fun x => f x i := fun i hi => h i (hsub hi)
  have hmid := (overwrites_foldl hl).preserves x hx
  refine hext _ _ ((overwrites_foldl h).preserves _ hmid) ((overwrites_foldl h).preserves x hx)
    fun k => ?_
  by_cases hkeep : ∀ i ∈ l', ∀ x, P x → obs k (f x i) = obs k x
  · rw [obs_foldl_of_keep h hkeep hmid, obs_foldl_of_keep h hkeep hx,
      obs_foldl_of_keep hl (fun i hi => hkeep i (hsub hi)) hx]
  · obtain ⟨c, hc⟩ := obs_foldl_of_not_keep h hkeep
    rw [hc _ hmid, hc _ hx]

end List

end MpactSim.Lib
