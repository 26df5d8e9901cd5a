import Mathlib.Tactic

namespace MpactSim.Lib

/-!
# How a computation with a state ends

A computation that keeps a state and may fail ends in a result with a state, or in an error.  `Ends`
says of a start what holds of either; for each way to put computations together there is a rule that
says it of the parts.

* `Ends x Q E s`  — from `s`, `x` ends in a result and a state of `Q`, or in an error of `E`;
* `ends_bind`     — one computation after another;
* `Ends.mono`, `Ends.and` — weaker conditions, and two at once.
-/

universe u

variable {σ ε α β : Type u}

/-- From `s`, the computation ends in a result and a state of `Q`, or in an error of `E`. -/
def Ends (x : StateT σ (Except ε) α) (Q : α → σ → Prop) (E : ε → Prop) (s : σ) : Prop :=
  match x.run s with
  | .ok (a, s') => Q a s'
  | .error e => E e

variable {x : StateT σ (Except ε) α} {f : α → StateT σ (Except ε) β} {Q Q' : α → σ → Prop}
  {E E' : ε → Prop} {s : σ}

@[simp]
theorem ends_pure {a : α} : Ends (pure a) Q E s ↔ Q a s := Iff.rfl

@[simp]
theorem ends_get {Q : σ → σ → Prop} : Ends (get : StateT σ (Except ε) σ) Q E s ↔ Q s s := Iff.rfl

@[simp]
theorem ends_modify {g : σ → σ} {Q : PUnit → σ → Prop} :
    Ends (modify g : StateT σ (Except ε) PUnit) Q E s ↔ Q ⟨⟩ (g s) := Iff.rfl

/-- **Sequence.** The second computation starts where the first one ends. -/
@[simp]
theorem ends_bind {Q : β → σ → Prop} :
    Ends (x >>= f) Q E s ↔ Ends x (fun a s => Ends (f a) Q E s) E s := by
  unfold Ends
  rw [StateT.run_bind]
  cases x.run s with
  | error e => rfl
  | ok p => rfl

theorem Ends.mono (h : Ends x Q E s) (hQ : ∀ a s, Q a s → Q' a s) (hE : ∀ e, E e → E' e) :
    Ends x Q' E' s := by
  unfold Ends at *
  split at h
  · exact hQ _ _ h
  · exact hE _ h

theorem Ends.and (h : Ends x Q E s) (h' : Ends x Q' E' s) :
    Ends x (fun a s => Q a s ∧ Q' a s) (fun e => E e ∧ E' e) s := by
  unfold Ends at *
  cases hx : x.run s with
  | ok p =>
    rw [hx] at h h'
    exact ⟨h, h'⟩
  | error e =>
    rw [hx] at h h'
    exact ⟨h, h'⟩

theorem ends_false_iff {Q : α → σ → Prop} :
    Ends x Q (fun _ => False) s ↔ ∃ a s', x.run s = .ok (a, s') ∧ Q a s' := by
  unfold Ends
  split
  · next a s' heq => simp [heq]
  · next e heq => simp [heq]

theorem ends_of_run_eq_ok {a : α} {s' : σ} (h : x.run s = .ok (a, s')) : Ends x Q E s ↔ Q a s' := by
  unfold Ends
  rw [h]

theorem ends_of_run_eq_error {e : ε} (h : x.run s = .error e) : Ends x Q E s ↔ E e := by
  unfold Ends
  rw [h]

end MpactSim.Lib
