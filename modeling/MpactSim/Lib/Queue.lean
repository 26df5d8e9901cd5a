import MpactSim.Lib.Run

namespace MpactSim.Lib

/-!
# Queues along runs

A system that holds a queue: a step lets elements in at the back and out at the front.

* `collect`           — what the steps of a run let in, or out;
* `collect_conserved` — what has entered is what has left, followed by what is still held.
-/

universe u v w

variable {σ : Type u} {ρ : Type v} {α : Type w} (step : σ → ρ → σ)

/-- What the steps of a run put out, in their order. -/
def collect (out : σ → ρ → List α) : σ → List ρ → List α
  | _, [] => []
  | s, r :: rest => out s r ++ collect out (step s r) rest

variable {step}

@[simp]
theorem collect_nil (out : σ → ρ → List α) (s : σ) : collect step out s [] = [] := rfl

@[simp]
theorem collect_cons (out : σ → ρ → List α) (s : σ) (r : ρ) (rest : List ρ) :
    collect step out s (r :: rest) = out s r ++ collect step out (step s r) rest := rfl

/-- **Conservation rule.** If every step appends what enters to the contents and takes what leaves
    off their front, then over a run the elements leave in the order in which they entered, and
    those that have not left are the contents. -/
theorem collect_conserved {contents : σ → List α} {entered left : σ → ρ → List α}
    (hstep : ∀ s r, contents s ++ entered s r = left s r ++ contents (step s r)) (s : σ)
    (reqs : List ρ) :
    contents s ++ collect step entered s reqs =
      collect step left s reqs ++ contents (run step s reqs) := by
  induction reqs generalizing s with
  | nil => simp
  | cons r rest ih =>
    calc contents s ++ (entered s r ++ collect step entered (step s r) rest)
        = left s r ++ (contents (step s r) ++ collect step entered (step s r) rest) := by
          rw [← List.append_assoc, hstep, List.append_assoc]
      _ = left s r ++ collect step left (step s r) rest ++ contents (run step (step s r) rest) := by
          rw [ih, List.append_assoc]

end MpactSim.Lib
