import Mathlib.Data.BitVec
import Mathlib.Tactic

namespace MpactSim.Lib

/-!
# Masks

Words as sets of bits.

* `and_eq_zero_iff`     — words without a common bit;
* `and_not_eq_zero_iff` — a word whose bits are bits of another one.
-/

variable {w : Nat} {a b c : BitVec w}

theorem and_eq_zero_iff : a &&& b = 0 ↔ ∀ i, a.getLsbD i = true → b.getLsbD i = false := by
  constructor
  · intro h i ha
    have hbit := congrArg (fun x => x.getLsbD i) h
    simpa [ha] using hbit
  · intro h
    apply BitVec.eq_of_getLsbD_eq
    intro i _
    cases ha : a.getLsbD i with
    | false => simp [ha]
    | true => simp [h i ha]

theorem and_not_eq_zero_iff :
    a &&& ~~~b = 0 ↔ ∀ i, a.getLsbD i = true → b.getLsbD i = true := by
  rw [and_eq_zero_iff]
  refine forall_congr' fun i => imp_congr_right fun ha => ?_
  have hi := BitVec.lt_of_getLsbD ha
  simp [hi]

theorem and_eq_of_inside {x y : BitVec w} (h : a &&& ~~~b = 0) (hxy : x &&& b = y &&& b) :
    x &&& a = y &&& a := by
  have hab : b &&& a = a := by
    rw [and_not_eq_zero_iff] at h
    apply BitVec.eq_of_getLsbD_eq
    intro i _
    cases hi : a.getLsbD i with
    | false => simp [hi]
    | true => simp [hi, h i hi]
  rw [← hab, ← BitVec.and_assoc, hxy, BitVec.and_assoc]

theorem and_eq_zero_of_inside {a' b' : BitVec w} (hab : a &&& b = 0) (ha : a' &&& ~~~a = 0)
    (hb : b' &&& ~~~b = 0) : a' &&& b' = 0 := by
  rw [and_eq_zero_iff] at hab ⊢
  rw [and_not_eq_zero_iff] at ha hb
  intro i hi
  rw [← Bool.not_eq_true]
  intro hi'
  exact Bool.false_ne_true ((hab i (ha i hi)).symm.trans (hb i hi'))

end MpactSim.Lib
