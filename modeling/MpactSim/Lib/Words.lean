import Mathlib.Tactic
import Mathlib.Data.BitVec
import Mathlib.Data.List.GetD

namespace MpactSim.Lib

/-!
# Bit vectors of many words

A list of 64-bit words is a bit vector: bit `c` is bit `c mod 64` of word `c div 64`, and no
bit beyond the last word is set.  `bitAt` reads it; the lemmas say what a loop over the words
does to its bits.
-/

/-- Bit `c` of a list of words. -/
def bitAt (words : List (BitVec 64)) (c : Nat) : Bool :=
  (words.getD (c / 64) 0).getLsbD (c % 64)

theorem bitAt_eq_false {words : List (BitVec 64)} {c : Nat} (h : 64 * words.length ≤ c) :
    bitAt words c = false := by
  have hlen : words.length ≤ c / 64 := by omega
  rw [bitAt, List.getD_eq_default _ _ hlen]
  exact BitVec.getLsbD_zero

@[simp]
theorem bitAt_replicate_zero (n c : Nat) : bitAt (List.replicate n 0) c = false := by
  have hzero : (List.replicate n (0 : BitVec 64)).getD (c / 64) 0 = 0 := by
    rw [List.getD_eq_getElem?_getD, List.getElem?_replicate]
    split <;> rfl
  rw [bitAt, hzero]
  exact BitVec.getLsbD_zero

theorem bitAt_mapIdx (f : Nat → BitVec 64 → BitVec 64) {words : List (BitVec 64)} {c : Nat}
    (h : c < 64 * words.length) :
    bitAt (words.mapIdx f) c = (f (c / 64) (words.getD (c / 64) 0)).getLsbD (c % 64) := by
  have hlen : c / 64 < words.length := by omega
  have hget : (words.mapIdx f).getD (c / 64) 0 = f (c / 64) (words.getD (c / 64) 0) := by
    rw [List.getD_eq_getElem?_getD, List.getD_eq_getElem?_getD, List.getElem?_mapIdx,
      List.getElem?_eq_getElem hlen]
    rfl
  rw [bitAt, hget]

theorem words_ext {words words' : List (BitVec 64)} (hlen : words.length = words'.length)
    (h : ∀ c, bitAt words c = bitAt words' c) : words = words' := by
  apply List.ext_getElem hlen
  intro i hi hi'
  apply BitVec.eq_of_getLsbD_eq
  intro b hb
  have hbit := h (64 * i + b)
  have hdiv : (64 * i + b) / 64 = i := by omega
  have hmod : (64 * i + b) % 64 = b := by omega
  rw [bitAt, bitAt, hdiv, hmod, List.getD_eq_getElem _ _ hi, List.getD_eq_getElem _ _ hi'] at hbit
  exact hbit

theorem toNat_and_shiftLeft_allOnes {w : Nat} (a : BitVec w) (k : Nat) :
    (a &&& BitVec.allOnes w <<< k).toNat = a.toNat / 2 ^ k * 2 ^ k := by
  have hle : a.toNat / 2 ^ k * 2 ^ k ≤ a.toNat := Nat.div_mul_le_self _ _
  rw [← BitVec.shiftLeft_ushiftRight, BitVec.toNat_shiftLeft, BitVec.toNat_ushiftRight,
    Nat.shiftLeft_eq, Nat.shiftRight_eq_div_pow]
  exact Nat.mod_eq_of_lt (lt_of_le_of_lt hle a.isLt)

end MpactSim.Lib
