import Mathlib.Tactic
import Mathlib.Data.List.GetD

namespace MpactSim.Lib

/-!
# Flat arrays

An array without bounds is a function on positions.  `writeAt` and `readAt` copy a list to and
from consecutive positions.  `ofBlocks` puts an array together from blocks of one size; a copy
that stays in a block is a copy in the array (`ofBlocks_update`, `readAt_ofBlocks`).
-/

universe u

variable {α : Type u}

/-- Write a list from position `p` on. -/
def writeAt (f : Nat → α) (p : Nat) (xs : List α) : Nat → α :=
  fun q => if p ≤ q then xs.getD (q - p) (f q) else f q

/-- The `n` entries from position `p` on. -/
def readAt (f : Nat → α) (p n : Nat) : List α := (List.range n).map fun j => f (p + j)

@[simp]
theorem length_readAt (f : Nat → α) (p n : Nat) : (readAt f p n).length = n := by
  rw [readAt, List.length_map, List.length_range]

variable {f g : Nat → α} {p n q : Nat}

theorem getElem_readAt {j : Nat} (hj : j < (readAt f p n).length) :
    (readAt f p n)[j] = f (p + j) := by
  simp [readAt]

theorem writeAt_of_mem {xs : List α} (hp : p ≤ q) (hq : q - p < xs.length) :
    writeAt f p xs q = xs[q - p] := by
  rw [writeAt, if_pos hp, List.getD_eq_getElem _ _ hq]

theorem writeAt_of_notMem {xs : List α} (h : q < p ∨ p + xs.length ≤ q) :
    writeAt f p xs q = f q := by
  unfold writeAt
  split
  · rw [List.getD_eq_default _ _ (by omega)]
  · rfl

@[simp]
theorem writeAt_nil (f : Nat → α) (p : Nat) : writeAt f p [] = f := by
  funext q
  exact writeAt_of_notMem (by simp; omega)

theorem writeAt_append (f : Nat → α) (p : Nat) (xs ys : List α) :
    writeAt (writeAt f p xs) (p + xs.length) ys = writeAt f p (xs ++ ys) := by
  funext q
  by_cases hfirst : p ≤ q ∧ q - p < xs.length
  · rw [writeAt_of_notMem (by omega), writeAt_of_mem hfirst.1 hfirst.2,
      writeAt_of_mem hfirst.1 (by rw [List.length_append]; omega),
      List.getElem_append_left hfirst.2]
  · by_cases hsecond : p + xs.length ≤ q ∧ q - (p + xs.length) < ys.length
    · rw [writeAt_of_mem hsecond.1 hsecond.2,
        writeAt_of_mem (by omega) (by rw [List.length_append]; omega),
        List.getElem_append_right (by omega)]
      congr 1
      omega
    · rw [writeAt_of_notMem (by omega), writeAt_of_notMem (by omega),
        writeAt_of_notMem (by rw [List.length_append]; omega)]

theorem readAt_add (f : Nat → α) (p a b : Nat) :
    readAt f p (a + b) = readAt f p a ++ readAt f (p + a) b := by
  unfold readAt
  rw [List.range_add, List.map_append, List.map_map]
  congr 1
  apply List.map_congr_left
  intro j _
  rw [Function.comp_apply, Nat.add_assoc]

theorem readAt_writeAt (f : Nat → α) (p : Nat) (xs : List α) :
    readAt (writeAt f p xs) p xs.length = xs := by
  apply List.ext_getElem
  · rw [length_readAt]
  · intro j hj hj'
    rw [getElem_readAt, writeAt_of_mem (by omega) (by omega)]
    congr 1
    omega

theorem readAt_eq_iff : readAt f p n = readAt g q n ↔ ∀ j < n, f (p + j) = g (q + j) := by
  unfold readAt
  rw [List.map_inj_left]
  simp only [List.mem_range]

theorem readAt_part (h : readAt f p n = readAt g q n) {i k : Nat} (hik : i + k ≤ n) :
    readAt f (p + i) k = readAt g (q + i) k := by
  rw [readAt_eq_iff] at h ⊢
  intro j hj
  rw [Nat.add_assoc, Nat.add_assoc]
  exact h (i + j) (by omega)

theorem readAt_writeAt_same (h : readAt f p n = readAt g q n) (i : Nat) (xs : List α) :
    readAt (writeAt f (p + i) xs) p n = readAt (writeAt g (q + i) xs) q n := by
  rw [readAt_eq_iff] at h ⊢
  intro j hj
  unfold writeAt
  by_cases hij : i ≤ j
  · rw [if_pos (by omega), if_pos (by omega), Nat.add_sub_add_left, Nat.add_sub_add_left, h j hj]
  · rw [if_neg (by omega), if_neg (by omega), h j hj]

/-- The array that is made of blocks of `size` entries. -/
def ofBlocks (size : Nat) (blocks : Nat → Nat → α) : Nat → α :=
  fun p => blocks (p / size) (p % size)

section Blocks

variable {size off : Nat} (blocks : Nat → Nat → α) (k : Nat)

theorem ofBlocks_apply {i : Nat} (h : i < size) : ofBlocks size blocks (k * size + i) = blocks k i := by
  have hdiv : (k * size + i) / size = k := by
    rw [Nat.add_comm, Nat.add_mul_div_right _ _ (by omega), Nat.div_eq_of_lt h, Nat.zero_add]
  have hmod : (k * size + i) % size = i := by
    rw [Nat.add_comm, Nat.add_mul_mod_self_right, Nat.mod_eq_of_lt h]
  rw [ofBlocks, hdiv, hmod]

theorem readAt_ofBlocks {n : Nat} (h : off + n ≤ size) :
    readAt (ofBlocks size blocks) (k * size + off) n = readAt (blocks k) off n := by
  unfold readAt
  apply List.map_congr_left
  intro j hj
  rw [List.mem_range] at hj
  rw [Nat.add_assoc, ofBlocks_apply blocks k (by omega)]

theorem ofBlocks_update {xs : List α} (h : off + xs.length ≤ size) (hpos : 0 < size) :
    ofBlocks size (Function.update blocks k (writeAt (blocks k) off xs)) =
      writeAt (ofBlocks size blocks) (k * size + off) xs := by
  funext q
  have hq : q = q / size * size + q % size := by
    rw [Nat.mul_comm]
    exact (Nat.div_add_mod q size).symm
  have hmod : q % size < size := Nat.mod_lt q hpos
  rw [ofBlocks]
  by_cases hk : q / size = k
  · -- The position is in the block.
    rw [hk, Function.update_self]
    rw [hk] at hq
    by_cases hmem : off ≤ q % size ∧ q % size - off < xs.length
    · rw [writeAt_of_mem hmem.1 hmem.2, writeAt_of_mem (by omega) (by omega)]
      congr 1
      omega
    · rw [writeAt_of_notMem (by omega), writeAt_of_notMem (by omega), ofBlocks]
      have hk' : q / size = k := by
        rw [hq, Nat.add_comm, Nat.add_mul_div_right _ _ hpos, Nat.div_eq_of_lt hmod, Nat.zero_add]
      rw [hk']
  · -- The position is in another block.
    have hout : q < k * size + off ∨ k * size + off + xs.length ≤ q := by
      rcases Nat.lt_or_gt_of_ne hk with hlt | hgt
      · have hmul := Nat.mul_le_mul_right size (Nat.succ_le_of_lt hlt)
        rw [Nat.succ_mul] at hmul
        omega
      · have hmul := Nat.mul_le_mul_right size (Nat.succ_le_of_lt hgt)
        rw [Nat.succ_mul] at hmul
        omega
    rw [Function.update_of_ne hk, writeAt_of_notMem hout, ofBlocks]

end Blocks

end MpactSim.Lib
