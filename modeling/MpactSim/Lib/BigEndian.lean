import Mathlib.Tactic
import Mathlib.Data.BitVec

namespace MpactSim.Lib

/-!
# Byte arrays as numbers

A byte array stands for a number with the most significant byte first.  Bit `j` of the number
is bit `j mod 8` of the byte that is `j div 8` bytes before the last one.
-/

/-- The number of a byte array. -/
def bigEndian (bytes : List (BitVec 8)) : Nat := bytes.foldl (fun n b => 256 * n + b.toNat) 0

theorem bigEndian_append_singleton (bytes : List (BitVec 8)) (b : BitVec 8) :
    bigEndian (bytes ++ [b]) = 256 * bigEndian bytes + b.toNat := by
  rw [bigEndian, List.foldl_append]
  rfl

theorem bigEndian_lt (bytes : List (BitVec 8)) : bigEndian bytes < 2 ^ (8 * bytes.length) := by
  induction bytes using List.reverseRecOn with
  | nil => decide
  | append_singleton rest b ih =>
    have hpow : 2 ^ (8 * (rest.length + 1)) = 256 * 2 ^ (8 * rest.length) := by ring
    have hb : b.toNat < 256 := b.isLt
    rw [bigEndian_append_singleton, List.length_append, List.length_singleton, hpow]
    omega

theorem testBit_append_byte (n : Nat) (b : BitVec 8) (j : Nat) :
    (256 * n + b.toNat).testBit j = if j < 8 then b.getLsbD j else n.testBit (j - 8) := by
  have hlt : b.toNat < 2 ^ 8 := b.isLt
  rw [show 256 = 2 ^ 8 from rfl, Nat.testBit_two_pow_mul_add _ hlt]
  rfl

/-- Bit `j` of the number is in the byte that is `j / 8` bytes before the last one. -/
theorem testBit_bigEndian {bytes : List (BitVec 8)} {k j : Nat} (hk : k < bytes.length)
    (hj : j / 8 = bytes.length - 1 - k) :
    (bigEndian bytes).testBit j = bytes[k].getLsbD (j % 8) := by
  induction bytes using List.reverseRecOn generalizing j with
  | nil => cases hk
  | append_singleton rest b ih =>
    rw [List.length_append, List.length_singleton] at hk hj
    rw [bigEndian_append_singleton, testBit_append_byte]
    split
    · have hlast : k = rest.length := by omega
      subst hlast
      rw [List.getElem_append_right le_rfl, Nat.mod_eq_of_lt ‹_›]
      simp
    · have hfirst : k < rest.length := by omega
      rw [ih hfirst (by omega), List.getElem_append_left hfirst]
      congr 1
      omega

theorem testBit_bigEndian_set {bytes : List (BitVec 8)} {k : Nat} (hk : k < bytes.length)
    (b : BitVec 8) (j : Nat) :
    (bigEndian (bytes.set k b)).testBit j =
      if j / 8 = bytes.length - 1 - k then b.getLsbD (j % 8) else (bigEndian bytes).testBit j := by
  have hlen : (bytes.set k b).length = bytes.length := List.length_set
  split
  · rename_i hj
    rw [testBit_bigEndian (by rw [hlen]; exact hk) (by rw [hlen]; exact hj), List.getElem_set_self]
  · rename_i hj
    by_cases hin : j / 8 < bytes.length
    · have hother : bytes.length - 1 - j / 8 < bytes.length := by omega
      rw [testBit_bigEndian (by rw [hlen]; exact hother) (by rw [hlen]; omega),
        testBit_bigEndian hother (by omega), List.getElem_set_ne (by omega)]
    · have hpow : ∀ l : List (BitVec 8), l.length = bytes.length → (bigEndian l).testBit j = false := by
        intro l hl
        refine Nat.testBit_lt_two_pow (lt_of_lt_of_le (bigEndian_lt l) ?_)
        exact Nat.pow_le_pow_right (by decide) (by omega)
      rw [hpow _ hlen, hpow _ rfl]

/-! ### The bytes of a number -/

/-- The last `n` bytes of a number, the most significant one first. -/
def toBigEndian : Nat → Nat → List (BitVec 8)
  | 0, _ => []
  | n + 1, w => toBigEndian n (w / 256) ++ [BitVec.ofNat 8 w]

@[simp]
theorem length_toBigEndian (n w : Nat) : (toBigEndian n w).length = n := by
  induction n generalizing w with
  | zero => rfl
  | succ n ih => rw [toBigEndian, List.length_append, ih, List.length_singleton]

theorem bigEndian_toBigEndian {n w : Nat} (h : w < 2 ^ (8 * n)) :
    bigEndian (toBigEndian n w) = w := by
  induction n generalizing w with
  | zero =>
    have hzero : w = 0 := by simpa using h
    rw [hzero]
    rfl
  | succ n ih =>
    have hpow : 2 ^ (8 * (n + 1)) = 256 * 2 ^ (8 * n) := by ring
    have hbyte : (BitVec.ofNat 8 w).toNat = w % 256 := BitVec.toNat_ofNat w 8
    rw [toBigEndian, bigEndian_append_singleton, ih (by omega), hbyte, Nat.div_add_mod]

end MpactSim.Lib
