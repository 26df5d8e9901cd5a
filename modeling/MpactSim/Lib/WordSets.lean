import Mathlib.Data.List.GetD
import Mathlib.Tactic

namespace MpactSim.Lib

/-!
# Sets of numbers as arrays of words

The bit of a number in an array of words of `w` bits is bit `p % w` of word `p / w`.

* `wordBit`, `members`   — the bit of a number, and the set of those whose bit is set;
* `updateWords`        — a loop that updates the elements of an array one after the other;
* `card_members`       — the words' ones are counted;
* `wordBit_ctz`          — the first one of a word is the least member in it.
-/

universe u

/-! ### Loops over arrays -/

section Loops

variable {α : Type u} {l : List α}

/-- `for (i = start; i < start + n; ++i) l[i] = f(i, l[i])`, without a result if an element is
    missing. -/
def updateWords (f : Nat → α → Option α) (start n : Nat) (l : List α) : Option (List α) :=
  (List.range' start n).foldlM (fun l i => do
    let a ← l[i]?
    let b ← f i a
    some (l.set i b)) l

/-- **Loop rule.** The elements within the bounds are updated, the others stay. -/
theorem updateWords_spec (f : Nat → α → Option α) (start n : Nat) (hbound : start + n ≤ l.length)
    (hf : ∀ i, start ≤ i → i < start + n → ∀ a, ∃ b, f i a = some b) :
    ∃ l', updateWords f start n l = some l' ∧ l'.length = l.length ∧
      ∀ i, l'[i]? = if start ≤ i ∧ i < start + n then l[i]?.bind (f i) else l[i]? := by
  induction n generalizing start l with
  | zero =>
    refine ⟨l, rfl, rfl, fun i => ?_⟩
    rw [if_neg (by omega)]
  | succ n ih =>
    obtain ⟨a, hget⟩ : ∃ a, l[start]? = some a := ⟨_, List.getElem?_eq_getElem (by omega)⟩
    obtain ⟨b, hb⟩ := hf start le_rfl (by omega) a
    have hlen : (l.set start b).length = l.length := List.length_set
    obtain ⟨l', hrun, hlen', hl'⟩ := ih (l := l.set start b) (start + 1) (by omega)
      (fun i hi hi' => hf i (by omega) (by omega))
    refine ⟨l', ?_, hlen'.trans hlen, fun i => ?_⟩
    · rw [updateWords, List.range'_succ, List.foldlM_cons, hget]
      show (f start _ >>= fun b => some (l.set start b)) >>= _ = _
      rw [hb]
      exact hrun
    · rw [hl' i]
      rcases Nat.lt_trichotomy i start with hlt | rfl | hgt
      · rw [if_neg (by omega), if_neg (by omega), List.getElem?_set_ne (by omega)]
      · rw [if_neg (by omega), if_pos (by omega), List.getElem?_set_self (by omega), hget]
        exact hb.symm
      · rw [List.getElem?_set_ne (by omega)]
        by_cases hi : i < start + (n + 1)
        · rw [if_pos (by omega), if_pos (by omega)]
        · rw [if_neg (by omega), if_neg (by omega)]

end Loops

/-! ### Members -/

section Members

variable {w : Nat} {words words' : List (BitVec w)} {p : Nat}

/-- The bit of a number. -/
def wordBit (words : List (BitVec w)) (p : Nat) : Bool := (words.getD (p / w) 0).getLsbD (p % w)

/-- The numbers whose bit is set. -/
def members (words : List (BitVec w)) : Finset Nat :=
  (Finset.range (w * words.length)).filter fun p => wordBit words p = true

theorem wordBit_of_le (h : words.length ≤ p / w) : wordBit words p = false := by
  rw [wordBit, List.getD_eq_default _ _ h]
  exact BitVec.getLsbD_zero

theorem wordBit_of_getElem? {a : BitVec w} (h : words[p / w]? = some a) :
    wordBit words p = a.getLsbD (p % w) := by
  rw [wordBit, List.getD_eq_getElem?_getD, h, Option.getD_some]

theorem mem_members : p ∈ members words ↔ wordBit words p = true := by
  rw [members, Finset.mem_filter, Finset.mem_range]
  refine ⟨fun h => h.2, fun h => ⟨?_, h⟩⟩
  by_contra hle
  have hw : 0 < w := by
    by_contra hw
    obtain rfl : w = 0 := by omega
    rw [wordBit, BitVec.of_length_zero (x := words.getD (p / 0) 0)] at h
    exact absurd h (by simp)
  have hfalse : wordBit words p = false :=
    wordBit_of_le ((Nat.le_div_iff_mul_le hw).mpr (by rw [Nat.mul_comm]; omega))
  rw [hfalse] at h
  cases h

/-- A bit that is set, within the array. -/
theorem wordBit_set (hw : 0 < w) (h : p / w < words.length) (q : Nat) :
    wordBit (words.set (p / w) (words.getD (p / w) 0 ||| 1#w <<< (p % w))) q = true ↔
      q = p ∨ wordBit words q = true := by
  rw [wordBit, wordBit, List.getD_eq_getElem?_getD]
  by_cases hword : q / w = p / w
  · have hmod : q % w < w := Nat.mod_lt _ hw
    rw [hword, List.getElem?_set_self h, Option.getD_some, BitVec.getLsbD_or,
      BitVec.getLsbD_shiftLeft, Bool.or_eq_true]
    have hone : (decide (q % w < w) && !decide (q % w < p % w) &&
        (1#w).getLsbD (q % w - p % w)) = true ↔ q = p := by
      rw [BitVec.getLsbD_one]
      simp only [Bool.and_eq_true, decide_eq_true_eq, Bool.not_eq_true', decide_eq_false_iff_not]
      have hq := Nat.div_add_mod q w
      have hp := Nat.div_add_mod p w
      rw [hword] at hq
      omega
    rw [hone, or_comm]
  · rw [List.getElem?_set_ne (Ne.symm hword), ← List.getD_eq_getElem?_getD]
    refine ⟨.inr, fun h => h.resolve_left ?_⟩
    rintro rfl
    exact hword rfl

theorem members_congr (h : ∀ p, wordBit words' p = wordBit words p) : members words' = members words := by
  ext p
  rw [mem_members, mem_members, h]

@[simp] theorem members_replicate (n : Nat) : members (List.replicate n (0 : BitVec w)) = ∅ := by
  ext p
  rw [mem_members]
  refine iff_of_false ?_ (Finset.notMem_empty p)
  by_cases hp : p / w < n
  · rw [wordBit_of_getElem? (a := 0) (by rw [List.getElem?_replicate, if_pos hp])]
    simp
  · rw [wordBit_of_le (by rw [List.length_replicate]; omega)]
    exact Bool.false_ne_true

theorem position_div_mod (hw : 0 < w) {i b : Nat} (hb : b < w) :
    (i * w + b) / w = i ∧ (i * w + b) % w = b := by
  constructor
  · rw [Nat.mul_comm, Nat.mul_add_div hw, Nat.div_eq_of_lt hb, Nat.add_zero]
  · rw [Nat.mul_comm, Nat.mul_add_mod, Nat.mod_eq_of_lt hb]

/-! ### The first bit of a word -/

theorem ctz_spec {a : BitVec w} (ha : a ≠ 0) :
    a.ctz.toNat < w ∧ a.getLsbD a.ctz.toNat = true ∧ ∀ j < a.ctz.toNat, a.getLsbD j = false := by
  have htrue : a.getLsbD a.ctz.toNat = true := BitVec.getLsbD_true_ctz_of_ne_zero ha
  exact ⟨BitVec.lt_of_getLsbD htrue, htrue, fun j hj => BitVec.getLsbD_false_of_lt_ctz hj⟩

theorem getLsbD_of_eq_zero {a : BitVec w} (ha : a = 0) (j : Nat) : a.getLsbD j = false := by
  rw [ha]
  exact BitVec.getLsbD_zero

/-! ### Counting -/

theorem cpop_eq_card (a : BitVec w) :
    a.cpop.toNat = ((Finset.range w).filter fun j => a.getLsbD j = true).card := by
  have hrec : ∀ n, a.cpopNatRec n 0
      = ((Finset.range n).filter fun j => a.getLsbD j = true).card := by
    intro n
    induction n with
    | zero => rfl
    | succ n ih =>
      rw [BitVec.cpopNatRec_succ, BitVec.cpopNatRec_add, ih, Finset.range_add_one,
        Finset.filter_insert]
      cases hbit : a.getLsbD n with
      | true =>
        rw [if_pos rfl, Finset.card_insert_of_notMem (by simp)]
        rfl
      | false =>
        rw [if_neg Bool.false_ne_true]
        rfl
  rw [BitVec.toNat_cpop, hrec]

theorem members_snoc (hw : 0 < w) (words : List (BitVec w)) (a : BitVec w) :
    members (words ++ [a]) = members words ∪
      ((Finset.range w).filter fun j => a.getLsbD j = true).map
        (addLeftEmbedding (w * words.length)) := by
  ext p
  rw [mem_members, Finset.mem_union, mem_members, Finset.mem_map]
  have hp := Nat.div_add_mod p w
  have hmod := Nat.mod_lt p hw
  rcases Nat.lt_trichotomy (p / w) words.length with hlt | heq | hgt
  · -- A position in one of the first words.
    have hsame : wordBit (words ++ [a]) p = wordBit words p := by
      rw [wordBit, wordBit, List.getD_append _ _ _ _ hlt]
    rw [hsame]
    refine ⟨.inl, ?_⟩
    rintro (h | ⟨j, hj, rfl⟩)
    · exact h
    · have hle : words.length ≤ (w * words.length + j) / w :=
        (Nat.le_div_iff_mul_le hw).mpr (by rw [Nat.mul_comm]; omega)
      exact absurd hlt (by simpa using hle)
  · -- A position in the further word.
    have hlast : wordBit (words ++ [a]) p = a.getLsbD (p % w) := by
      rw [wordBit, List.getD_append_right _ _ _ _ (by omega), heq, Nat.sub_self]
      rfl
    have hpast : wordBit words p = false := wordBit_of_le heq.ge
    rw [hlast, hpast]
    constructor
    · intro h
      refine .inr ⟨p % w, Finset.mem_filter.mpr ⟨Finset.mem_range.mpr hmod, h⟩, ?_⟩
      rw [addLeftEmbedding_apply, ← heq, hp]
    · rintro (h | ⟨j, hj, rfl⟩)
      · cases h
      · obtain ⟨hlt, hbit⟩ := Finset.mem_filter.mp hj
        rw [addLeftEmbedding_apply, Nat.mul_add_mod, Nat.mod_eq_of_lt (Finset.mem_range.mp hlt)]
        exact hbit
  · have hpast : wordBit words p = false := wordBit_of_le hgt.le
    have hpast' : wordBit (words ++ [a]) p = false :=
      wordBit_of_le (by rw [List.length_append, List.length_singleton]; omega)
    rw [hpast, hpast']
    refine iff_of_false Bool.false_ne_true ?_
    rintro (h | ⟨j, hj, rfl⟩)
    · cases h
    · have hj := Finset.mem_range.mp (Finset.mem_filter.mp hj).1
      rw [addLeftEmbedding_apply, Nat.mul_add_div hw, Nat.div_eq_of_lt hj] at hgt
      omega

/-- **Counting.** The members are counted word by word. -/
theorem card_members (hw : 0 < w) (words : List (BitVec w)) :
    (members words).card = (words.map fun a => a.cpop.toNat).sum := by
  induction words using List.reverseRecOn with
  | nil => rfl
  | append_singleton words a ih =>
    have hdisjoint : Disjoint (members words)
        (((Finset.range w).filter fun j => a.getLsbD j = true).map
          (addLeftEmbedding (w * words.length))) := by
      rw [Finset.disjoint_left]
      intro p hp hmap
      obtain ⟨j, -, rfl⟩ := Finset.mem_map.mp hmap
      have hlt := Finset.mem_range.mp (Finset.mem_filter.mp hp).1
      rw [addLeftEmbedding_apply] at hlt
      omega
    rw [members_snoc hw, Finset.card_union_of_disjoint hdisjoint, Finset.card_map, ih,
      ← cpop_eq_card, List.map_append, List.sum_append, List.map_singleton, List.sum_singleton]

end Members

end MpactSim.Lib
