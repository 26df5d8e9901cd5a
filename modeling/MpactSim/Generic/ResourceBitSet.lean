import MpactSim.Lib.Monad
import MpactSim.Lib.WordSets

namespace MpactSim.Generic

open Lib

/-!
# Bit sets of resources

A `ResourceBitSet` is an array of words of 64 bits.  A step has no result where the source accesses
a word outside the array.

* `set`, `resize`                    — the operations that change the size;
* `or`, `andNot`, `copy`, `assign`   — the operations on two sets;
* `findNextSetBit`, `getOnesCount`   — looking at the members;
* `set_resize_exact_iff`             — when growing and shrinking is right.
-/

/-! ### The source -/

/-- `ResourceBitSet`; `size_` is the number of words. -/
structure ResourceBitSet where
  words : List (BitVec 64) := []
  deriving DecidableEq, Repr

namespace ResourceBitSet

def size (s : ResourceBitSet) : Nat := s.words.length

/-- The words for a number of bits, computed in `int`. -/
def wordsFor (bitSize : Int) : Int := (Int.bmod (bitSize + 64 - 1) (2 ^ 32)).tdiv 64

/-- The bits below an offset. -/
def lowMask (bitOffset : Nat) : BitVec 64 := ~~~(BitVec.allOnes 64 <<< bitOffset)

/-- The constructor with a number of bits. -/
def ofBitSize (bitSize : Int) : Option ResourceBitSet :=
  if wordsFor bitSize < 0 then none else some ⟨List.replicate (wordsFor bitSize).toNat 0⟩

/-- `Resize`.  The mask is for the first of the words from the new size on only. -/
def resize (s : ResourceBitSet) (bitSize : Int) : Option ResourceBitSet :=
  let newSize := wordsFor bitSize
  if newSize ≤ s.size then
    let bitOffset := bitSize.tmod 64
    -- A shift by a negative number and an index below 0 have no result.
    if bitOffset < 0 ∨ newSize < 0 then none
    else
      (updateWords
        (fun i a => some (a &&& ~~~(if i = newSize.toNat then lowMask bitOffset.toNat else 0)))
        newSize.toNat (s.size - newSize.toNat) s.words).map .mk
  else
    ((List.range newSize.toNat).mapM fun i =>
      if i < s.size then s.words[i]? else some 0).map .mk

/-- `Set`. -/
def set (s : ResourceBitSet) (position : Nat) : Option ResourceBitSet := do
  let word := position / 64
  let bit := position % 64
  let s' ← (if s.size < word then s.resize position else some s)
  let a ← s'.words[word]?
  some ⟨s'.words.set word (a ||| 1#64 <<< bit)⟩

/-- The loop over the words that two sets have. -/
def combine (op : BitVec 64 → BitVec 64 → BitVec 64) (s rhs : ResourceBitSet) :
    Option ResourceBitSet :=
  (updateWords (fun i a => (rhs.words[i]?).map (op a)) 0 (min s.size rhs.size) s.words).map .mk

/-- `Or`. -/
def or (s rhs : ResourceBitSet) : Option ResourceBitSet := do
  let s' ← (if s.size < rhs.size then s.resize (Int.bmod (rhs.size * 64) (2 ^ 32)) else some s)
  combine (fun a b => a ||| b) s' rhs

/-- `AndNot`. -/
def andNot (s rhs : ResourceBitSet) : Option ResourceBitSet := combine (fun a b => a &&& ~~~b) s rhs

/-- `IsIntersectionNonEmpty`. -/
def isIntersectionNonEmpty (s rhs : ResourceBitSet) : Option Bool :=
  ((List.range (min s.size rhs.size)).foldlM
    (fun accumulator i => do
      let a ← s.words[i]?
      let b ← rhs.words[i]?
      some (accumulator ||| (a &&& b))) 0#64).map (· ≠ 0)

/-- The loops of `FindFirstSetBit` and `FindNextSetBit`, with `n` words to go.  The mask is for the
    first word only. -/
def findFrom (s : ResourceBitSet) : Nat → Nat → BitVec 64 → Option (Option Nat)
  | 0, _, _ => some none
  | n + 1, word, mask => do
    let a ← s.words[word]?
    let value := a &&& ~~~mask
    if value = 0 then findFrom s n (word + 1) 0
    else some (some (word * 64 + value.ctz.toNat))

/-- `FindFirstSetBit`. -/
def findFirstSetBit (s : ResourceBitSet) : Option (Option Nat) := s.findFrom s.size 0 0

/-- `FindNextSetBit`. -/
def findNextSetBit (s : ResourceBitSet) (position : Nat) : Option (Option Nat) :=
  s.findFrom (s.size - position / 64) (position / 64) (lowMask (position % 64))

/-- `GetOnesCount`. -/
def getOnesCount (s : ResourceBitSet) : Option Nat :=
  (List.range s.size).foldlM (fun count i => (s.words[i]?).map fun a => count + a.cpop.toNat) 0

/-- The copy constructor, which makes a small set and grows it. -/
def copy (rhs : ResourceBitSet) : Option ResourceBitSet := do
  let s ← ofBitSize rhs.size
  s.or rhs

/-- The move constructor: the new set, and what is left of the old one. -/
def move (rhs : ResourceBitSet) : ResourceBitSet × ResourceBitSet := (rhs, ⟨[]⟩)

/-- The assignment from another set. -/
def assign (rhs : ResourceBitSet) : Option ResourceBitSet :=
  ((List.range rhs.size).mapM fun i => rhs.words[i]?).map .mk

/-- The positions that are in the set. -/
def members (s : ResourceBitSet) : Finset Nat := Lib.members s.words

/-! ### Sizes -/

variable {n p position : Nat}

theorem wordsFor_of_le (h : n ≤ 2 ^ 31 - 64) : wordsFor n = ((n + 63) / 64 : Nat) := by
  have hsum : Int.bmod ((n : Int) + 64 - 1) (2 ^ 32) = (n + 63 : Nat) := by
    rw [Int.bmod_eq_of_le (by omega) (by omega)]
    omega
  rw [wordsFor, hsum, Int.tdiv_eq_ediv_of_nonneg (by omega)]
  omega

theorem wordsFor_of_lt (h : 2 ^ 31 - 64 < n) (h' : n < 2 ^ 31) : wordsFor n < 0 := by
  have hsum : Int.bmod ((n : Int) + 64 - 1) (2 ^ 32) = (n : Int) + 63 - 2 ^ 32 := by
    rw [Int.bmod_def]
    omega
  rw [wordsFor, hsum]
  have hneg : (2 ^ 32 - (n : Int) - 63).tdiv 64 ≥ 1 := by
    rw [Int.tdiv_eq_ediv_of_nonneg (by omega)]
    omega
  have hflip : (n : Int) + 63 - 2 ^ 32 = -(2 ^ 32 - (n : Int) - 63) := by omega
  rw [hflip, Int.neg_tdiv]
  omega

theorem getLsbD_lowMask (b j : Nat) : (lowMask b).getLsbD j = decide (j < 64 ∧ j < b) := by
  rw [lowMask, BitVec.getLsbD_not, BitVec.getLsbD_shiftLeft, BitVec.getLsbD_allOnes]
  by_cases hj : j < 64
  · by_cases hb : j < b
    · simp [hj, hb]
    · simp [hj, hb]
      omega
  · simp [hj]

/-! ### Growing -/

variable {s rhs : ResourceBitSet}

theorem mem_members : p ∈ s.members ↔ wordBit s.words p = true := Lib.mem_members

theorem div_lt_of_mem (h : p ∈ s.members) : p / 64 < s.size := by
  by_contra hle
  rw [mem_members, wordBit_of_le (Nat.le_of_not_lt hle)] at h
  cases h

theorem resize_of_lt (s : ResourceBitSet) (bitSize : Int) (h : s.size < wordsFor bitSize) :
    ∃ s', s.resize bitSize = some s' ∧ (s'.size : Int) = wordsFor bitSize ∧
      s'.members = s.members := by
  have hwords : ((List.range (wordsFor bitSize).toNat).mapM fun i =>
      if i < s.size then s.words[i]? else some 0)
      = some ((List.range (wordsFor bitSize).toNat).map fun i => s.words.getD i 0) := by
    refine mapM_eq_some_map fun i _ => ?_
    split
    · rename_i hi
      rw [List.getD_eq_getElem _ _ hi]
      exact List.getElem?_eq_getElem hi
    · rename_i hi
      rw [List.getD_eq_default _ _ (Nat.le_of_not_lt hi)]
  refine ⟨_, by rw [resize, if_neg (by omega), hwords, Option.map_some], ?_, ?_⟩
  · rw [size, List.length_map, List.length_range]
    omega
  · refine members_congr fun p => ?_
    rw [wordBit, wordBit]
    by_cases hp : p / 64 < (wordsFor bitSize).toNat
    · rw [List.getD_eq_getElem _ _ (by simpa using hp), List.getElem_map, List.getElem_range]
    · have hsize : s.words.length ≤ p / 64 := by
        have : s.size = s.words.length := rfl
        omega
      rw [List.getD_eq_default _ _ (by simpa using hp), List.getD_eq_default _ _ hsize]

/-! ### Two sets -/

theorem combine_spec (op : BitVec 64 → BitVec 64 → BitVec 64) (s rhs : ResourceBitSet) :
    ∃ s', combine op s rhs = some s' ∧ s'.size = s.size ∧ ∀ p,
      wordBit s'.words p = if p / 64 < min s.size rhs.size
        then (op (s.words.getD (p / 64) 0) (rhs.words.getD (p / 64) 0)).getLsbD (p % 64)
        else wordBit s.words p := by
  have hle : min s.size rhs.size ≤ s.words.length := Nat.min_le_left _ _
  have hle' : min s.size rhs.size ≤ rhs.words.length := Nat.min_le_right _ _
  obtain ⟨l', hrun, hlen, hl'⟩ := updateWords_spec (l := s.words)
    (fun i a => (rhs.words[i]?).map (op a)) 0 (min s.size rhs.size) (by omega) fun i _ hi a => by
      rw [List.getElem?_eq_getElem (by omega : i < rhs.words.length)]
      exact ⟨_, rfl⟩
  refine ⟨⟨l'⟩, by rw [combine, hrun, Option.map_some], hlen, fun p => ?_⟩
  rw [wordBit, wordBit, List.getD_eq_getElem?_getD, hl']
  by_cases hp : p / 64 < min s.size rhs.size
  · rw [if_pos ⟨Nat.zero_le _, by omega⟩, if_pos hp,
      List.getElem?_eq_getElem (by omega : p / 64 < s.words.length), Option.bind_some,
      List.getElem?_eq_getElem (by omega : p / 64 < rhs.words.length), Option.map_some,
      Option.getD_some, List.getD_eq_getElem _ _ (by omega : p / 64 < s.words.length),
      List.getD_eq_getElem _ _ (by omega : p / 64 < rhs.words.length)]
  · rw [if_neg (by omega), if_neg hp, List.getD_eq_getElem?_getD]

theorem wordBit_of_not_lt_min (h : ¬p / 64 < min s.size rhs.size) :
    wordBit s.words p = false ∨ wordBit rhs.words p = false := by
  rcases Nat.le_total s.size rhs.size with hle | hle
  · rw [Nat.min_eq_left hle] at h
    exact .inl (wordBit_of_le (Nat.le_of_not_lt h))
  · rw [Nat.min_eq_right hle] at h
    exact .inr (wordBit_of_le (Nat.le_of_not_lt h))

/-- **`AndNot` is the difference.** -/
theorem andNot_spec (s rhs : ResourceBitSet) :
    ∃ s', s.andNot rhs = some s' ∧ s'.size = s.size ∧ s'.members = s.members \ rhs.members := by
  obtain ⟨s', hrun, hsize, hbits⟩ := combine_spec (fun a b => a &&& ~~~b) s rhs
  refine ⟨s', hrun, hsize, ?_⟩
  ext p
  rw [Finset.mem_sdiff, mem_members, mem_members, mem_members, hbits]
  split
  · have hmod : p % 64 < 64 := Nat.mod_lt _ (by decide)
    rw [BitVec.getLsbD_and, BitVec.getLsbD_not, decide_eq_true hmod, Bool.true_and,
      Bool.and_eq_true, Bool.not_eq_true', Bool.not_eq_true]
    rfl
  · rename_i hp
    rcases wordBit_of_not_lt_min hp with h | h
    · simp [h]
    · simp [h]

/-- **`Or` is the union**, also if the right operand has more words. -/
theorem or_spec (s : ResourceBitSet) (hrhs : rhs.size < 2 ^ 25) :
    ∃ s', s.or rhs = some s' ∧ s'.size = max s.size rhs.size ∧
      s'.members = s.members ∪ rhs.members := by
  -- The set is grown to at least the size of the right operand.
  obtain ⟨mid, hgrow, hmid, hmembers⟩ : ∃ mid, (if s.size < rhs.size then
      s.resize (Int.bmod (rhs.size * 64) (2 ^ 32)) else some s) = some mid ∧
      mid.size = max s.size rhs.size ∧ mid.members = s.members := by
    split
    · rename_i hlt
      have hbits : Int.bmod ((rhs.size : Int) * 64) (2 ^ 32) = (rhs.size * 64 : Nat) := by
        rw [Int.bmod_eq_of_le (by omega) (by omega)]
        omega
      have hwords : wordsFor (rhs.size * 64 : Nat) = rhs.size := by
        rw [wordsFor_of_le (by omega)]
        omega
      rw [hbits]
      obtain ⟨mid, hrun, hsize, hmem⟩ := resize_of_lt s (rhs.size * 64 : Nat)
        (by rw [hwords]; omega)
      refine ⟨mid, hrun, ?_, hmem⟩
      rw [hwords] at hsize
      omega
    · exact ⟨s, rfl, by omega, rfl⟩
  obtain ⟨s', hrun, hsize, hbits⟩ := combine_spec (fun a b => a ||| b) mid rhs
  refine ⟨s', by rw [or, hgrow]; exact hrun, hsize.trans hmid, ?_⟩
  ext p
  rw [← hmembers, Finset.mem_union, mem_members, mem_members, mem_members, hbits]
  split
  · rw [BitVec.getLsbD_or, Bool.or_eq_true]
    rfl
  · rename_i hp
    have hpast : wordBit rhs.words p = false := wordBit_of_le (by
      have : rhs.size = rhs.words.length := rfl
      omega)
    rw [hpast]
    simp

/-- **The test** is true exactly if the intersection has a member. -/
theorem isIntersectionNonEmpty_spec (s rhs : ResourceBitSet) :
    s.isIntersectionNonEmpty rhs = some (decide (s.members ∩ rhs.members).Nonempty) := by
  -- The accumulator has the bits that both have in one of the words so far.
  obtain ⟨acc, hrun, hacc⟩ := foldlM_exists
    (fun (done : List Nat) (acc : BitVec 64) => ∀ j, acc.getLsbD j = true ↔
      ∃ i ∈ done, (s.words.getD i 0).getLsbD j = true ∧ (rhs.words.getD i 0).getLsbD j = true)
    (l := List.range (min s.size rhs.size))
    (f := fun (accumulator : BitVec 64) i => do
      let a ← s.words[i]?
      let b ← rhs.words[i]?
      some (accumulator ||| (a &&& b)))
    (fun done i hi acc hacc => by
      have hlt := List.mem_range.mp hi
      have hs : i < s.words.length := lt_of_lt_of_le hlt (Nat.min_le_left _ _)
      have hrhs : i < rhs.words.length := lt_of_lt_of_le hlt (Nat.min_le_right _ _)
      refine ⟨acc ||| (s.words.getD i 0 &&& rhs.words.getD i 0), ?_, fun j => ?_⟩
      · rw [List.getElem?_eq_getElem hs, List.getElem?_eq_getElem hrhs,
          List.getD_eq_getElem _ _ hs, List.getD_eq_getElem _ _ hrhs]
        rfl
      · rw [BitVec.getLsbD_or, BitVec.getLsbD_and, Bool.or_eq_true, hacc, Bool.and_eq_true]
        constructor
        · rintro (⟨k, hk, h⟩ | h)
          · exact ⟨k, List.mem_append_left _ hk, h⟩
          · exact ⟨i, List.mem_append_right _ (List.mem_singleton_self i), h⟩
        · rintro ⟨k, hk, h⟩
          rcases List.mem_append.mp hk with hk | hk
          · exact .inl ⟨k, hk, h⟩
          · rw [List.mem_singleton.mp hk] at h
            exact .inr h)
    (a := 0#64) (fun j => by simp)
  rw [isIntersectionNonEmpty, hrun, Option.map_some]
  congr 1
  rw [decide_eq_decide]
  constructor
  · intro hne
    obtain ⟨hlt, hbit, -⟩ := ctz_spec hne
    obtain ⟨i, hi, hs, hrhs⟩ := (hacc _).mp hbit
    obtain ⟨hdiv, hmod⟩ := position_div_mod (by decide : 0 < 64) (i := i) hlt
    refine ⟨i * 64 + acc.ctz.toNat, Finset.mem_inter.mpr ⟨mem_members.mpr ?_, mem_members.mpr ?_⟩⟩
    · rw [wordBit, hdiv, hmod, hs]
    · rw [wordBit, hdiv, hmod, hrhs]
  · rintro ⟨p, hp⟩ hzero
    obtain ⟨hs, hrhs⟩ := Finset.mem_inter.mp hp
    have hbit := (hacc (p % 64)).mpr ⟨p / 64, List.mem_range.mpr
      (Nat.lt_min.mpr ⟨div_lt_of_mem hs, div_lt_of_mem hrhs⟩), mem_members.mp hs,
      mem_members.mp hrhs⟩
    rw [getLsbD_of_eq_zero hzero] at hbit
    cases hbit

/-! ### Looking for members -/

/-- The least member from a position on, or none. -/
def NextMember (members : Finset Nat) (position : Nat) : Option Nat → Prop
  | none => ∀ p ∈ members, p < position
  | some q => q ∈ members ∧ position ≤ q ∧ ∀ p ∈ members, position ≤ p → q ≤ p

/-- **The scan of the words** finds the least member from a position on. -/
theorem findFrom_spec (s : ResourceBitSet) (n word b : Nat) (mask : BitVec 64) (hb : b < 64)
    (hmask : ∀ j < 64, mask.getLsbD j = decide (j < b)) (hn : s.size ≤ word + n)
    (hword : word + n ≤ max s.size word) :
    ∃ r, s.findFrom n word mask = some r ∧ NextMember s.members (word * 64 + b) r := by
  induction n generalizing word b mask with
  | zero =>
    refine ⟨none, rfl, fun p hp => ?_⟩
    have := div_lt_of_mem hp
    omega
  | succ n ih =>
    have hlt : word < s.words.length := by
      have : s.size = s.words.length := rfl
      omega
    have hget : s.words[word]? = some (s.words.getD word 0) := by
      rw [List.getD_eq_getElem _ _ hlt]
      exact List.getElem?_eq_getElem hlt
    -- The bits of the masked word are those from the position on.
    have hbit : ∀ j < 64, (s.words.getD word 0 &&& ~~~mask).getLsbD j = true ↔
        (s.words.getD word 0).getLsbD j = true ∧ b ≤ j := by
      intro j hj
      rw [BitVec.getLsbD_and, BitVec.getLsbD_not, hmask j hj, decide_eq_true hj, Bool.true_and,
        Bool.and_eq_true, Bool.not_eq_true', decide_eq_false_iff_not, Nat.not_lt]
    have hin : ∀ p, p / 64 = word → (p ∈ s.members ↔ (s.words.getD word 0).getLsbD (p % 64) = true) :=
      fun p hp => by rw [mem_members, wordBit, hp]
    rw [findFrom, hget]
    show ∃ r, (if s.words.getD word 0 &&& ~~~mask = 0 then s.findFrom n (word + 1) 0
      else some (some (word * 64 + (s.words.getD word 0 &&& ~~~mask).ctz.toNat))) = some r ∧ _
    by_cases hvalue : s.words.getD word 0 &&& ~~~mask = 0
    · rw [if_pos hvalue]
      obtain ⟨r, hrun, hnext⟩ := ih (word + 1) 0 0 (by decide)
        (fun j _ => by simp) (by omega) (by omega)
      -- There is no member in this word from the position on.
      have hnone : ∀ p ∈ s.members, word * 64 + b ≤ p → (word + 1) * 64 + 0 ≤ p := by
        intro p hp hle
        by_contra hlt'
        have hdiv : p / 64 = word := by omega
        have hset := (hbit (p % 64) (Nat.mod_lt _ (by decide))).mpr
          ⟨(hin p hdiv).mp hp, by omega⟩
        rw [getLsbD_of_eq_zero hvalue] at hset
        cases hset
      refine ⟨r, hrun, ?_⟩
      cases r with
      | none =>
        intro p hp
        by_contra hge
        exact absurd (hnext p hp) (Nat.not_lt.mpr (hnone p hp (Nat.le_of_not_lt hge)))
      | some q =>
        obtain ⟨hq, hle, hleast⟩ := hnext
        exact ⟨hq, by omega, fun p hp hle' => hleast p hp (hnone p hp hle')⟩
    · rw [if_neg hvalue]
      obtain ⟨hlt64, hctz, hbelow⟩ := ctz_spec hvalue
      obtain ⟨hset, hle⟩ := (hbit _ hlt64).mp hctz
      obtain ⟨hdiv, hmod⟩ := position_div_mod (by decide : 0 < 64) (i := word) hlt64
      refine ⟨_, rfl, (hin _ hdiv).mpr (by rw [hmod]; exact hset), by omega, fun p hp hle' => ?_⟩
      by_contra hlt'
      have hpdiv : p / 64 = word := by omega
      have hfalse := hbelow (p % 64) (by omega)
      have htrue := (hbit (p % 64) (Nat.mod_lt _ (by decide))).mpr
        ⟨(hin p hpdiv).mp hp, by omega⟩
      rw [hfalse] at htrue
      cases htrue

theorem findFirstSetBit_spec (s : ResourceBitSet) :
    ∃ r, s.findFirstSetBit = some r ∧ NextMember s.members 0 r :=
  findFrom_spec s s.size 0 0 0 (by decide) (fun j _ => by simp) (by omega) (by omega)

theorem findNextSetBit_spec (s : ResourceBitSet) (position : Nat) :
    ∃ r, s.findNextSetBit position = some r ∧ NextMember s.members position r := by
  have h := findFrom_spec s (s.size - position / 64) (position / 64) (position % 64)
    (lowMask (position % 64)) (Nat.mod_lt position (by decide))
    (fun j hj => by rw [getLsbD_lowMask, decide_eq_decide]; omega) (by omega) (by omega)
  rwa [Nat.div_add_mod'] at h

/-- **`GetOnesCount` is the number of members.** -/
theorem getOnesCount_spec (s : ResourceBitSet) : s.getOnesCount = some s.members.card := by
  obtain ⟨count, hrun, hcount⟩ := foldlM_exists
    (fun (done : List Nat) (count : Nat) =>
      count = (done.map fun i => (s.words.getD i 0).cpop.toNat).sum)
    (l := List.range s.size)
    (f := fun count i => (s.words[i]?).map fun a => count + a.cpop.toNat)
    (fun done i hi count hcount => by
      have hlt : i < s.words.length := List.mem_range.mp hi
      refine ⟨count + (s.words.getD i 0).cpop.toNat, ?_, ?_⟩
      · rw [List.getElem?_eq_getElem hlt, List.getD_eq_getElem _ _ hlt]
        rfl
      · rw [List.map_append, List.sum_append, ← hcount, List.map_singleton, List.sum_singleton])
    (a := 0) rfl
  have hwords : (List.range s.size).map (fun i => (s.words.getD i 0).cpop.toNat)
      = s.words.map fun a => a.cpop.toNat := by
    refine List.ext_getElem (by simp [size]) fun i hi hi' => ?_
    have hlt : i < s.words.length := by simpa using hi'
    rw [List.getElem_map, List.getElem_range, List.getElem_map, List.getD_eq_getElem _ _ hlt]
  rw [getOnesCount, hrun, hcount, hwords, members, card_members (by decide)]

/-! ### Copies -/

theorem ofBitSize_of_le (h : n ≤ 2 ^ 31 - 64) :
    ∃ s, ofBitSize n = some s ∧ s.size = (n + 63) / 64 ∧ s.members = ∅ := by
  have hwords := wordsFor_of_le h
  refine ⟨⟨List.replicate ((n + 63) / 64) 0⟩, ?_, List.length_replicate, members_replicate _⟩
  rw [ofBitSize, hwords, if_neg (by omega)]
  rfl

/-- **A copy** has the same members. -/
theorem copy_spec (hrhs : rhs.size < 2 ^ 25) :
    ∃ s', rhs.copy = some s' ∧ s'.size < 2 ^ 25 ∧ s'.members = rhs.members := by
  obtain ⟨mid, hmake, hsize, hempty⟩ := ofBitSize_of_le (n := rhs.size) (by omega)
  obtain ⟨s', hor, hsize', hunion⟩ := or_spec mid hrhs
  refine ⟨s', by rw [copy, hmake]; exact hor, by omega, ?_⟩
  rw [hunion, hempty, Finset.empty_union]

theorem assign_spec (rhs : ResourceBitSet) : rhs.assign = some rhs := by
  have hwords : ((List.range rhs.size).mapM fun i => rhs.words[i]?)
      = some ((List.range rhs.size).map fun i => rhs.words.getD i 0) :=
    mapM_eq_some_map fun i hi => by
      have hlt : i < rhs.words.length := List.mem_range.mp hi
      rw [List.getD_eq_getElem _ _ hlt]
      exact List.getElem?_eq_getElem hlt
  have hsame : (List.range rhs.size).map (fun i => rhs.words.getD i 0) = rhs.words := by
    refine List.ext_getElem (by simp [size]) fun i hi hi' => ?_
    rw [List.getElem_map, List.getElem_range, List.getD_eq_getElem _ _ hi']
  rw [assign, hwords, hsame, Option.map_some]

/-! ### Setting a bit, and shrinking -/

theorem set_of_lt (h : position / 64 < s.size) :
    ∃ s', s.set position = some s' ∧ s'.size = s.size ∧
      s'.members = insert position s.members := by
  have hlt : position / 64 < s.words.length := h
  refine ⟨⟨s.words.set (position / 64)
    (s.words.getD (position / 64) 0 ||| 1#64 <<< (position % 64))⟩, ?_, List.length_set, ?_⟩
  · rw [set, if_neg (by omega), List.getD_eq_getElem _ _ hlt]
    show (s.words[position / 64]? >>= _) = _
    rw [List.getElem?_eq_getElem hlt]
    rfl
  · ext p
    rw [Finset.mem_insert, mem_members, mem_members]
    exact wordBit_set (by decide) hlt p

theorem resize_of_le (h : n ≤ 2 ^ 31 - 64) (hle : (n + 63) / 64 ≤ s.size) :
    ∃ s', s.resize n = some s' ∧ s'.size = s.size ∧ ∀ p, p ∈ s'.members ↔
      p ∈ s.members ∧ ¬((n + 63) / 64 * 64 ≤ p ∧ p < (n + 63) / 64 * 64 + n % 64) := by
  have hwords := wordsFor_of_le h
  have hoffset : (n : Int).tmod 64 = (n % 64 : Nat) := by
    rw [Int.tmod_eq_emod_of_nonneg (by omega)]
    omega
  obtain ⟨l', hrun, hlen, hl'⟩ := updateWords_spec (l := s.words)
    (fun i a => some (a &&& ~~~(if i = (n + 63) / 64 then lowMask (n % 64) else 0)))
    ((n + 63) / 64) (s.size - (n + 63) / 64) (by
      have : s.size = s.words.length := rfl
      omega) fun i _ _ a => ⟨_, rfl⟩
  refine ⟨⟨l'⟩, ?_, hlen, fun p => ?_⟩
  · rw [resize]
    simp only [hwords, hoffset, Int.toNat_natCast]
    rw [if_pos (by omega), if_neg (by omega), hrun, Option.map_some]
  · rw [mem_members, mem_members, wordBit, wordBit, List.getD_eq_getElem?_getD,
      List.getD_eq_getElem?_getD, hl']
    by_cases hin : (n + 63) / 64 ≤ p / 64 ∧ p / 64 < (n + 63) / 64 + (s.size - (n + 63) / 64)
    · have hlt : p / 64 < s.words.length := by
        have : s.size = s.words.length := rfl
        omega
      have hmod : p % 64 < 64 := Nat.mod_lt _ (by decide)
      rw [if_pos hin, List.getElem?_eq_getElem hlt, Option.bind_some, Option.getD_some,
        Option.getD_some, BitVec.getLsbD_and, BitVec.getLsbD_not, decide_eq_true hmod,
        Bool.true_and, Bool.and_eq_true, Bool.not_eq_true']
      refine and_congr_right fun _ => ?_
      by_cases hfirst : p / 64 = (n + 63) / 64
      · rw [if_pos hfirst, getLsbD_lowMask, decide_eq_false_iff_not]
        omega
      · rw [if_neg hfirst]
        refine iff_of_true BitVec.getLsbD_zero ?_
        omega
    · rw [if_neg hin]
      refine ⟨fun hp => ⟨hp, ?_⟩, fun hp => hp.1⟩
      have hmem : p ∈ s.members := by
        rw [mem_members, wordBit, List.getD_eq_getElem?_getD]
        exact hp
      have := div_lt_of_mem hmem
      omega

theorem resize_empty (h : n ≤ 2 ^ 31 - 64) :
    ∃ s', (⟨[]⟩ : ResourceBitSet).resize n = some s' ∧ s'.size = (n + 63) / 64 ∧
      s'.members = ∅ := by
  have hwords := wordsFor_of_le h
  have hempty : (⟨[]⟩ : ResourceBitSet).members = ∅ := rfl
  have hsize : (⟨[]⟩ : ResourceBitSet).size = 0 := rfl
  rcases Nat.eq_zero_or_pos ((n + 63) / 64) with hzero | hpos
  · obtain ⟨s', hrun, hsize', hmembers⟩ := resize_of_le (s := ⟨[]⟩) h (by omega)
    refine ⟨s', hrun, by omega, Finset.eq_empty_of_forall_notMem fun p hp => ?_⟩
    have hin := ((hmembers p).mp hp).1
    rw [hempty] at hin
    exact Finset.notMem_empty p hin
  · obtain ⟨s', hrun, hsize', hmembers⟩ := resize_of_lt ⟨[]⟩ (n : Int) (by omega)
    exact ⟨s', hrun, by omega, hmembers.trans hempty⟩

theorem resize_of_large (h : 2 ^ 31 - 64 < n) (hlt : n < 2 ^ 31) : s.resize n = none := by
  have hneg := wordsFor_of_lt h hlt
  rw [resize, if_pos (by omega), if_pos (.inr hneg)]

/-- Of the negative numbers of bits, only that of one word is not found out. -/
theorem resize_of_neg {s' : ResourceBitSet} {n : Int} (hlow : -2 ^ 31 ≤ n) (hneg : n < 0)
    (h : s.resize n = some s') : n = -64 := by
  have hsum : Int.bmod (n + 64 - 1) (2 ^ 32) = n + 63 := by
    rw [Int.bmod_eq_of_le (by omega) (by omega)]
    omega
  have hle : wordsFor n ≤ 0 := by
    rw [wordsFor, hsum]
    rcases lt_or_ge (n + 63) 0 with hn | hn
    · have : n + 63 = -(-(n + 63)) := by omega
      rw [this, Int.neg_tdiv, Int.tdiv_eq_ediv_of_nonneg (by omega)]
      omega
    · rw [Int.tdiv_eq_ediv_of_nonneg hn]
      omega
  rw [resize] at h
  simp only at h
  rw [if_pos (by omega)] at h
  split at h
  · cases h
  · rename_i hbad
    obtain ⟨hoffset, hwords⟩ := not_or.mp hbad
    have hflip : n = -(-n) := by omega
    rw [hflip, Int.neg_tmod, Int.tmod_eq_emod_of_nonneg (by omega)] at hoffset
    rw [wordsFor, hsum] at hwords
    by_contra hne
    have hlt : n + 63 ≤ -64 := by omega
    have hflip' : n + 63 = -(-(n + 63)) := by omega
    rw [hflip', Int.neg_tdiv, Int.tdiv_eq_ediv_of_nonneg (by omega)] at hwords
    omega

theorem set_of_div_eq (h : position / 64 = s.size) : s.set position = none := by
  rw [set, if_neg (by omega)]
  show (s.words[position / 64]? >>= _) = _
  rw [List.getElem?_eq_none (h.ge : s.words.length ≤ position / 64)]
  rfl

/-- `Set` adds its position, within the array. -/
def SetExact (s : ResourceBitSet) (position : Nat) : Prop :=
  ∃ s', s.set position = some s' ∧ s'.members = insert position s.members

/-- `Resize` keeps exactly the members below the new size. -/
def ResizeExact (s : ResourceBitSet) (n : Nat) : Prop :=
  ∃ s', s.resize n = some s' ∧ s'.members = s.members.filter (· < n)

theorem setExact_iff (s : ResourceBitSet) (hp : position < 2 ^ 31) :
    s.SetExact position ↔ position / 64 < s.size ∨
      s.size < position / 64 ∧ position % 64 ≠ 0 ∧ position ≤ 2 ^ 31 - 64 := by
  rcases Nat.lt_trichotomy (position / 64) s.size with hlt | heq | hgt
  · refine iff_of_true ?_ (.inl hlt)
    obtain ⟨s', hrun, -, hmem⟩ := set_of_lt hlt
    exact ⟨s', hrun, hmem⟩
  · -- The set is not grown, and the word is the one behind the last.
    refine iff_of_false ?_ (by omega)
    rintro ⟨s', hrun, -⟩
    rw [set_of_div_eq heq] at hrun
    cases hrun
  · rw [SetExact, set, if_pos hgt]
    rcases Nat.lt_or_ge (2 ^ 31 - 64) position with hlarge | hsmall
    · -- The number of words is computed as a negative one.
      refine iff_of_false ?_ (by omega)
      rintro ⟨s', hrun, -⟩
      rw [resize_of_large hlarge hp] at hrun
      cases hrun
    · have hwords := wordsFor_of_le hsmall
      rcases Nat.lt_or_ge s.size ((position + 63) / 64) with hgrow | hsame
      · obtain ⟨mid, hmid, hsize, hmembers⟩ := resize_of_lt s position (by omega)
        rw [hwords] at hsize
        rw [hmid]
        show (∃ s', (mid.words[position / 64]? >>= _) = some s' ∧ _) ↔ _
        by_cases hzero : position % 64 = 0
        · refine iff_of_false ?_ (by omega)
          rintro ⟨s', hrun, -⟩
          have hnone : mid.words[position / 64]? = none := by
            refine List.getElem?_eq_none ?_
            have : mid.size = mid.words.length := rfl
            omega
          rw [hnone] at hrun
          cases hrun
        · refine iff_of_true ?_ (.inr ⟨hgt, hzero, hsmall⟩)
          obtain ⟨s', hrun, -, hmem⟩ := set_of_lt (by omega : position / 64 < mid.size)
          rw [set, if_neg (by omega)] at hrun
          exact ⟨s', hrun, hmem.trans (by rw [hmembers])⟩
      · omega

theorem resizeExact_iff (s : ResourceBitSet) (hn : n < 2 ^ 31) :
    s.ResizeExact n ↔ n ≤ 2 ^ 31 - 64 ∧ ∀ p ∈ s.members, n ≤ p →
      (n + 63) / 64 * 64 ≤ p ∧ p < (n + 63) / 64 * 64 + n % 64 := by
  rcases Nat.lt_or_ge (2 ^ 31 - 64) n with hlarge | hsmall
  · refine iff_of_false ?_ (by omega)
    rintro ⟨s', hrun, -⟩
    rw [resize_of_large hlarge hn] at hrun
    cases hrun
  · have hwords := wordsFor_of_le hsmall
    rcases Nat.lt_or_ge s.size ((n + 63) / 64) with hgrow | hle
    · obtain ⟨s', hrun, -, hmembers⟩ := resize_of_lt s n (by omega)
      have hbelow : ∀ p ∈ s.members, p < n := by
        intro p hp
        have := div_lt_of_mem hp
        omega
      refine iff_of_true ⟨s', hrun, ?_⟩ ⟨hsmall, fun p hp hge => ?_⟩
      · rw [hmembers, Finset.filter_true_of_mem hbelow]
      · exact absurd (hbelow p hp) (Nat.not_lt.mpr hge)
    · obtain ⟨s', hrun, -, hmembers⟩ := resize_of_le hsmall hle
      have hexact : s.ResizeExact n ↔ s'.members = s.members.filter (· < n) := by
        refine ⟨?_, fun h => ⟨s', hrun, h⟩⟩
        rintro ⟨s'', hrun', h⟩
        obtain rfl := Option.some.inj (hrun.symm.trans hrun')
        exact h
      rw [hexact, Finset.ext_iff]
      constructor
      · intro h
        refine ⟨hsmall, fun p hp hge => ?_⟩
        have hnot : p ∉ s'.members := fun hmem =>
          absurd (Finset.mem_filter.mp ((h p).mp hmem)).2 (Nat.not_lt.mpr hge)
        by_contra hout
        exact hnot ((hmembers p).mpr ⟨hp, hout⟩)
      · rintro ⟨-, h⟩ p
        rw [hmembers, Finset.mem_filter]
        refine and_congr_right fun hp => ?_
        constructor
        · intro hout
          by_contra hge
          exact hout (h p hp (Nat.le_of_not_lt hge))
        · omega

end ResourceBitSet

/-- **Growing and shrinking.** When `Set` adds exactly its position and when `Resize` keeps exactly
    the members below the new size. -/
theorem set_resize_exact_iff (s : ResourceBitSet) (position n : Nat) (hp : position < 2 ^ 31)
    (hn : n < 2 ^ 31) :
    (s.SetExact position ↔ position / 64 < s.size ∨
      s.size < position / 64 ∧ position % 64 ≠ 0 ∧ position ≤ 2 ^ 31 - 64) ∧
    (s.ResizeExact n ↔ n ≤ 2 ^ 31 - 64 ∧ ∀ p ∈ s.members, n ≤ p →
      (n + 63) / 64 * 64 ≤ p ∧ p < (n + 63) / 64 * 64 + n % 64) :=
  ⟨s.setExact_iff hp, s.resizeExact_iff hn⟩

theorem set_resize_exact_iff_oneWord :
    ((⟨[5]⟩ : ResourceBitSet).SetExact 130 ↔ 130 / 64 < (⟨[5]⟩ : ResourceBitSet).size ∨
      (⟨[5]⟩ : ResourceBitSet).size < 130 / 64 ∧ 130 % 64 ≠ 0 ∧ 130 ≤ 2 ^ 31 - 64) ∧
    ((⟨[5]⟩ : ResourceBitSet).ResizeExact 3 ↔ 3 ≤ 2 ^ 31 - 64 ∧
      ∀ p ∈ (⟨[5]⟩ : ResourceBitSet).members, 3 ≤ p →
        (3 + 63) / 64 * 64 ≤ p ∧ p < (3 + 63) / 64 * 64 + 3 % 64) :=
  set_resize_exact_iff ⟨[5]⟩ 130 3 (by decide) (by decide)

/-- The word behind the last one is written, and a set of one word keeps its members when it is
    shrunk to one bit. -/
theorem set_resize_of_oneWord :
    ¬(⟨[5]⟩ : ResourceBitSet).SetExact 64 ∧ ¬(⟨[5]⟩ : ResourceBitSet).ResizeExact 1 := by
  constructor
  · rintro ⟨s', hrun, -⟩
    have hnone : (⟨[5]⟩ : ResourceBitSet).set 64 = none := by decide
    rw [hnone] at hrun
    cases hrun
  · rintro ⟨s', hrun, hmembers⟩
    have hsame : (⟨[5]⟩ : ResourceBitSet).resize 1 = some ⟨[5]⟩ := by decide
    obtain rfl := Option.some.inj (hsame.symm.trans hrun)
    have hmem : 2 ∈ (⟨[5]⟩ : ResourceBitSet).members :=
      ResourceBitSet.mem_members.mpr (by decide)
    rw [hmembers] at hmem
    exact absurd (Finset.mem_filter.mp hmem).2 (by decide)

end MpactSim.Generic
