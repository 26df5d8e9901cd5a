import MpactSim.Generic.ResourceBitSet
import MpactSim.Lib.Refinement

namespace MpactSim.Generic

open Lib

/-!
# Bit sets are sets

A sequence of operations on any number of bit sets is one on finite sets of numbers.

* `BitSetOp.step`     — an operation on bit sets that have names;
* `BitSetOp.setStep`  — what it does to the sets of their members;
* `runs_refine_sets`  — the operations refine these, and an enumeration goes through the members.
-/

/-- An operation; the names of its operands are numbers. -/
inductive BitSetOp where
  | set (i position : Nat)
  | or (i rhs : Nat)
  | andNot (i rhs : Nat)
  | isIntersectionNonEmpty (i rhs : Nat)
  | findFirstSetBit (i : Nat)
  | findNextSetBit (i position : Nat)
  | getOnesCount (i : Nat)
  | copy (i rhs : Nat)
  | move (i rhs : Nat)
  | assign (i rhs : Nat)
  deriving DecidableEq, Repr

/-- What an operation returns. -/
inductive BitSetOutput where
  | done
  | test (result : Bool)
  | found (position : Option Nat)
  | count (n : Nat)
  deriving DecidableEq, Repr

/-- The bit sets by their names. -/
abbrev BitSets := Nat → ResourceBitSet

open Function (update)

/-- An operation on bit sets.  A constructor makes the set that has the name from then on. -/
def BitSetOp.step (sets : BitSets) : BitSetOp → Option (BitSetOutput × BitSets)
  | set i position => ((sets i).set position).map fun s => (.done, update sets i s)
  | or i rhs => ((sets i).or (sets rhs)).map fun s => (.done, update sets i s)
  | andNot i rhs => ((sets i).andNot (sets rhs)).map fun s => (.done, update sets i s)
  | isIntersectionNonEmpty i rhs =>
    ((sets i).isIntersectionNonEmpty (sets rhs)).map fun b => (.test b, sets)
  | findFirstSetBit i => (sets i).findFirstSetBit.map fun r => (.found r, sets)
  | findNextSetBit i position => ((sets i).findNextSetBit position).map fun r => (.found r, sets)
  | getOnesCount i => (sets i).getOnesCount.map fun n => (.count n, sets)
  | copy i rhs => (sets rhs).copy.map fun s => (.done, update sets i s)
  | move i rhs => some (.done, update (update sets rhs (sets rhs).move.2) i (sets rhs).move.1)
  | assign i rhs => (sets rhs).assign.map fun s => (.done, update sets i s)

/-- Positions that are set are in one of the words, and moves and assignments are from another
    set. -/
def BitSetOp.Inside (sets : BitSets) : BitSetOp → Prop
  | set i position => position / 64 < (sets i).size
  | move i rhs | assign i rhs => i ≠ rhs
  | _ => True

/-- The loop `for (int index = position; FindNextSetBit(&index); ++index)`.  There is no result if
    there is not enough fuel. -/
def ResourceBitSet.enumerate (s : ResourceBitSet) : Nat → Nat → Option (List Nat)
  | 0, _ => none
  | fuel + 1, position =>
    match s.findNextSetBit position with
    | none => none
    | some none => some []
    | some (some q) => (s.enumerate fuel (q + 1)).map (q :: ·)

/-! ### Sets of numbers -/

/-- The least member from a position on. -/
def nextMember (members : Finset Nat) (position : Nat) : Option Nat :=
  if h : (members.filter (position ≤ ·)).Nonempty then some ((members.filter (position ≤ ·)).min' h)
  else none

/-- What an operation does to the sets of members. -/
def BitSetOp.setStep (sets : Nat → Finset Nat) :
    BitSetOp → BitSetOutput × (Nat → Finset Nat)
  | set i position => (.done, update sets i (insert position (sets i)))
  | or i rhs => (.done, update sets i (sets i ∪ sets rhs))
  | andNot i rhs => (.done, update sets i (sets i \ sets rhs))
  | isIntersectionNonEmpty i rhs => (.test (decide (sets i ∩ sets rhs).Nonempty), sets)
  | findFirstSetBit i => (.found (nextMember (sets i) 0), sets)
  | findNextSetBit i position => (.found (nextMember (sets i) position), sets)
  | getOnesCount i => (.count (sets i).card, sets)
  | copy i rhs => (.done, update sets i (sets rhs))
  | move i rhs => (.done, update (update sets rhs ∅) i (sets rhs))
  | assign i rhs => (.done, update sets i (sets rhs))

/-- Bit sets with members; the number of bits of each is an `int`. -/
structure HasMembers (sets : BitSets) (members : Nat → Finset Nat) : Prop where
  size_lt : ∀ i, (sets i).size < 2 ^ 25
  members_eq : ∀ i, (sets i).members = members i

theorem HasMembers.update {sets : BitSets} {members : Nat → Finset Nat} (h : HasMembers sets members)
    (i : Nat) {s : ResourceBitSet} {m : Finset Nat} (hsize : s.size < 2 ^ 25) (hm : s.members = m) :
    HasMembers (update sets i s) (update members i m) := by
  constructor
  · intro j
    by_cases hj : j = i
    · subst hj
      rw [Function.update_self]
      exact hsize
    · rw [Function.update_of_ne hj]
      exact h.size_lt j
  · intro j
    by_cases hj : j = i
    · subst hj
      rw [Function.update_self, Function.update_self]
      exact hm
    · rw [Function.update_of_ne hj, Function.update_of_ne hj]
      exact h.members_eq j

theorem nextMember_eq {members : Finset Nat} {position : Nat} {r : Option Nat}
    (h : ResourceBitSet.NextMember members position r) : nextMember members position = r := by
  cases r with
  | none =>
    refine dif_neg ?_
    rintro ⟨p, hp⟩
    obtain ⟨hmem, hle⟩ := Finset.mem_filter.mp hp
    exact absurd (h p hmem) (Nat.not_lt.mpr hle)
  | some q =>
    obtain ⟨hq, hle, hleast⟩ := h
    have hne : (members.filter (position ≤ ·)).Nonempty := ⟨q, Finset.mem_filter.mpr ⟨hq, hle⟩⟩
    rw [nextMember, dif_pos hne]
    refine congrArg some (le_antisymm (Finset.min'_le _ _ (Finset.mem_filter.mpr ⟨hq, hle⟩)) ?_)
    obtain ⟨hmem, hle'⟩ := Finset.mem_filter.mp (Finset.min'_mem _ hne)
    exact hleast _ hmem hle'

/-- **Step lemma.** An operation does to the members what it should, within the words. -/
theorem BitSetOp.step_refines {sets : BitSets} {members : Nat → Finset Nat} (op : BitSetOp)
    (h : HasMembers sets members) (hin : op.Inside sets) :
    ∃ sets', op.step sets = some ((op.setStep members).1, sets') ∧
      HasMembers sets' (op.setStep members).2 := by
  cases op with
  | set i position =>
    obtain ⟨s, hrun, hsize, hm⟩ := ResourceBitSet.set_of_lt hin
    refine ⟨_, by rw [step, hrun]; rfl, h.update i (by rw [hsize]; exact h.size_lt i) ?_⟩
    rw [hm, h.members_eq]
  | or i rhs =>
    obtain ⟨s, hrun, hsize, hm⟩ := ResourceBitSet.or_spec (sets i) (h.size_lt rhs)
    refine ⟨_, by rw [step, hrun]; rfl, h.update i ?_ ?_⟩
    · rw [hsize]
      exact max_lt (h.size_lt i) (h.size_lt rhs)
    · rw [hm, h.members_eq, h.members_eq]
  | andNot i rhs =>
    obtain ⟨s, hrun, hsize, hm⟩ := (sets i).andNot_spec (sets rhs)
    refine ⟨_, by rw [step, hrun]; rfl, h.update i (by rw [hsize]; exact h.size_lt i) ?_⟩
    rw [hm, h.members_eq, h.members_eq]
  | isIntersectionNonEmpty i rhs =>
    refine ⟨sets, ?_, h⟩
    rw [step, (sets i).isIntersectionNonEmpty_spec (sets rhs), setStep, Option.map_some]
    simp only [h.members_eq]
  | findFirstSetBit i =>
    obtain ⟨r, hrun, hnext⟩ := (sets i).findFirstSetBit_spec
    refine ⟨sets, ?_, h⟩
    rw [step, hrun, setStep, Option.map_some, ← h.members_eq, nextMember_eq hnext]
  | findNextSetBit i position =>
    obtain ⟨r, hrun, hnext⟩ := (sets i).findNextSetBit_spec position
    refine ⟨sets, ?_, h⟩
    rw [step, hrun, setStep, Option.map_some, ← h.members_eq, nextMember_eq hnext]
  | getOnesCount i =>
    refine ⟨sets, ?_, h⟩
    rw [step, (sets i).getOnesCount_spec, setStep, Option.map_some, h.members_eq]
  | copy i rhs =>
    obtain ⟨s, hrun, hsize, hm⟩ := ResourceBitSet.copy_spec (h.size_lt rhs)
    refine ⟨_, by rw [step, hrun]; rfl, h.update i hsize ?_⟩
    rw [hm, h.members_eq]
  | move i rhs =>
    refine ⟨_, rfl, (h.update rhs ?_ ?_).update i (h.size_lt rhs) (h.members_eq rhs)⟩
    · exact Nat.two_pow_pos 25
    · rfl
  | assign i rhs =>
    refine ⟨_, by rw [step, (sets rhs).assign_spec]; rfl, h.update i (h.size_lt rhs) ?_⟩
    exact h.members_eq rhs

/-- An enumeration from a position on goes through the members from there on, in order. -/
theorem ResourceBitSet.enumerate_spec (s : ResourceBitSet) {fuel position : Nat}
    (hfuel : (s.members.filter (position ≤ ·)).card < fuel) :
    s.enumerate fuel position = some (s.members.filter (position ≤ ·)).sort := by
  induction fuel generalizing position with
  | zero => exact absurd hfuel (Nat.not_lt_zero _)
  | succ fuel ih =>
    obtain ⟨r, hrun, hnext⟩ := s.findNextSetBit_spec position
    rw [enumerate, hrun]
    cases r with
    | none =>
      have hempty : s.members.filter (position ≤ ·) = ∅ :=
        Finset.filter_eq_empty_iff.mpr fun p hp => Nat.not_le.mpr (hnext p hp)
      rw [hempty, Finset.sort_empty]
    | some q =>
      obtain ⟨hq, hle, hleast⟩ := hnext
      -- The member that is found, and those behind it.
      have hsplit : s.members.filter (position ≤ ·)
          = insert q (s.members.filter (q + 1 ≤ ·)) := by
        ext p
        rw [Finset.mem_insert, Finset.mem_filter, Finset.mem_filter]
        constructor
        · rintro ⟨hp, hpos⟩
          have := hleast p hp hpos
          by_cases heq : p = q
          · exact .inl heq
          · exact .inr ⟨hp, by omega⟩
        · rintro (rfl | ⟨hp, hgt⟩)
          · exact ⟨hq, hle⟩
          · exact ⟨hp, by omega⟩
      have hnotMem : q ∉ s.members.filter (q + 1 ≤ ·) := fun hmem =>
        absurd (Finset.mem_filter.mp hmem).2 (Nat.not_succ_le_self q)
      rw [hsplit, Finset.card_insert_of_notMem hnotMem] at hfuel
      simp only
      rw [ih (by omega), hsplit, Option.map_some, Finset.sort_insert _ (fun p hp => ?_) hnotMem]
      exact Nat.le_of_succ_le (Finset.mem_filter.mp hp).2

/-- **Set algebra.** Operations on bit sets of any sizes are operations on the sets of their
    members, and an enumeration goes through the members of a bit set, each once and in order. -/
theorem runs_refine_sets (sets : BitSets) (hsets : ∀ i, (sets i).size < 2 ^ 25)
    (ops : List BitSetOp) (hops : AlongM (fun sets op => op.step sets) (fun sets op => op.Inside sets)
      sets ops) :
    (∃ sets', runM (fun sets op => op.step sets) sets ops
        = some ((runOut (fun members op => op.setStep members) (fun i => (sets i).members) ops).1,
          sets') ∧
      ∀ i, (sets' i).members
        = (runOut (fun members op => op.setStep members) (fun i => (sets i).members) ops).2 i) ∧
    ∀ s : ResourceBitSet, s.enumerate (s.members.card + 1) 0 = some s.members.sort := by
  constructor
  · obtain ⟨sets', hrun, hlast⟩ := runM_refines HasMembers
      (fun _ _ op h hin => BitSetOp.step_refines op h hin)
      (⟨hsets, fun _ => rfl⟩ : HasMembers sets fun i => (sets i).members) hops
    exact ⟨sets', hrun, hlast.members_eq⟩
  · intro s
    have hall : s.members.filter (0 ≤ ·) = s.members :=
      Finset.filter_true_of_mem fun _ _ => Nat.zero_le _
    rw [s.enumerate_spec (by rw [hall]; exact Nat.lt_succ_self _), hall]

/-- A set of one word, and others without words. -/
def oneWord : BitSets := update (fun _ => ⟨[]⟩) 0 ⟨[5]⟩

theorem runs_refine_sets_oneWord :
    (∃ sets', runM (fun sets op => BitSetOp.step sets op) oneWord
        [.or 1 0, .set 1 7, .findNextSetBit 1 1]
        = some ((runOut (fun members op => BitSetOp.setStep members op)
          (fun i => (oneWord i).members) [.or 1 0, .set 1 7, .findNextSetBit 1 1]).1, sets') ∧
      ∀ i, (sets' i).members
        = (runOut (fun members op => BitSetOp.setStep members op) (fun i => (oneWord i).members)
          [.or 1 0, .set 1 7, .findNextSetBit 1 1]).2 i) ∧
    ∀ s : ResourceBitSet, s.enumerate (s.members.card + 1) 0 = some s.members.sort := by
  refine runs_refine_sets oneWord (fun i => ?_) _
    ⟨trivial, fun b sets' h => ⟨?_, fun _ _ _ => ⟨trivial, fun _ _ _ => trivial⟩⟩⟩
  · by_cases hi : i = 0
    · subst hi
      decide
    · rw [oneWord, Function.update_of_ne hi]
      decide
  · have hor : (oneWord 1).or (oneWord 0) = some ⟨[5]⟩ := by decide
    have hstep : ((oneWord 1).or (oneWord 0)).map (fun s => (.done, update oneWord 1 s))
        = some (b, sets') := h
    rw [hor] at hstep
    cases hstep
    show 7 / 64 < (update oneWord 1 ⟨[5]⟩ 1).size
    rw [Function.update_self]
    decide

end MpactSim.Generic
