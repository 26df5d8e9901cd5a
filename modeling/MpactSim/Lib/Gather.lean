import Mathlib.Tactic

namespace MpactSim.Lib

/-!
# Gathering and scattering bits

A value is put together from pieces.  A piece is a run of bits of the value that comes from a run
of bits of a word, or is constant.

* `gather`  — the value of a word;
* `scatter` — the word with the bits of a value;
* `gather_scatter`, `scatter_gather` — they are inverse to each other, up to the constants and the
  bits of the word that no piece reads.

Words and values are functions from positions to bits.
-/

/-- Where the bits of a piece come from: the word from a bit on, or a constant. -/
inductive Source where
  | word (low : Nat)
  | const (bit : Nat → Bool)

/-- A run of `width` bits of a value from bit `start` on. -/
structure Piece where
  start : Nat
  width : Nat
  source : Source

namespace Piece

/-- The piece has this bit of the value. -/
def covers (p : Piece) (j : Nat) : Bool := decide (p.start ≤ j ∧ j < p.start + p.width)

/-- The piece comes from this bit of the word. -/
def reads (p : Piece) (i : Nat) : Bool :=
  match p.source with
  | .word low => decide (low ≤ i ∧ i < low + p.width)
  | .const _ => false

/-- A bit of the value that the piece has. -/
def bit (p : Piece) (w : Nat → Bool) (j : Nat) : Bool :=
  match p.source with
  | .word low => w (low + (j - p.start))
  | .const b => b (j - p.start)

/-- The bit of the value that comes from bit `i` of the word. -/
def back (p : Piece) (v : Nat → Bool) (i : Nat) : Bool :=
  match p.source with
  | .word low => v (p.start + (i - low))
  | .const _ => false

/-- A bit of the value with the constant put in. -/
def fixed (p : Piece) (v : Nat → Bool) (j : Nat) : Bool :=
  match p.source with
  | .word _ => v j
  | .const b => b (j - p.start)

end Piece

/-- The value of a word. -/
def gather (ps : List Piece) (w : Nat → Bool) (j : Nat) : Bool :=
  ps.any fun p => p.covers j && p.bit w j

/-- The word with the bits of a value. -/
def scatter (ps : List Piece) (v : Nat → Bool) (i : Nat) : Bool :=
  ps.any fun p => p.reads i && p.back v i

/-- The bits of the word that are read. -/
def readMask (ps : List Piece) (i : Nat) : Bool := ps.any fun p => p.reads i

/-- A value with the constants in place of its own bits. -/
def withConstants (ps : List Piece) (v : Nat → Bool) (j : Nat) : Bool :=
  ps.any fun p => p.covers j && p.fixed v j

/-- No two of the predicates hold at one place. -/
def Exclusive (ps : List Piece) (holds : Piece → Nat → Bool) : Prop :=
  ps.Pairwise fun p q => ∀ j, holds p j = true → holds q j = false

/-! ### Exclusive pieces -/

section

variable {ps : List Piece} {holds : Piece → Nat → Bool} {p : Piece} {j : Nat}

/-- Only the piece for which the predicate holds counts. -/
theorem Exclusive.any_eq (h : Exclusive ps holds) (hp : p ∈ ps) (hj : holds p j = true)
    (f : Piece → Bool) : (ps.any fun q => holds q j && f q) = f p := by
  induction ps with
  | nil => cases hp
  | cons q rest ih =>
    obtain ⟨hq, hrest⟩ := List.pairwise_cons.mp h
    rw [List.any_cons]
    rcases List.mem_cons.mp hp with rfl | hp
    · have hnone : (rest.any fun q => holds q j && f q) = false := by
        rw [List.any_eq_false]
        intro q hmem
        rw [hq q hmem j hj, Bool.false_and]
        exact Bool.false_ne_true
      rw [hj, hnone, Bool.true_and, Bool.or_false]
    · have hfalse : holds q j = false := by
        rw [← Bool.not_eq_true]
        intro htrue
        rw [hq p hp j htrue] at hj
        cases hj
      rw [hfalse, Bool.false_and, Bool.false_or, ih hrest hp]

theorem Exclusive.eq_of_holds (h : Exclusive ps holds) {q : Piece} (hp : p ∈ ps) (hq : q ∈ ps)
    (hpj : holds p j = true) (hqj : holds q j = true) : p = q := by
  induction ps with
  | nil => cases hp
  | cons r rest ih =>
    obtain ⟨hr, hrest⟩ := List.pairwise_cons.mp h
    rcases List.mem_cons.mp hp with rfl | hp'
    · rcases List.mem_cons.mp hq with rfl | hq'
      · rfl
      · rw [hr q hq' j hpj] at hqj
        cases hqj
    · rcases List.mem_cons.mp hq with rfl | hq'
      · rw [hr p hp' j hqj] at hpj
        cases hpj
      · exact ih hrest hp' hq'

theorem any_eq_false_of_forall (hnone : ∀ p ∈ ps, holds p j = false) (f : Piece → Bool) :
    (ps.any fun q => holds q j && f q) = false := by
  rw [List.any_eq_false]
  intro q hq
  rw [hnone q hq, Bool.false_and]
  exact Bool.false_ne_true

theorem exists_holds_or (ps : List Piece) (holds : Piece → Nat → Bool) (j : Nat) :
    (∃ p ∈ ps, holds p j = true) ∨ ∀ p ∈ ps, holds p j = false := by
  by_cases h : ∃ p ∈ ps, holds p j = true
  · exact Or.inl h
  · push Not at h
    exact Or.inr fun p hp => Bool.not_eq_true _ ▸ h p hp

end

/-! ### One piece -/

namespace Piece

variable {p : Piece} {i j : Nat}

theorem reads_of_covers {low : Nat} (hs : p.source = .word low) (hj : p.covers j = true) :
    p.reads (low + (j - p.start)) = true ∧ p.start + (low + (j - p.start) - low) = j := by
  simp only [covers, decide_eq_true_eq] at hj
  simp only [reads, hs, decide_eq_true_eq]
  omega

theorem covers_of_reads {low : Nat} (hs : p.source = .word low) (hi : p.reads i = true) :
    p.covers (p.start + (i - low)) = true ∧ low + (p.start + (i - low) - p.start) = i := by
  simp only [reads, hs, decide_eq_true_eq] at hi
  simp only [covers, decide_eq_true_eq]
  omega

end Piece

/-- The two pieces come from runs of the word that are apart. -/
def Piece.apart (p q : Piece) : Bool :=
  match p.source, q.source with
  | .word low, .word low' => decide (low + p.width ≤ low' ∨ low' + q.width ≤ low)
  | _, _ => true

theorem exclusive_reads_of_apart {ps : List Piece}
    (h : ps.Pairwise fun p q => p.apart q = true) : Exclusive ps Piece.reads := by
  refine h.imp fun {p q} hapart i hp => ?_
  rw [← Bool.not_eq_true]
  intro hq
  rw [Piece.apart] at hapart
  rw [Piece.reads] at hp hq
  split at hapart
  · next low low' hs hs' =>
    rw [hs] at hp
    rw [hs'] at hq
    simp only [decide_eq_true_eq] at hapart hp hq
    omega
  · next hnone =>
    cases hs : p.source with
    | const b =>
      rw [hs] at hp
      cases hp
    | word low =>
      cases hs' : q.source with
      | const b =>
        rw [hs'] at hq
        cases hq
      | word low' => exact hnone low low' hs hs'

/-! ### Gathering and scattering are inverse -/

variable {ps : List Piece}

/-- A value depends on the bits of the word that are read. -/
theorem gather_congr {w w' : Nat → Bool} (h : ∀ p ∈ ps, ∀ i, p.reads i = true → w i = w' i)
    (j : Nat) : gather ps w j = gather ps w' j := by
  have hbit : ∀ p ∈ ps, (p.covers j && p.bit w j) = (p.covers j && p.bit w' j) := by
    intro p hp
    cases hcovers : p.covers j with
    | false => rw [Bool.false_and, Bool.false_and]
    | true =>
      cases hs : p.source with
      | word low =>
        rw [Piece.bit, Piece.bit, hs]
        exact congrArg _ (h p hp _ (Piece.reads_of_covers hs hcovers).1)
      | const b => rw [Piece.bit, Piece.bit, hs]
  rw [Bool.eq_iff_iff, gather, gather, List.any_eq_true, List.any_eq_true]
  exact exists_congr fun p => and_congr_right fun hp => by rw [hbit p hp]

/-- **Scattering after gathering** gives the bits of the word that are read. -/
theorem scatter_gather (h : Exclusive ps Piece.covers) (w : Nat → Bool) (i : Nat) :
    scatter ps (gather ps w) i = (readMask ps i && w i) := by
  have hback : ∀ p ∈ ps, (p.reads i && p.back (gather ps w) i) = (p.reads i && w i) := by
    intro p hp
    cases hreads : p.reads i with
    | false => rw [Bool.false_and, Bool.false_and]
    | true =>
      rw [Bool.true_and, Bool.true_and]
      cases hs : p.source with
      | word low =>
        obtain ⟨hcovers, hplace⟩ := p.covers_of_reads hs hreads
        rw [Piece.back, hs]
        simp only [gather]
        rw [h.any_eq hp hcovers, Piece.bit, hs]
        simp only [hplace]
      | const b =>
        rw [Piece.reads, hs] at hreads
        cases hreads
  rw [Bool.eq_iff_iff, scatter, readMask, Bool.and_eq_true, List.any_eq_true, List.any_eq_true]
  constructor
  · rintro ⟨p, hp, hb⟩
    rw [hback p hp, Bool.and_eq_true] at hb
    exact ⟨⟨p, hp, hb.1⟩, hb.2⟩
  · rintro ⟨⟨p, hp, hreads⟩, hw⟩
    refine ⟨p, hp, ?_⟩
    rw [hback p hp, hreads, hw]
    rfl

/-- **Gathering after scattering** gives the value with the constants put in. -/
theorem gather_scatter (h : Exclusive ps Piece.covers) (hreads : Exclusive ps Piece.reads)
    (v : Nat → Bool) (j : Nat) : gather ps (scatter ps v) j = withConstants ps v j := by
  rcases exists_holds_or ps Piece.covers j with ⟨p, hp, hj⟩ | hnone
  · rw [gather, withConstants, h.any_eq hp hj, h.any_eq hp hj]
    cases hs : p.source with
    | word low =>
      obtain ⟨hread, hplace⟩ := Piece.reads_of_covers hs hj
      rw [Piece.bit, Piece.fixed, hs]
      simp only [scatter]
      rw [hreads.any_eq hp hread, Piece.back, hs]
      simp only [hplace]
    | const b => rw [Piece.bit, Piece.fixed, hs]
  · rw [gather, withConstants, any_eq_false_of_forall hnone, any_eq_false_of_forall hnone]

end MpactSim.Lib
