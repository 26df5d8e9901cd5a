import MpactSim.Lib.Run
import MpactSim.Lib.Words

namespace MpactSim.Generic

open Lib

/-!
# A calendar of reserved cycles

A `ComplexResource` has a bit for each of the next `cycle_depth` cycles.  Its calls first shift
the bits by the number of cycles that have passed, and then test, set or clear those that a
mask names.

`Reserved` says of the calls made so far which cycles they leave reserved.  The calendar shows
exactly these as long as `Advance` moves no whole words, which it moves in the wrong
direction, and as long as no mask names a bit on which the mask of the last word, which
keeps its high bits and not its low ones, is wrong.
-/

/-! ### The source -/

/-- `ComplexResource`: `cycle_depth_`, `bit_array_` and `last_cycle_`. -/
structure ComplexResource where
  depth : Nat
  bits : List (BitVec 64)
  last : BitVec 64
  deriving DecidableEq, Repr

/-- `array_size_`. -/
def arraySize (depth : Nat) : Nat := (depth + 64 - 1) / 64

/-- `mask_array_`. -/
def maskArray (depth : Nat) : List (BitVec 64) :=
  (List.replicate (arraySize depth) (BitVec.allOnes 64)).mapIdx fun i (word : BitVec 64) =>
    if depth % 64 > 0 ∧ i = arraySize depth - 1 then word <<< (64 - depth % 64) else word

/-- The word moves of `Advance`.  The words are visited from the last one, so each is read
    before it is written. -/
def moveWords (numLongwords : Nat) (bits : List (BitVec 64)) : List (BitVec 64) :=
  bits.mapIdx fun i _ => if i < numLongwords then 0 else bits.getD (i - numLongwords) 0

/-- The bit moves of `Advance`, with the low bits of the next word. -/
def shiftWords (numLongwords cycles : Nat) (bits : List (BitVec 64)) : List (BitVec 64) :=
  bits.mapIdx fun i word =>
    if i < numLongwords then word
    else
      let next := if i + 1 < bits.length then bits.getD (i + 1) 0 <<< (64 - cycles) else 0
      word >>> cycles ||| next

/-- `Advance` by a number of cycles. -/
def advanceBy (depth cycles : Nat) (bits : List (BitVec 64)) : List (BitVec 64) :=
  if cycles > depth then List.replicate bits.length 0
  else
    let numLongwords := cycles / 64
    let bits := if numLongwords > 0 then moveWords numLongwords bits else bits
    let cycles := cycles % 64
    if cycles = 0 then bits else shiftWords numLongwords cycles bits

/-- `int min = std::min(bit_span.length(), array_size_)`, the bound of the loops. -/
def loopBound (span : List (BitVec 64)) (size : Nat) : Int :=
  (BitVec.ofNat 32 (min span.length size)).toInt

namespace ComplexResource

/-- The constructor. -/
def init (depth : Nat) : ComplexResource := ⟨depth, List.replicate (arraySize depth) 0, 0⟩

/-- `Advance` at the cycle `now`, which the calls make unless no cycle has passed. -/
def advance (r : ComplexResource) (now : BitVec 64) : ComplexResource :=
  if now ≠ r.last then
    { r with bits := advanceBy r.depth (now - r.last).toNat r.bits, last := now }
  else r

/-- A loop over the words that a span and the calendar have in common. -/
def loop (r : ComplexResource) (span : List (BitVec 64))
    (f : BitVec 64 → BitVec 64 → BitVec 64) : ComplexResource :=
  let bits := r.bits.mapIdx fun i (word : BitVec 64) =>
    if i < loopBound span r.bits.length then
      f word (span.getD i 0 &&& (maskArray r.depth).getD i 0)
    else word
  { r with bits := bits }

/-- `IsFree`, after `Advance`. -/
def isFree (r : ComplexResource) (span : List (BitVec 64)) : Bool :=
  (List.range (loopBound span r.bits.length).toNat).all fun i =>
    span.getD i 0 &&& r.bits.getD i 0 = 0

/-- `Acquire`, after `Advance`. -/
def acquire (r : ComplexResource) (span : List (BitVec 64)) : ComplexResource :=
  r.loop span (· ||| ·)

/-- `Release`, after `Advance`. -/
def release (r : ComplexResource) (span : List (BitVec 64)) : ComplexResource :=
  r.loop span fun word mask => word &&& ~~~mask

end ComplexResource

/-- What a call does with its mask. -/
inductive ResourceOp where
  | isFree
  | acquire
  | release
  deriving DecidableEq, Repr

/-- A call at a cycle. -/
structure ResourceCall where
  now : BitVec 64
  op : ResourceOp
  span : List (BitVec 64)
  deriving DecidableEq, Repr

namespace ComplexResource

/-- The calendar after a call. -/
def step (r : ComplexResource) (call : ResourceCall) : ComplexResource :=
  match call.op with
  | .isFree => r.advance call.now
  | .acquire => (r.advance call.now).acquire call.span
  | .release => (r.advance call.now).release call.span

end ComplexResource

/-! ### The specification -/

/-- A call names the cycle `t`: its offset is below the depth and its bit is in the mask. -/
def ResourceCall.Names (depth : Nat) (call : ResourceCall) (t : Nat) : Prop :=
  ∃ c < depth, bitAt call.span c = true ∧ t = call.now.toNat + c

/-- The cycle `t` was reserved by an `Acquire` and not released since. -/
def Reserved (depth : Nat) (history : List ResourceCall) (t : Nat) : Prop :=
  ∃ before call after, history = before ++ call :: after ∧
    call.op = .acquire ∧ call.Names depth t ∧
    ∀ later ∈ after, later.op = .release → ¬ later.Names depth t

/-- The counts that `Advance` handles right: there is no word to move, or nothing is left. -/
def ShiftOk (depth cycles : Nat) : Prop :=
  cycles < 64 ∨ depth < cycles ∨ (depth = cycles ∧ depth % 64 = 0)

/-- The bits of the last word that a mask names and that the mask of the calendar keeps are
    those below the depth. -/
def MaskOk (depth : Nat) (span : List (BitVec 64)) : Prop :=
  ∀ c, bitAt span c = true → c / 64 = depth / 64 →
    (c % 64 < depth % 64 ↔ 64 - depth % 64 ≤ c % 64)

/-- The calls that the calendar handles right. -/
def CallOk (r : ComplexResource) (call : ResourceCall) : Prop :=
  ShiftOk r.depth (call.now.toNat - r.last.toNat) ∧
    (call.op ≠ .isFree → MaskOk r.depth call.span)

/-- Calls are made at nondecreasing cycle counts. -/
def InOrder (r : ComplexResource) (call : ResourceCall) : Prop := r.last ≤ call.now

/-! ### Shifts -/

theorem length_shiftWords (numLongwords cycles : Nat) (bits : List (BitVec 64)) :
    (shiftWords numLongwords cycles bits).length = bits.length := by
  rw [shiftWords, List.length_mapIdx]

variable {cycles depth c : Nat} {bits : List (BitVec 64)} {r : ComplexResource}

/-- Without word moves, `Advance` moves every bit down. -/
theorem bitAt_shiftWords (hpos : 0 < cycles) (hlt : cycles < 64) (bits : List (BitVec 64)) (c : Nat) :
    bitAt (shiftWords 0 cycles bits) c = bitAt bits (c + cycles) := by
  by_cases hc : c < 64 * bits.length
  · rw [shiftWords, bitAt_mapIdx _ hc, if_neg (Nat.not_lt_zero _)]
    dsimp only
    rw [BitVec.getLsbD_or, BitVec.getLsbD_ushiftRight, bitAt]
    by_cases hword : cycles + c % 64 < 64
    · -- The bit is from the same word.
      have hdiv : (c + cycles) / 64 = c / 64 := by omega
      have hmod : (c + cycles) % 64 = cycles + c % 64 := by omega
      have hnext : (if c / 64 + 1 < bits.length then bits.getD (c / 64 + 1) 0 <<< (64 - cycles)
          else 0).getLsbD (c % 64) = false := by
        split
        · rw [BitVec.getLsbD_shiftLeft]
          have hlow : c % 64 < 64 - cycles := by omega
          simp [hlow]
        · exact BitVec.getLsbD_zero
      rw [hnext, hdiv, hmod, Bool.or_false]
    · -- The bit is from the next word, or beyond the last one.
      have hdiv : (c + cycles) / 64 = c / 64 + 1 := by omega
      have hmod : (c + cycles) % 64 = c % 64 - (64 - cycles) := by omega
      rw [BitVec.getLsbD_of_ge _ _ (by omega), Bool.false_or, hdiv, hmod]
      split
      · rw [BitVec.getLsbD_shiftLeft]
        have hlow : ¬ c % 64 < 64 - cycles := by omega
        have hmod64 : c % 64 < 64 := by omega
        simp [hlow, hmod64]
      · rename_i hlast
        rw [List.getD_eq_default _ _ (by omega)]
        exact BitVec.getLsbD_zero.trans BitVec.getLsbD_zero.symm
  · rw [bitAt_eq_false (by rw [length_shiftWords]; omega), bitAt_eq_false (by omega)]

theorem length_advanceBy (depth cycles : Nat) (bits : List (BitVec 64)) :
    (advanceBy depth cycles bits).length = bits.length := by
  unfold advanceBy
  split
  · exact List.length_replicate
  · have hmove : (if cycles / 64 > 0 then moveWords (cycles / 64) bits else bits).length =
        bits.length := by
      split
      · rw [moveWords, List.length_mapIdx]
      · rfl
    dsimp only
    split
    · exact hmove
    · rw [length_shiftWords, hmove]

/-- The words of a calendar of some depth: as many as it needs, and no bit beyond it. -/
structure Fits (depth : Nat) (bits : List (BitVec 64)) : Prop where
  length : bits.length = arraySize depth
  below : ∀ c, bitAt bits c = true → c < depth

theorem Fits.bitAt_eq_false (h : Fits depth bits) (hc : depth ≤ c) : bitAt bits c = false := by
  rw [Bool.eq_false_iff]
  intro hbit
  have := h.below c hbit
  omega

theorem bitAt_moveWords_of_le {numLongwords : Nat} (h : bits.length ≤ numLongwords) (c : Nat) :
    bitAt (moveWords numLongwords bits) c = false := by
  by_cases hc : c < 64 * bits.length
  · rw [moveWords, bitAt_mapIdx _ hc, if_pos (by omega)]
    exact BitVec.getLsbD_zero
  · exact Lib.bitAt_eq_false (by rw [moveWords, List.length_mapIdx]; omega)

/-- `Advance` moves every bit down by the number of cycles, if it handles that number. -/
theorem bitAt_advanceBy (hfits : Fits depth bits) (hok : ShiftOk depth cycles) (c : Nat) :
    bitAt (advanceBy depth cycles bits) c = bitAt bits (c + cycles) := by
  unfold advanceBy
  by_cases hgt : cycles > depth
  · rw [if_pos hgt, bitAt_replicate_zero, hfits.bitAt_eq_false (by omega)]
  · rw [if_neg hgt]
    dsimp only
    by_cases hsmall : cycles < 64
    · have hdiv : cycles / 64 = 0 := by omega
      have hmod : cycles % 64 = cycles := by omega
      rw [hdiv, hmod, if_neg (lt_irrefl 0)]
      by_cases hzero : cycles = 0
      · rw [if_pos hzero, hzero, Nat.add_zero]
      · rw [if_neg hzero]
        exact bitAt_shiftWords (by omega) hsmall bits c
    · -- All words are moved out.
      obtain ⟨hdepth, hmod⟩ : depth = cycles ∧ depth % 64 = 0 := by
        rcases hok with hlt | hlt | heq
        · omega
        · omega
        · exact heq
      have hlen : bits.length ≤ cycles / 64 := by
        rw [hfits.length, arraySize]
        omega
      rw [if_pos (by omega), if_pos (by omega), bitAt_moveWords_of_le hlen,
        hfits.bitAt_eq_false (by omega)]

theorem fits_advanceBy (hfits : Fits depth bits) (hok : ShiftOk depth cycles) :
    Fits depth (advanceBy depth cycles bits) where
  length := by rw [length_advanceBy, hfits.length]
  below := by
    intro c hc
    rw [bitAt_advanceBy hfits hok] at hc
    have := hfits.below _ hc
    omega

theorem advanceBy_add {a b : Nat} (hfits : Fits depth bits) (ha : ShiftOk depth a)
    (hb : ShiftOk depth b) (hab : ShiftOk depth (a + b)) :
    advanceBy depth (a + b) bits = advanceBy depth b (advanceBy depth a bits) := by
  apply words_ext
  · rw [length_advanceBy, length_advanceBy, length_advanceBy]
  · intro c
    rw [bitAt_advanceBy hfits hab, bitAt_advanceBy (fits_advanceBy hfits ha) hb,
      bitAt_advanceBy hfits ha]
    congr 1
    omega

/-! ### Masks -/

theorem loopBound_eq {span : List (BitVec 64)} {size : Nat} (hsize : size < 2 ^ 31) :
    loopBound span size = (min span.length size : Nat) := by
  have hmin : min span.length size < 2 ^ 31 := lt_of_le_of_lt (Nat.min_le_right _ _) hsize
  have hnat : (BitVec.ofNat 32 (min span.length size)).toNat = min span.length size := by
    rw [BitVec.toNat_ofNat]
    exact Nat.mod_eq_of_lt (by omega)
  rw [loopBound, BitVec.toInt_eq_toNat_of_lt (by omega), hnat]

theorem bitAt_of_lt {words : List (BitVec 64)} (h : bitAt words c = true) :
    c < 64 * words.length := by
  by_contra hc
  rw [Lib.bitAt_eq_false (by omega)] at h
  exact Bool.false_ne_true h

theorem bitAt_loop (hsize : r.bits.length < 2 ^ 31) (span : List (BitVec 64))
    {f : BitVec 64 → BitVec 64 → BitVec 64} {g : Bool → Bool → Bool}
    (hf : ∀ x y : BitVec 64, ∀ b < 64, (f x y).getLsbD b = g (x.getLsbD b) (y.getLsbD b))
    (hg : ∀ x, g x false = x) (hc : c < 64 * r.bits.length) :
    bitAt (r.loop span f).bits c =
      g (bitAt r.bits c) (bitAt span c && bitAt (maskArray r.depth) c) := by
  show bitAt (r.bits.mapIdx _) c = _
  rw [bitAt_mapIdx _ hc, loopBound_eq hsize]
  by_cases hlt : c / 64 < min span.length r.bits.length
  · rw [if_pos (by exact_mod_cast hlt), hf _ _ _ (Nat.mod_lt _ (by decide)), BitVec.getLsbD_and]
    rfl
  · -- The word is beyond the span.
    have hspan : bitAt span c = false := Lib.bitAt_eq_false (by omega)
    rw [if_neg (by exact_mod_cast hlt), hspan, Bool.false_and, hg]
    rfl

theorem bitAt_maskArray (hc : c < 64 * arraySize depth) :
    bitAt (maskArray depth) c = true ↔
      (depth % 64 = 0 ∨ c / 64 ≠ depth / 64 ∨ 64 - depth % 64 ≤ c % 64) := by
  have hlen : (List.replicate (arraySize depth) (BitVec.allOnes 64)).length = arraySize depth :=
    List.length_replicate
  have hones : (List.replicate (arraySize depth) (BitVec.allOnes 64)).getD (c / 64) 0 =
      BitVec.allOnes 64 := by
    rw [List.getD_eq_getElem _ _ (by rw [hlen]; omega), List.getElem_replicate]
  rw [maskArray, bitAt_mapIdx _ (by rw [hlen]; exact hc), hones]
  have hmod : c % 64 < 64 := Nat.mod_lt _ (by decide)
  rw [arraySize] at hc ⊢
  split
  · rename_i hlast
    rw [BitVec.getLsbD_shiftLeft, BitVec.getLsbD_allOnes]
    simp
    omega
  · rename_i hlast
    rw [BitVec.getLsbD_allOnes]
    simp [hmod]
    omega

theorem MaskOk.bitAt_and {span : List (BitVec 64)} (h : MaskOk depth span)
    (hc : c < 64 * arraySize depth) :
    (bitAt span c && bitAt (maskArray depth) c) = true ↔ bitAt span c = true ∧ c < depth := by
  rw [Bool.and_eq_true, bitAt_maskArray hc]
  refine and_congr_right fun hspan => ?_
  have hlast := h c hspan
  rw [arraySize] at hc
  omega

theorem isFree_eq_true_iff (hsize : r.bits.length < 2 ^ 31) (span : List (BitVec 64)) :
    r.isFree span = true ↔ ∀ c, bitAt span c = true → bitAt r.bits c = false := by
  have hbound : (loopBound span r.bits.length).toNat = min span.length r.bits.length := by
    rw [loopBound_eq hsize]
    exact Int.toNat_natCast _
  rw [ComplexResource.isFree, hbound, List.all_eq_true]
  constructor
  · intro h c hspan
    by_contra hbit
    rw [Bool.not_eq_false] at hbit
    have hlt : c / 64 < min span.length r.bits.length := by
      have hs := bitAt_of_lt hspan
      have hr := bitAt_of_lt hbit
      omega
    have hzero := of_decide_eq_true (h _ (List.mem_range.mpr hlt))
    have hand : (span.getD (c / 64) 0 &&& r.bits.getD (c / 64) 0).getLsbD (c % 64) = true := by
      rw [BitVec.getLsbD_and, Bool.and_eq_true]
      exact ⟨hspan, hbit⟩
    rw [hzero] at hand
    exact Bool.false_ne_true (BitVec.getLsbD_zero.symm.trans hand)
  · intro h i _
    apply decide_eq_true
    apply BitVec.eq_of_getLsbD_eq
    intro b hb
    have hdiv : (64 * i + b) / 64 = i := by omega
    have hmod : (64 * i + b) % 64 = b := by omega
    have hbit := h (64 * i + b)
    rw [bitAt, bitAt, hdiv, hmod] at hbit
    rw [BitVec.getLsbD_and]
    cases hspan : (span.getD i 0).getLsbD b with
    | false => exact (Bool.false_and _).trans BitVec.getLsbD_zero.symm
    | true =>
      rw [hbit hspan]
      exact BitVec.getLsbD_zero.symm

/-! ### Runs -/

theorem not_reserved_nil (depth t : Nat) : ¬ Reserved depth [] t := by
  rintro ⟨before, call, after, hnil, -⟩
  simp at hnil

theorem reserved_snoc {history : List ResourceCall} {call : ResourceCall} {t : Nat} :
    Reserved depth (history ++ [call]) t ↔
      (call.op = .acquire ∧ call.Names depth t) ∨
        (Reserved depth history t ∧ ¬ (call.op = .release ∧ call.Names depth t)) := by
  constructor
  · rintro ⟨before, first, after, heq, hop, hnames, hkeep⟩
    rcases List.eq_nil_or_concat after with rfl | ⟨after, last, rfl⟩
    · obtain ⟨-, hcall⟩ := List.append_inj' heq rfl
      cases hcall
      exact .inl ⟨hop, hnames⟩
    · have hsplit : history ++ [call] = (before ++ first :: after) ++ [last] := by simpa using heq
      obtain ⟨rfl, hcall⟩ := List.append_inj' hsplit rfl
      cases hcall
      refine .inr ⟨⟨before, first, after, rfl, hop, hnames, ?_⟩, ?_⟩
      · intro later hlater
        exact hkeep later (by simp [hlater])
      · rintro ⟨hrelease, hname⟩
        exact hkeep call (by simp) hrelease hname
  · rintro (⟨hop, hnames⟩ | ⟨⟨before, first, after, rfl, hop, hnames, hkeep⟩, hcall⟩)
    · exact ⟨history, call, [], rfl, hop, hnames, by simp⟩
    · refine ⟨before, first, after ++ [call], by simp, hop, hnames, ?_⟩
      intro later hlater hrelease hname
      rcases List.mem_append.mp hlater with hmem | hmem
      · exact hkeep later hmem hrelease hname
      · rw [List.mem_singleton] at hmem
        exact hcall ⟨hmem ▸ hrelease, hmem ▸ hname⟩

/-- The calendar shows the cycles that a history leaves reserved. -/
structure Shows (history : List ResourceCall) (r : ComplexResource) : Prop where
  fits : Fits r.depth r.bits
  bits : ∀ c, bitAt r.bits c = true ↔ Reserved r.depth history (r.last.toNat + c)

theorem shows_init (depth : Nat) : Shows [] (.init depth) where
  fits := ⟨List.length_replicate, fun c hc => by
    rw [ComplexResource.init, bitAt_replicate_zero] at hc
    exact absurd hc Bool.false_ne_true⟩
  bits := by
    intro c
    rw [ComplexResource.init, bitAt_replicate_zero]
    exact iff_of_false Bool.false_ne_true (not_reserved_nil _ _)

@[simp]
theorem advance_depth (r : ComplexResource) (now : BitVec 64) :
    (r.advance now).depth = r.depth := by
  unfold ComplexResource.advance
  split <;> rfl

@[simp]
theorem step_depth (r : ComplexResource) (call : ResourceCall) :
    (r.step call).depth = r.depth := by
  unfold ComplexResource.step
  split
  · exact advance_depth r call.now
  · exact advance_depth r call.now
  · exact advance_depth r call.now

theorem Shows.advance {history : List ResourceCall} (h : Shows history r) {now : BitVec 64}
    (horder : r.last ≤ now) (hok : ShiftOk r.depth (now.toNat - r.last.toNat)) :
    Shows history (r.advance now) ∧ (r.advance now).last = now := by
  unfold ComplexResource.advance
  by_cases hnow : now = r.last
  · rw [if_neg (fun hne => hne hnow)]
    exact ⟨h, hnow.symm⟩
  · rw [if_pos hnow]
    have hle : r.last.toNat ≤ now.toNat := horder
    have hcycles : (now - r.last).toNat = now.toNat - r.last.toNat := BitVec.toNat_sub_of_le horder
    rw [hcycles]
    refine ⟨⟨fits_advanceBy h.fits hok, ?_⟩, rfl⟩
    intro c
    rw [bitAt_advanceBy h.fits hok, h.bits]
    have ht : r.last.toNat + (c + (now.toNat - r.last.toNat)) = now.toNat + c := by omega
    rw [ht]

theorem names_iff {call : ResourceCall} :
    call.Names depth (call.now.toNat + c) ↔ bitAt call.span c = true ∧ c < depth := by
  constructor
  · rintro ⟨c', hlt, hbit, heq⟩
    obtain rfl : c = c' := by omega
    exact ⟨hbit, hlt⟩
  · rintro ⟨hbit, hlt⟩
    exact ⟨c, hlt, hbit, rfl⟩

theorem length_loop (r : ComplexResource) (span : List (BitVec 64))
    (f : BitVec 64 → BitVec 64 → BitVec 64) : (r.loop span f).bits.length = r.bits.length := by
  show (r.bits.mapIdx _).length = r.bits.length
  exact List.length_mapIdx

theorem bitAt_acquire (span : List (BitVec 64)) (hfits : Fits r.depth r.bits)
    (hsize : r.bits.length < 2 ^ 31) (hmask : MaskOk r.depth span) (c : Nat) :
    bitAt (r.acquire span).bits c = true ↔
      (bitAt span c = true ∧ c < r.depth) ∨ bitAt r.bits c = true := by
  by_cases hc : c < 64 * r.bits.length
  · have hloop : bitAt (r.acquire span).bits c =
        (bitAt r.bits c || (bitAt span c && bitAt (maskArray r.depth) c)) :=
      bitAt_loop hsize span (g := or) (fun x y b _ => BitVec.getLsbD_or) Bool.or_false hc
    rw [hloop, Bool.or_eq_true, hmask.bitAt_and (hfits.length ▸ hc), or_comm]
  · have hacquire : bitAt (r.acquire span).bits c = false :=
      Lib.bitAt_eq_false (by rw [ComplexResource.acquire, length_loop]; omega)
    have hdepth : ¬ c < r.depth := by
      rw [hfits.length, arraySize] at hc
      omega
    rw [hacquire, Lib.bitAt_eq_false (by omega : 64 * r.bits.length ≤ c)]
    simp [hdepth]

theorem bitAt_release (span : List (BitVec 64)) (hfits : Fits r.depth r.bits)
    (hsize : r.bits.length < 2 ^ 31) (hmask : MaskOk r.depth span) (c : Nat) :
    bitAt (r.release span).bits c = true ↔
      bitAt r.bits c = true ∧ ¬ (bitAt span c = true ∧ c < r.depth) := by
  by_cases hc : c < 64 * r.bits.length
  · have hloop : bitAt (r.release span).bits c =
        (bitAt r.bits c && !(bitAt span c && bitAt (maskArray r.depth) c)) :=
      bitAt_loop hsize span (g := fun x y => x && !y)
        (fun x y b hb => by rw [BitVec.getLsbD_and, BitVec.getLsbD_not]; simp [hb])
        (fun x => by simp) hc
    rw [hloop, Bool.and_eq_true, Bool.not_eq_true', ← hmask.bitAt_and (hfits.length ▸ hc),
      Bool.not_eq_true]
  · have hrelease : bitAt (r.release span).bits c = false :=
      Lib.bitAt_eq_false (by rw [ComplexResource.release, length_loop]; omega)
    rw [hrelease, Lib.bitAt_eq_false (by omega : 64 * r.bits.length ≤ c)]
    simp

/-- **Step lemma.** The calendar still shows what is reserved after a call it handles. -/
theorem Shows.step {history : List ResourceCall} {r : ComplexResource} (h : Shows history r)
    (hsize : arraySize r.depth < 2 ^ 31) {call : ResourceCall} (horder : InOrder r call)
    (hok : CallOk r call) : Shows (history ++ [call]) (r.step call) := by
  obtain ⟨hshift, hmask⟩ := hok
  obtain ⟨hadv, hlast⟩ := h.advance horder hshift
  have hdepth : (r.advance call.now).depth = r.depth := advance_depth r call.now
  have hlen : (r.advance call.now).bits.length < 2 ^ 31 := by
    rw [hadv.fits.length, hdepth]
    exact hsize
  have hshows := hadv.bits
  rw [hlast, hdepth] at hshows
  unfold ComplexResource.step
  cases hop : call.op with
  | isFree =>
    refine ⟨hadv.fits, fun c => ?_⟩
    show bitAt (r.advance call.now).bits c = true ↔
      Reserved (r.advance call.now).depth _ ((r.advance call.now).last.toNat + c)
    rw [hdepth, hlast, hshows, reserved_snoc]
    simp [hop]
  | acquire =>
    have hbits := bitAt_acquire call.span hadv.fits hlen
      (hdepth ▸ hmask (by simp [hop]))
    refine ⟨⟨(length_loop _ _ _).trans hadv.fits.length, fun c hc => ?_⟩, fun c => ?_⟩
    · rcases (hbits c).mp hc with hname | hbit
      · exact hname.2
      · exact hadv.fits.below c hbit
    · show bitAt ((r.advance call.now).acquire call.span).bits c = true ↔
        Reserved (r.advance call.now).depth _ ((r.advance call.now).last.toNat + c)
      rw [hbits, hdepth, hlast, hshows, reserved_snoc, names_iff]
      simp [hop]
  | release =>
    have hbits := bitAt_release call.span hadv.fits hlen
      (hdepth ▸ hmask (by simp [hop]))
    refine ⟨⟨(length_loop _ _ _).trans hadv.fits.length, fun c hc => ?_⟩, fun c => ?_⟩
    · exact hadv.fits.below c ((hbits c).mp hc).1
    · show bitAt ((r.advance call.now).release call.span).bits c = true ↔
        Reserved (r.advance call.now).depth _ ((r.advance call.now).last.toNat + c)
      rw [hbits, hdepth, hlast, hshows, reserved_snoc, names_iff]
      simp [hop]

/-- **Run lemma.** -/
theorem shows_run (hsize : arraySize depth < 2 ^ 31) {calls : List ResourceCall}
    (hok : Along ComplexResource.step (fun r call => InOrder r call ∧ CallOk r call)
      (.init depth) calls) :
    Shows calls (run ComplexResource.step (.init depth) calls) ∧
      (run ComplexResource.step (.init depth) calls).depth = depth := by
  -- Induction on the end of the run, as the history grows there.
  induction calls using List.reverseRecOn with
  | nil => exact ⟨shows_init depth, rfl⟩
  | append_singleton calls call ih =>
    obtain ⟨hok', horder, hcall⟩ := along_snoc.mp hok
    obtain ⟨hshows, hdepth⟩ := ih hok'
    rw [run_snoc, step_depth]
    exact ⟨hshows.step (hdepth.symm ▸ hsize) horder hcall, hdepth⟩

/-- **Reservation calendar.** Let all calls of a run, made at nondecreasing cycles, be ones that
    the calendar handles.  Then `IsFree` answers, wherever it is called, whether none of the
    cycles that its mask names is reserved.  And `Advance` by a sum of cycles is `Advance` by
    the one and then by the other, as long as it moves no words that stay in the calendar. -/
theorem isFree_iff_not_reserved (depth : Nat) (hsize : arraySize depth < 2 ^ 31)
    (calls : List ResourceCall)
    (hok : Along ComplexResource.step (fun r call => InOrder r call ∧ CallOk r call)
      (.init depth) calls) :
    (∀ before call after, calls = before ++ call :: after → call.op = .isFree →
      (((run ComplexResource.step (.init depth) before).advance call.now).isFree call.span = true ↔
        ∀ t, call.Names depth t → ¬ Reserved depth before t)) ∧
    (∀ bits a b, Fits depth bits → ShiftOk depth a → ShiftOk depth b → ShiftOk depth (a + b) →
      advanceBy depth (a + b) bits = advanceBy depth b (advanceBy depth a bits)) := by
  refine ⟨?_, fun bits a b hfits ha hb hab => advanceBy_add hfits ha hb hab⟩
  rintro before call after rfl hop
  obtain ⟨hbefore, ⟨horder, hcall⟩, -⟩ := along_append.mp hok
  obtain ⟨hshows, hdepth⟩ := shows_run hsize hbefore
  obtain ⟨hadv, hlast⟩ := hshows.advance horder hcall.1
  have hdepth' : ((run ComplexResource.step (.init depth) before).advance call.now).depth = depth :=
    (advance_depth _ _).trans hdepth
  have hlen := hadv.fits.length
  rw [isFree_eq_true_iff (by rw [hlen, hdepth']; exact hsize)]
  have hbits := hadv.bits
  rw [hlast, hdepth'] at hbits
  constructor
  · rintro h t ⟨c, -, hspan, rfl⟩ hreserved
    rw [← hbits, h c hspan] at hreserved
    exact Bool.false_ne_true hreserved
  · intro h c hspan
    rw [Bool.eq_false_iff]
    intro hbit
    exact h _ ⟨c, hdepth' ▸ hadv.fits.below c hbit, hspan, rfl⟩ ((hbits c).mp hbit)

/-- A calendar of two words, with a cycle of the second one acquired and looked at 40 cycles
    later. -/
theorem isFree_iff_not_reserved_two_words :
    Along ComplexResource.step (fun r call => InOrder r call ∧ CallOk r call) (.init 128)
      [⟨0, .acquire, [0, 1]⟩, ⟨40, .isFree, [0x1000000]⟩] ∧
    (((run ComplexResource.step (.init 128) [⟨0, .acquire, [0, 1]⟩]).advance 40).isFree
        [0x1000000] = true ↔
      ∀ t, ResourceCall.Names 128 ⟨40, .isFree, [0x1000000]⟩ t →
        ¬ Reserved 128 [⟨0, .acquire, [0, 1]⟩] t) := by
  have hok : Along ComplexResource.step (fun r call => InOrder r call ∧ CallOk r call) (.init 128)
      [⟨0, .acquire, [0, 1]⟩, ⟨40, .isFree, [0x1000000]⟩] := by
    refine ⟨⟨(by decide : (0 : BitVec 64) ≤ 0), .inl (by decide), fun _ c _ _ => ?_⟩,
      ⟨(by decide : (0 : BitVec 64) ≤ 40), .inl (by decide), fun h => absurd rfl h⟩, trivial⟩
    show c % 64 < 0 ↔ 64 ≤ c % 64
    omega
  exact ⟨hok, (isFree_iff_not_reserved 128 (by decide) _ hok).1 [⟨0, .acquire, [0, 1]⟩]
    ⟨40, .isFree, [0x1000000]⟩ [] rfl rfl⟩

/-- Of 128 cycles, the one at offset 64 is acquired; 64 cycles later it is said to be free. -/
theorem isFree_of_reserved :
    ((run ComplexResource.step (.init 128) [⟨0, .acquire, [0, 1]⟩]).advance 64).isFree [1] = true ∧
      ResourceCall.Names 128 ⟨64, .isFree, [1]⟩ 64 ∧
      Reserved 128 [⟨0, .acquire, [0, 1]⟩] 64 :=
  ⟨by decide, ⟨0, by decide, by decide, rfl⟩,
    [], ⟨0, .acquire, [0, 1]⟩, [], rfl, rfl, ⟨64, by decide, by decide, rfl⟩, by simp⟩

end MpactSim.Generic
