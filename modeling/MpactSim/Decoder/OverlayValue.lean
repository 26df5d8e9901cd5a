import MpactSim.Decoder.Overlay
import MpactSim.Decoder.AccessorsCorrect
import MpactSim.Lib.Gather

namespace MpactSim.Decoder

open Cpp Lib

/-!
# The value of an overlay

The components of an overlay are pieces of its value: `GetValue` gathers them from an instruction
word and `GetBitField` scatters a value over the word.

* `getValue_bits`, `getBitField_bits`, `mask_bits` — the three functions bit by bit;
* `overlay_inverse_iff` — when `GetValue` and `GetBitField` are inverse to each other.
-/

/-! ### Overlays of a format -/

/-- The piece of the value that a component is. -/
def BitsOrField.piece : BitsOrField → Piece
  | .bits _ low width position => ⟨(position - width + 1).toNat, width, .word low.toNat⟩
  | .binNum num position => ⟨(position - num.width + 1).toNat, num.width, .const num.value.testBit⟩

section Piece

variable (high low position : Int) (width : Nat) (num : BinaryNum)

theorem BitsOrField.bits_covers (j : Nat) : (bits high low width position).piece.covers j =
    decide ((position - width + 1).toNat ≤ j ∧ j < (position - width + 1).toNat + width) := rfl

theorem BitsOrField.bits_reads (i : Nat) : (bits high low width position).piece.reads i =
    decide (low.toNat ≤ i ∧ i < low.toNat + width) := rfl

theorem BitsOrField.bits_bit (w : Nat → Bool) (j : Nat) :
    (bits high low width position).piece.bit w j =
      w (low.toNat + (j - (position - width + 1).toNat)) := rfl

theorem BitsOrField.bits_back (v : Nat → Bool) (i : Nat) :
    (bits high low width position).piece.back v i =
      v ((position - width + 1).toNat + (i - low.toNat)) := rfl

theorem BitsOrField.num_covers (j : Nat) : (binNum num position).piece.covers j =
    decide ((position - num.width + 1).toNat ≤ j ∧
      j < (position - num.width + 1).toNat + num.width) := rfl

theorem BitsOrField.num_reads (i : Nat) : (binNum num position).piece.reads i = false := rfl

theorem BitsOrField.num_bit (w : Nat → Bool) (j : Nat) : (binNum num position).piece.bit w j =
    num.value.testBit (j - (position - num.width + 1).toNat) := rfl

end Piece

/-- The pieces of the value of an overlay. -/
def Overlay.pieces (o : Overlay) : List Piece := o.componentVec.map BitsOrField.piece

/-- The components of an overlay are accepted, and its field references are to fields of the
    format. -/
def Overlay.Of (o : Overlay) (fmt : Format) (placed : List FieldOrFormat) : Prop :=
  ∀ c ∈ o.components, c.Accepted fmt ∧
    ∀ field first last, c = .fieldReference field first last → .field field ∈ placed

/-- No two components refer to the same bit. -/
def Overlay.Distinct (o : Overlay) : Prop := Exclusive o.pieces Piece.reads

/-- A placed component lies inside a value of `n` bits, and its ends fit to its width. -/
def BitsOrField.InValue (n : Nat) : BitsOrField → Prop
  | .bits high low width position => 0 ≤ low ∧ 1 ≤ width ∧ high = low + width - 1 ∧
      0 ≤ position - width + 1 ∧ position < n
  | .binNum num position => 0 ≤ position - num.width + 1 ∧ position < n

/-- Width of a placed component, and the position of its high bit in the overlay. -/
def BitsOrField.width : BitsOrField → Nat
  | .bits _ _ width _ => width
  | .binNum num _ => num.width

def BitsOrField.position : BitsOrField → Int
  | .bits _ _ _ position => position
  | .binNum _ position => position

/-- The shifts of the generator for a component are defined. -/
def BitsOrField.Defined : BitsOrField → Prop
  | .bits high low width position =>
    width < 64 ∧ low < 64 ∧ high - position < 64 ∧ position - high < 64
  | .binNum .. => True

/-- The component is not 64 bits wide and refers to the lowest 64 bits of the format. -/
def BitsOrField.InWord : BitsOrField → Prop
  | .bits high _ width _ => width < 64 ∧ high < 64
  | .binNum .. => True

instance : DecidablePred BitsOrField.InWord
  | .bits high _ width _ => inferInstanceAs (Decidable (width < 64 ∧ high < 64))
  | .binNum .. => isTrue trivial

theorem BitField.place_width (position : Int) (c : BitField) : (c.place position).width = c.width := by
  cases c <;> rfl

theorem BitField.place_position (position : Int) (c : BitField) :
    (c.place position).position = position := by
  cases c <;> rfl

namespace Overlay

variable {fmt : Format} {placed : List FieldOrFormat} {getFormat : String → Option Nat}

variable {n : Nat} {comps : List BitField} {position : Int} {c : BitsOrField}
  {f : BitsOrField → Option (BitVec 64)} {cs : List BitsOrField}

/-- Where the components are placed. -/
theorem placeFrom_inValue (hplaced : fmt.computeAndCheckFormatWidth getFormat = .ok placed)
    (hcomps : ∀ c ∈ comps, c.Accepted fmt ∧
      ∀ field first last, c = .fieldReference field first last → .field field ∈ placed)
    (hposition : position < n) (hsum : ((comps.map BitField.width).sum : Nat) ≤ position + 1) :
    ∀ c ∈ placeFrom position comps, c.InValue n := by
  induction comps generalizing position with
  | nil =>
    intro c hc
    cases hc
  | cons comp rest ih =>
    have hcons : ((comp :: rest).map BitField.width).sum = comp.width + (rest.map BitField.width).sum :=
      List.sum_cons
    obtain ⟨hacc, hfield⟩ := hcomps comp List.mem_cons_self
    intro c hc
    rcases List.mem_cons.mp hc with rfl | hc
    · cases comp with
      | fieldReference field first last =>
        obtain ⟨hlow, -⟩ := Format.placed_bounds hplaced (hfield field first last rfl) rfl
        simp only [FieldOrFormat.low] at hlow
        simp only [BitField.Accepted] at hacc
        simp only [BitField.place, BitsOrField.InValue, BitField.width] at hcons ⊢
        omega
      | formatReference first last =>
        simp only [BitField.Accepted] at hacc
        simp only [BitField.place, BitsOrField.InValue, BitField.width] at hcons ⊢
        omega
      | bitConstant num =>
        simp only [BitField.place, BitsOrField.InValue, BitField.width] at hcons ⊢
        omega
    · exact ih (fun c hc => hcomps c (List.mem_cons_of_mem _ hc)) (by omega) (by omega) c hc

theorem placeFrom_below : ∀ c ∈ placeFrom position comps, c.position ≤ position := by
  induction comps generalizing position with
  | nil =>
    intro c hc
    cases hc
  | cons comp rest ih =>
    intro c hc
    rcases List.mem_cons.mp hc with rfl | hc
    · exact le_of_eq (BitField.place_position _ _)
    · have := ih c hc
      omega

theorem piece_covers (hc : c.InValue n) {j : Nat} :
    c.piece.covers j = true ↔ c.position - c.width + 1 ≤ j ∧ (j : Int) ≤ c.position := by
  rw [Piece.covers, decide_eq_true_eq]
  cases c with
  | bits high low width position =>
    simp only [BitsOrField.InValue] at hc
    simp only [BitsOrField.piece, BitsOrField.position, BitsOrField.width]
    omega
  | binNum num position =>
    simp only [BitsOrField.InValue] at hc
    simp only [BitsOrField.piece, BitsOrField.position, BitsOrField.width]
    omega

theorem placeFrom_exclusive (h : ∀ c ∈ placeFrom position comps, c.InValue n) :
    Exclusive ((placeFrom position comps).map BitsOrField.piece) Piece.covers := by
  induction comps generalizing position with
  | nil => exact List.Pairwise.nil
  | cons comp rest ih =>
    rw [placeFrom, List.map_cons]
    refine List.pairwise_cons.mpr ⟨fun q hq j hj => ?_,
      ih fun c hc => h c (List.mem_cons_of_mem _ hc)⟩
    obtain ⟨c, hc, rfl⟩ := List.mem_map.mp hq
    have hbelow := placeFrom_below c hc
    rw [piece_covers (h _ List.mem_cons_self), BitField.place_position, BitField.place_width] at hj
    rw [← Bool.not_eq_true, piece_covers (h c (List.mem_cons_of_mem _ hc))]
    omega

/-! ### One component -/

theorem getLsbD_shiftLeftULL {v : BitVec 64} {k : Int} (h0 : 0 ≤ k) (h : k < 64) :
    ∃ r, shiftLeftULL v k = some r ∧
      ∀ j, r.getLsbD j = (decide (j < 64 ∧ k.toNat ≤ j) && v.getLsbD (j - k.toNat)) := by
  refine ⟨v <<< k.toNat, if_pos ⟨h0, h⟩, fun j => ?_⟩
  rw [BitVec.getLsbD_shiftLeft, ← decide_not, ← Bool.decide_and]
  exact congrArg (· && _) (decide_eq_decide.mpr (by omega))

theorem getLsbD_widthMask {width : Nat} (h : width < 64) :
    ∃ m, widthMask width = some m ∧ ∀ j, m.getLsbD j = decide (j < width) := by
  obtain ⟨m, hm, hmask⟩ := widthMask_eq h
  refine ⟨m, hm, fun j => ?_⟩
  rw [← BitVec.testBit_toNat, hmask, Nat.testBit_two_pow_sub_one]

theorem getLsbD_shiftedMask {width : Nat} {low : Int} (h0 : 0 ≤ low) (hlow : low < 64)
    (hw : width < 64) :
    ∃ m r, widthMask width = some m ∧ shiftLeftULL m low = some r ∧
      ∀ j, r.getLsbD j = decide (j < 64 ∧ low.toNat ≤ j ∧ j < low.toNat + width) := by
  obtain ⟨m, hm, hmbits⟩ := getLsbD_widthMask hw
  obtain ⟨r, hr, hbits⟩ := getLsbD_shiftLeftULL (v := m) h0 hlow
  refine ⟨m, r, hm, hr, fun j => ?_⟩
  rw [hbits, hmbits, ← Bool.decide_and, decide_eq_decide]
  omega

theorem valueOf_bits (hc : c.InValue n) (hn : n ≤ 64) (hdef : c.Defined) (input : BitVec 64) :
    ∃ r, valueOf input c = some r ∧
      ∀ j, r.getLsbD j = (c.piece.covers j && c.piece.bit input.getLsbD j) := by
  cases c with
  | bits high low width position =>
    simp only [BitsOrField.InValue] at hc
    simp only [BitsOrField.Defined] at hdef
    obtain ⟨ones, m, hones, hm, hmask⟩ := getLsbD_shiftedMask hc.1
      hdef.2.1 hdef.1
    have hbits : ∀ j, (input &&& m).getLsbD j =
        (decide (low.toNat ≤ j ∧ j < low.toNat + width) && input.getLsbD j) := by
      intro j
      rw [BitVec.getLsbD_and, hmask]
      by_cases hj : j < 64
      · rw [Bool.and_comm]
        exact congrArg (· && _) (decide_eq_decide.mpr (and_iff_right hj))
      · rw [BitVec.getLsbD_of_ge input j (by omega), Bool.false_and, Bool.and_false]
    -- Bit `j` of the value is bit `j + diff` of the word.
    have hresult : ∀ r : BitVec 64, (∀ j, r.getLsbD j = (decide (j < 64 ∧ 0 ≤ j + high - position) &&
        (input &&& m).getLsbD (j + high - position).toNat)) → ∀ j, r.getLsbD j =
          ((BitsOrField.bits high low width position).piece.covers j &&
            (BitsOrField.bits high low width position).piece.bit input.getLsbD j) := by
      intro r hr j
      rw [hr, hbits, ← Bool.and_assoc, ← Bool.decide_and, BitsOrField.bits_covers,
        BitsOrField.bits_bit]
      by_cases hin : (position - width + 1).toNat ≤ j ∧ j < (position - width + 1).toNat + width
      · have hplace : (j + high - position).toNat = low.toNat + (j - (position - width + 1).toNat) := by
          omega
        rw [decide_eq_true (by omega), decide_eq_true hin, hplace]
      · rw [decide_eq_false (by omega), decide_eq_false hin, Bool.false_and, Bool.false_and]
    simp only [valueOf, hones, hm, Option.bind_eq_bind, Option.bind_some]
    split
    · next hdiff =>
      obtain ⟨r, hr, hshift⟩ := getLsbD_shiftLeftULL (v := input &&& m) (k := -(high - position))
        (by omega) (by omega)
      refine ⟨r, hr, hresult r fun j => ?_⟩
      have hplace : j - (-(high - position)).toNat = (j + high - position).toNat := by omega
      rw [hshift, hplace]
      exact congrArg (· && _) (decide_eq_decide.mpr (by omega))
    · next hdiff =>
      refine ⟨(input &&& m) >>> (high - position).toNat, if_pos (by omega), hresult _ fun j => ?_⟩
      have hplace : (high - position).toNat + j = (j + high - position).toNat := by omega
      rw [BitVec.getLsbD_ushiftRight, hplace]
      by_cases hj : j < 64
      · rw [decide_eq_true (by omega), Bool.true_and]
      · rw [BitVec.getLsbD_of_ge (input &&& m) _ (by omega), Bool.and_false]
  | binNum num position =>
    simp only [BitsOrField.InValue] at hc
    simp only [valueOf]
    have hvalue : ∀ k, num.width ≤ k → num.value.testBit k = false := fun k hk =>
      Nat.testBit_lt_two_pow (lt_of_lt_of_le num.lt (Nat.pow_le_pow_right (by omega) hk))
    split
    · next hzero =>
      refine ⟨0, rfl, fun j => ?_⟩
      rw [BitsOrField.num_bit, hzero, Nat.zero_testBit, Bool.and_false]
      exact BitVec.getLsbD_zero
    · next hne =>
      have hpos : num.width ≠ 0 := by
        intro hw
        have := num.lt
        rw [hw] at this
        omega
      obtain ⟨r, hr, hshift⟩ := getLsbD_shiftLeftULL (v := BitVec.ofNat 64 num.value)
        (k := position - num.width + 1) (by omega) (by omega)
      refine ⟨r, hr, fun j => ?_⟩
      rw [hshift, BitVec.getLsbD_ofNat, BitsOrField.num_covers, BitsOrField.num_bit]
      by_cases hin : (position - num.width + 1).toNat ≤ j ∧
          j < (position - num.width + 1).toNat + num.width
      · rw [decide_eq_true (by omega), decide_eq_true hin, decide_eq_true (by omega), Bool.true_and]
      · rw [decide_eq_false hin, Bool.false_and]
        by_cases hle : (position - num.width + 1).toNat ≤ j
        · rw [hvalue _ (by omega), Bool.and_false, Bool.and_false]
        · rw [decide_eq_false (by omega), Bool.false_and]

theorem bitFieldOf_bits (hc : c.InValue n) (hn : n ≤ 64) (hdef : c.Defined) (input : BitVec 64) :
    ∃ r, bitFieldOf input c = some r ∧ ∀ i, r.getLsbD i =
      (decide (i < 64) && (c.piece.reads i && c.piece.back input.getLsbD i)) := by
  cases c with
  | bits high low width position =>
    simp only [BitsOrField.InValue] at hc
    simp only [BitsOrField.Defined] at hdef
    obtain ⟨ones, hones, hmask⟩ := getLsbD_widthMask hdef.1
    obtain ⟨r, hr, hbits⟩ := getLsbD_shiftLeftULL
      (v := (input >>> (position - width + 1).toNat) &&& ones) hc.1 hdef.2.1
    refine ⟨r, ?_, fun i => ?_⟩
    · simp only [bitFieldOf, hones, Option.bind_eq_bind, Option.bind_some]
      rw [if_pos (by omega)]
      exact hr
    · rw [hbits, BitVec.getLsbD_and, BitVec.getLsbD_ushiftRight, hmask, BitsOrField.bits_reads,
        BitsOrField.bits_back]
      by_cases hi : i < 64
      · rw [decide_eq_true hi, Bool.true_and]
        by_cases hin : low.toNat ≤ i ∧ i < low.toNat + width
        · rw [decide_eq_true (by omega), decide_eq_true hin, decide_eq_true (by omega),
            Bool.and_true]
        · rw [decide_eq_false hin, Bool.false_and]
          by_cases hle : low.toNat ≤ i
          · rw [decide_eq_false (p := i - low.toNat < width) (by omega), Bool.and_false,
              Bool.and_false]
          · rw [decide_eq_false (by omega), Bool.false_and]
      · rw [decide_eq_false (by omega), decide_eq_false hi, Bool.false_and, Bool.false_and]
  | binNum num position => exact ⟨0, rfl, fun i => by
      rw [BitsOrField.num_reads, Bool.false_and, Bool.and_false]
      exact BitVec.getLsbD_zero⟩

/-- What a component adds in `ComputeHighLow`. -/
def maskOf : BitsOrField → Option (BitVec 64)
  | .bits _ low width _ => do shiftLeftULL (← widthMask width) low
  | .binNum .. => some 0

theorem mask_eq (o : Overlay) :
    o.mask = o.componentVec.foldlM (fun mask c => (maskOf c).map (mask ||| ·)) 0 := by
  rw [mask]
  refine congrFun (congrFun (congrArg _ ?_) _) _
  funext acc c
  cases c with
  | bits high low width position =>
    simp only [maskOf, Option.bind_eq_bind]
    cases widthMask width with
    | none => rfl
    | some ones =>
      rw [Option.bind_some, Option.bind_some]
      cases shiftLeftULL ones low <;> rfl
  | binNum num position =>
    rw [maskOf, Option.map_some]
    exact congrArg some (BitVec.or_zero).symm

theorem maskOf_bits (hc : c.InValue n) (hdef : c.Defined) :
    ∃ r, maskOf c = some r ∧ ∀ i, r.getLsbD i = (decide (i < 64) && c.piece.reads i) := by
  cases c with
  | bits high low width position =>
    simp only [BitsOrField.InValue] at hc
    simp only [BitsOrField.Defined] at hdef
    obtain ⟨ones, m, hones, hm, hmask⟩ := getLsbD_shiftedMask hc.1
      hdef.2.1 hdef.1
    refine ⟨m, ?_, fun i => ?_⟩
    · simp only [maskOf, hones, hm, Option.bind_eq_bind, Option.bind_some]
    · rw [hmask, BitsOrField.bits_reads, ← Bool.decide_and]
  | binNum num position => exact ⟨0, rfl, fun i => by
      rw [BitsOrField.num_reads, Bool.and_false]
      exact BitVec.getLsbD_zero⟩

/-! ### All components -/

theorem foldlM_or_bits {b : BitsOrField → Nat → Bool}
    (h : ∀ c ∈ cs, ∃ r, f c = some r ∧ ∀ j, r.getLsbD j = b c j) (acc : BitVec 64) :
    ∃ r, cs.foldlM (fun acc c => (f c).map (acc ||| ·)) acc = some r ∧
      ∀ j, r.getLsbD j = (acc.getLsbD j || cs.any fun c => b c j) := by
  induction cs generalizing acc with
  | nil => exact ⟨acc, rfl, fun j => by rw [List.any_nil, Bool.or_false]⟩
  | cons c rest ih =>
    obtain ⟨x, hx, hxbits⟩ := h c List.mem_cons_self
    obtain ⟨r, hr, hbits⟩ := ih (fun c hc => h c (List.mem_cons_of_mem _ hc)) (acc ||| x)
    refine ⟨r, ?_, fun j => ?_⟩
    · rw [List.foldlM_cons, hx, Option.map_some]
      exact hr
    · rw [hbits, BitVec.getLsbD_or, hxbits, List.any_cons, Bool.or_assoc]

theorem foldlM_or_zero {b : BitsOrField → Nat → Bool}
    (h : ∀ c ∈ cs, ∃ r, f c = some r ∧ ∀ j, r.getLsbD j = b c j) :
    ∃ r, cs.foldlM (fun acc c => (f c).map (acc ||| ·)) 0 = some r ∧
      ∀ j, r.getLsbD j = cs.any fun c => b c j := by
  obtain ⟨r, hr, hbits⟩ := foldlM_or_bits h 0
  refine ⟨r, hr, fun j => (hbits j).trans ?_⟩
  rw [show (0 : BitVec 64).getLsbD j = false from BitVec.getLsbD_zero, Bool.false_or]

theorem foldlM_or_some {acc r : BitVec 64}
    (h : cs.foldlM (fun acc c => (f c).map (acc ||| ·)) acc = some r) :
    ∀ c ∈ cs, ∃ x, f c = some x := by
  induction cs generalizing acc with
  | nil =>
    intro c hc
    cases hc
  | cons c rest ih =>
    rw [List.foldlM_cons] at h
    obtain ⟨acc', hacc, h⟩ := Option.bind_eq_some_iff.mp h
    obtain ⟨x, hx, -⟩ := Option.map_eq_some_iff.mp hacc
    intro c' hc
    rcases List.mem_cons.mp hc with rfl | hc
    · exact ⟨x, hx⟩
    · exact ih h c' hc

/-- The components of an overlay inside its value, with shifts that are defined. -/
structure Good (o : Overlay) : Prop where
  width : o.declaredWidth = o.computedWidth
  le : o.declaredWidth ≤ 64
  inValue : ∀ c ∈ o.componentVec, c.InValue o.declaredWidth
  defined : ∀ c ∈ o.componentVec, c.Defined

section Bits

variable {o : Overlay}

theorem getValue_bits (h : o.Good) (input : BitVec 64) :
    ∃ v, o.getValue input = .ok (some v) ∧
      ∀ j, v.getLsbD j = gather o.pieces input.getLsbD j := by
  obtain ⟨v, hv, hbits⟩ := foldlM_or_zero (f := valueOf input)
    (fun c hc => valueOf_bits (h.inValue c hc) h.le (h.defined c hc) input)
  refine ⟨v, ?_, fun j => ?_⟩
  · rw [getValue, if_neg (not_not.mpr h.width), hv]
  · rw [hbits, gather, pieces, List.any_map]
    rfl

theorem getBitField_bits (h : o.Good) (input : BitVec 64) :
    ∃ w, o.getBitField input = some w ∧
      ∀ i, w.getLsbD i = (decide (i < 64) && scatter o.pieces input.getLsbD i) := by
  obtain ⟨w, hw, hbits⟩ := foldlM_or_zero (f := bitFieldOf input)
    (fun c hc => bitFieldOf_bits (h.inValue c hc) h.le (h.defined c hc) input)
  refine ⟨w, hw, fun i => ?_⟩
  rw [hbits, scatter, pieces, List.any_map]
  cases decide (i < 64)
  · simp
  · simp only [Bool.true_and]
    rfl

theorem mask_bits (h : o.Good) :
    ∃ m, o.mask = some m ∧ ∀ i, m.getLsbD i = (decide (i < 64) && readMask o.pieces i) := by
  obtain ⟨m, hm, hbits⟩ := foldlM_or_zero (f := maskOf)
    (fun c hc => maskOf_bits (h.inValue c hc) (h.defined c hc))
  refine ⟨m, (mask_eq o).trans hm, fun i => ?_⟩
  rw [hbits, readMask, pieces, List.any_map]
  cases decide (i < 64)
  · simp
  · simp only [Bool.true_and]
    rfl

end Bits

/-! ### Inverse functions -/

/-- `GetBitField` and `GetValue` are inverse to each other: on the bits of the word that the mask
    has, and on values with the constants put in. -/
structure Inverse (o : Overlay) : Prop where
  word : ∀ w : BitVec 64, ∃ v m, o.getValue w = .ok (some v) ∧ o.mask = some m ∧
    o.getBitField v = some (w &&& m)
  value : ∀ v : BitVec 64, v.toNat < 2 ^ o.declaredWidth → ∃ w v', o.getBitField v = some w ∧
    o.getValue w = .ok (some v') ∧ ∀ j, v'.getLsbD j = withConstants o.pieces v.getLsbD j

section Inverse

variable {fmt : Format} {placed : List FieldOrFormat} {getFormat : String → Option Nat}
  {o : Overlay}

theorem inValue_of (hplaced : fmt.computeAndCheckFormatWidth getFormat = .ok placed)
    (ho : o.Of fmt placed) (hwidth : o.declaredWidth = o.computedWidth) :
    ∀ c ∈ o.componentVec, c.InValue o.declaredWidth := by
  have hsum : o.computedWidth = (o.components.map BitField.width).sum := rfl
  exact placeFrom_inValue hplaced ho (by omega) (by omega)

theorem defined_of_inWord (hn : n ≤ 64) (hc : c.InValue n) (hword : c.InWord) : c.Defined := by
  cases c with
  | bits high low width position =>
    simp only [BitsOrField.InValue] at hc
    simp only [BitsOrField.InWord] at hword
    simp only [BitsOrField.Defined]
    omega
  | binNum num position => trivial

theorem lt_of_shiftLeftULL {v r : BitVec 64} {k : Int} (h : shiftLeftULL v k = some r) :
    0 ≤ k ∧ k < 64 := by
  rw [shiftLeftULL] at h
  split at h
  · assumption
  · cases h

theorem lt_of_widthMask {width : Nat} {m : BitVec 64} (h : widthMask width = some m) :
    width < 64 := by
  obtain ⟨r, hr, -⟩ := Option.map_eq_some_iff.mp h
  have := lt_of_shiftLeftULL hr
  omega

theorem defined_of_valueOf {input x : BitVec 64} (h : valueOf input c = some x) : c.Defined := by
  cases c with
  | bits high low width position =>
    obtain ⟨ones, hones, h⟩ := Option.bind_eq_some_iff.mp h
    obtain ⟨m, hm, h⟩ := Option.bind_eq_some_iff.mp h
    have hwidth := lt_of_widthMask hones
    have hlow := lt_of_shiftLeftULL hm
    simp only [BitsOrField.Defined] at h ⊢
    split at h
    · have := lt_of_shiftLeftULL h
      omega
    · rw [shiftRightULL] at h
      split at h
      · omega
      · cases h
  | binNum num position => trivial

/-- The two functions are inverse to each other for components that refer to the lowest 64 bits. -/
theorem inverse_of_good (h : o.Good) (hcovers : Exclusive o.pieces Piece.covers)
    (hdistinct : o.Distinct) (hword : ∀ c ∈ o.componentVec, c.InWord) : o.Inverse := by
  refine ⟨fun w => ?_, fun v _ => ?_⟩
  · obtain ⟨v, hv, hvbits⟩ := getValue_bits h w
    obtain ⟨m, hm, hmbits⟩ := mask_bits h
    obtain ⟨r, hr, hrbits⟩ := getBitField_bits h v
    have hval : v.getLsbD = gather o.pieces w.getLsbD := funext hvbits
    refine ⟨v, m, hv, hm, hr.trans (congrArg some (BitVec.eq_of_getLsbD_eq fun i hi => ?_))⟩
    rw [hrbits, decide_eq_true hi, Bool.true_and, hval, scatter_gather hcovers, BitVec.getLsbD_and,
      hmbits, decide_eq_true hi, Bool.true_and, Bool.and_comm]
  · obtain ⟨w, hw, hwbits⟩ := getBitField_bits h v
    obtain ⟨v', hv', hbits⟩ := getValue_bits h w
    refine ⟨w, v', hw, hv', fun j => ?_⟩
    rw [hbits, ← gather_scatter hcovers hdistinct]
    -- Only bits below 64 are read.
    refine gather_congr (fun p hp i hi => ?_) j
    obtain ⟨c, hc, rfl⟩ := List.mem_map.mp hp
    have hlt : i < 64 := by
      have hin := hword c hc
      have hval := h.inValue c hc
      cases c with
      | bits high low width position =>
        simp only [BitsOrField.InWord] at hin
        simp only [BitsOrField.InValue] at hval
        rw [BitsOrField.bits_reads, decide_eq_true_eq] at hi
        omega
      | binNum num position =>
        rw [BitsOrField.num_reads] at hi
        cases hi
    rw [hwbits, decide_eq_true hlt, Bool.true_and]

/-- **Inverse functions.**  For an overlay of at most 64 bits whose components add up to its width
    and refer to distinct bits, the two functions are inverse to each other exactly if no component
    is 64 bits wide and none refers to a bit above 63. -/
theorem overlay_inverse_iff (hplaced : fmt.computeAndCheckFormatWidth getFormat = .ok placed)
    (ho : o.Of fmt placed) (hwidth : o.declaredWidth = o.computedWidth)
    (h64 : o.declaredWidth ≤ 64) (hdistinct : o.Distinct) :
    o.Inverse ↔ ∀ c ∈ o.componentVec, c.InWord := by
  have hin := inValue_of hplaced ho hwidth
  have hcovers : Exclusive o.pieces Piece.covers := placeFrom_exclusive hin
  refine ⟨fun hinv c hc => ?_, fun hword => inverse_of_good
    ⟨hwidth, h64, hin, fun c hc => defined_of_inWord h64 (hin c hc) (hword c hc)⟩ hcovers hdistinct
    hword⟩
  -- Every component has a value for the word 0.
  obtain ⟨v, m, hv, -, -⟩ := hinv.word 0
  rw [getValue, if_neg (not_not.mpr hwidth), Except.ok.injEq] at hv
  have hgood : o.Good := ⟨hwidth, h64, hin, fun c hc => by
    obtain ⟨x, hx⟩ := foldlM_or_some hv c hc
    exact defined_of_valueOf hx⟩
  have hdef := hgood.defined c hc
  have hval := hin c hc
  cases c with
  | binNum num position => trivial
  | bits high low width position =>
    simp only [BitsOrField.Defined] at hdef
    simp only [BitsOrField.InValue] at hval
    refine ⟨hdef.1, ?_⟩
    by_contra hhigh
    -- The highest bit of the component is lost.
    have hpiece : (BitsOrField.bits high low width position).piece ∈ o.pieces :=
      List.mem_map_of_mem hc
    have hcover : (BitsOrField.bits high low width position).piece.covers position.toNat = true := by
      rw [BitsOrField.bits_covers, decide_eq_true_eq]
      omega
    have hlt : (BitVec.twoPow 64 position.toNat).toNat < 2 ^ o.declaredWidth := by
      rw [BitVec.toNat_twoPow_of_lt (by omega)]
      exact Nat.pow_lt_pow_right (by omega) (by omega)
    obtain ⟨w, v', -, hv', hbits⟩ := hinv.value (BitVec.twoPow 64 position.toNat) hlt
    obtain ⟨v'', hv'', hgather⟩ := getValue_bits hgood w
    rw [hv', Except.ok.injEq, Option.some.injEq] at hv''
    subst hv''
    have hbit := (hbits position.toNat).symm.trans (hgather position.toNat)
    rw [withConstants, gather, hcovers.any_eq hpiece hcover, hcovers.any_eq hpiece hcover,
      BitsOrField.bits_bit, BitVec.getLsbD_of_ge w _ (by omega)] at hbit
    have htop : (BitVec.twoPow 64 position.toNat).getLsbD position.toNat = true := by
      rw [BitVec.getLsbD_twoPow, decide_eq_true (by omega), decide_eq_true rfl]
      rfl
    exact absurd (htop.symm.trans hbit) (by decide)

/-- A 32-bit format with an immediate in two fields. -/
def branchFormat : Format := ⟨"BType", 32, "", [.field "imm7" false 7, .field "rs2" false 5,
  .field "rs1" false 5, .field "func3" false 3, .field "imm5" false 5, .field "opcode" false 7]⟩

/-- The fields of the immediate as they are placed. -/
def imm7 : Field := ⟨"imm7", false, 31, 25, 7⟩

def imm5 : Field := ⟨"imm5", false, 11, 7, 5⟩

/-- The fields of `branchFormat`. -/
def branchPlaced : List FieldOrFormat := [.field imm7, .field ⟨"rs2", false, 24, 20, 5⟩,
  .field ⟨"rs1", false, 19, 15, 5⟩, .field ⟨"func3", false, 14, 12, 3⟩, .field imm5,
  .field ⟨"opcode", false, 6, 0, 7⟩]

/-- The immediate: its bits are in disorder, and its lowest bit is zero. -/
def branchImm : Overlay := ⟨"b_imm", true, 13, [.fieldReference imm7 6 6, .fieldReference imm5 0 0,
  .fieldReference imm7 5 0, .fieldReference imm5 4 1, .bitConstant ⟨0, 1, by decide, by decide⟩]⟩

theorem branchImm_of : branchImm.Of branchFormat branchPlaced := by
  intro c hc
  simp only [branchImm, List.mem_cons, List.not_mem_nil, or_false] at hc
  rcases hc with rfl | rfl | rfl | rfl | rfl
  all_goals
    refine ⟨by simp [BitField.Accepted, imm7, imm5], fun field first last h => ?_⟩
    cases h
  all_goals decide

theorem branchImm_distinct : branchImm.Distinct := exclusive_reads_of_apart (by decide)

/-- The functions for the immediate are inverse to each other. -/
theorem branchImm_inverse : branchImm.Inverse :=
  (@overlay_inverse_iff branchFormat branchPlaced (fun _ => none) _
    (by decide) branchImm_of (by decide) (by decide) branchImm_distinct).mpr (by decide)

/-- A 64-bit format, and an overlay that is the format. -/
def wordFormat : Format := ⟨"Word", 64, "", [.field "all" false 64]⟩

def wholeWord : Overlay := ⟨"whole", false, 64, [.formatReference 63 0]⟩

/-- The mask of a component of 64 bits is a shift by 64. -/
theorem wholeWord_not_inverse :
    wordFormat.computeAndCheckFormatWidth (fun _ => none) =
        .ok [.field ⟨"all", false, 63, 0, 64⟩] ∧
      wholeWord.Of wordFormat [.field ⟨"all", false, 63, 0, 64⟩] ∧ wholeWord.Distinct ∧
      wholeWord.mask = none ∧ wholeWord.getValue 1 = .ok none ∧ ¬ wholeWord.Inverse := by
  refine ⟨by decide, ?_, exclusive_reads_of_apart (by decide), by decide, by decide, fun h => ?_⟩
  · intro c hc
    rcases List.mem_singleton.mp hc with rfl
    refine ⟨by simp [BitField.Accepted, wordFormat], fun field first last h => ?_⟩
    cases h
  · obtain ⟨v, m, -, hm, -⟩ := h.word 0
    have hnone : wholeWord.mask = none := by decide
    rw [hnone] at hm
    cases hm

end Inverse

end Overlay

end MpactSim.Decoder
