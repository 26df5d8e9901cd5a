import MpactSim.Decoder.OverlayExtract
import MpactSim.Lib.PackedBits

namespace MpactSim.Decoder

open Cpp Lib

/-!
# Extraction recipes

The recipe of a mask packs the bits that the mask selects.  It is followed by the generator, and it
is printed as text of the emitted decoders.

* `intRecipe`         — the recipe with its shifts as the `int`s that they are;
* `extractValue_bits` — what the recipe of a mask extracts;
* `writeExtraction`   — the text of a recipe;
* `extraction_packs`  — recipe and text compute the packed bits.
-/

/-! ### Shifts -/

/-- The loop of `GetExtractionRecipe`, with differences of `int`s. -/
def intRecipeLoop : Nat → BitVec 64 → BitVec 64 → Int → Int → Nat → List (BitVec 64 × Int)
  | 0, _, mask, shift, width, total =>
    if mask ≠ 0 then [(mask <<< total, shift - width - total)] else []
  | left + 1, value, mask, shift, width, total =>
    if value = 0 then
      if mask ≠ 0 then [(mask <<< total, shift - width - total)] else []
    else if value.getLsbD 0 then
      intRecipeLoop left (value >>> 1) ((mask <<< 1) ||| 1) (shift + 1) (width + 1) total
    else if mask ≠ 0 then
      (mask <<< total, shift - width - total) ::
        intRecipeLoop left (value >>> 1) 0 (shift + 1) 0 (total + width.toNat)
    else intRecipeLoop left (value >>> 1) 0 (shift + 1) 0 total

/-- The steps of `GetExtractionRecipe`. -/
def intRecipe (value : BitVec 64) : List (BitVec 64 × Int) := intRecipeLoop 64 value 0 0 0 0

variable {mask : BitVec 64} {s : ExtractionStep}

/-- No difference of the loop is negative: a run of ones and the ones before it are among the bits
    that have been read. -/
theorem intRecipeLoop_eq {left shift width total : Nat} {value : BitVec 64}
    (h : width + total ≤ shift) : intRecipeLoop left value mask shift width total =
      (recipeLoop left value mask shift width total).map fun s => (s.mask, (s.shift : Int)) := by
  have hstep : ((shift : Int) - width - total) = ((shift - width - total : Nat) : Int) := by omega
  induction left generalizing value mask shift width total with
  | zero =>
    rw [intRecipeLoop, recipeLoop, hstep]
    split <;> rfl
  | succ left ih =>
    rw [intRecipeLoop, recipeLoop, hstep]
    split
    · split <;> rfl
    · split
      · exact ih (by omega) (by omega)
      · split
        · rw [List.map_cons]
          congr 1
          exact @ih _ (shift + 1) 0 _ _ (by omega) (by omega)
        · exact @ih _ (shift + 1) 0 _ _ (by omega) (by omega)

/-! ### Bits -/

theorem extractValue_getLsbD (value : BitVec 64) (recipe : List ExtractionStep) (i : Nat) :
    (extractValue value recipe).getLsbD i =
      recipe.any fun s => s.mask.getLsbD i && value.getLsbD (s.shift + i) := by
  have hloop : ∀ acc : BitVec 64, (recipe.foldl (fun extracted step =>
      extracted ||| ((value >>> step.shift) &&& step.mask)) acc).getLsbD i =
        (acc.getLsbD i || recipe.any fun s => s.mask.getLsbD i && value.getLsbD (s.shift + i)) := by
    induction recipe with
    | nil => exact fun acc => (Bool.or_false _).symm
    | cons s rest ih =>
      intro acc
      rw [List.foldl_cons, ih, List.any_cons, BitVec.getLsbD_or, BitVec.getLsbD_and,
        BitVec.getLsbD_ushiftRight, Bool.or_assoc, Bool.and_comm (s.mask.getLsbD i)]
  rw [extractValue, hloop]
  simp

section Loop

variable {left shift width total : Nat} {value mask : BitVec 64} {w : Nat → Bool}

theorem mask_eq_zero_iff (hmask : ∀ i, mask.getLsbD i = decide (i < width)) :
    mask = 0 ↔ width = 0 := by
  constructor
  · intro h
    have hzero := hmask 0
    rw [h] at hzero
    simpa using hzero
  · rintro rfl
    apply BitVec.eq_of_getLsbD_eq
    intro i _
    simp [hmask i]

theorem run_bits (hmask : ∀ i, mask.getLsbD i = decide (i < width)) (hle : width + total ≤ shift)
    (hshift : shift ≤ 64) (i : Nat) :
    ((mask <<< total).getLsbD i && w (shift - width - total + i)) =
      (decide (total ≤ i) && (List.range' (shift - width) width)[i - total]?.elim false w) := by
  rw [BitVec.getLsbD_shiftLeft, hmask]
  by_cases hlow : total ≤ i
  · by_cases hhigh : i - total < width
    · have hi : i < 64 := by omega
      rw [List.getElem?_range' hhigh, decide_eq_true hi, decide_eq_true hlow,
        decide_eq_true hhigh, decide_eq_false (not_lt.mpr hlow)]
      show w _ = w _
      congr 1
      omega
    · rw [List.getElem?_eq_none (by rw [List.length_range']; omega), decide_eq_false hhigh]
      simp
  · simp [hlow, not_le.mp hlow]

theorem flush_bits (hmask : ∀ i, mask.getLsbD i = decide (i < width)) (hle : width + total ≤ shift)
    (hshift : shift ≤ 64) (i : Nat) :
    ((if mask ≠ 0 then [⟨mask <<< total, shift - width - total⟩] else [] :
        List ExtractionStep).any fun s => s.mask.getLsbD i && w (s.shift + i)) =
      (decide (total ≤ i) && (List.range' (shift - width) width)[i - total]?.elim false w) := by
  split
  · rw [List.any_cons, List.any_nil, Bool.or_false]
    exact run_bits hmask hle hshift i
  · rename_i hzero
    have hwidth := (mask_eq_zero_iff hmask).mp (not_not.mp hzero)
    subst hwidth
    simp

theorem append_bits (shift width total i : Nat) (positions : List Nat) :
    ((decide (total ≤ i) && (List.range' (shift - width) width)[i - total]?.elim false w) ||
      (decide (total + width ≤ i) && (List.range' (shift + 1 - 0) 0 ++
        positions.map (shift + 1 + ·))[i - (total + width)]?.elim false w)) =
      (decide (total ≤ i) && (List.range' (shift - width) width ++
        ([] ++ positions.map (· + 1)).map (shift + ·))[i - total]?.elim false w) := by
  have hmap : ([] ++ positions.map (· + 1)).map (shift + ·) = positions.map (shift + 1 + ·) := by
    simp [Function.comp_def, Nat.add_assoc, Nat.add_comm 1]
  rw [hmap, List.range'_zero, List.nil_append]
  by_cases hhigh : total + width ≤ i
  · have hnone : (List.range' (shift - width) width)[i - total]? = none :=
      List.getElem?_eq_none (by rw [List.length_range']; omega)
    have hlow : total ≤ i := by omega
    rw [hnone, List.getElem?_append_right (by rw [List.length_range']; omega), List.length_range',
      Nat.sub_sub, decide_eq_true hhigh, decide_eq_true hlow]
    simp
  · by_cases hlow : total ≤ i
    · rw [List.getElem?_append_left (by rw [List.length_range']; omega), decide_eq_false hhigh]
      simp
    · simp [hlow, hhigh]

theorem grown_bits (hmask : ∀ i, mask.getLsbD i = decide (i < width)) (hwidth : width < 64)
    (i : Nat) : (mask <<< 1 ||| 1).getLsbD i = decide (i < width + 1) := by
  rw [BitVec.getLsbD_or, BitVec.getLsbD_shiftLeft, hmask]
  cases i with
  | zero => simp
  | succ i =>
    by_cases hi : i < width
    · have hlt : i + 1 < 64 := by omega
      simp [hi, hlt]
    · simp [hi]

/-- The bits that the rest of the loop makes up: those of the run that is open, and those that are
    still to be read. -/
theorem recipeLoop_bits (hmask : ∀ i, mask.getLsbD i = decide (i < width))
    (hle : width + total ≤ shift) (hshift : shift + left = 64) (i : Nat) :
    ((recipeLoop left value mask shift width total).any
        fun s => s.mask.getLsbD i && w (s.shift + i)) =
      (decide (total ≤ i) && (List.range' (shift - width) width ++
        (selected value.getLsbD left).map (shift + ·))[i - total]?.elim false w) := by
  induction left generalizing value mask shift width total with
  | zero =>
    rw [recipeLoop, flush_bits hmask hle (by omega)]
    simp [selected]
  | succ left ih =>
    have hrest : selected (fun p => value.getLsbD (p + 1)) left =
        selected (value >>> 1).getLsbD left := by
      congr 1
      funext p
      rw [BitVec.getLsbD_ushiftRight, Nat.add_comm]
    rw [recipeLoop, selected_succ, hrest]
    split
    · rename_i hzero
      have hnone : selected ((0 : BitVec 64) >>> 1).getLsbD left = [] := by
        rw [List.eq_nil_iff_forall_not_mem]
        intro p hp
        simpa using (mem_selected.mp hp).2
      rw [flush_bits hmask hle (by omega), hzero, hnone]
      simp
    · split
      · rename_i hone
        -- The run grows by the position that was read.
        have hgrown : ∀ j, (mask <<< 1 ||| 1).getLsbD j = decide (j < width + 1) :=
          grown_bits hmask (by omega)
        have hrun : List.range' (shift + 1 - (width + 1)) (width + 1) =
            List.range' (shift - width) width ++ [shift] := by
          rw [Nat.add_sub_add_right, List.range'_concat]
          congr 2
          omega
        rw [ih hgrown (by omega) (by omega), hrun, List.append_assoc]
        simp [Nat.add_assoc, Nat.add_comm 1, Function.comp_def]
      · -- The run ends here; an empty one has no step.
        have hsplit : (if mask ≠ 0 then ⟨mask <<< total, shift - width - total⟩ ::
              recipeLoop left (value >>> 1) 0 (shift + 1) 0 (total + width)
            else recipeLoop left (value >>> 1) 0 (shift + 1) 0 total) =
            (if mask ≠ 0 then [⟨mask <<< total, shift - width - total⟩] else []) ++
              recipeLoop left (value >>> 1) 0 (shift + 1) 0 (total + width) := by
          split
          · rfl
          · rename_i hzero
            rw [(mask_eq_zero_iff hmask).mp (not_not.mp hzero)]
            rfl
        rw [hsplit, List.any_append, flush_bits hmask hle (by omega),
          ih (show ∀ i, (0 : BitVec 64).getLsbD i = decide (i < 0) by simp) (by omega) (by omega)]
        exact append_bits shift width total i _

theorem exists_bit_of_flush (hmask : ∀ i, mask.getLsbD i = decide (i < width))
    (hle : width + total ≤ shift) (hshift : shift ≤ 64)
    (hs : s ∈ (if mask ≠ 0 then [⟨mask <<< total, shift - width - total⟩] else [] :
      List ExtractionStep)) : ∃ i, s.mask.getLsbD i = true := by
  split at hs
  · rename_i hne
    have hwidth : width ≠ 0 := fun h => hne ((mask_eq_zero_iff hmask).mpr h)
    have htotal : total < 64 := by omega
    refine ⟨total, ?_⟩
    rw [List.mem_singleton.mp hs, BitVec.getLsbD_shiftLeft, hmask, Nat.sub_self,
      decide_eq_true htotal, decide_eq_true (Nat.pos_of_ne_zero hwidth)]
    simp
  · cases hs

theorem exists_bit_of_mem (hmask : ∀ i, mask.getLsbD i = decide (i < width))
    (hle : width + total ≤ shift) (hshift : shift + left = 64)
    (hs : s ∈ recipeLoop left value mask shift width total) : ∃ i, s.mask.getLsbD i = true := by
  induction left generalizing value mask shift width total with
  | zero => exact exists_bit_of_flush hmask hle (by omega) hs
  | succ left ih =>
    have hempty : ∀ i, (0 : BitVec 64).getLsbD i = decide (i < 0) := by simp
    rw [recipeLoop] at hs
    split at hs
    · exact exists_bit_of_flush hmask hle (by omega) hs
    · split at hs
      · exact ih (grown_bits hmask (by omega)) (by omega) (by omega) hs
      · split at hs
        · rename_i hne
          rcases List.mem_cons.mp hs with hs | hs
          · apply exists_bit_of_flush hmask hle (by omega)
            rw [if_pos hne]
            exact List.mem_singleton.mpr hs
          · exact ih hempty (by omega) (by omega) hs
        · exact ih hempty (by omega) (by omega) hs

end Loop

/-- **Packing.** The recipe of a mask packs the bits that the mask selects. -/
theorem extractValue_bits (mask value : BitVec 64) (i : Nat) :
    (extractValue value (getExtractionRecipe mask)).getLsbD i =
      packed mask.getLsbD value.getLsbD 64 i := by
  have hbits := @recipeLoop_bits 64 0 0 0 mask 0 value.getLsbD (by simp) (le_refl 0) rfl i
  rw [extractValue_getLsbD, getExtractionRecipe, hbits, packed]
  simp

theorem getLsbD_of_mem (hs : s ∈ getExtractionRecipe mask) {i : Nat} (hi : s.mask.getLsbD i = true) : mask.getLsbD (s.shift + i) = true := by
  -- Packing the bits that the mask does not select gives nothing.
  have hbits := @recipeLoop_bits 64 0 0 0 mask 0 (fun p => !mask.getLsbD p) (by simp) (le_refl 0) rfl i
  have hnone : (selected mask.getLsbD 64)[i]?.elim false (fun p => !mask.getLsbD p) = false := by
    cases h : (selected mask.getLsbD 64)[i]? with
    | none => rfl
    | some p =>
      have hp := (mem_selected.mp (List.mem_of_getElem? h)).2
      simp [hp]
  have hany : ((getExtractionRecipe mask).any
      fun s => s.mask.getLsbD i && !mask.getLsbD (s.shift + i)) = false := by
    rw [getExtractionRecipe, hbits]
    simpa using hnone
  have hstep := List.any_eq_false.mp hany s hs
  rw [hi] at hstep
  simpa using hstep

theorem shift_lt_of_mem (hs : s ∈ getExtractionRecipe mask) : s.shift < 64 := by
  obtain ⟨i, hi⟩ := exists_bit_of_mem (by simp) (le_refl 0) rfl hs
  have hlt := BitVec.lt_of_getLsbD (getLsbD_of_mem hs hi)
  omega

theorem getExtractionRecipe_ne_nil (h : mask ≠ 0) : getExtractionRecipe mask ≠ [] := by
  intro hnil
  apply h
  -- Packing the mask itself gives ones.
  have hpacked : ∀ i, packed mask.getLsbD mask.getLsbD 64 i =
      packed mask.getLsbD (fun _ => false) 64 i := by
    intro i
    rw [← extractValue_bits, hnil]
    cases hi : (selected mask.getLsbD 64)[i]? <;> simp [packed, extractValue, hi]
  apply BitVec.eq_of_getLsbD_eq
  intro p hp
  cases hbit : mask.getLsbD p with
  | false => simp
  | true => simpa [hbit] using packed_congr_iff.mp hpacked p hp hbit

/-- **Indices.** Two values have the same index if and only if they agree on the masked bits. -/
theorem extractValue_eq_iff (mask value value' : BitVec 64) :
    extractValue value (getExtractionRecipe mask) = extractValue value' (getExtractionRecipe mask) ↔
      value &&& mask = value' &&& mask := by
  have hbits : ∀ a b : BitVec 64, a = b ↔ ∀ i, a.getLsbD i = b.getLsbD i := by
    intro a b
    exact ⟨fun h i => by rw [h], fun h => BitVec.eq_of_getLsbD_eq fun i _ => h i⟩
  rw [hbits, hbits]
  simp only [extractValue_bits, BitVec.getLsbD_and]
  rw [packed_congr_iff]
  constructor
  · intro h i
    by_cases hi : i < 64
    · cases hmask : mask.getLsbD i with
      | false => simp
      | true => rw [h i hi hmask]
    · simp [BitVec.getLsbD_of_ge _ _ (not_lt.mp hi)]
  · intro h p _ hmask
    simpa [hmask] using h p

/-! ### The text -/

/-- `WriteExtraction`, from the variable `value` into the variable `result`. -/
def writeExtraction (recipe : List ExtractionStep) (value result : String) : List Line :=
  accumulate result (recipe.map fun step =>
    .bin .and (shifted .shr (.var value) step.shift) (.lit (.hex step.mask.toNat)))

theorem evalBit_step {env : Env} {ty : IntTy} {value : String} {word : BitVec 64}
    (hvalue : env value = some (.of ty word.toNat)) (hword : (word.toNat : Int) < ty.upper)
    (hshift : s.shift < ty.promote.width) (h64 : s.shift < 64) :
    (∃ v, Expr.eval env (.bin .and (shifted .shr (.var value) s.shift)
      (.lit (.hex s.mask.toNat))) = some v) ∧
    ∀ j, evalBit env (.bin .and (shifted .shr (.var value) s.shift) (.lit (.hex s.mask.toNat))) j =
      (s.mask.getLsbD j && word.getLsbD (s.shift + j)) := by
  have hval : (Val.of ty word.toNat).val = word.toNat :=
    IntTy.wrap_of_nonneg (Int.natCast_nonneg _) hword
  have hvar : Expr.Yields env (.var value) word.toNat ty.promote.width := by
    have h := Expr.yields_var (n := ty.promote.width) hvalue (by rw [hval]; omega) (le_refl _)
    rwa [hval] at h
  obtain ⟨v, hv, hv', -, -⟩ := (hvar.shr (k := s.shift) (by omega) (by omega) (by omega)).and
    (Expr.yields_hex env s.mask.isLt)
  refine ⟨⟨v, hv⟩, fun j => ?_⟩
  rw [evalBit, shifted, hv, Option.elim_some, hv', Int.testBit_land, testBit_div_two_pow,
    Int.toNat_natCast, testBit_natCast, testBit_natCast, BitVec.testBit_toNat,
    BitVec.testBit_toNat, Bool.and_comm, Nat.add_comm]

/-- **The text.** It computes what the recipe extracts, in an unsigned type that holds the mask. -/
theorem run_writeExtraction {ty : IntTy} (hunsigned : ty.signed = false) {word : BitVec 64}
    (hne : mask ≠ 0) (hmask : mask.toNat < 2 ^ ty.width) (hword : word.toNat < 2 ^ ty.width)
    {vars : Variables} {value result : String} (hnames : value ≠ result)
    (hvalue : vars.env value = some (.of ty word.toNat)) :
    runLines ⟨vars.set result ⟨ty, none⟩, [], false⟩
        (writeExtraction (getExtractionRecipe mask) value result) =
      some (.goesOn ⟨vars.set result ⟨ty, some (.of ty
        (extractValue word (getExtractionRecipe mask)).toNat)⟩, [], false⟩) := by
  have hupper : ty.upper = 2 ^ ty.width := by rw [IntTy.upper_eq, hunsigned]; rfl
  have hword' : (word.toNat : Int) < ty.upper := by rw [hupper]; exact_mod_cast hword
  -- A step reads bits of the mask, which are below the width of the type.
  have hstep : ∀ s ∈ getExtractionRecipe mask, s.shift < ty.promote.width ∧ s.shift < 64 := by
    intro s hs
    refine ⟨?_, shift_lt_of_mem hs⟩
    obtain ⟨i, hi⟩ := exists_bit_of_mem (by simp) (le_refl 0) rfl hs
    have hbit := getLsbD_of_mem hs hi
    rw [← BitVec.testBit_toNat] at hbit
    have hlt : s.shift + i < ty.width := by
      by_contra hge
      have hpow := Nat.pow_le_pow_right (n := 2) two_pos (not_lt.mp hge)
      rw [Nat.testBit_lt_two_pow (lt_of_lt_of_le hmask hpow)] at hbit
      cases hbit
    have := ty.promote_width
    omega
  have hterms : (getExtractionRecipe mask).map (fun step => Expr.bin .and
      (shifted .shr (.var value) step.shift) (.lit (.hex step.mask.toNat))) ≠ [] := by
    simpa using getExtractionRecipe_ne_nil hne
  obtain ⟨v, hv, hty, hbits⟩ := @accumulated_bits vars.env _ ty hterms (by
    intro e he
    obtain ⟨s, hs, rfl⟩ := List.mem_map.mp he
    exact (evalBit_step hvalue hword' (hstep s hs).1 (hstep s hs).2).1)
  have hresult : v = .of ty (extractValue word (getExtractionRecipe mask)).toNat := by
    apply Val.ext_bits hty
    intro j hj
    rw [hty] at hj
    rw [hbits j hj, Val.of_val, IntTy.testBit_wrap, if_pos hj, testBit_natCast,
      BitVec.testBit_toNat, extractValue_getLsbD, List.any_map, Bool.eq_iff_iff, List.any_eq_true,
      List.any_eq_true]
    refine exists_congr fun s => and_congr_right fun hs => ?_
    have hbit := (evalBit_step hvalue hword' (hstep s hs).1 (hstep s hs).2).2 j
    exact iff_of_eq (congrArg (· = true) hbit)
  have hrun := @run_accumulate vars [] vars.env ty result (by simp)
    ((getExtractionRecipe mask).map (fun step => Expr.bin .and
      (shifted .shr (.var value) step.shift) (.lit (.hex step.mask.toNat)))) (by
    intro e he y hy
    obtain ⟨s, -, rfl⟩ := List.mem_map.mp he
    have hy' : y = value := by simpa [shifted, exprVars] using hy
    exact ⟨hy' ▸ hnames, rfl⟩) []
  rw [List.append_nil, hv, Option.bind_some, hresult] at hrun
  exact hrun

/-- The text of a recipe leaves a number in its result, whatever the names of the variables. -/
def Computes (recipe : List ExtractionStep) (word number : BitVec 64) : Prop :=
  ∀ (vars : Variables) (value result : String), value ≠ result →
    vars.env value = some (.of .ulong word.toNat) →
      runLines ⟨vars.set result ⟨.ulong, none⟩, [], false⟩ (writeExtraction recipe value result) =
        some (.goesOn ⟨vars.set result ⟨.ulong, some (.of .ulong number.toNat)⟩, [], false⟩)

/-- **Extraction.** The recipe of a mask packs the bits that it selects, all its shifts are counts
    of bits, equal indices are equal bits under the mask, and the text computes the same unless
    the mask is empty. -/
theorem extraction_packs (mask value : BitVec 64) :
    (∀ i, (extractValue value (getExtractionRecipe mask)).getLsbD i =
      packed mask.getLsbD value.getLsbD 64 i) ∧
    (intRecipe mask = (getExtractionRecipe mask).map (fun s => (s.mask, (s.shift : Int))) ∧
      ∀ s ∈ intRecipe mask, 0 ≤ s.2 ∧ s.2 < 64) ∧
    (∀ value', extractValue value (getExtractionRecipe mask) =
      extractValue value' (getExtractionRecipe mask) ↔ value &&& mask = value' &&& mask) ∧
    (mask ≠ 0 → Computes (getExtractionRecipe mask) value
      (extractValue value (getExtractionRecipe mask))) := by
  have hints : intRecipe mask =
      (getExtractionRecipe mask).map fun s => (s.mask, (s.shift : Int)) :=
    intRecipeLoop_eq (le_refl 0)
  refine ⟨extractValue_bits mask value, ⟨hints, ?_⟩, extractValue_eq_iff mask value, ?_⟩
  · rw [hints]
    intro s hs
    obtain ⟨step, hstep, rfl⟩ := List.mem_map.mp hs
    have := shift_lt_of_mem hstep
    simp only
    omega
  · intro hne vars x y hnames hvalue
    exact run_writeExtraction rfl hne mask.isLt value.isLt hnames hvalue

/-- The text for the empty mask leaves the result without a value. -/
theorem not_computes_zero : ¬ Computes (getExtractionRecipe 0) 0
    (extractValue 0 (getExtractionRecipe 0)) := by
  intro h
  have hrun := h (fun x => if x = "inst_word" then some ⟨.ulong, some (.of .ulong 0)⟩ else none)
    "inst_word" "index" (by decide) rfl
  have hstate := congrArg (fun r => r.bind fun outcome =>
    outcome.rec (motive := fun _ => Option Val)
      (fun state => (state.vars "index").bind (·.value)) fun _ => none) hrun
  exact absurd hstate (by decide +kernel)

end MpactSim.Decoder
