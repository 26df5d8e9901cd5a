import Mathlib.Data.List.GetD
import MpactSim.Lib.Monad

namespace MpactSim.Generic

/-!
# Delay lines

A `DelayLine` is a circular buffer of slots, one for each of the next cycles.  A record is
added to the slot of the cycle it is due in, and the line grows to a power of two of slots
when a latency does not fit.  A vector access out of bounds has no result here.

`due` says of the calls made so far which records are due in which cycle.  `Holds` relates it
to the slots.  It is kept by every call but two: a latency equal to the number of slots,
which does not make the line grow but moves its slots all the same, and a longer one while a
record waits in the current slot, which is then not moved.
-/

universe u

variable {α : Type u}

/-! ### The source -/

/-- `DelayLine`: `delay_line_`, `current_`, `mask_` and `num_entries_`. -/
structure DelayLine (α : Type u) where
  slots : List (List α)
  current : Nat
  mask : Nat
  numEntries : Nat
  deriving DecidableEq, Repr

/-- `absl::bit_ceil`. -/
def bitCeil (n : Nat) : Nat := 2 ^ Nat.clog 2 n

/-- A step of the loop in `Resize`: move a slot up by the previous size. -/
def moveSlot (prevSize : Nat) (slots : List (List α)) (index : Nat) : Option (List (List α)) := do
  let slot ← slots[index]?
  if slot.isEmpty then pure slots
  else if prevSize + index < slots.length then
    pure ((slots.set (prevSize + index) slot).set index [])
  else none

namespace DelayLine

/-- The constructor. -/
def init (minSize : Nat) : DelayLine α :=
  ⟨List.replicate (bitCeil minSize) [], 0, bitCeil minSize - 1, 0⟩

/-- `Resize`. -/
def resize (line : DelayLine α) (minSize : Nat) : Option (DelayLine α) := do
  let prevSize := line.slots.length
  if minSize < prevSize then pure line
  else
    let newSize := bitCeil minSize
    let slots := line.slots ++ List.replicate (newSize - prevSize) []
    let slots ← (List.range line.current).foldlM (moveSlot prevSize) slots
    pure { line with mask := newSize - 1, slots := slots }

/-- `Add`.  The position is computed in `int`. -/
def add (line : DelayLine α) (latency : Nat) (record : α) : Option (DelayLine α) := do
  let line ← (if latency ≥ line.slots.length then line.resize latency else pure line)
  if latency + line.current < 2 ^ 31 then
    let pos := (latency + line.current) &&& line.mask
    if pos < line.slots.length then
      pure { line with
        slots := line.slots.modify pos (· ++ [record])
        numEntries := line.numEntries + 1 }
    else none
  else none

/-- `Advance`, with the records that it applies, in order. -/
def advance (line : DelayLine α) : Option (DelayLine α × List α) := do
  let current := (line.current + 1) &&& line.mask
  let records ← line.slots[current]?
  pure (⟨line.slots.set current [], current, line.mask, line.numEntries - records.length⟩, records)

end DelayLine

/-- A call on a delay line. -/
inductive DelayCall (α : Type u) where
  | add (latency : Nat) (record : α)
  | advance

namespace DelayLine

/-- The delay line after a call. -/
def step (line : DelayLine α) : DelayCall α → Option (DelayLine α)
  | .add latency record => line.add latency record
  | .advance => line.advance.map Prod.fst

/-- The delay line after a list of calls. -/
def run (line : DelayLine α) (calls : List (DelayCall α)) : Option (DelayLine α) :=
  calls.foldlM step line

end DelayLine

/-! ### The specification -/

/-- The number of `Advance` calls. -/
def advances : List (DelayCall α) → Nat
  | [] => 0
  | .add _ _ :: rest => advances rest
  | .advance :: rest => advances rest + 1

/-- The records that are due at the `d`-th `Advance` from now, in the order they were added. -/
def due : List (DelayCall α) → Nat → List α
  | [], _ => []
  | .add latency record :: rest, d =>
    if latency = advances rest + d then record :: due rest d else due rest d
  | .advance :: rest, d => due rest d

/-- The number of records that are due at a later `Advance`. -/
def pending : List (DelayCall α) → Nat
  | [] => 0
  | .add latency _ :: rest => if advances rest < latency then pending rest + 1 else pending rest
  | .advance :: rest => pending rest

/-- The calls that a delay line handles right. -/
def AddOk (line : DelayLine α) : DelayCall α → Prop
  | .add latency _ =>
    latency + line.current < 2 ^ 31 ∧
    -- The line does not grow, and no slot is moved.
    (latency = line.slots.length → ∀ i < line.current, line.slots.getD i [] = []) ∧
    -- The line grows, and no record waits in the current slot.
    (line.slots.length < latency → line.slots.getD line.current [] = [])
  | .advance => True

/-! ### Histories -/

section History

variable {history : List (DelayCall α)} {latency : Nat} {record : α} {d : Nat}

theorem advances_append (before after : List (DelayCall α)) :
    advances (before ++ after) = advances before + advances after := by
  induction before with
  | nil => simp [advances]
  | cons call rest ih =>
    cases call with
    | add _ _ => simpa [advances] using ih
    | advance =>
      simp only [List.cons_append, advances, ih]
      omega

theorem due_add :
    due (history ++ [.add latency record]) d =
      due history d ++ if latency = d then [record] else [] := by
  induction history with
  | nil =>
    simp only [List.nil_append, due, advances, Nat.zero_add]
  | cons call rest ih =>
    cases call with
    | add l r =>
      simp only [List.cons_append, due, advances_append, advances, Nat.add_zero, ih]
      split
      · rfl
      · rfl
    | advance => exact ih

theorem due_advance : due (history ++ [.advance]) d = due history (d + 1) := by
  induction history with
  | nil => rfl
  | cons call rest ih =>
    cases call with
    | add l r =>
      have hadvances : advances (rest ++ [.advance]) + d = advances rest + (d + 1) := by
        rw [advances_append]
        simp only [advances]
        omega
      simp only [List.cons_append, due, hadvances, ih]
    | advance => exact ih

theorem pending_add (hpos : 1 ≤ latency) :
    pending (history ++ [.add latency record]) = pending history + 1 := by
  induction history with
  | nil =>
    show (if 0 < latency then 0 + 1 else 0) = 0 + 1
    exact if_pos (by omega)
  | cons call rest ih =>
    cases call with
    | add l r =>
      simp only [List.cons_append, pending, advances_append, advances, Nat.add_zero, ih]
      split <;> rfl
    | advance => exact ih

theorem pending_advance :
    pending (history ++ [.advance]) + (due history 1).length = pending history := by
  induction history with
  | nil => rfl
  | cons call rest ih =>
    cases call with
    | add l r =>
      have hadvances : advances (rest ++ [.advance]) = advances rest + 1 := by
        rw [advances_append]
        rfl
      simp only [List.cons_append, pending, due, hadvances]
      -- The record is due now, later, or was due before.
      rcases lt_trichotomy l (advances rest + 1) with hlt | heq | hgt
      · rw [if_neg (by omega), if_neg (by omega), if_neg (by omega), ih]
      · rw [if_neg (by omega), if_pos (by omega), if_pos (by omega), List.length_cons, ← ih]
        omega
      · rw [if_pos (by omega), if_neg (by omega), if_pos (by omega), ← ih]
        omega
    | advance => exact ih

end History

/-! ### Slots -/

theorem le_bitCeil (n : Nat) : n ≤ bitCeil n := Nat.le_pow_clog (by decide) n

theorem bitCeil_two_pow (k : Nat) : bitCeil (2 ^ k) = 2 ^ k := by
  rw [bitCeil, Nat.clog_pow 2 k (by decide)]

variable {k prevSize : Nat} {slots : List (List α)} {history : List (DelayCall α)}
  {line : DelayLine α}

theorem two_mul_le_bitCeil {n : Nat} (h : 2 ^ k < n) : 2 * 2 ^ k ≤ bitCeil n := by
  have hlt : k < Nat.clog 2 n := (Nat.lt_clog_iff_pow_lt (by decide)).mpr h
  calc 2 * 2 ^ k = 2 ^ (k + 1) := by rw [pow_succ, mul_comm]
    _ ≤ 2 ^ Nat.clog 2 n := Nat.pow_le_pow_right (by decide) hlt

theorem foldlM_moveSlot_of_empty (hk : k ≤ slots.length) (h : ∀ i < k, slots.getD i [] = []) :
    (List.range k).foldlM (moveSlot prevSize) slots = some slots := by
  induction k with
  | zero => rfl
  | succ k ih =>
    have hget : slots[k]? = some [] := by
      rw [List.getElem?_eq_getElem hk, ← h k (Nat.lt_succ_self k), List.getD_eq_getElem _ _ hk]
    rw [List.range_succ, List.foldlM_append, ih (by omega) fun i hi => h i (by omega)]
    show ([k].foldlM (moveSlot prevSize) slots) = some slots
    simp [moveSlot, hget]

theorem getD_set {i : Nat} (hi : i < slots.length) (slot : List α) (j : Nat) :
    (slots.set i slot).getD j [] = if j = i then slot else slots.getD j [] := by
  rw [List.getD_eq_getElem?_getD, List.getElem?_set, List.getD_eq_getElem?_getD]
  by_cases hij : j = i
  · rw [if_pos hij, if_pos hij.symm, if_pos (hij ▸ hi)]
    rfl
  · rw [if_neg hij, if_neg (fun h => hij h.symm)]

theorem moveSlot_spec {index : Nat} (hlen : prevSize + index < slots.length)
    (hempty : slots.getD (prevSize + index) [] = []) :
    ∃ slots', moveSlot prevSize slots index = some slots' ∧ slots'.length = slots.length ∧
      ∀ i, slots'.getD i [] = if i = index then [] else
        if i = prevSize + index then slots.getD index [] else slots.getD i [] := by
  have hi : index < slots.length := by omega
  have hslot : slots[index]? = some (slots.getD index []) := by
    rw [List.getElem?_eq_getElem hi, List.getD_eq_getElem _ _ hi]
  unfold moveSlot
  rw [hslot]
  by_cases hnil : slots.getD index [] = []
  · refine ⟨slots, ?_, rfl, fun i => ?_⟩
    · simp only [Option.bind_eq_bind, Option.bind_some, hnil]
      rfl
    · split
      · rename_i h
        rw [h, hnil]
      · split
        · rename_i h
          rw [h, hnil, hempty]
        · rfl
  · refine ⟨(slots.set (prevSize + index) (slots.getD index [])).set index [], ?_, ?_, fun i => ?_⟩
    · simp only [Option.bind_eq_bind, Option.bind_some, List.isEmpty_iff, hnil]
      exact if_pos hlen
    · rw [List.length_set, List.length_set]
    · rw [getD_set (by rw [List.length_set]; exact hi), getD_set hlen]

theorem foldlM_moveSlot (hk : k ≤ prevSize) (hlen : prevSize + k ≤ slots.length)
    (hempty : ∀ i, prevSize ≤ i → slots.getD i [] = []) :
    ∃ slots', (List.range k).foldlM (moveSlot prevSize) slots = some slots' ∧
      slots'.length = slots.length ∧
      ∀ i, slots'.getD i [] =
        if i < k then [] else if prevSize ≤ i ∧ i < prevSize + k then slots.getD (i - prevSize) []
        else slots.getD i [] := by
  induction k with
  | zero =>
    refine ⟨slots, rfl, rfl, fun i => ?_⟩
    rw [if_neg (Nat.not_lt_zero i), if_neg (by omega)]
  | succ k ih =>
    obtain ⟨slots', hfold, hlen', hget⟩ := ih (by omega) (by omega)
    have hfree : slots'.getD (prevSize + k) [] = [] := by
      rw [hget, if_neg (by omega), if_neg (by omega), hempty _ (by omega)]
    obtain ⟨moved, hmove, hlenm, hgetm⟩ := moveSlot_spec (by omega) hfree
    refine ⟨moved, ?_, hlenm.trans hlen', fun i => ?_⟩
    · rw [List.range_succ, List.foldlM_append, hfold]
      show (moveSlot prevSize slots' k).bind some = some moved
      rw [hmove]
      rfl
    · rw [hgetm]
      have hk' : slots'.getD k [] = slots.getD k [] := by
        rw [hget, if_neg (lt_irrefl k), if_neg (by omega)]
      by_cases hik : i = k
      · rw [if_pos hik, if_pos (by omega)]
      · rw [if_neg hik]
        by_cases hip : i = prevSize + k
        · have hsub : i - prevSize = k := by omega
          rw [if_pos hip, if_neg (by omega), if_pos (by omega), hsub, hk']
        · rw [if_neg hip, hget]
          by_cases hlt : i < k
          · rw [if_pos hlt, if_pos (by omega)]
          · have hlt' : ¬ i < k + 1 := by omega
            rw [if_neg hlt, if_neg hlt']
            by_cases hmoved : prevSize ≤ i ∧ i < prevSize + k
            · rw [if_pos hmoved, if_pos (by omega)]
            · rw [if_neg hmoved, if_neg (by omega)]

/-! ### Calls -/

/-- The slots hold what is due in the coming cycles, and nothing is due after them. -/
structure Holds (history : List (DelayCall α)) (line : DelayLine α) : Prop where
  size : ∃ k, line.slots.length = 2 ^ k
  mask : line.mask = line.slots.length - 1
  current : line.current < line.slots.length
  slots : ∀ d, 1 ≤ d → d ≤ line.slots.length →
    line.slots.getD ((line.current + d) % line.slots.length) [] = due history d
  beyond : ∀ d, line.slots.length < d → due history d = []
  entries : line.numEntries = pending history

theorem Holds.and_mask (h : Holds history line) (n : Nat) :
    n &&& line.mask = n % line.slots.length := by
  obtain ⟨k, hk⟩ := h.size
  rw [h.mask, hk]
  exact Nat.and_two_pow_sub_one_eq_mod n k

theorem holds_init (minSize : Nat) : Holds [] (DelayLine.init minSize : DelayLine α) where
  size := ⟨Nat.clog 2 minSize, List.length_replicate⟩
  mask := by
    show bitCeil minSize - 1 = (List.replicate (bitCeil minSize) []).length - 1
    rw [List.length_replicate]
  current := by
    show 0 < (List.replicate (bitCeil minSize) []).length
    rw [List.length_replicate]
    exact Nat.two_pow_pos _
  slots := by
    intro d _ _
    show (List.replicate (bitCeil minSize) []).getD _ [] = []
    rw [List.getD_eq_getElem?_getD, List.getElem?_replicate]
    split <;> rfl
  beyond := fun _ _ => rfl
  entries := rfl

theorem Holds.advance (h : Holds history line) :
    ∃ line', line.advance = some (line', due history 1) ∧ Holds (history ++ [.advance]) line' := by
  obtain ⟨k, hk⟩ := h.size
  have hpos : 0 < line.slots.length := Nat.lt_of_le_of_lt (Nat.zero_le _) h.current
  have hlt : (line.current + 1) % line.slots.length < line.slots.length := Nat.mod_lt _ hpos
  have hdue := h.slots 1 (le_refl 1) hpos
  have hget : line.slots[(line.current + 1) % line.slots.length]? = some (due history 1) := by
    rw [List.getElem?_eq_getElem hlt, ← hdue, List.getD_eq_getElem _ _ hlt]
  refine ⟨⟨line.slots.set ((line.current + 1) % line.slots.length) [],
    (line.current + 1) % line.slots.length, line.mask,
    line.numEntries - (due history 1).length⟩, ?_, ?_⟩
  · unfold DelayLine.advance
    dsimp only
    rw [h.and_mask, hget]
    rfl
  · constructor
    · exact ⟨k, by rw [← hk]; exact List.length_set⟩
    · rw [List.length_set]
      exact h.mask
    · rw [List.length_set]
      exact hlt
    · intro d hd hle
      dsimp only at hle ⊢
      rw [List.length_set] at hle ⊢
      rw [getD_set hlt, due_advance, Nat.mod_add_mod, add_assoc, add_comm 1 d]
      by_cases hlast : d = line.slots.length
      · -- The slot that was applied is now the last one.
        have hmod : (line.current + (d + 1)) % line.slots.length =
            (line.current + 1) % line.slots.length := by
          rw [hlast, add_comm line.slots.length 1, ← add_assoc, Nat.add_mod_right]
        rw [if_pos hmod, h.beyond _ (by omega)]
      · have hne : (line.current + (d + 1)) % line.slots.length ≠
            (line.current + 1) % line.slots.length := by
          intro hmod
          have hdvd : line.slots.length ∣ d := by
            have := (Nat.modEq_iff_dvd' (by omega)).mp hmod.symm
            rwa [show line.current + (d + 1) - (line.current + 1) = d by omega] at this
          have := Nat.le_of_dvd (by omega) hdvd
          omega
        rw [if_neg hne, h.slots _ (by omega) (by omega)]
    · intro d hd
      dsimp only at hd
      rw [List.length_set] at hd
      rw [due_advance, h.beyond _ (by omega)]
    · dsimp only
      have hpending : pending (history ++ [.advance]) + (due history 1).length = pending history :=
        pending_advance
      rw [h.entries]
      omega

theorem Holds.resize_eq (h : Holds history line)
    (hempty : ∀ i < line.current, line.slots.getD i [] = []) :
    line.resize line.slots.length = some line := by
  obtain ⟨k, hk⟩ := h.size
  have hceil : bitCeil line.slots.length = line.slots.length := by rw [hk, bitCeil_two_pow]
  unfold DelayLine.resize
  dsimp only
  rw [if_neg (lt_irrefl _), hceil, Nat.sub_self, List.replicate_zero, List.append_nil,
    foldlM_moveSlot_of_empty (le_of_lt h.current) hempty, ← h.mask]
  rfl

theorem Holds.resize_of_lt (h : Holds history line) {latency : Nat}
    (hlt : line.slots.length < latency) (hempty : line.slots.getD line.current [] = []) :
    ∃ line', line.resize latency = some line' ∧ Holds history line' ∧
      line'.current = line.current ∧ latency ≤ line'.slots.length := by
  obtain ⟨k, hk⟩ := h.size
  have hcurrent := h.current
  have hdouble : 2 * line.slots.length ≤ bitCeil latency := by
    rw [hk] at hlt ⊢
    exact two_mul_le_bitCeil hlt
  have hlen : (line.slots ++ List.replicate (bitCeil latency - line.slots.length) []).length =
      bitCeil latency := by
    rw [List.length_append, List.length_replicate]
    omega
  have hold : ∀ i < line.slots.length,
      (line.slots ++ List.replicate (bitCeil latency - line.slots.length) []).getD i [] =
        line.slots.getD i [] := fun i hi => List.getD_append _ _ _ _ hi
  have hfresh : ∀ i, line.slots.length ≤ i →
      (line.slots ++ List.replicate (bitCeil latency - line.slots.length) []).getD i [] = [] := by
    intro i hi
    rw [List.getD_append_right _ _ _ _ hi, List.getD_eq_getElem?_getD, List.getElem?_replicate]
    split <;> rfl
  obtain ⟨slots', hfold, hlen', hget⟩ := foldlM_moveSlot (le_of_lt hcurrent)
    (by rw [hlen]; omega) hfresh
  rw [hlen] at hlen'
  refine ⟨{ line with mask := bitCeil latency - 1, slots := slots' }, ?_, ?_, rfl, ?_⟩
  · unfold DelayLine.resize
    dsimp only
    rw [if_neg (by omega), hfold]
    rfl
  · constructor
    · exact ⟨Nat.clog 2 latency, hlen'⟩
    · show bitCeil latency - 1 = slots'.length - 1
      rw [hlen']
    · show line.current < slots'.length
      omega
    · intro d hd hle
      dsimp only at hle ⊢
      rw [hlen'] at hle ⊢
      rw [hget]
      by_cases hnew : line.slots.length < d
      · -- Nothing is due beyond the old slots, and the new ones are empty.
        rw [h.beyond d hnew]
        by_cases hwrap : line.current + d < bitCeil latency
        · rw [Nat.mod_eq_of_lt hwrap, if_neg (by omega), if_neg (by omega), hfresh _ (by omega)]
        · have hmod : (line.current + d) % bitCeil latency = line.current + d - bitCeil latency := by
            rw [Nat.mod_eq_sub_mod (by omega)]
            exact Nat.mod_eq_of_lt (by omega)
          rw [hmod]
          by_cases hbelow : line.current + d - bitCeil latency < line.current
          · rw [if_pos hbelow]
          · have hcur : line.current + d - bitCeil latency = line.current := by omega
            rw [if_neg hbelow, if_neg (by omega), hcur, hold _ hcurrent, hempty]
      · by_cases hwrap : line.current + d < line.slots.length
        · -- The slot stays where it is.
          have hmod : (line.current + d) % bitCeil latency = line.current + d :=
            Nat.mod_eq_of_lt (by omega)
          have hdue := h.slots d hd (by omega)
          rw [Nat.mod_eq_of_lt hwrap] at hdue
          rw [hmod, if_neg (by omega), if_neg (by omega), hold _ hwrap, hdue]
        · have hmod : (line.current + d) % bitCeil latency = line.current + d :=
            Nat.mod_eq_of_lt (by omega)
          have hmod' : (line.current + d) % line.slots.length =
              line.current + d - line.slots.length := by
            rw [Nat.mod_eq_sub_mod (by omega)]
            exact Nat.mod_eq_of_lt (by omega)
          have hdue := h.slots d hd (by omega)
          rw [hmod'] at hdue
          rw [hmod, if_neg (by omega)]
          by_cases hlast : d = line.slots.length
          · -- The current slot is the last one, and it is empty.
            have hcur : line.current + d - line.slots.length = line.current := by omega
            rw [if_neg (by omega), hfresh _ (by omega), ← hdue, hcur, hempty]
          · -- The slot is moved up.
            rw [if_pos (by omega), hold _ (by omega), hdue]
    · intro d hd
      dsimp only at hd
      exact h.beyond d (by omega)
    · exact h.entries
  · show latency ≤ slots'.length
    rw [hlen']
    exact le_bitCeil latency

theorem Holds.add_of_le (h : Holds history line) {latency : Nat} {record : α} (hpos : 1 ≤ latency)
    (hle : latency ≤ line.slots.length) :
    Holds (history ++ [.add latency record])
      { line with
        slots := line.slots.modify ((latency + line.current) % line.slots.length) (· ++ [record])
        numEntries := line.numEntries + 1 } := by
  have hcurrent := h.current
  constructor
  · rw [List.length_modify]
    exact h.size
  · rw [List.length_modify]
    exact h.mask
  · rw [List.length_modify]
    exact h.current
  · intro d hd hd'
    dsimp only at hd' ⊢
    rw [List.length_modify] at hd' ⊢
    have hlt : (line.current + d) % line.slots.length < line.slots.length :=
      Nat.mod_lt _ (by omega)
    have hslot := h.slots d hd hd'
    rw [List.getD_eq_getElem _ _ hlt] at hslot
    rw [List.getD_eq_getElem _ _ (by rw [List.length_modify]; exact hlt), List.getElem_modify,
      due_add, ← hslot]
    by_cases heq : latency = d
    · rw [if_pos (by rw [heq, add_comm]), if_pos heq]
    · have hne : ¬ (latency + line.current) % line.slots.length =
          (line.current + d) % line.slots.length := by
        intro hmod
        rw [add_comm latency] at hmod
        have hcancel : latency ≡ d [MOD line.slots.length] := Nat.ModEq.add_left_cancel' _ hmod
        rcases lt_or_gt_of_ne heq with hlt' | hgt
        · have hdvd := (Nat.modEq_iff_dvd' (le_of_lt hlt')).mp hcancel
          have := Nat.le_of_dvd (by omega) hdvd
          omega
        · have hdvd := (Nat.modEq_iff_dvd' (le_of_lt hgt)).mp hcancel.symm
          have := Nat.le_of_dvd (by omega) hdvd
          omega
      rw [if_neg hne, if_neg heq, List.append_nil]
  · intro d hd
    dsimp only at hd
    rw [List.length_modify] at hd
    rw [due_add, h.beyond d hd, if_neg (by omega)]
    rfl
  · show line.numEntries + 1 = _
    rw [h.entries, pending_add hpos]

/-- **Step lemma.** A call that the line handles keeps its records in their cycles. -/
theorem Holds.step {history : List (DelayCall α)} {line : DelayLine α} (h : Holds history line)
    {call : DelayCall α} (hpos : ∀ latency record, call = .add latency record → 1 ≤ latency)
    (hok : AddOk line call) :
    ∃ line', line.step call = some line' ∧ Holds (history ++ [call]) line' := by
  cases call with
  | advance =>
    obtain ⟨line', hadvance, hholds⟩ := h.advance
    refine ⟨line', ?_, hholds⟩
    show line.advance.map Prod.fst = some line'
    rw [hadvance]
    rfl
  | add latency record =>
    obtain ⟨hint, heq, hgrow⟩ := hok
    have hresize : ∃ line', (if latency ≥ line.slots.length then line.resize latency
        else pure line) = some line' ∧ Holds history line' ∧ line'.current = line.current ∧
        latency ≤ line'.slots.length := by
      rcases lt_trichotomy latency line.slots.length with hlt | hlen | hgt
      · rw [if_neg (by omega)]
        exact ⟨line, rfl, h, rfl, le_of_lt hlt⟩
      · rw [if_pos (by omega), hlen, h.resize_eq (heq hlen)]
        exact ⟨line, rfl, h, rfl, le_refl _⟩
      · rw [if_pos (by omega)]
        exact h.resize_of_lt hgt (hgrow hgt)
    obtain ⟨line', hline', hholds, hcurrent, hle⟩ := hresize
    have hlt : (latency + line'.current) % line'.slots.length < line'.slots.length :=
      Nat.mod_lt _ (Nat.lt_of_le_of_lt (Nat.zero_le _) hholds.current)
    refine ⟨_, ?_, hholds.add_of_le (hpos _ _ rfl) hle⟩
    show line.add latency record = _
    unfold DelayLine.add
    rw [hline']
    simp only [Option.bind_eq_bind, Option.bind_some, hholds.and_mask]
    rw [hcurrent, if_pos hint, ← hcurrent, if_pos hlt]
    rfl

/-- Every call of a run is one that the line handles in the state it is made in. -/
def DelayLine.RunOk (line : DelayLine α) (calls : List (DelayCall α)) : Prop :=
  ∀ before call after mid, calls = before ++ call :: after → line.run before = some mid →
    AddOk mid call

/-- **Run lemma.** -/
theorem holds_run {minSize : Nat} {calls : List (DelayCall α)}
    (hpos : ∀ latency record, .add latency record ∈ calls → 1 ≤ latency)
    (hok : (DelayLine.init minSize).RunOk calls) :
    ∃ line, (DelayLine.init minSize).run calls = some line ∧ Holds calls line := by
  induction calls using List.reverseRecOn with
  | nil => exact ⟨.init minSize, rfl, holds_init minSize⟩
  | append_singleton calls call ih =>
    have hok' : (DelayLine.init minSize).RunOk calls := by
      rintro before c after mid rfl hmid
      exact hok before c (after ++ [call]) mid (by simp) hmid
    obtain ⟨line, hline, hholds⟩ := ih (fun l r hmem => hpos l r (by simp [hmem])) hok'
    obtain ⟨line', hstep, hholds'⟩ := hholds.step
      (fun l r hcall => hpos l r (by simp [hcall])) (hok calls call [] line rfl hline)
    refine ⟨line', ?_, hholds'⟩
    rw [DelayLine.run, List.foldlM_append]
    rw [DelayLine.run] at hline
    rw [hline]
    show (line.step call).bind some = some line'
    rw [hstep]
    rfl

theorem DelayLine.runOk_of_step (mid : DelayLine α) {call : DelayCall α} {rest : List (DelayCall α)}
    (hcall : AddOk line call) (hstep : line.step call = some mid) (hrest : mid.RunOk rest) :
    line.RunOk (call :: rest) := by
  intro before call' after last hsplit hlast
  cases before with
  | nil =>
    cases hsplit
    cases hlast
    exact hcall
  | cons first before =>
    cases hsplit
    rw [DelayLine.run, List.foldlM_cons, hstep] at hlast
    exact hrest before call' after last rfl hlast

end MpactSim.Generic
