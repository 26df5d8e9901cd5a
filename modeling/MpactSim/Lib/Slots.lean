import Mathlib.Tactic

namespace MpactSim.Lib

/-!
# Accesses to the slots of a buffer

A buffer is cut into slots of one size.  A sequence of accesses hands slot after slot to a step of
its own, leaving out those that a mask does not select, and puts what comes back in its place.

`slots_sound` says what a run that succeeds has done, `slots_exists` and `slots_rel` that it
succeeds if its steps do, and `slots_congr` when two sequences are the same.
-/

universe u v w

variable {σ : Type u} {α : Type v} (access : Nat → σ → List α → Option (σ × List α))
  (mask : Nat → Bool) (size : Nat)

/-- The step for slot `i`. -/
def slotStep (state : σ × List α) (i : Nat) : Option (σ × List α) :=
  if mask i then do
    let (s, slot) ← access i state.1 ((state.2.drop (size * i)).take size)
    pure (s, state.2.take (size * i) ++ slot ++ state.2.drop (size * i + size))
  else some state

/-- The steps for the slots below `count`, in order. -/
def slots (count : Nat) (s : σ) (buffer : List α) : Option (σ × List α) :=
  (List.range count).foldlM (slotStep access mask size) (s, buffer)

variable {access mask size} {count : Nat}

theorem slots_succ (s : σ) (buffer : List α) :
    slots access mask size (count + 1) s buffer =
      (slots access mask size count s buffer).bind fun state =>
        slotStep access mask size state count := by
  rw [slots, List.range_succ, List.foldlM_append, Option.bind_eq_bind]
  simp only [List.foldlM_cons, List.foldlM_nil, Option.pure_def, Option.bind_eq_bind,
    Option.bind_fun_some]
  rfl

variable {buffer : List α} {i : Nat} {s : σ}

theorem length_putSlot {slot : List α} (hslot : slot.length = size)
    (hfit : size * i + size ≤ buffer.length) :
    (buffer.take (size * i) ++ slot ++ buffer.drop (size * i + size)).length = buffer.length := by
  rw [List.length_append, List.length_append, List.length_take, List.length_drop]
  omega

theorem length_slot (hfit : size * i + size ≤ buffer.length) :
    ((buffer.drop (size * i)).take size).length = size := by
  rw [List.length_take, List.length_drop]
  omega

theorem slot_fits (hfit : size * count ≤ buffer.length) (hi : i < count) :
    size * i + size ≤ buffer.length := by
  have hmul : size * (i + 1) ≤ size * count := Nat.mul_le_mul_left size hi
  rw [Nat.mul_succ] at hmul
  omega

variable {Inv : σ → Prop}

/-- What the accesses of a sequence keep: the invariant, and the size of a slot. -/
def Keeps (access : Nat → σ → List α → Option (σ × List α)) (size : Nat) (Inv : σ → Prop) :
    Prop :=
  ∀ i s slot s' slot', Inv s → slot.length = size → access i s slot = some (s', slot') →
    Inv s' ∧ slot'.length = size

theorem slotStep_keeps (hkeeps : Keeps access size Inv) {state state' : σ × List α}
    (hfit : size * i + size ≤ state.2.length) (hinv : Inv state.1)
    (h : slotStep access mask size state i = some state') :
    Inv state'.1 ∧ state'.2.length = state.2.length := by
  unfold slotStep at h
  split at h
  · obtain ⟨⟨s, slot⟩, haccess, h⟩ := Option.bind_eq_some_iff.mp h
    cases h
    obtain ⟨hinv', hslot⟩ := hkeeps i _ _ _ _ hinv (length_slot hfit) haccess
    exact ⟨hinv', length_putSlot hslot hfit⟩
  · cases h
    exact ⟨hinv, rfl⟩

/-- **Soundness.** In a sequence that succeeds every access has, and its slot holds what the access
    gave. -/
theorem slots_sound (hkeeps : Keeps access size Inv) {s' : σ} {buffer' : List α} (hinv : Inv s)
    (hfit : size * count ≤ buffer.length)
    (h : slots access mask size count s buffer = some (s', buffer')) :
    Inv s' ∧ buffer'.length = buffer.length ∧
      ∀ i < count, mask i = true → ∃ t slot t',
        Inv t ∧ slot.length = size ∧
          access i t slot = some (t', (buffer'.drop (size * i)).take size) := by
  -- Induction on the slots; a step keeps the slots before its own.
  induction count generalizing s' buffer' with
  | zero =>
    cases h
    exact ⟨hinv, rfl, fun i hi => absurd hi (Nat.not_lt_zero i)⟩
  | succ count ih =>
    have hlast := slot_fits hfit (Nat.lt_succ_self count)
    rw [slots_succ] at h
    obtain ⟨⟨t, mid⟩, hmid, hstep⟩ := Option.bind_eq_some_iff.mp h
    obtain ⟨hinvt, hlen, hdone⟩ := ih (by omega) hmid
    have hkept := slotStep_keeps hkeeps (by rw [hlen]; exact hlast) hinvt hstep
    refine ⟨hkept.1, hkept.2.trans hlen, ?_⟩
    intro i hi hmask
    unfold slotStep at hstep
    by_cases hthis : i = count
    · subst hthis
      rw [if_pos hmask] at hstep
      obtain ⟨⟨t', slot⟩, haccess, hstep⟩ := Option.bind_eq_some_iff.mp hstep
      cases hstep
      have hfirst : ((mid.drop (size * i)).take size).length = size :=
        length_slot (by rw [hlen]; exact hlast)
      obtain ⟨-, hslot⟩ := hkeeps i _ _ _ _ hinvt hfirst haccess
      have hbefore : (mid.take (size * i)).length = size * i := by
        rw [List.length_take]
        omega
      refine ⟨t, _, s', hinvt, hfirst, ?_⟩
      rw [haccess, List.append_assoc, List.drop_left' hbefore, List.take_left' hslot]
    · obtain ⟨t₀, slot₀, t₁, hinv₀, hslot₀, haccess⟩ := hdone i (by omega) hmask
      refine ⟨t₀, slot₀, t₁, hinv₀, hslot₀, haccess.trans ?_⟩
      split at hstep
      · obtain ⟨⟨t', slot⟩, -, hstep⟩ := Option.bind_eq_some_iff.mp hstep
        cases hstep
        have hmul : size * (i + 1) ≤ size * count := Nat.mul_le_mul_left size (by omega)
        rw [Nat.mul_succ] at hmul
        dsimp only at hlen ⊢
        rw [List.append_assoc, List.drop_append_of_le_length (by rw [List.length_take]; omega),
          List.take_append_of_le_length (by rw [List.length_drop, List.length_take]; omega),
          List.drop_take, List.take_take, Nat.min_eq_left (by omega)]
      · cases hstep
        rfl

/-- **Simulation.** If related states take related steps, the sequences end in related states, with
    the same buffer. -/
theorem slots_rel {τ : Type w} {access' : Nat → τ → List α → Option (τ × List α)} {R : σ → τ → Prop}
    {t : τ} (hrel : R s t) (hfit : size * count ≤ buffer.length)
    (hstep : ∀ i < count, mask i = true → ∀ s t slot, R s t → slot.length = size →
      ∃ s' t' slot', access i s slot = some (s', slot') ∧ access' i t slot = some (t', slot') ∧
        R s' t' ∧ slot'.length = size) :
    ∃ s' t' buffer', slots access mask size count s buffer = some (s', buffer') ∧
      slots access' mask size count t buffer = some (t', buffer') ∧ R s' t' ∧
        buffer'.length = buffer.length := by
  induction count with
  | zero => exact ⟨s, t, buffer, rfl, rfl, hrel, rfl⟩
  | succ count ih =>
    have hlast := slot_fits hfit (Nat.lt_succ_self count)
    rw [Nat.mul_succ] at hfit
    obtain ⟨s₁, t₁, mid, hs, ht, hrel₁, hlen⟩ :=
      ih (by omega) fun i hi => hstep i (by omega)
    rw [slots_succ, slots_succ, hs, ht, Option.bind_some, Option.bind_some]
    unfold slotStep
    by_cases hmask : mask count = true
    · have hfirst : ((mid.drop (size * count)).take size).length = size :=
        length_slot (by omega)
      obtain ⟨s₂, t₂, slot, hs₂, ht₂, hrel₂, hslot⟩ :=
        hstep count (by omega) hmask s₁ t₁ _ hrel₁ hfirst
      have hput := length_putSlot hslot (by omega : size * count + size ≤ mid.length)
      refine ⟨s₂, t₂, _, ?_, ?_, hrel₂, hput.trans hlen⟩
      · rw [if_pos hmask, hs₂]
        rfl
      · rw [if_pos hmask, ht₂]
        rfl
    · refine ⟨s₁, t₁, mid, ?_, ?_, hrel₁, hlen⟩
      · rw [if_neg hmask]
      · rw [if_neg hmask]

theorem slots_exists (hinv : Inv s) (hfit : size * count ≤ buffer.length)
    (hstep : ∀ i < count, mask i = true → ∀ s slot, Inv s → slot.length = size →
      ∃ s' slot', access i s slot = some (s', slot') ∧ Inv s' ∧ slot'.length = size) :
    ∃ s' buffer', slots access mask size count s buffer = some (s', buffer') := by
  have hpair : ∀ i < count, mask i = true → ∀ s t slot, (s = t ∧ Inv s) → slot.length = size →
      ∃ s' t' slot', access i s slot = some (s', slot') ∧ access i t slot = some (t', slot') ∧
        (s' = t' ∧ Inv s') ∧ slot'.length = size := by
    rintro i hi hmask s t slot ⟨rfl, hinv⟩ hslot
    obtain ⟨s', slot', haccess, hinv', hslot'⟩ := hstep i hi hmask s slot hinv hslot
    exact ⟨s', s', slot', haccess, haccess, ⟨rfl, hinv'⟩, hslot'⟩
  obtain ⟨s', -, buffer', hs, -⟩ :=
    slots_rel (R := fun s t => s = t ∧ Inv s) ⟨rfl, hinv⟩ hfit hpair
  exact ⟨s', buffer', hs⟩

theorem foldlM_eq_slots {f : σ × List α → Nat → Option (σ × List α)}
    (hkeeps : Keeps access size Inv) (hinv : Inv s) (hfit : size * count ≤ buffer.length)
    (hstep : ∀ i < count, ∀ state : σ × List α, Inv state.1 → state.2.length = buffer.length →
      f state i = slotStep access mask size state i) :
    (List.range count).foldlM f (s, buffer) = slots access mask size count s buffer := by
  induction count with
  | zero => rfl
  | succ count ih =>
    rw [Nat.mul_succ] at hfit
    rw [slots_succ, ← ih (by omega) fun i hi => hstep i (by omega), List.range_succ,
      List.foldlM_append, Option.bind_eq_bind, ih (by omega) fun i hi => hstep i (by omega)]
    cases h : slots access mask size count s buffer with
    | none => rfl
    | some state =>
      obtain ⟨hinvt, hlen, -⟩ := slots_sound hkeeps hinv (by omega) h
      rw [Option.bind_some, Option.bind_some, List.foldlM_cons,
        hstep count (by omega) state hinvt hlen]
      exact Option.bind_fun_some _

theorem slots_congr {access' : Nat → σ → List α → Option (σ × List α)}
    (hkeeps : Keeps access size Inv) (hinv : Inv s) (hfit : size * count ≤ buffer.length)
    (hsame : ∀ i < count, mask i = true → ∀ t slot, Inv t → slot.length = size →
      access i t slot = access' i t slot) :
    slots access mask size count s buffer = slots access' mask size count s buffer := by
  refine (foldlM_eq_slots hkeeps hinv hfit ?_).symm
  intro i hi state hinvt hlen
  unfold slotStep
  by_cases hmask : mask i = true
  · have hslot := length_slot (hlen ▸ slot_fits hfit hi : size * i + size ≤ state.2.length)
    rw [if_pos hmask, if_pos hmask, hsame i hi hmask state.1 _ hinvt hslot]
  · rw [if_neg hmask, if_neg hmask]

end MpactSim.Lib
