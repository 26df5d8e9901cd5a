import Mathlib.Data.BitVec
import MpactSim.Generic.DecodeCache
import MpactSim.Lib.Run

namespace MpactSim.Generic.DecodeCache

open Lib

/-!
# Runs of the decode cache

Lookups and invalidations in any order, with a decoder that may answer differently every time.

* `Transparent`      — every answer is a decoding since the last invalidation of its address;
* `transparent_iff`  — when a run is transparent;
* `invalidatesExactly_iff` — when a range invalidation takes out the range and nothing else.
-/

universe u

variable {ι : Type u} [DecidableEq ι]

/-! ### The calls -/

/-- A call of the cache. -/
inductive Call where
  | getDecodedInstruction (a : BitVec 64)
  | invalidate (a : BitVec 64)
  | invalidateRange (startAddress endAddress : BitVec 64)
  | invalidateAll

namespace Call

/-- An address whose slot is looked at. -/
def Touches (c : DecodeCache) : Call → BitVec 64 → Prop
  | getDecodedInstruction a, x => x = a
  | invalidate a, x => x = a
  | invalidateRange startAddress endAddress, x => c.visits startAddress endAddress x = true
  | invalidateAll, _ => False

/-- An address that is asked to be invalidated. -/
def Covers : Call → BitVec 64 → Prop
  | getDecodedInstruction _, _ => False
  | invalidate a, x => x = a
  | invalidateRange startAddress endAddress, x => startAddress ≤ x ∧ x < endAddress
  | invalidateAll, _ => True

/-- An address that is invalidated. -/
def Removes (c : DecodeCache) : Call → BitVec 64 → Prop
  | getDecodedInstruction _, _ => False
  | invalidate a, x => x = a
  | invalidateRange startAddress endAddress, x => c.visits startAddress endAddress x = true
  | invalidateAll, _ => True

/-- The addresses of a call are multiples of the increment. -/
def Aligned (c : DecodeCache) : Call → Prop
  | getDecodedInstruction a => c.addressInc ∣ a.toNat
  | invalidate a => c.addressInc ∣ a.toNat
  | invalidateRange startAddress endAddress =>
    c.addressInc ∣ startAddress.toNat ∧ c.addressInc ∣ endAddress.toNat
  | invalidateAll => True

end Call

variable (c : DecodeCache) (address : ι → BitVec 64) (decode : ℕ → BitVec 64 → Option ι)

/-- One call. -/
def step (s : State ι) : Call → Option (State ι)
  | .getDecodedInstruction a => (c.getDecodedInstruction address decode s a).map Prod.fst
  | .invalidate a => c.invalidate address s a
  | .invalidateRange startAddress endAddress =>
    c.invalidateRange address s startAddress endAddress
  | .invalidateAll => some (DecodeCache.invalidateAll s)

/-! ### The specification -/

/-- The call has the decoder produce the instruction. -/
def Decodes (i : ι) (s : State ι) (call : Call) : Prop :=
  call = .getDecodedInstruction (address i) ∧ decode s.decoded (address i) = some i

/-- The decoder has produced the instruction since the last invalidation of its address. -/
def Fresh (calls : List Call) (i : ι) : Prop :=
  Since (attempt (c.step address decode)) (Decodes address decode i)
    (fun _ call => ¬call.Covers (address i)) c.initial calls

/-- In every state the cache holds one reference to each instruction in the array and none to
    others.  Every lookup returns a fresh instruction with the address, unless the decoder has none
    for it. -/
def Transparent (calls : List Call) : Prop :=
  ∀ before after, calls = before ++ after → ∃ s,
    before.foldlM (c.step address decode) c.initial = some s ∧
      (∀ i, s.refs i = if some i ∈ s.instructionCache then 1 else 0) ∧
      ∀ a rest, after = .getDecodedInstruction a :: rest →
        ∃ s' reply, c.getDecodedInstruction address decode s a = some (s', reply) ∧
          match reply with
          | some i => address i = a ∧ Fresh c address decode (before ++ [.getDecodedInstruction a]) i
          | none => decode s.decoded a = none

/-- The range invalidation ends, and takes out what has an address in the range. -/
def InvalidatesExactly (s : State ι) (startAddress endAddress : BitVec 64) : Prop :=
  ∃ fuel s', c.invalidateLoop address fuel startAddress endAddress s = some s' ∧
    ∀ i, some i ∈ s'.instructionCache ↔ some i ∈ s.instructionCache ∧
      ¬(startAddress ≤ address i ∧ address i < endAddress)

variable {c address decode} {k : ℕ} {s s' : State ι} {i : ι} {a : BitVec 64} {call : Call}
  {calls : List Call}

/-! ### Lookups -/

/-- The references after the one to the instruction in a slot, if any, is given up. -/
theorem refs_evict (h : c.Held address s) {k : ℕ} {inst : Option ι}
    (hslot : s.instructionCache[k]? = some inst) (j : ι) :
    inst.elim s.refs (decRef s.refs) j =
      if some j ∈ s.instructionCache ∧ c.index (address j) ≠ k then 1 else 0 := by
  have hsame (hj : some j ∈ s.instructionCache) (hk : c.index (address j) = k) :
      inst = some j := by
    have hj' := h.placed.mem_iff.mp hj
    rw [hk, hslot] at hj'
    exact Option.some.inj hj'
  cases inst with
  | none =>
    have hne (hj : some j ∈ s.instructionCache) : c.index (address j) ≠ k := by
      intro hk
      exact absurd (hsame hj hk) (Option.some_ne_none j).symm
    show s.refs j = _
    rw [h.refs j]
    simp only [and_iff_left_of_imp hne]
  | some m =>
    show decRef s.refs m j = _
    have hm := List.mem_of_getElem? hslot
    by_cases heq : j = m
    · subst heq
      simp [decRef, h.refs j, hm, h.placed k j hslot]
    · have hne (hj : some j ∈ s.instructionCache) : c.index (address j) ≠ k := by
        intro hk
        exact heq (Option.some.inj (hsame hj hk)).symm
      simp only [decRef, Function.update_of_ne heq, h.refs j, and_iff_left_of_imp hne]

variable (decode) in
theorem getDecodedInstruction_cases (h : c.Held address s) (ha : c.index a < c.numEntries) :
    (∃ i, some i ∈ s.instructionCache ∧ address i = a ∧
      c.getDecodedInstruction address decode s a = some (s, some i)) ∨
    ((∀ i, some i ∈ s.instructionCache → address i ≠ a) ∧ decode s.decoded a = none ∧
      c.getDecodedInstruction address decode s a =
        some ({ s with decoded := s.decoded + 1 }, none)) ∨
    ((∀ i, some i ∈ s.instructionCache → address i ≠ a) ∧ ∃ i refs, decode s.decoded a = some i ∧
      c.getDecodedInstruction address decode s a =
        some (⟨s.instructionCache.set (c.index a) (some i), refs, s.decoded + 1⟩, some i) ∧
      (address i = a → c.Held address
        ⟨s.instructionCache.set (c.index a) (some i), refs, s.decoded + 1⟩)) := by
  have hlen : c.index a < s.instructionCache.length := h.length ▸ ha
  have hslot := List.getElem?_eq_getElem hlen
  generalize s.instructionCache[c.index a] = inst at hslot
  rw [getDecodedInstruction, hslot, Option.map_some]
  by_cases hfound : inst.any (address · == a) = true
  · rw [if_pos hfound]
    cases inst with
    | none => cases hfound
    | some i => exact .inl ⟨i, List.mem_of_getElem? hslot, by simpa using hfound, rfl⟩
  · rw [if_neg hfound]
    have habsent (i : ι) (hi : some i ∈ s.instructionCache) : address i ≠ a := by
      intro heq
      have hi' := h.placed.mem_iff.mp hi
      rw [heq, hslot] at hi'
      apply hfound
      rw [Option.some.inj hi']
      simpa using heq
    cases hdec : decode s.decoded a with
    | none => exact .inr (.inl ⟨habsent, rfl, rfl⟩)
    | some i =>
      refine .inr (.inr ⟨habsent, i, _, rfl, rfl, fun hi => ?_⟩)
      have hindex : c.index (address i) = c.index a := congrArg c.index hi
      refine ⟨List.length_set.trans h.length, h.placed.set hindex, fun j => ?_⟩
      have hmem : some j ∈ s.instructionCache.set (c.index a) (some i) ↔ _ :=
        h.placed.mem_set hindex hlen
      have hrefs := refs_evict h hslot
      show keepRef _ i j = if some j ∈ s.instructionCache.set (c.index a) (some i) then 1 else 0
      by_cases heq : j = i
      · subst heq
        simp [keepRef, hrefs, hmem, hindex]
      · simp [keepRef, hrefs, hmem, heq]

/-! ### One call -/

theorem getDecodedInstruction_eq_none (h : c.Held address s) (ha : ¬c.index a < c.numEntries) :
    c.getDecodedInstruction address decode s a = none := by
  rw [getDecodedInstruction, List.getElem?_eq_none (by rw [h.length]; omega), Option.map_none]

theorem State.mem_without {p : BitVec 64 → Bool} :
    some i ∈ (s.without address p).instructionCache ↔
      some i ∈ s.instructionCache ∧ p (address i) = false := mem_clear

/-- **Step lemma.** A call that has a result looks inside the array, keeps one reference to each
    instruction there, and leaves there what it has decoded or not removed. -/
theorem step_sound (hc : c.Accepts k)
    (hdecode : ∀ n a i, decode n a = some i → address i = a) (h : c.Held address s)
    (hstep : c.step address decode s call = some s') :
    (∀ x, call.Touches c x → c.Reaches x) ∧ c.Held address s' ∧
      ∀ i, some i ∈ s'.instructionCache → Decodes address decode i s call ∨
        some i ∈ s.instructionCache ∧ ¬call.Removes c (address i) := by
  cases call with
  | getDecodedInstruction a =>
    obtain ⟨⟨_, reply⟩, hget, rfl⟩ := Option.map_eq_some_iff.mp hstep
    have ha : c.index a < c.numEntries := by
      by_contra hout
      rw [getDecodedInstruction_eq_none h hout] at hget
      cases hget
    refine ⟨fun x hx => hx ▸ (hc.index_lt_iff a).mp ha, ?_⟩
    rcases getDecodedInstruction_cases decode h ha with
      ⟨i, _, _, heq⟩ | ⟨_, _, heq⟩ | ⟨_, i, refs, hdec, heq, hheld⟩
    · rw [heq] at hget
      cases hget
      exact ⟨h, fun j hj => .inr ⟨hj, id⟩⟩
    · rw [heq] at hget
      cases hget
      exact ⟨⟨h.length, h.placed, h.refs⟩, fun j hj => .inr ⟨hj, id⟩⟩
    · rw [heq] at hget
      cases hget
      have hi := hdecode _ _ _ hdec
      refine ⟨hheld hi, fun j hj => ?_⟩
      rcases List.mem_or_eq_of_mem_set hj with hj | hj
      · exact .inr ⟨hj, id⟩
      · obtain rfl := Option.some.inj hj
        exact .inl ⟨by rw [hi], by rw [hi]; exact hdec⟩
  | invalidate a =>
    have ha : c.index a < c.numEntries := by
      by_contra hout
      rw [step, invalidate_eq_none h hout] at hstep
      cases hstep
    rw [step, invalidate_eq h ha] at hstep
    obtain rfl := Option.some.inj hstep
    refine ⟨fun x hx => hx ▸ (hc.index_lt_iff a).mp ha, h.without, fun j hj => ?_⟩
    obtain ⟨hmem, hne⟩ := State.mem_without.mp hj
    exact .inr ⟨hmem, show address j ≠ a from of_decide_eq_false hne⟩
  | invalidateRange startAddress endAddress =>
    obtain ⟨hinside, rfl⟩ := invalidateLoop_sound hc h hstep
    refine ⟨fun x hx => (hc.index_lt_iff x).mp (hinside x hx), h.without, fun j hj => ?_⟩
    obtain ⟨hmem, hnot⟩ := State.mem_without.mp hj
    exact .inr ⟨hmem, ne_true_of_eq_false hnot⟩
  | invalidateAll =>
    obtain rfl := Option.some.inj hstep
    rw [invalidateAll_eq h]
    refine ⟨fun x hx => hx.elim, h.without, fun j hj => ?_⟩
    obtain ⟨-, hnot⟩ := State.mem_without.mp hj
    cases hnot

theorem Call.Aligned.stops {startAddress endAddress : BitVec 64} (hc : c.Accepts k)
    (h : (invalidateRange startAddress endAddress).Aligned c) :
    c.Stops startAddress endAddress := by
  obtain ⟨m, hm⟩ := hc.addressInc_dvd
  obtain ⟨hstart, e, he⟩ := h
  have hend := endAddress.isLt
  rw [he, hm] at hend
  have hle := Nat.mul_le_mul_left c.addressInc (Nat.lt_of_mul_lt_mul_left hend)
  rw [Stops, Nat.mod_eq_zero_of_dvd hstart, he, hm]
  exact hle

theorem Call.Aligned.removes {x : BitVec 64} (h : call.Aligned c) (hx : c.addressInc ∣ x.toNat)
    (hcovers : call.Covers x) : call.Removes c x := by
  cases call with
  | getDecodedInstruction a => exact hcovers
  | invalidate a => exact hcovers
  | invalidateRange startAddress endAddress =>
    apply decide_eq_true
    refine ⟨hcovers.1, hcovers.2, ?_⟩
    rw [Nat.mod_eq_zero_of_dvd hx, Nat.mod_eq_zero_of_dvd h.1]
  | invalidateAll => trivial

theorem step_ends (hc : c.Accepts k) (h : c.Held address s) (haligned : call.Aligned c)
    (hreaches : ∀ x, call.Touches c x → c.Reaches x) :
    ∃ s', c.step address decode s call = some s' := by
  cases call with
  | getDecodedInstruction a =>
    have ha := (hc.index_lt_iff a).mpr (hreaches a rfl)
    rcases getDecodedInstruction_cases decode h ha with
      ⟨_, _, _, heq⟩ | ⟨_, _, heq⟩ | ⟨_, _, _, _, heq, _⟩
    · exact ⟨_, congrArg (Option.map Prod.fst) heq⟩
    · exact ⟨_, congrArg (Option.map Prod.fst) heq⟩
    · exact ⟨_, congrArg (Option.map Prod.fst) heq⟩
  | invalidate a => exact ⟨_, invalidate_eq h ((hc.index_lt_iff a).mpr (hreaches a rfl))⟩
  | invalidateRange startAddress endAddress =>
    exact ⟨_, invalidateLoop_ends hc h (haligned.stops hc)
      (fun x hx => (hc.index_lt_iff x).mpr (hreaches x hx)) (Nat.lt_succ_self _)⟩
  | invalidateAll => exact ⟨_, rfl⟩

/-! ### Runs -/

section Runs

variable (hc : c.Accepts k) (hdecode : ∀ n a i, decode n a = some i → address i = a)
include hc hdecode

/-- **Run lemma.** A run that has a result looks inside the array, and keeps the references. -/
theorem run_sound (hrun : calls.foldlM (c.step address decode) c.initial = some s) :
    c.Held address s ∧ ∀ call ∈ calls, ∀ x, call.Touches c x → c.Reaches x := by
  induction calls using List.reverseRecOn generalizing s with
  | nil =>
    obtain rfl := Option.some.inj hrun
    exact ⟨held_initial, by simp⟩
  | append_singleton before call ih =>
    obtain ⟨mid, hmid, hlast⟩ := foldlM_snoc_eq_some_iff.mp hrun
    obtain ⟨hheld, hbefore⟩ := ih hmid
    obtain ⟨htouches, hheld', -⟩ := step_sound hc hdecode hheld hlast
    refine ⟨hheld', fun r hr => ?_⟩
    rcases List.mem_append.mp hr with hr | hr
    · exact hbefore r hr
    · obtain rfl := List.mem_singleton.mp hr
      exact htouches

theorem run_aligned (haligned : ∀ call ∈ calls, call.Aligned c)
    (hrun : calls.foldlM (c.step address decode) c.initial = some s)
    (hi : some i ∈ s.instructionCache) : c.addressInc ∣ (address i).toNat := by
  induction calls using List.reverseRecOn generalizing s with
  | nil =>
    obtain rfl := Option.some.inj hrun
    exact absurd (List.eq_of_mem_replicate hi) (Option.some_ne_none i)
  | append_singleton before call ih =>
    obtain ⟨mid, hmid, hlast⟩ := foldlM_snoc_eq_some_iff.mp hrun
    obtain ⟨hheld, -⟩ := run_sound hc hdecode hmid
    obtain ⟨-, -, hfrom⟩ := step_sound hc hdecode hheld hlast
    rcases hfrom i hi with ⟨rfl, -⟩ | ⟨hmem, -⟩
    · exact haligned _ (List.mem_concat_self ..)
    · exact ih (fun r hr => haligned r (by simp [hr])) hmid hmem

theorem run_ends (haligned : ∀ call ∈ calls, call.Aligned c)
    (hreaches : ∀ call ∈ calls, ∀ x, call.Touches c x → c.Reaches x) :
    ∃ s, calls.foldlM (c.step address decode) c.initial = some s := by
  induction calls using List.reverseRecOn with
  | nil => exact ⟨_, rfl⟩
  | append_singleton before call ih =>
    obtain ⟨mid, hmid⟩ := ih (fun r hr => haligned r (by simp [hr]))
      (fun r hr => hreaches r (by simp [hr]))
    obtain ⟨hheld, -⟩ := run_sound hc hdecode hmid
    obtain ⟨s, hs⟩ := step_ends hc hheld (haligned call (by simp))
      (hreaches call (by simp))
    exact ⟨s, foldlM_snoc_eq_some_iff.mpr ⟨mid, hmid, hs⟩⟩

theorem run_fresh (haligned : ∀ call ∈ calls, call.Aligned c)
    (hrun : calls.foldlM (c.step address decode) c.initial = some s)
    (hi : some i ∈ s.instructionCache) : Fresh c address decode calls i := by
  induction calls using List.reverseRecOn generalizing s with
  | nil =>
    obtain rfl := Option.some.inj hrun
    exact absurd (List.eq_of_mem_replicate hi) (Option.some_ne_none i)
  | append_singleton before call ih =>
    obtain ⟨mid, hmid, hlast⟩ := foldlM_snoc_eq_some_iff.mp hrun
    have hbefore (r : Call) (hr : r ∈ before) : r.Aligned c :=
      haligned r (List.mem_append_left _ hr)
    obtain ⟨hheld, -⟩ := run_sound hc hdecode hmid
    obtain ⟨-, -, hfrom⟩ := step_sound hc hdecode hheld hlast
    rcases hfrom i hi with hstart | ⟨hmem, hkept⟩
    · rw [← (run_attempt_of_foldlM hmid).1] at hstart
      exact ⟨before, call, [], rfl, hstart, trivial⟩
    · apply (ih hbefore hmid hmem).snoc
      intro hcovers
      have hi' := run_aligned hc hdecode hbefore hmid hmem
      exact hkept ((haligned call (List.mem_concat_self ..)).removes hi' hcovers)

end Runs

/-! ### Transparency -/

/-- **Decode cache.** With aligned addresses, and a decoder that decodes the address it is given, a
    run is transparent exactly if it stays below the bytes that the entries cover, or these are not
    too many for the mask. -/
theorem transparent_iff {props : DecodeCacheProperties} (hcreate : create props = some c)
    (hdecode : ∀ n a i, decode n a = some i → address i = a)
    (haligned : ∀ call ∈ calls, call.Aligned c) :
    Transparent c address decode calls ↔
      ∀ call ∈ calls, ∀ x, call.Touches c x →
        c.numEntries * c.addressInc ≤ 2 ^ 31 ∨ x.toNat < c.numEntries * c.addressInc := by
  obtain ⟨k, hc⟩ := accepts_of_create hcreate
  constructor
  · intro h
    obtain ⟨s, hrun, -⟩ := h calls [] (List.append_nil calls).symm
    exact (run_sound hc hdecode hrun).2
  · rintro hreaches before after rfl
    obtain ⟨s, hrun⟩ := run_ends hc hdecode
      (fun r hr => haligned r (List.mem_append_left _ hr))
      (fun r hr => hreaches r (List.mem_append_left _ hr))
    obtain ⟨hheld, -⟩ := run_sound hc hdecode hrun
    refine ⟨s, hrun, hheld.refs, ?_⟩
    rintro a rest rfl
    have ha := (hc.index_lt_iff a).mpr (hreaches (.getDecodedInstruction a) (by simp) a rfl)
    have hfresh (s' : State ι) (i : ι)
        (hget : c.getDecodedInstruction address decode s a = some (s', some i))
        (hi : some i ∈ s'.instructionCache) :
        Fresh c address decode (before ++ [.getDecodedInstruction a]) i := by
      refine run_fresh hc hdecode ?_ ?_ hi
      · intro r hr
        rcases List.mem_append.mp hr with hr | hr
        · exact haligned r (List.mem_append_left _ hr)
        · obtain rfl := List.mem_singleton.mp hr
          exact haligned _ (by simp)
      · apply foldlM_snoc_eq_some_iff.mpr ⟨s, hrun, _⟩
        rw [step, hget, Option.map_some]
    rcases getDecodedInstruction_cases decode hheld ha with
      ⟨i, hi, haddr, hget⟩ | ⟨_, hdec, hget⟩ | ⟨_, i, refs, hdec, hget, _⟩
    · exact ⟨_, _, hget, haddr, hfresh _ i hget hi⟩
    · exact ⟨_, _, hget, hdec⟩
    · refine ⟨_, _, hget, hdecode _ _ _ hdec, hfresh _ i hget ?_⟩
      exact List.mem_set (hheld.length ▸ ha) _

/-- A decoder whose instructions are their addresses. -/
def decodeAddress (_ : ℕ) (a : BitVec 64) : Option (BitVec 64) := some a

/-- Two entries, with an increment of 4. -/
def twoEntries : DecodeCache := ⟨2, 2, 4, 0x4⟩

theorem create_twoEntries : create ⟨2, 4⟩ = some twoEntries := by decide

/-- `2 ^ 30` entries, with an increment of 4. -/
def manyEntries : DecodeCache := ⟨2 ^ 30, 2, 4, 0xfffffffffffffffc⟩

theorem create_manyEntries : create ⟨2 ^ 30, 4⟩ = some manyEntries := by decide

theorem decodeAddress_id (n : ℕ) (a i : BitVec 64) (h : decodeAddress n a = some i) : id i = a :=
  (Option.some.inj h).symm

/-- A lookup, an invalidation and a second lookup. -/
theorem transparent_two_entries :
    Transparent twoEntries id decodeAddress [.getDecodedInstruction 0x1004,
      .invalidateRange 0x1000 0x1010, .getDecodedInstruction 0x1004] := by
  apply (transparent_iff create_twoEntries decodeAddress_id _).mpr
  · intro call _ x _
    exact .inl (by decide)
  · simp [Call.Aligned, twoEntries]

/-- With an increment of 4 and `2 ^ 30` entries the mask is negative, and a lookup above the first
    `2 ^ 32` bytes is outside the array. -/
theorem not_transparent : create ⟨2 ^ 30, 4⟩ = some manyEntries ∧
    (∀ call ∈ [Call.getDecodedInstruction 0x100000000], call.Aligned manyEntries) ∧
    ¬Transparent manyEntries id decodeAddress [.getDecodedInstruction 0x100000000] := by
  refine ⟨create_manyEntries, by simp [Call.Aligned, manyEntries], fun h => ?_⟩
  obtain ⟨k, hc⟩ := accepts_of_create create_manyEntries
  obtain ⟨s, hrun, -⟩ := h _ [] (List.append_nil _).symm
  have hreaches := (run_sound hc decodeAddress_id hrun).2 (.getDecodedInstruction 0x100000000)
    (List.mem_singleton_self _) _ rfl
  simp [Reaches, manyEntries] at hreaches

/-! ### Exact ranges -/

/-- **Range invalidation.** In every state of a run, a range invalidation ends and takes out exactly
    the range if and only if it does not come to the last address of all, looks inside the array,
    and finds there no address of the range that is not a number of increments after its start. -/
theorem invalidatesExactly_iff {props : DecodeCacheProperties} (hcreate : create props = some c)
    (hdecode : ∀ n a i, decode n a = some i → address i = a)
    (hrun : calls.foldlM (c.step address decode) c.initial = some s)
    (startAddress endAddress : BitVec 64) :
    InvalidatesExactly c address s startAddress endAddress ↔
      c.Stops startAddress endAddress ∧
        (∀ x, c.visits startAddress endAddress x = true → c.Reaches x) ∧
        ∀ i, some i ∈ s.instructionCache → startAddress ≤ address i → address i < endAddress →
          (address i).toNat % c.addressInc = startAddress.toNat % c.addressInc := by
  obtain ⟨k, hc⟩ := accepts_of_create hcreate
  obtain ⟨hheld, -⟩ := run_sound hc hdecode hrun
  constructor
  · rintro ⟨fuel, s', hends, hexact⟩
    obtain ⟨hinside, rfl⟩ := invalidateLoop_sound hc hheld hends
    refine ⟨?_, fun x hx => (hc.index_lt_iff x).mp (hinside x hx), ?_⟩
    · by_contra hwraps
      rw [invalidateLoop_wraps hc hwraps] at hends
      cases hends
    · intro i hi hle hlt
      by_contra hne
      -- The loop does not come to the address, and leaves it.
      have hleft : c.visits startAddress endAddress (address i) = false :=
        decide_eq_false fun hvisits => hne hvisits.2.2
      exact ((hexact i).mp (State.mem_without.mpr ⟨hi, hleft⟩)).2 ⟨hle, hlt⟩
  · rintro ⟨hstops, hreaches, hrest⟩
    refine ⟨_, _, invalidateLoop_ends hc hheld hstops
      (fun x hx => (hc.index_lt_iff x).mpr (hreaches x hx)) (Nat.lt_succ_self _), fun i => ?_⟩
    rw [State.mem_without, and_congr_right_iff]
    intro hi
    rw [visits, decide_eq_false_iff_not, not_iff_not]
    constructor
    · exact fun hvisits => ⟨hvisits.1, hvisits.2.1⟩
    · exact fun hin => ⟨hin.1, hin.2, hrest i hi hin.1 hin.2⟩

/-- The state after the instruction at `0x1004` has been looked up. -/
def oneCached : State (BitVec 64) := ⟨[none, some 0x1004], keepRef (fun _ => 0) 0x1004, 1⟩

theorem oneCached_eq : [Call.getDecodedInstruction 0x1004].foldlM
    (twoEntries.step id decodeAddress) twoEntries.initial = some oneCached := rfl

/-- The instruction is at the second address of the range. -/
theorem invalidatesExactly_aligned : InvalidatesExactly twoEntries id oneCached 0x1000 0x1010 := by
  apply (invalidatesExactly_iff create_twoEntries decodeAddress_id oneCached_eq _ _).mpr
  refine ⟨show _ ≤ _ by decide, fun x _ => .inl (by decide), fun i hi _ _ => ?_⟩
  simp [oneCached] at hi
  subst hi
  decide

/-- A range that starts between two multiples of the increment leaves the instruction. -/
theorem not_invalidatesExactly : create ⟨2, 4⟩ = some twoEntries ∧
    [Call.getDecodedInstruction 0x1004].foldlM (twoEntries.step id decodeAddress)
      twoEntries.initial = some oneCached ∧
    ¬InvalidatesExactly twoEntries id oneCached 0x1002 0x1010 := by
  refine ⟨create_twoEntries, oneCached_eq, ?_⟩
  rintro ⟨fuel, s', hends, hexact⟩
  obtain ⟨k, hc⟩ := accepts_of_create create_twoEntries
  obtain ⟨hheld, -⟩ := run_sound hc decodeAddress_id oneCached_eq
  obtain ⟨-, rfl⟩ := invalidateLoop_sound hc hheld hends
  have hleft : twoEntries.visits 0x1002 0x1010 0x1004 = false := by decide
  have hmem : some 0x1004 ∈
      (oneCached.without id (twoEntries.visits 0x1002 0x1010)).instructionCache :=
    State.mem_without.mpr ⟨by decide, hleft⟩
  exact ((hexact 0x1004).mp hmem).2 (by decide)

end MpactSim.Generic.DecodeCache
