import MpactSim.Lib.MarkedRuns
import MpactSim.Memory.MemoryUse

namespace MpactSim.Memory

open Lib

/-!
# The profile of the words that are used

`WriteUseProfile` goes through the bits of the segments of a `MemoryUseTracker` and writes the runs
of those that are set.  A run is open until the first bit that is not set, which may be one of the
next segment.

* `writeUseProfile`        — the ranges that are written;
* `writeUseProfile_eq`     — they are those that a scan of the words closes;
* `profileExact_iff`       — when these are exactly the maximal runs.
-/

/-! ### The source -/

/-- The numbers of a line of the profile. -/
structure UseRange where
  start : Addr
  «end» : Addr
  size : Addr
  deriving DecidableEq, Repr

/-- The range that is open, and the lines that have been written. -/
structure ProfileState where
  rangeStart : Addr := 0
  rangeStarted : Bool := false
  out : List UseRange := []
  deriving DecidableEq, Repr

/-- `absl::countr_one`. -/
def countrOne (byte : BitVec 8) : Nat := (~~~byte).ctz.toNat

/-- `absl::countr_zero`. -/
def countrZero (byte : BitVec 8) : Nat := byte.ctz.toNat

/-- The address of a word of a segment; the arithmetic is that of `int`. -/
def wordAddress (base : Addr) (byteIndex : Nat) (bitIndx : Int) : Addr :=
  base + BitVec.ofInt 64 ((byteIndex * 8 + bitIndx) * 4)

/-- The end of a range: its line is written. -/
def ProfileState.close (s : ProfileState) (rangeEnd : Addr) : ProfileState :=
  { s with rangeStarted := false, out := s.out ++ [⟨s.rangeStart, rangeEnd, rangeEnd - s.rangeStart + 4⟩] }

/-- The iterations of the loop for one byte, which end when `byte_index` is incremented.  There is
    no result if there is not enough fuel. -/
def profileByte (base : Addr) (byteIndex : Nat) :
    Nat → BitVec 8 → ProfileState → Option ProfileState
  | 0, _, _ => none
  | fuel + 1, byte, s =>
    if s.rangeStarted ∧ byte = 0xff then some s
    else
      let ones := countrOne byte
      let (byte, s) := if s.rangeStarted then
          (byte &&& ~~~((1#8 <<< ones) - 1), s.close (wordAddress base byteIndex (ones - 1)))
        else (byte, s)
      if byte = 0 then some s
      else
        let zeros := countrZero byte
        profileByte base byteIndex fuel (byte ||| ((1#8 <<< zeros) - 1))
          { s with rangeStart := wordAddress base byteIndex zeros, rangeStarted := true }

/-- The iterations for one segment.  A byte needs at most five. -/
def profileSegment (s : ProfileState) (e : AddressRange × List (BitVec 8)) : Option ProfileState :=
  (List.range bitsSize).foldlM (fun s byteIndex => do
    let byte ← e.2[byteIndex]?
    profileByte e.1.lo byteIndex 5 byte s) s

/-- `WriteUseProfile`. -/
def MemoryUseTracker.writeUseProfile (t : MemoryUseTracker) : Option (List UseRange) :=
  (t.memoryUseMap.foldlM profileSegment {}).map ProfileState.out

/-! ### One byte -/

/-- What a scan of the bits does at one bit. -/
def profileBit (base : Addr) (byteIndex : Nat) (byte : BitVec 8) (s : ProfileState) (j : Nat) :
    ProfileState :=
  match s.rangeStarted, byte.getLsbD j with
  | false, true => { s with rangeStart := wordAddress base byteIndex j, rangeStarted := true }
  | true, false => s.close (wordAddress base byteIndex (j - 1))
  | _, _ => s

/-- What the iterations for a byte do, one after the other. -/
inductive ByteEvent where
  | close (ones : Nat)
  | start (zeros : Nat)
  deriving DecidableEq, Repr

def ByteEvent.apply (base : Addr) (byteIndex : Nat) (s : ProfileState) : ByteEvent → ProfileState
  | close ones => s.close (wordAddress base byteIndex (ones - 1))
  | start zeros => { s with rangeStart := wordAddress base byteIndex zeros, rangeStarted := true }

/-- The events of the iterations. -/
def byteEvents : Nat → BitVec 8 → Bool → Option (List ByteEvent)
  | 0, _, _ => none
  | fuel + 1, byte, started =>
    if started ∧ byte = 0xff then some []
    else
      let ones := countrOne byte
      let rest := if started then byte &&& ~~~((1#8 <<< ones) - 1) else byte
      let closed := if started then [ByteEvent.close ones] else []
      if rest = 0 then some closed
      else
        let zeros := countrZero rest
        (byteEvents fuel (rest ||| ((1#8 <<< zeros) - 1)) true).map
          fun events => closed ++ .start zeros :: events

/-- The events of the bits from one on. -/
def bitEvents (byte : BitVec 8) : Bool → List Nat → List ByteEvent
  | _, [] => []
  | started, j :: rest =>
    match started, byte.getLsbD j with
    | false, true => .start j :: bitEvents byte true rest
    | true, false => .close j :: bitEvents byte false rest
    | started, _ => bitEvents byte started rest

theorem getLsbD_lowOnes : ∀ n ≤ 8, ∀ j < 8, ((1#8 <<< n) - 1).getLsbD j = decide (j < n) := by
  decide

/-- What the iterations have left of a byte: the bits before `k` have been seen and are all
    `mark`, the others are those of the byte. -/
structure SeenTo (byte : BitVec 8) (k : Nat) (mark : Bool) (register : BitVec 8) : Prop where
  low : ∀ j < k, register.getLsbD j = mark
  high : ∀ j, k ≤ j → j < 8 → register.getLsbD j = byte.getLsbD j

/-- The bits of a byte from `k` on. -/
def bitsFrom (k : Nat) : List Nat := List.range' k (8 - k)

theorem bitsFrom_of_lt {k : Nat} (hk : k < 8) : bitsFrom k = k :: bitsFrom (k + 1) := by
  rw [bitsFrom, bitsFrom, show 8 - k = 8 - (k + 1) + 1 by omega, List.range'_succ]

section Seen

variable {byte register : BitVec 8} {k n : Nat} {mark : Bool}

theorem bitEvents_skip (hkn : k ≤ n) (hn : n ≤ 8)
    (hrun : ∀ j, k ≤ j → j < n → byte.getLsbD j = mark) :
    bitEvents byte mark (bitsFrom k) = bitEvents byte mark (bitsFrom n) := by
  induction n, hkn using Nat.le_induction with
  | base => rfl
  | succ n hkn ih =>
    have hbit : byte.getLsbD n = mark := hrun n hkn (Nat.lt_succ_self n)
    rw [ih (by omega) fun j hj hjn => hrun j hj (by omega), bitsFrom_of_lt (by omega : n < 8)]
    cases mark with
    | false => simp only [bitEvents, hbit]
    | true => simp only [bitEvents, hbit]

theorem SeenTo.bitEvents_eq_nil (h : SeenTo byte k mark register) (hk : k ≤ 8)
    (hall : ∀ j < 8, register.getLsbD j = mark) : bitEvents byte mark (bitsFrom k) = [] := by
  rw [bitEvents_skip hk le_rfl fun j hkj hj => (h.high j hkj hj).symm.trans (hall j hj)]
  rfl

theorem countrZero_lt (h : register ≠ 0) : countrZero register < 8 :=
  BitVec.lt_def.mp (BitVec.ctz_lt_iff_ne_zero.mpr h)

theorem complement_ne_zero (h : register ≠ 0xff) : ~~~register ≠ 0 := by
  intro hzero
  exact h (by rw [← BitVec.not_not (b := register), hzero]; rfl)

theorem getLsbD_of_lt_countrOne {j : Nat} (hj : j < 8) (h : j < countrOne register) :
    register.getLsbD j = true := by
  have hbit := BitVec.getLsbD_false_of_lt_ctz h
  simpa [BitVec.getLsbD_not, hj] using hbit

theorem getLsbD_countrOne (h : register ≠ 0xff) : register.getLsbD (countrOne register) = false := by
  have hlt : countrOne register < 8 := countrZero_lt (complement_ne_zero h)
  have hbit := BitVec.getLsbD_true_ctz_of_ne_zero (complement_ne_zero h)
  simpa [BitVec.getLsbD_not, ← countrOne.eq_1, hlt] using hbit

theorem SeenTo.le (h : SeenTo byte k mark register) (hbit : register.getLsbD n = !mark) : k ≤ n := by
  by_contra hnk
  rw [h.low n (by omega)] at hbit
  cases mark <;> cases hbit

theorem SeenTo.bitEvents_eq (h : SeenTo byte k mark register) (hn : n < 8)
    (hrun : ∀ j < n, register.getLsbD j = mark) (hbit : register.getLsbD n = !mark) :
    bitEvents byte mark (bitsFrom k)
      = (if mark then ByteEvent.close n else .start n) :: bitEvents byte (!mark) (bitsFrom (n + 1)) := by
  have hkn : k ≤ n := h.le hbit
  have hn' : byte.getLsbD n = !mark := (h.high n hkn hn).symm.trans hbit
  rw [bitEvents_skip hkn hn.le fun j hkj hj => (h.high j hkj (by omega)).symm.trans (hrun j hj),
    bitsFrom_of_lt hn]
  cases mark with
  | false => simp only [bitEvents, hn', Bool.not_false]; rfl
  | true => simp only [bitEvents, hn', Bool.not_true]; rfl

theorem SeenTo.set (h : SeenTo byte k false register) (hne : register ≠ 0) :
    SeenTo byte (countrZero register + 1) true
      (register ||| ((1#8 <<< countrZero register) - 1)) := by
  have hlt := countrZero_lt hne
  have hbit : register.getLsbD (countrZero register) = true := BitVec.getLsbD_true_ctz_of_ne_zero hne
  have hk : k ≤ countrZero register := h.le hbit
  constructor
  · intro j hj
    rw [BitVec.getLsbD_or, getLsbD_lowOnes _ hlt.le j (by omega)]
    rcases Nat.lt_succ_iff_lt_or_eq.mp hj with hj | rfl
    · simp [hj]
    · simp [hbit]
  · intro j hj hj8
    rw [BitVec.getLsbD_or, getLsbD_lowOnes _ hlt.le j hj8, h.high j (by omega) hj8]
    simp [show ¬j < countrZero register by omega]

theorem SeenTo.clear (h : SeenTo byte k true register) (hne : register ≠ 0xff) :
    SeenTo byte (countrOne register + 1) false
      (register &&& ~~~((1#8 <<< countrOne register) - 1)) := by
  have hlt : countrOne register < 8 := countrZero_lt (complement_ne_zero hne)
  have hbit : register.getLsbD (countrOne register) = false := getLsbD_countrOne hne
  have hk : k ≤ countrOne register := h.le hbit
  constructor
  · intro j hj
    rw [BitVec.getLsbD_and, BitVec.getLsbD_not, getLsbD_lowOnes _ hlt.le j (by omega)]
    rcases Nat.lt_succ_iff_lt_or_eq.mp hj with hj | rfl
    · simp [hj]
    · simp [hbit]
  · intro j hj hj8
    rw [BitVec.getLsbD_and, BitVec.getLsbD_not, getLsbD_lowOnes _ hlt.le j hj8,
      h.high j (by omega) hj8]
    simp [hj8, show ¬j < countrOne register by omega]

theorem byteEvents_start (fuel : Nat) (h : SeenTo byte k false register) (hk : k ≤ 8)
    (hrest : ∀ k' register', k < k' → k' ≤ 8 → SeenTo byte k' true register' →
      byteEvents fuel register' true = some (bitEvents byte true (bitsFrom k'))) :
    (if register = 0 then some []
      else (byteEvents fuel (register ||| ((1#8 <<< countrZero register) - 1)) true).map
        fun events => .start (countrZero register) :: events)
      = some (bitEvents byte false (bitsFrom k)) := by
  split
  next hzero =>
    subst hzero
    rw [h.bitEvents_eq_nil hk fun j _ => BitVec.getLsbD_zero]
  next hne =>
    have hlt := countrZero_lt hne
    have hbit : register.getLsbD (countrZero register) = true :=
      BitVec.getLsbD_true_ctz_of_ne_zero hne
    have hk' : k ≤ countrZero register := h.le hbit
    rw [hrest _ _ (by omega) (by omega) (h.set hne),
      h.bitEvents_eq hlt (fun j hj => BitVec.getLsbD_false_of_lt_ctz hj) hbit]
    rfl

/-- An iteration closes the range that is open and opens the next, so two bits at least are
    behind it. -/
theorem byteEvents_started (fuel : Nat) (hfuel : 8 - k < 2 * fuel) (hk : k ≤ 8)
    (h : SeenTo byte k true register) :
    byteEvents fuel register true = some (bitEvents byte true (bitsFrom k)) := by
  induction fuel generalizing k register with
  | zero => omega
  | succ fuel ih =>
    rw [byteEvents]
    by_cases hfull : register = 0xff
    · subst hfull
      rw [if_pos ⟨rfl, rfl⟩, h.bitEvents_eq_nil hk (by decide)]
    · have hlt : countrOne register < 8 := countrZero_lt (complement_ne_zero hfull)
      have hbit : register.getLsbD (countrOne register) = false := getLsbD_countrOne hfull
      have hk' : k ≤ countrOne register := h.le hbit
      have hstart := byteEvents_start fuel (h.clear hfull) hlt fun k' register' hlt' hk' hseen =>
        ih (by omega) hk' hseen
      rw [h.bitEvents_eq hlt (fun j hj => getLsbD_of_lt_countrOne (by omega) hj) hbit]
      -- What is closed comes before the events of the second half.
      refine .trans ?_ (congrArg (Option.map (ByteEvent.close (countrOne register) :: ·)) hstart)
      simp only [hfull, and_false, if_false, if_true]
      split
      · rfl
      · rw [Option.map_map]
        rfl

end Seen

theorem byteEvents_eq (started : Bool) (byte : BitVec 8) :
    byteEvents 5 byte started = some (bitEvents byte started (List.range 8)) := by
  have h : SeenTo byte 0 started byte := ⟨fun j hj => absurd hj (Nat.not_lt_zero j), fun j _ _ => rfl⟩
  rw [List.range_eq_range']
  cases started with
  | true => exact byteEvents_started 5 (by omega) (Nat.zero_le 8) h
  | false =>
    refine .trans ?_ (byteEvents_start 4 h (Nat.zero_le 8) fun k' register' hlt hk' hseen =>
      byteEvents_started 4 (by omega) hk' hseen)
    rw [byteEvents]
    simp only [Bool.false_eq_true, false_and, if_false, List.nil_append]

theorem profileByte_eq (base : Addr) (byteIndex fuel : Nat) (byte : BitVec 8) (s : ProfileState) :
    profileByte base byteIndex fuel byte s = (byteEvents fuel byte s.rangeStarted).map
      fun events => events.foldl (ByteEvent.apply base byteIndex) s := by
  induction fuel generalizing byte s with
  | zero => rfl
  | succ fuel ih =>
    rw [profileByte, byteEvents]
    cases hstarted : s.rangeStarted with
    | false =>
      simp only [Bool.false_eq_true, false_and, if_false, ih, List.nil_append]
      split
      · rfl
      · rw [Option.map_map]
        rfl
    | true =>
      simp only [true_and, if_true, ih]
      split
      · rfl
      · split
        · rfl
        · rw [Option.map_map]
          rfl

theorem foldl_bitEvents (base : Addr) (byteIndex : Nat) (byte : BitVec 8) (js : List Nat)
    (s : ProfileState) :
    (bitEvents byte s.rangeStarted js).foldl (ByteEvent.apply base byteIndex) s
      = js.foldl (profileBit base byteIndex byte) s := by
  induction js generalizing s with
  | nil => cases hstarted : s.rangeStarted <;> rfl
  | cons j rest ih =>
    rw [List.foldl_cons, ← ih, profileBit]
    cases hstarted : s.rangeStarted with
    | false =>
      cases hbit : byte.getLsbD j with
      | false => simp only [bitEvents, hbit, hstarted]
      | true =>
        simp only [bitEvents, hbit]
        rfl
    | true =>
      cases hbit : byte.getLsbD j with
      | false =>
        simp only [bitEvents, hbit]
        rfl
      | true => simp only [bitEvents, hbit, hstarted]

/-- **A byte** is a scan of its bits. -/
theorem profileByte_eq_foldl (base : Addr) (byteIndex : Nat) (byte : BitVec 8) (s : ProfileState) :
    profileByte base byteIndex 5 byte s
      = some ((List.range 8).foldl (profileBit base byteIndex byte) s) := by
  rw [profileByte_eq, byteEvents_eq, Option.map_some, foldl_bitEvents]

/-! ### The words of the segments -/

/-- The line of a run of words. -/
def UseRange.ofRun (r : Nat × Nat) : UseRange :=
  let start := BitVec.ofNat 64 (4 * r.1)
  let last := BitVec.ofNat 64 (4 * r.2) - 4
  ⟨start, last, last - start + 4⟩

/-- The words of a byte and of a segment, each with its mark. -/
def byteWords (base : Addr) (byteIndex : Nat) (byte : BitVec 8) : List (Nat × Bool) :=
  (List.range 8).map fun j => (base.toNat / 4 + byteIndex * 8 + j, byte.getLsbD j)

def segmentWords (e : AddressRange × List (BitVec 8)) : List (Nat × Bool) :=
  (List.range bitsSize).flatMap fun byteIndex => byteWords e.1.lo byteIndex (e.2.getD byteIndex 0)

def UseMap.words (m : UseMap) : List (Nat × Bool) := m.flatMap segmentWords

/-- The state of the loop is that of a scan of words. -/
structure Scans (s : ProfileState) (c : Option Nat × List (Nat × Nat)) : Prop where
  started : s.rangeStarted = c.1.isSome
  start : ∀ p, c.1 = some p → s.rangeStart = BitVec.ofNat 64 (4 * p)
  out : s.out = c.2.map UseRange.ofRun

variable {base : Addr} {s : ProfileState} {c : Option Nat × List (Nat × Nat)}

theorem wordAddress_eq (hbase : base.toNat % 4 = 0) (byteIndex j : Nat) :
    wordAddress base byteIndex j = BitVec.ofNat 64 (4 * (base.toNat / 4 + byteIndex * 8 + j)) := by
  apply BitVec.eq_of_toNat_eq
  rw [wordAddress, BitVec.toNat_add, BitVec.toNat_ofInt, BitVec.toNat_ofNat]
  omega

theorem wordAddress_sub_one (hbase : base.toNat % 4 = 0) (byteIndex j : Nat) :
    wordAddress base byteIndex (j - 1)
      = BitVec.ofNat 64 (4 * (base.toNat / 4 + byteIndex * 8 + j)) - 4 := by
  have hfour : (4 : Addr).toNat = 4 := rfl
  apply BitVec.eq_of_toNat_eq
  rw [wordAddress, BitVec.toNat_add, BitVec.toNat_ofInt, BitVec.toNat_sub, BitVec.toNat_ofNat,
    hfour]
  omega

/-- **Step lemma.** A bit is a step of the scan. -/
theorem Scans.profileBit (h : Scans s c) (hbase : base.toNat % 4 = 0) (byteIndex : Nat)
    (byte : BitVec 8) (j : Nat) :
    Scans (profileBit base byteIndex byte s j)
      (runStep c (base.toNat / 4 + byteIndex * 8 + j, byte.getLsbD j)) := by
  obtain ⟨hstarted, hstart, hout⟩ := h
  obtain ⟨o, runs⟩ := c
  rw [Memory.profileBit, hstarted]
  cases o with
  | none =>
    cases hbit : byte.getLsbD j with
    | false => exact ⟨hstarted, hstart, hout⟩
    | true =>
      refine ⟨rfl, fun p hp => ?_, hout⟩
      cases hp
      exact wordAddress_eq hbase byteIndex j
  | some p =>
    cases hbit : byte.getLsbD j with
    | true => exact ⟨hstarted, hstart, hout⟩
    | false =>
      refine ⟨rfl, (fun q hq => by cases hq), ?_⟩
      show s.out ++ [_] = (runs ++ [_]).map UseRange.ofRun
      rw [List.map_append, hout, hstart p rfl, wordAddress_sub_one hbase]
      rfl

/-- **Run lemma**, for the bits of a byte, the bytes of a segment and the segments of the map. -/
theorem Scans.profileByte (h : Scans s c) (hbase : base.toNat % 4 = 0) (byteIndex : Nat)
    (byte : BitVec 8) :
    ∃ s', profileByte base byteIndex 5 byte s = some s' ∧
      Scans s' ((byteWords base byteIndex byte).foldl runStep c) := by
  refine ⟨_, profileByte_eq_foldl base byteIndex byte s, ?_⟩
  rw [byteWords, List.foldl_map]
  generalize List.range 8 = js
  induction js generalizing s c with
  | nil => exact h
  | cons j rest ih => exact ih (h.profileBit hbase byteIndex byte j)

theorem Scans.profileSegment (h : Scans s c) {e : AddressRange × List (BitVec 8)}
    (he : Segment e) :
    ∃ s', profileSegment s e = some s' ∧ Scans s' ((segmentWords e).foldl runStep c) := by
  have hbase : e.1.lo.toNat % 4 = 0 := by
    have := he.aligned
    omega
  rw [segmentWords, List.foldl_flatMap]
  refine foldlM_refines Scans (fun i hi s c hs => ?_) h
  have hlt : i < e.2.length := by
    rw [he.length_eq]
    exact List.mem_range.mp hi
  obtain ⟨s', hrun, hscans⟩ := hs.profileByte hbase i (e.2.getD i 0)
  refine ⟨s', ?_, hscans⟩
  rw [List.getElem?_eq_getElem hlt]
  rw [List.getD_eq_getElem _ _ hlt] at hrun
  exact hrun

/-- **The profile** is what a scan of the words closes. -/
theorem writeUseProfile_eq {t : MemoryUseTracker} (h : t.Wf) :
    t.writeUseProfile = some ((scanRuns none t.memoryUseMap.words).map UseRange.ofRun) := by
  have hinit : Scans {} (none, []) := ⟨rfl, (fun p hp => by cases hp), rfl⟩
  obtain ⟨s', hrun, hscans⟩ := foldlM_refines (f := profileSegment)
    (g := fun c e => (segmentWords e).foldl runStep c) (l := t.memoryUseMap) Scans
    (fun e he s c hs => hs.profileSegment (h.map.segment e he)) hinit
  rw [MemoryUseTracker.writeUseProfile, hrun, Option.map_some, hscans.out, ← List.foldl_flatMap,
    foldl_runStep, List.nil_append]
  rfl

theorem mem_segmentWords {e : AddressRange × List (BitVec 8)} (he : Segment e) {p : Nat}
    {marked : Bool} :
    (p, marked) ∈ segmentWords e ↔ e.1.lo.toNat / 4 ≤ p ∧ p ≤ e.1.hi.toNat / 4 ∧
      wordBit e.2 (p - e.1.lo.toNat / 4) = marked := by
  obtain ⟨haligned, hend, -⟩ := he
  have hsize : bitsSize = 4096 := rfl
  rw [segmentWords, List.mem_flatMap]
  constructor
  · rintro ⟨i, hi, hmem⟩
    obtain ⟨j, hj, heq⟩ := List.mem_map.mp hmem
    obtain ⟨rfl, rfl⟩ := Prod.mk.inj heq
    have hi' := List.mem_range.mp hi
    have hj' := List.mem_range.mp hj
    have hp : e.1.lo.toNat / 4 + i * 8 + j - e.1.lo.toNat / 4 = i * 8 + j := by omega
    obtain ⟨hdiv, hmod⟩ := position_div_mod (by decide : 0 < 8) (i := i) hj'
    refine ⟨by omega, by omega, ?_⟩
    rw [hp, wordBit, hdiv, hmod]
  · rintro ⟨hlo, hhi, rfl⟩
    refine ⟨(p - e.1.lo.toNat / 4) / 8, List.mem_range.mpr (by omega), List.mem_map.mpr
      ⟨(p - e.1.lo.toNat / 4) % 8, List.mem_range.mpr (by omega), Prod.ext ?_ rfl⟩⟩
    show e.1.lo.toNat / 4 + _ + _ = p
    omega

variable {m : UseMap}

theorem UseMap.Wf.mem_words (h : m.Wf) {p : Nat} : (p, true) ∈ m.words ↔ m.Marked p := by
  rw [UseMap.words, List.mem_flatMap]
  exact exists_congr fun e => and_congr_right fun he => mem_segmentWords (h.segment e he)

theorem UseMap.Wf.sorted_words (h : m.Wf) : m.words.Pairwise fun x y => x.1 < y.1 := by
  rw [UseMap.words, List.pairwise_flatMap]
  constructor
  · intro e he
    rw [segmentWords, List.pairwise_flatMap]
    constructor
    · intro i _
      rw [byteWords, List.pairwise_map]
      exact List.pairwise_lt_range.imp fun {j j'} hlt => by simpa using hlt
    · refine List.pairwise_lt_range.imp fun {i i'} hlt x hx y hy => ?_
      obtain ⟨j, hj, rfl⟩ := List.mem_map.mp hx
      obtain ⟨j', -, rfl⟩ := List.mem_map.mp hy
      have hj' := List.mem_range.mp hj
      show e.1.lo.toNat / 4 + i * 8 + j < e.1.lo.toNat / 4 + i' * 8 + j'
      omega
  · refine h.sorted.pairwise.imp_of_mem fun {e f} he hf hlt x hx y hy => ?_
    obtain ⟨p, marked⟩ := x
    obtain ⟨q, marked'⟩ := y
    obtain ⟨-, hp, -⟩ := (mem_segmentWords (h.segment e he)).mp hx
    obtain ⟨hq, -, -⟩ := (mem_segmentWords (h.segment f hf)).mp hy
    have hend := (h.segment e he).hi_eq
    have haligned := (h.segment e he).aligned
    have haligned' := (h.segment f hf).aligned
    rw [BitVec.lt_def] at hlt
    show p < q
    omega

/-- The last word of a segment. -/
def lastWord (e : AddressRange × List (BitVec 8)) : Bool := wordBit e.2 32767

/-- A segment whose last word is marked is followed by one. -/
def UseMap.Joined (m : UseMap) : Prop :=
  ∀ e ∈ m, lastWord e = true → ∃ f ∈ m, f.1.lo.toNat = e.1.hi.toNat + 1

theorem UseMap.Wf.followed (h : m.Wf) (hjoined : m.Joined) : Followed m.words := by
  refine ⟨h.sorted_words, fun p hp => ?_⟩
  obtain ⟨e, he, hlo, hhi, hbit⟩ := h.mem_words.mp hp
  obtain ⟨haligned, hend, -⟩ := h.segment e he
  rw [UseMap.words]
  by_cases hlast : p = e.1.hi.toNat / 4
  · have hword : p - e.1.lo.toNat / 4 = 32767 := by omega
    rw [hword] at hbit
    obtain ⟨f, hf, hnext⟩ := hjoined e he hbit
    have hend' := (h.segment f hf).hi_eq
    exact ⟨_, List.mem_flatMap.mpr ⟨f, hf, (mem_segmentWords (h.segment f hf)).mpr
      ⟨by omega, by omega, rfl⟩⟩⟩
  · exact ⟨_, List.mem_flatMap.mpr ⟨e, he, (mem_segmentWords (h.segment e he)).mpr
      ⟨by omega, by omega, rfl⟩⟩⟩

/-- The lines are the maximal runs of marked words, in order. -/
def MemoryUseTracker.ProfileExact (t : MemoryUseTracker) : Prop :=
  ∃ runs, t.writeUseProfile = some (runs.map UseRange.ofRun) ∧ ExactRuns t.Marked runs

open MemoryUseTracker

/-- The run that ends with a segment that is followed by none is not written. -/
theorem joined_of_profileExact {t : MemoryUseTracker} (h : t.Wf) (hexact : t.ProfileExact) :
    t.memoryUseMap.Joined := by
  intro e he hlast
  by_contra hnone
  obtain ⟨runs, hrun, hruns⟩ := hexact
  rw [writeUseProfile_eq h] at hrun
  obtain ⟨haligned, hend, -⟩ := h.map.segment e he
  have hword : e.1.lo.toNat / 4 + 32767 = e.1.hi.toNat / 4 := by omega
  have hmarked : t.Marked (e.1.hi.toNat / 4) := by
    refine ⟨e, he, by omega, le_rfl, ?_⟩
    have hsub : e.1.hi.toNat / 4 - e.1.lo.toNat / 4 = 32767 := by omega
    rw [hsub]
    exact hlast
  -- No segment has the word behind it.
  have hbehind : ∀ marked, (e.1.hi.toNat / 4 + 1, marked) ∉ t.memoryUseMap.words := by
    intro marked hmem
    obtain ⟨f, hf, hin⟩ := List.mem_flatMap.mp hmem
    obtain ⟨hlo, hhi, -⟩ := (mem_segmentWords (h.map.segment f hf)).mp hin
    obtain ⟨haligned', hend', -⟩ := h.map.segment f hf
    exact hnone ⟨f, hf, by omega⟩
  obtain ⟨start, hmaximal⟩ := exists_isRun hmarked
    fun hnext => hbehind true (h.map.mem_words.mpr hnext)
  have hline : UseRange.ofRun (start, e.1.hi.toNat / 4 + 1) ∈ runs.map UseRange.ofRun :=
    List.mem_map_of_mem ((hruns.mem_iff (start, _)).mpr hmaximal)
  rw [← Option.some.inj hrun] at hline
  obtain ⟨r, hr, hsame⟩ := List.mem_map.mp hline
  -- The line of a run that is closed at a word ends before that.
  have hclosed := end_mem_of_mem_scanRuns hr
  obtain ⟨f, hf, hin⟩ := List.mem_flatMap.mp hclosed
  obtain ⟨-, hhi, -⟩ := (mem_segmentWords (h.map.segment f hf)).mp hin
  have hpos := lt_of_mem_scanRuns h.map.sorted_words (fun s hs => by cases hs) hr
  have hlt := f.1.hi.isLt
  have hlt' := e.1.hi.isLt
  have hends := congrArg (fun u : UseRange => u.end + 4) hsame
  simp only [UseRange.ofRun, BitVec.sub_add_cancel] at hends
  have hends' := congrArg BitVec.toNat hends
  rw [BitVec.toNat_ofNat, BitVec.toNat_ofNat] at hends'
  have heq : r.2 = e.1.hi.toNat / 4 + 1 := by omega
  rw [heq] at hclosed
  exact hbehind false hclosed

/-- **The profile is exact** if and only if every segment whose last word is marked is followed by
    another one. -/
theorem profileExact_iff (t : MemoryUseTracker) (h : t.Wf) :
    t.ProfileExact ↔ t.memoryUseMap.Joined := by
  refine ⟨joined_of_profileExact h, fun hjoined => ?_⟩
  refine ⟨_, writeUseProfile_eq h, ?_⟩
  exact (scanRuns_exact (h.map.followed hjoined)).1.congr fun p => h.map.mem_words

theorem profileExact_iff_init :
    ProfileExact {} ↔ UseMap.Joined ({} : MemoryUseTracker).memoryUseMap :=
  profileExact_iff {} wf_init

/-- The tracker after an access to the last word of the first segment. -/
def lastUsedOnly : MemoryUseTracker :=
  ⟨0, 131071, some 0, [(⟨0, 131071⟩, List.replicate 4095 0 ++ [0x80])]⟩

theorem wf_lastUsedOnly : lastUsedOnly.Wf := by
  refine ⟨⟨⟨fun e he => ?_, List.pairwise_singleton _ _⟩, fun e he => ?_⟩,
    (fun hnone => by cases hnone), fun start hstart => ?_⟩
  · rw [List.mem_singleton.mp he]
    decide
  · rw [List.mem_singleton.mp he]
    refine ⟨rfl, rfl, ?_⟩
    rw [List.length_append, List.length_replicate, List.length_singleton]
  · exact ⟨(Option.some.inj hstart).symm, _, List.mem_singleton_self _, rfl⟩

/-- The last word of the only segment is not written. -/
theorem not_profileExact_lastUsedOnly : lastUsedOnly.Wf ∧ ¬lastUsedOnly.ProfileExact := by
  refine ⟨wf_lastUsedOnly, fun hexact => ?_⟩
  have hlast : lastWord (⟨0, 131071⟩, List.replicate 4095 0 ++ [0x80]) = true := by
    rw [lastWord, wordBit, List.getD_append_right _ _ _ _ (by rw [List.length_replicate]),
      List.length_replicate]
    decide
  obtain ⟨f, hf, hnext⟩ :=
    joined_of_profileExact wf_lastUsedOnly hexact _ List.mem_cons_self hlast
  rw [List.mem_singleton.mp hf] at hnext
  exact absurd hnext (by decide)

end MpactSim.Memory
