import MpactSim.Lib.Monad
import MpactSim.Lib.Words
import MpactSim.Lib.WordSets
import MpactSim.Memory.Interface

namespace MpactSim.Memory

open Lib

/-!
# Tracking which words are used

A `MemoryUseTracker` has a bit for each word of four bytes, in arrays for segments of 128 KiB that
it makes when they are needed.  A step has no result where the source writes outside the array of
a segment, or through a null pointer.

* `markUsed`           — the bit that an access sets;
* `markUsed_eq`        — it is that of the first word, if the array is that of the address;
* `marksExactly_iff`   — when these are the bits of the words of the access.
-/

/-! ### The source -/

/-- `kSegmentSize` and `kBitsSize`. -/
def segmentSize : Nat := 128 * 1024

def bitsSize : Nat := segmentSize / (4 * 8)

/-- `memory_use_map_`: a map from segments to arrays. -/
abbrev UseMap := RangeMap Addr (List (BitVec 8))

/-- `MemoryUseTracker`; `last_used_` points to the array of the segment with that start. -/
structure MemoryUseTracker where
  lastStart : Addr := 0
  lastEnd : Addr := 0
  lastUsed : Option Addr := none
  memoryUseMap : UseMap := []
  deriving DecidableEq, Repr

/-- `MarkUsedBits`. -/
def markUsedBits (byteOffset : Addr) (mask : BitVec 8) (bits : List (BitVec 8)) :
    Option (List (BitVec 8)) := do
  let wordOffset := byteOffset >>> 2
  let byteIndex := (wordOffset >>> 3).toNat
  let bitIndex := (wordOffset &&& 7).toNat
  let byte ← bits[byteIndex]?
  some (bits.set byteIndex (byte ||| mask <<< bitIndex))

/-- `MarkUsedBits` of the array of a segment of the map. -/
def markSegment (start byteOffset : Addr) (mask : BitVec 8) (m : UseMap) : Option UseMap :=
  m.mapM fun e =>
    if e.1.lo = start then (markUsedBits byteOffset mask e.2).map fun bits => (e.1, bits)
    else some e

/-- `insert` of a map: an entry that is equivalent is kept. -/
def insertUnique (m : UseMap) (e : AddressRange × List (BitVec 8)) : UseMap × AddressRange :=
  match RangeMap.find? m e.1 with
  | some old => (m, old.1)
  | none => (RangeMap.insert m e, e.1)

/-- The segment of an address, without marks. -/
def newSegment (address : Addr) : AddressRange × List (BitVec 8) :=
  let start := address &&& ~~~131071#64
  (⟨start, start + 131072 - 1⟩, List.replicate bitsSize 0)

/-- The entry of the map that an access finds, or the one that is added for it. -/
def findSegment (m : UseMap) (address : Addr) (size : Nat) : UseMap × AddressRange :=
  match RangeMap.find? m (accessRange address size) with
  | some e => (m, e.1)
  | none => insertUnique m (newSegment address)

namespace MemoryUseTracker

/-- `MarkUsed`. -/
def markUsed (t : MemoryUseTracker) (address : Addr) (size : Nat) : Option MemoryUseTracker :=
  if size > 8 then some t
  else
    let size := min size 4
    let mask : BitVec 8 := if size > 4 then 3 else 1
    let access := accessRange address size
    if t.lastStart ≤ address ∧ access.hi ≤ t.lastEnd then do
      let start ← t.lastUsed
      let m ← markSegment start (address - t.lastStart) mask t.memoryUseMap
      some { t with memoryUseMap := m }
    else do
      let (m, range) := findSegment t.memoryUseMap address size
      let m ← markSegment range.lo (address - range.lo) mask m
      some ⟨range.lo, range.hi, some range.lo, m⟩

end MemoryUseTracker

/-! ### Bits of a segment -/

/-- A segment starts at a multiple of its size, and its array has a bit for each word. -/
structure Segment (e : AddressRange × List (BitVec 8)) : Prop where
  aligned : e.1.lo.toNat % 131072 = 0
  hi_eq : e.1.hi.toNat = e.1.lo.toNat + 131071
  length_eq : e.2.length = 4096

variable {bits : List (BitVec 8)} {offset : Addr}

theorem byteIndex_eq (offset : Addr) : (offset >>> 2 >>> 3).toNat = offset.toNat / 4 / 8 := by
  rw [BitVec.toNat_ushiftRight, BitVec.toNat_ushiftRight, Nat.shiftRight_eq_div_pow,
    Nat.shiftRight_eq_div_pow]

theorem bitIndex_eq (offset : Addr) : (offset >>> 2 &&& 7).toNat = offset.toNat / 4 % 8 := by
  rw [BitVec.toNat_and, BitVec.toNat_ushiftRight, Nat.shiftRight_eq_div_pow]
  exact Nat.and_two_pow_sub_one_eq_mod (offset.toNat / 2 ^ 2) 3

theorem markUsedBits_of_lt (hlen : bits.length = 4096) (hoffset : offset.toNat < 131072) :
    ∃ bits', markUsedBits offset 1 bits = some bits' ∧ bits'.length = 4096 ∧
      ∀ q, wordBit bits' q = true ↔ q = offset.toNat / 4 ∨ wordBit bits q = true := by
  have hlt : offset.toNat / 4 / 8 < bits.length := by omega
  refine ⟨_, ?_, List.length_set.trans hlen, wordBit_set (by decide) hlt⟩
  rw [markUsedBits]
  simp only [byteIndex_eq, bitIndex_eq]
  rw [List.getElem?_eq_getElem hlt, List.getD_eq_getElem _ _ hlt]
  rfl

theorem markUsedBits_of_le (hlen : bits.length = 4096) (hoffset : 131072 ≤ offset.toNat)
    (mask : BitVec 8) : markUsedBits offset mask bits = none := by
  rw [markUsedBits]
  simp only [byteIndex_eq]
  rw [List.getElem?_eq_none (by omega)]
  rfl

/-! ### The words that are marked -/

/-- The segments are in order. -/
structure UseMap.Wf (m : UseMap) : Prop where
  sorted : RangeMap.Sorted m
  segment : ∀ e ∈ m, Segment e

/-- The bit of a word is set. -/
def UseMap.Marked (m : UseMap) (w : Nat) : Prop :=
  ∃ e ∈ m, e.1.lo.toNat / 4 ≤ w ∧ w ≤ e.1.hi.toNat / 4 ∧
    wordBit e.2 (w - e.1.lo.toNat / 4) = true

variable {m : UseMap} {e f : AddressRange × List (BitVec 8)} {address : Addr}

theorem UseMap.Wf.eq_of_lo_eq (h : m.Wf) (he : e ∈ m) (hf : f ∈ m) (hlo : f.1.lo = e.1.lo) :
    f = e :=
  h.sorted.eq_of_mem hf he (le_of_eq hlo) (hlo ▸ h.sorted.wellFormed f hf) le_rfl
    (h.sorted.wellFormed e he)

theorem markSegment_eq_some (h : m.Wf) (he : e ∈ m) {mask : BitVec 8} {bits' : List (BitVec 8)}
    (hbits : markUsedBits offset mask e.2 = some bits') :
    markSegment e.1.lo offset mask m
      = some (m.map fun f => if f.1.lo = e.1.lo then (e.1, bits') else f) := by
  refine mapM_eq_some_map fun f hf => ?_
  split
  · rename_i hlo
    obtain rfl := h.eq_of_lo_eq he hf hlo
    rw [hbits]
    rfl
  · rfl

theorem markSegment_eq_none (he : e ∈ m) {mask : BitVec 8}
    (hbits : markUsedBits offset mask e.2 = none) : markSegment e.1.lo offset mask m = none := by
  rw [← Option.not_isSome_iff_eq_none, markSegment, isSome_mapM_iff]
  intro hall
  have hsome := hall e he
  rw [if_pos rfl, hbits] at hsome
  cases hsome

theorem UseMap.Wf.map (h : m.Wf) {g : AddressRange × List (BitVec 8) → AddressRange × List (BitVec 8)}
    (hrange : ∀ f ∈ m, (g f).1 = f.1) (hlen : ∀ f ∈ m, (g f).2.length = 4096) :
    UseMap.Wf (m.map g) := by
  refine ⟨⟨fun x hx => ?_, ?_⟩, fun x hx => ?_⟩
  · obtain ⟨f, hf, rfl⟩ := List.mem_map.mp hx
    rw [hrange f hf]
    exact h.sorted.wellFormed f hf
  · refine List.pairwise_map.mpr (h.sorted.pairwise.imp_of_mem fun {a b} ha hb hlt => ?_)
    rwa [hrange a ha, hrange b hb]
  · obtain ⟨f, hf, rfl⟩ := List.mem_map.mp hx
    obtain ⟨haligned, hend, -⟩ := h.segment f hf
    refine ⟨?_, ?_, hlen f hf⟩
    · rwa [hrange f hf]
    · rwa [hrange f hf]

/-- **One word** of a segment is marked. -/
theorem UseMap.Wf.markSegment_spec (h : m.Wf) (he : e ∈ m) (address : Addr)
    (hlo : e.1.lo ≤ address) (hhi : address ≤ e.1.hi) :
    ∃ m', markSegment e.1.lo (address - e.1.lo) 1 m = some m' ∧ UseMap.Wf m' ∧
      (∀ range, (∃ f ∈ m, f.1 = range) → ∃ f ∈ m', f.1 = range) ∧
      ∀ w, UseMap.Marked m' w ↔ w = address.toNat / 4 ∨ m.Marked w := by
  obtain ⟨haligned, hend, hlen⟩ := h.segment e he
  have hsub : (address - e.1.lo).toNat = address.toNat - e.1.lo.toNat :=
    BitVec.toNat_sub_of_le hlo
  rw [BitVec.le_def] at hlo hhi
  have hoffset : (address - e.1.lo).toNat < 131072 := by omega
  obtain ⟨bits', hbits, hlen', hset⟩ := markUsedBits_of_lt hlen hoffset
  rw [hsub] at hset
  have hrange : ∀ f ∈ m, (if f.1.lo = e.1.lo then (e.1, bits') else f).1 = f.1 := by
    intro f hf
    split
    · rename_i heq
      rw [h.eq_of_lo_eq he hf heq]
    · rfl
  refine ⟨_, markSegment_eq_some h he hbits, h.map hrange fun f hf => ?_, ?_, fun w => ?_⟩
  · split
    · exact hlen'
    · exact (h.segment f hf).length_eq
  · rintro range ⟨f, hf, rfl⟩
    exact ⟨_, List.mem_map_of_mem hf, hrange f hf⟩
  · constructor
    · rintro ⟨x, hx, hw, hw', hbit⟩
      obtain ⟨f, hf, rfl⟩ := List.mem_map.mp hx
      simp only [hrange f hf] at hw hw' hbit
      split at hbit
      · rename_i heq
        obtain rfl := h.eq_of_lo_eq he hf heq
        rcases (hset _).mp hbit with hword | hold
        · exact .inl (by omega)
        · exact .inr ⟨f, hf, hw, hw', hold⟩
      · exact .inr ⟨f, hf, hw, hw', hbit⟩
    · rintro (rfl | ⟨f, hf, hw, hw', hbit⟩)
      · refine ⟨_, List.mem_map_of_mem he, ?_⟩
        rw [if_pos rfl]
        exact ⟨by show e.1.lo.toNat / 4 ≤ _; omega, by show _ ≤ e.1.hi.toNat / 4; omega,
          (hset _).mpr (.inl (by show _ - e.1.lo.toNat / 4 = _; omega))⟩
      · refine ⟨_, List.mem_map_of_mem hf, ?_⟩
        simp only [hrange f hf]
        refine ⟨hw, hw', ?_⟩
        split
        · rename_i heq
          obtain rfl := h.eq_of_lo_eq he hf heq
          exact (hset _).mpr (.inr hbit)
        · exact hbit

/-! ### The segment that is used -/

theorem toNat_lo_newSegment (address : Addr) :
    (newSegment address).1.lo.toNat = address.toNat / 131072 * 131072 := by
  have hmask : ~~~131071#64 = BitVec.allOnes 64 <<< 17 := by decide
  show (address &&& ~~~131071#64).toNat = _
  rw [hmask, toNat_and_shiftLeft_allOnes]
  norm_num

theorem segment_newSegment (address : Addr) : Segment (newSegment address) := by
  have hlo := toNat_lo_newSegment address
  have hlt := address.isLt
  refine ⟨by omega, ?_, List.length_replicate⟩
  have hhi : (newSegment address).1.hi = (newSegment address).1.lo + 131071#64 := by
    show (newSegment address).1.lo + 131072 - 1 = _
    rw [BitVec.sub_eq_add_neg, BitVec.add_assoc]
    rfl
  rw [hhi, BitVec.toNat_add]
  show (_ + 131071) % 2 ^ 64 = _
  omega

theorem Segment.contains_iff (he : Segment e) :
    (e.1.lo ≤ address ∧ address ≤ e.1.hi) ↔ e.1.lo = (newSegment address).1.lo := by
  obtain ⟨haligned, hend, -⟩ := he
  rw [BitVec.le_def, BitVec.le_def, ← BitVec.toNat_inj, toNat_lo_newSegment]
  omega

theorem Segment.range_eq (he : Segment e) (hf : Segment f) (hoverlap : e.1.Overlaps f.1) :
    e.1 = f.1 := by
  obtain ⟨hlo, hhi⟩ := hoverlap
  obtain ⟨haligned, hend, -⟩ := he
  obtain ⟨haligned', hend', -⟩ := hf
  rw [BitVec.le_def] at hlo hhi
  have hlo_eq : e.1.lo = f.1.lo := BitVec.eq_of_toNat_eq (by omega)
  have hhi_eq : e.1.hi = f.1.hi := BitVec.eq_of_toNat_eq (by omega)
  exact congrArg₂ Range.mk hlo_eq hhi_eq

theorem UseMap.Wf.insertUnique_spec (h : m.Wf) (address : Addr) :
    ∃ m', insertUnique m (newSegment address) = (m', (newSegment address).1) ∧ UseMap.Wf m' ∧
      (∃ e ∈ m', e.1 = (newSegment address).1) ∧ ∀ w, UseMap.Marked m' w ↔ m.Marked w := by
  have hnew := segment_newSegment address
  rw [insertUnique]
  split
  · rename_i old hfind
    obtain ⟨hold, hoverlap⟩ := RangeMap.mem_of_find?_eq_some h.sorted hfind
    have hrange := (h.segment old hold).range_eq hnew hoverlap
    exact ⟨m, by rw [hrange], h, ⟨old, hold, hrange⟩, fun _ => Iff.rfl⟩
  · rename_i hfind
    have hdisjoint := (RangeMap.find?_eq_none_iff h.sorted _).mp hfind
    have hle : (newSegment address).1.lo ≤ (newSegment address).1.hi := by
      rw [BitVec.le_def, hnew.hi_eq]
      omega
    refine ⟨_, rfl, ⟨h.sorted.insert hle hdisjoint, fun x hx => ?_⟩,
      ⟨_, RangeMap.mem_insert.mpr (.inl rfl), rfl⟩, fun w => ⟨?_, ?_⟩⟩
    · rcases RangeMap.mem_insert.mp hx with rfl | hold
      · exact hnew
      · exact h.segment x hold
    · rintro ⟨x, hx, hw, hw', hbit⟩
      rcases RangeMap.mem_insert.mp hx with rfl | hold
      · have hzero : wordBit (List.replicate bitsSize (0 : BitVec 8))
            (w - (newSegment address).1.lo.toNat / 4) = true := hbit
        rw [← mem_members, members_replicate] at hzero
        exact absurd hzero (Finset.notMem_empty _)
      · exact ⟨x, hold, hw, hw', hbit⟩
    · rintro ⟨x, hx, hrest⟩
      exact ⟨x, RangeMap.mem_insert.mpr (.inr hx), hrest⟩

/-- The segment of the address is found or added, if there is one or the access reaches none. -/
theorem UseMap.Wf.findSegment_spec (h : m.Wf) {size : Nat}
    (hgood : (∃ e ∈ m, e.1.lo ≤ address ∧ address ≤ e.1.hi) ∨
      ∀ e ∈ m, ¬e.1.Overlaps (accessRange address size)) :
    ∃ m' range, findSegment m address size = (m', range) ∧ UseMap.Wf m' ∧
      (∃ e ∈ m', e.1 = range ∧ e.1.lo ≤ address ∧ address ≤ e.1.hi) ∧
      ∀ w, UseMap.Marked m' w ↔ m.Marked w := by
  rw [findSegment]
  cases hfind : RangeMap.find? m (accessRange address size) with
  | none =>
    obtain ⟨m', hinsert, hwf, ⟨e, he, hrange⟩, hmarked⟩ := h.insertUnique_spec address
    refine ⟨m', _, hinsert, hwf, ⟨e, he, hrange, ?_⟩, hmarked⟩
    exact (hwf.segment e he).contains_iff.mpr (by rw [hrange])
  | some found =>
    obtain ⟨hfound, hoverlap⟩ := RangeMap.mem_of_find?_eq_some h.sorted hfind
    refine ⟨m, found.1, rfl, h, ⟨found, hfound, rfl, ?_⟩, fun _ => Iff.rfl⟩
    rcases hgood with ⟨e, he, hlo, hhi⟩ | hnone
    · -- The search finds the first segment that the access reaches.
      rcases le_or_gt e.1.lo (accessRange address size).hi with hreach | hwrap
      · rw [RangeMap.find?_eq_some_of_mem h.sorted he hlo hhi hreach] at hfind
        cases hfind
        exact ⟨hlo, hhi⟩
      · exact ⟨(hoverlap.1.trans hwrap.le).trans hlo, hoverlap.2⟩
    · exact absurd hoverlap (hnone found hfound)

theorem UseMap.Wf.findSegment_behind (h : m.Wf) {size : Nat} (hpos : 1 ≤ size) (hle : size ≤ 4)
    (hbad : ¬((∃ e ∈ m, e.1.lo ≤ address ∧ address ≤ e.1.hi) ∨
      ∀ e ∈ m, ¬e.1.Overlaps (accessRange address size))) :
    ∃ e ∈ m, findSegment m address size = (m, e.1) ∧ address.toNat < e.1.lo.toNat ∧
      e.1.lo.toNat ≤ address.toNat + 3 := by
  obtain ⟨hnone, hsome⟩ := not_or.mp hbad
  rw [findSegment]
  cases hfind : RangeMap.find? m (accessRange address size) with
  | none => exact absurd ((RangeMap.find?_eq_none_iff h.sorted _).mp hfind) hsome
  | some found =>
    obtain ⟨hfound, hlo, hhi⟩ := RangeMap.mem_of_find?_eq_some h.sorted hfind
    refine ⟨found, hfound, rfl, ?_, ?_⟩
    · by_contra hnot
      exact hnone ⟨found, hfound, BitVec.le_def.mpr (Nat.le_of_not_lt hnot), hhi⟩
    · have hend := accessRange_hi address hpos
      have := (h.segment found hfound).hi_eq
      rw [BitVec.le_def, hend] at hlo
      have hlt := address.isLt
      omega

namespace MemoryUseTracker

variable {t : MemoryUseTracker} {size : Nat}

/-! ### An access -/

/-- The segments are in order, and the last one that was used is one of them. -/
structure Wf (t : MemoryUseTracker) : Prop where
  map : t.memoryUseMap.Wf
  last_none : t.lastUsed = none → t.lastStart = 0 ∧ t.lastEnd = 0
  last_some : ∀ start, t.lastUsed = some start → start = t.lastStart ∧
    ∃ e ∈ t.memoryUseMap, e.1 = ⟨t.lastStart, t.lastEnd⟩

theorem wf_init : Wf {} :=
  ⟨⟨RangeMap.sorted_nil, fun e he => absurd he List.not_mem_nil⟩, fun _ => ⟨rfl, rfl⟩,
    fun start h => by cases h⟩

/-- A word is marked in one of the segments. -/
def Marked (t : MemoryUseTracker) (w : Nat) : Prop := t.memoryUseMap.Marked w

/-- The array in which the bit is set is that of the segment of the address.  The last segment is
    used if the access starts behind its start and ends before its end, which is not enough if
    there was none or if the end of the access wraps; else the access must be in a segment that is
    there, or reach none. -/
def FindsSegment (t : MemoryUseTracker) (address : Addr) (size : Nat) : Prop :=
  if t.lastStart ≤ address ∧ (accessRange address (min size 4)).hi ≤ t.lastEnd then
    t.lastUsed ≠ none ∧ address ≤ t.lastEnd
  else
    (∃ e ∈ t.memoryUseMap, e.1.lo ≤ address ∧ address ≤ e.1.hi) ∨
      ∀ e ∈ t.memoryUseMap, ¬e.1.Overlaps (accessRange address (min size 4))

/-- The access has a byte in a word. -/
def Touches (address : Addr) (size w : Nat) : Prop :=
  ∃ i < size, (address + BitVec.ofNat 64 i).toNat / 4 = w

/-- The words that are marked are those that were, and those of the access. -/
def MarksExactly (t : MemoryUseTracker) (address : Addr) (size : Nat) : Prop :=
  ∃ t', t.markUsed address size = some t' ∧
    ∀ w, t'.Marked w ↔ t.Marked w ∨ Touches address size w

theorem mask_eq (size : Nat) : (if min size 4 > 4 then 3 else 1 : BitVec 8) = 1 :=
  if_neg (by omega)

/-- **One word.** If the array is that of the address, the first word of the access is marked. -/
theorem Wf.markUsed_eq (h : t.Wf) (hle : size ≤ 8) (hfinds : t.FindsSegment address size) :
    ∃ t', t.markUsed address size = some t' ∧ t'.Wf ∧
      ∀ w, t'.Marked w ↔ w = address.toNat / 4 ∨ t.Marked w := by
  rw [markUsed, if_neg (by omega)]
  simp only [mask_eq]
  rw [FindsSegment] at hfinds
  split at hfinds
  · rename_i hlast
    obtain ⟨hused, hend⟩ := hfinds
    obtain ⟨start, hstart⟩ := Option.ne_none_iff_exists'.mp hused
    obtain ⟨rfl, e, he, hrange⟩ := h.last_some start hstart
    have hlo : e.1.lo = t.lastStart := by rw [hrange]
    have hhi : e.1.hi = t.lastEnd := by rw [hrange]
    obtain ⟨m', hmark, hwf, hkeep, hmarked⟩ :=
      h.map.markSegment_spec he address (by rw [hlo]; exact hlast.1) (by rw [hhi]; exact hend)
    rw [hlo] at hmark
    refine ⟨{ t with memoryUseMap := m' }, ?_,
      ⟨hwf, h.last_none, fun start' hstart' => ?_⟩, hmarked⟩
    · rw [if_pos hlast, hstart]
      simp only [Option.bind_eq_bind, Option.bind_some, hmark]
    · exact ⟨(h.last_some start' hstart').1, hkeep _ ⟨e, he, hrange⟩⟩
  · rename_i hlast
    obtain ⟨m, range, hfind, hwf, ⟨e, he, rfl, hlo, hhi⟩, hsame⟩ := h.map.findSegment_spec hfinds
    obtain ⟨m', hmark, hwf', hkeep, hmarked⟩ := hwf.markSegment_spec he address hlo hhi
    refine ⟨⟨e.1.lo, e.1.hi, some e.1.lo, m'⟩, ?_, ⟨hwf', fun hnone => ?_, fun start hstart => ?_⟩,
      fun w => (hmarked w).trans (or_congr_right (hsame w))⟩
    · rw [if_neg hlast, hfind]
      simp only [Option.bind_eq_bind, hmark, Option.bind_some]
    · cases hnone
    · exact ⟨(Option.some.inj hstart).symm, hkeep _ ⟨e, he, rfl⟩⟩

/-- Else, the source writes through a null pointer or outside an array. -/
theorem Wf.markUsed_eq_none (h : t.Wf) (hpos : 1 ≤ size) (hle : size ≤ 8)
    (hfinds : ¬t.FindsSegment address size) : t.markUsed address size = none := by
  rw [markUsed, if_neg (by omega)]
  simp only [mask_eq]
  rw [FindsSegment] at hfinds
  split at hfinds
  · rename_i hlast
    rw [if_pos hlast]
    cases hused : t.lastUsed with
    | none => rfl
    | some start =>
      obtain ⟨rfl, e, he, hrange⟩ := h.last_some start hused
      have hlo : e.1.lo = t.lastStart := by rw [hrange]
      have hhi : e.1.hi = t.lastEnd := by rw [hrange]
      have hsegment := h.map.segment e he
      -- The access ends before the end of the segment because it wraps.
      have hbehind : t.lastEnd.toNat < address.toNat := by
        by_contra hle'
        exact hfinds ⟨by rw [hused]; exact Option.some_ne_none _,
          BitVec.le_def.mpr (Nat.le_of_not_lt hle')⟩
      have hoffset : 131072 ≤ (address - e.1.lo).toNat := by
        have hend := hsegment.hi_eq
        rw [BitVec.toNat_sub_of_le (by rw [hlo]; exact hlast.1)]
        rw [hhi] at hend
        omega
      have hmark := markSegment_eq_none he
        (markUsedBits_of_le hsegment.length_eq hoffset 1)
      rw [hlo] at hmark
      simp only [Option.bind_eq_bind, Option.bind_some, hmark, Option.bind_none]
  · rename_i hlast
    obtain ⟨e, he, hfind, hlt, hnear⟩ :=
      h.map.findSegment_behind (by omega) (by omega) hfinds
    have hoffset : 131072 ≤ (address - e.1.lo).toNat := by
      have := e.1.lo.isLt
      rw [BitVec.toNat_sub]
      omega
    rw [if_neg hlast, hfind]
    simp only [Option.bind_eq_bind, Option.bind_none,
      markSegment_eq_none he (markUsedBits_of_le (h.map.segment e he).length_eq hoffset 1)]

end MemoryUseTracker

open MemoryUseTracker

/-- **Exactly the words of an access** are marked if and only if the array is that of the address
    and all of its words but the first one have marks. -/
theorem marksExactly_iff (t : MemoryUseTracker) (h : t.Wf) (address : Addr) (size : Nat)
    (hpos : 1 ≤ size) (hle : size ≤ 8) :
    t.MarksExactly address size ↔ t.FindsSegment address size ∧
      ∀ w, Touches address size w → w ≠ address.toNat / 4 → t.Marked w := by
  have hfirst : Touches address size (address.toNat / 4) :=
    ⟨0, hpos, by rw [BitVec.add_zero]⟩
  constructor
  · rintro ⟨t', hrun, hmarked⟩
    have hfinds : t.FindsSegment address size := by
      by_contra hnot
      rw [h.markUsed_eq_none hpos hle hnot] at hrun
      cases hrun
    refine ⟨hfinds, fun w hw hne => ?_⟩
    obtain ⟨t'', hrun', -, hone⟩ := h.markUsed_eq hle hfinds
    obtain rfl := Option.some.inj (hrun.symm.trans hrun')
    exact ((hone w).mp ((hmarked w).mpr (.inr hw))).resolve_left hne
  · rintro ⟨hfinds, hrest⟩
    obtain ⟨t', hrun, -, hone⟩ := h.markUsed_eq hle hfinds
    refine ⟨t', hrun, fun w => (hone w).trans ⟨?_, ?_⟩⟩
    · rintro (rfl | hold)
      · exact .inr hfirst
      · exact .inl hold
    · rintro (hold | hw)
      · exact .inr hold
      · exact or_iff_not_imp_left.mpr (hrest w hw)

theorem marksExactly_iff_fresh :
    MarksExactly {} 4096 4 ↔ FindsSegment {} 4096 4 ∧
      ∀ w, Touches 4096 4 w → w ≠ (4096 : Addr).toNat / 4 → Marked {} w :=
  marksExactly_iff {} wf_init 4096 4 (by decide) (by decide)

/-- The second word of a double word is not marked. -/
theorem not_marksExactly_doubleWord : ¬MarksExactly {} 4096 8 := by
  rintro ⟨t', hrun, hmarked⟩
  have hfinds : FindsSegment {} 4096 8 := by
    rw [FindsSegment, if_neg (by decide)]
    exact .inr fun e he => absurd he List.not_mem_nil
  obtain ⟨t'', hrun', -, hone⟩ := wf_init.markUsed_eq (by decide) hfinds
  obtain rfl := Option.some.inj (hrun.symm.trans hrun')
  have hsecond : t'.Marked 1025 := (hmarked 1025).mpr (.inr ⟨4, by decide, by decide⟩)
  rcases (hone 1025).mp hsecond with heq | ⟨e, he, -⟩
  · exact absurd heq (by decide)
  · exact absurd he List.not_mem_nil

end MpactSim.Memory
