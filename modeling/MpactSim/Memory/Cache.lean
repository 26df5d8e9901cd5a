import MpactSim.Lib.Monad
import MpactSim.Lib.Words
import MpactSim.Memory.CacheConfig

namespace MpactSim.Memory

open Lib

/-!
# Cache accesses

`lookupBlock` looks one block up and replaces a line on a miss; `cacheLookup` does so for
each block of an access, and a vector access for each of its elements.  A step has no
result where the source accesses a line, or a mask, out of bounds.

* `WellPlaced` — the valid lines hold different blocks, each in the set of its block;
* `lookupBlock_spec` — a lookup stays in bounds, keeps this, and counts the block once;
* `Counted` — each block that the elements of an access touch is counted once;
* `run_counted` — all of this over runs whose vector accesses have an address for each
  unmasked element and whose elements do not wrap around the end of memory.
-/

/-! ### The source -/

/-- What the cache counts a block as. -/
inductive LookupOutcome where
  | hit | miss | nonCacheable
  deriving DecidableEq, Repr

/-- The counter of an outcome, for reads or for writes. -/
def Counters.count (k : Counters) (isRead : Bool) : LookupOutcome → Nat
  | .hit => if isRead then k.readHit else k.writeHit
  | .miss => if isRead then k.readMiss else k.writeMiss
  | .nonCacheable => if isRead then k.readNonCacheable else k.writeNonCacheable

/-- Increment the counter of an outcome. -/
def Counters.increment (k : Counters) (isRead : Bool) : LookupOutcome → Counters
  | .hit =>
    if isRead then { k with readHit := k.readHit + 1 } else { k with writeHit := k.writeHit + 1 }
  | .miss =>
    if isRead then { k with readMiss := k.readMiss + 1 }
    else { k with writeMiss := k.writeMiss + 1 }
  | .nonCacheable =>
    if isRead then { k with readNonCacheable := k.readNonCacheable + 1 }
    else { k with writeNonCacheable := k.writeNonCacheable + 1 }

/-- Increment the counter of accesses that go around the cache. -/
def Counters.around (k : Counters) (isRead : Bool) : Counters :=
  if isRead then { k with readAround := k.readAround + 1 }
  else { k with writeAround := k.writeAround + 1 }

namespace Cache

/-- The index of the first line of a block's set. -/
def index (c : Cache) (block : Nat) : Nat := (block &&& c.indexMask) <<< c.setShift

/-- `for (int set = 0; set < num_sets_; set++)` over the lines of a set, from `set` on with
    `n` to go.  A loop that reaches the end of `int` has no result. -/
def scan {β : Type} (lines : List CacheLine) (index : Nat)
    (body : Nat → CacheLine → β → ForInStep β) : Nat → Nat → β → Option β
  | 0, _, b => some b
  | n + 1, set, b =>
    match lines[index + set]? with
    | none => none
    | some line =>
      match body set line b with
      | .done b' => some b'
      | .yield b' => if set + 1 = 2 ^ 31 then none else scan lines index body n (set + 1) b'

/-- The line of its set that holds a block. -/
def findHit (c : Cache) (block : Nat) : Option (Option Nat) :=
  scan c.cacheLines (c.index block)
    (fun set line hit => if line.valid && line.tag = block then .done (some set) else .yield hit)
    c.numSets 0 none

/-- The line that `ReplaceBlock` replaces (`-1` if there is none) and its time stamp.  The
    index of the line is converted to `int`. -/
def findVictim (c : Cache) (block : Nat) : Option (Int × BitVec 64) :=
  scan c.cacheLines (c.index block)
    (fun set line (victim, victimLru) =>
      let here := (BitVec.ofNat 32 (c.index block + set)).toInt
      if line.valid = false then .done (here, victimLru)
      else if line.pinned then .yield (victim, victimLru)
      else if line.lru < victimLru then .yield (here, line.lru)
      else .yield (victim, victimLru))
    c.numSets 0 (-1, BitVec.allOnes 64)

/-- `ReplaceBlock`.  `now` is the value of the cycle counter. -/
def replaceBlock (c : Cache) (now : BitVec 64) (block : Nat) (isRead : Bool) : Option Cache :=
  match c.findVictim block with
  | none => none
  | some (victim, _) =>
    if victim = -1 then some { c with counters := c.counters.around isRead }
    else if victim < 0 then none
    else
      match c.cacheLines[victim.toNat]? with
      | none => none
      | some line => some { c with
          counters :=
            if line.valid && line.dirty then
              { c.counters with dirtyLineWriteback := c.counters.dirtyLineWriteback + 1 }
            else c.counters
          cacheLines := c.cacheLines.set victim.toNat
            { valid := true, tag := block, pinned := false, dirty := false, lru := now } }

/-- Increment the counter of an outcome. -/
def counted (c : Cache) (isRead : Bool) (outcome : LookupOutcome) : Cache :=
  { c with counters := c.counters.increment isRead outcome }

-- `absl::btree_multiset::contains`, for ranges that are equal if they overlap.
variable (contains : List AddressRange → AddressRange → Bool)

/-- An access that is not to be cached. -/
def dontFetch (c : Cache) (range : AddressRange) : Bool :=
  (c.hasCacheable && !contains c.cacheableRanges range) ||
    (c.hasNonCacheable && contains c.nonCacheableRanges range)

/-- The body of the loop of `CacheLookup`. -/
def lookupBlock (c : Cache) (now : BitVec 64) (range : AddressRange) (isRead : Bool)
    (block : Nat) : Option Cache :=
  if dontFetch contains c range then some (c.counted isRead .nonCacheable)
  else
    match c.findHit block with
    | none => none
    | some (some set) =>
      match c.cacheLines[c.index block + set]? with
      | none => none
      | some line => some (({ c with
          cacheLines := c.cacheLines.set (c.index block + set)
            { line with lru := now, dirty := line.dirty || !isRead } }).counted isRead .hit)
    | some none =>
      if isRead then (c.replaceBlock now block true).map (·.counted true .miss)
      else if c.writeAllocate then (c.counted false .miss).replaceBlock now block false
      else
        some { c.counted false .miss with
          counters := (c.counted false .miss).counters.around false }

/-- The blocks that `CacheLookup` looks up. -/
def blocks (c : Cache) (address : Addr) (size : Int) : List Nat :=
  let firstBlock := address.toNat >>> c.blockShift
  let lastBlock := (address + BitVec.ofInt 64 size - 1).toNat >>> c.blockShift
  List.range' firstBlock (lastBlock + 1 - firstBlock)

/-- `CacheLookup` -/
def cacheLookup (c : Cache) (now : BitVec 64) (address : Addr) (size : Int) (isRead : Bool) :
    Option Cache :=
  (c.blocks address size).foldlM
    (fun c block =>
      lookupBlock contains c now ⟨address, address + BitVec.ofInt 64 size - 1⟩ isRead block) c

/-- The lookups of `Load`. -/
def load (c : Cache) (now : BitVec 64) (address : Addr) (size : Nat) : Option Cache :=
  cacheLookup contains c now address size true

/-- The lookups of `Store`. -/
def store (c : Cache) (now : BitVec 64) (address : Addr) (size : Nat) : Option Cache :=
  cacheLookup contains c now address size false

/-- The lookups of a vector access, one for each address that is not masked. -/
def lookupElements (c : Cache) (now : BitVec 64) (addresses : List Addr) (mask : List Bool)
    (elSize : Nat) (isRead : Bool) : Option Cache :=
  (List.range addresses.length).foldlM
    (fun c i =>
      match mask[i]? with
      | none => none
      | some true => cacheLookup contains c now (addresses.getD i 0) elSize isRead
      | some false => some c) c

/-- The lookups of a vector `Load`. -/
def loadVector (c : Cache) (now : BitVec 64) (addresses : List Addr) (mask : List Bool)
    (elSize : Nat) : Option Cache :=
  lookupElements contains c now addresses mask elSize true

/-- The lookups of a vector `Store`. -/
def storeVector (c : Cache) (now : BitVec 64) (addresses : List Addr) (mask : List Bool)
    (elSize : Nat) : Option Cache :=
  lookupElements contains c now addresses mask elSize false

/-- The lookups of a tagged `Load`.  If only tags are loaded, the size is that of their
    granules from the address on. -/
def loadTagged (c : Cache) (now : BitVec 64) (address : Addr) (db : Option Nat) (numTags : Nat) :
    Option Cache :=
  let size : Int :=
    match db with
    | some size => size
    | none =>
      (((address &&& ~~~7#64) + BitVec.ofNat 64 (numTags <<< 3) - address).setWidth 32).toInt
  cacheLookup contains c now address size true

/-- The lookups of a tagged `Store`. -/
def storeTagged (c : Cache) (now : BitVec 64) (address : Addr) (size : Nat) : Option Cache :=
  cacheLookup contains c now address size false

end Cache

/-- A call of the memory interface.  Of the data and tags only their sizes matter. -/
inductive CacheAccess where
  | load (address : Addr) (size : Nat)
  | loadVector (addresses : List Addr) (mask : List Bool) (elSize : Nat)
  | loadTagged (address : Addr) (db : Option Nat) (numTags : Nat)
  | store (address : Addr) (size : Nat)
  | storeVector (addresses : List Addr) (mask : List Bool) (elSize : Nat)
  | storeTagged (address : Addr) (size : Nat)

variable (contains : List AddressRange → AddressRange → Bool)

/-- An access, made when the cycle counter has a given value. -/
def Cache.access (c : Cache) : BitVec 64 × CacheAccess → Option Cache
  | (now, .load address size) => c.load contains now address size
  | (now, .loadVector addresses mask elSize) => c.loadVector contains now addresses mask elSize
  | (now, .loadTagged address db numTags) => c.loadTagged contains now address db numTags
  | (now, .store address size) => c.store contains now address size
  | (now, .storeVector addresses mask elSize) => c.storeVector contains now addresses mask elSize
  | (now, .storeTagged address size) => c.storeTagged contains now address size

/-- A sequence of accesses. -/
def Cache.accesses (c : Cache) (accesses : List (BitVec 64 × CacheAccess)) : Option Cache :=
  accesses.foldlM (Cache.access contains) c

/-! ### What the accesses should keep -/

/-- No two valid lines hold the same block, and each is in the set of its block. -/
structure Cache.WellPlaced (c : Cache) : Prop where
  unique : ∀ (i j : Nat) (line line' : CacheLine), c.cacheLines[i]? = some line →
    c.cacheLines[j]? = some line' → line.valid = true → line'.valid = true →
      line.tag = line'.tag → i = j
  inSet : ∀ (i : Nat) (line : CacheLine), c.cacheLines[i]? = some line → line.valid = true →
    c.index line.tag ≤ i ∧ i < c.index line.tag + c.numSets

/-- Whether an access is a read. -/
def CacheAccess.isRead : CacheAccess → Bool
  | .load .. | .loadVector .. | .loadTagged .. => true
  | .store .. | .storeVector .. | .storeTagged .. => false

/-- The address and the size of each element that an access reads or writes. -/
def CacheAccess.elements : CacheAccess → List (Addr × Nat)
  | .load address size | .store address size | .storeTagged address size => [(address, size)]
  | .loadVector addresses mask elSize | .storeVector addresses mask elSize =>
    ((List.range mask.length).filter fun i => mask.getD i false).map fun i =>
      (elementAddress addresses elSize i, elSize)
  | .loadTagged address (some size) _ => [(address, size)]
  | .loadTagged address none numTags => [(address, 8 * numTags - address.toNat % 8)]

/-- The blocks that hold the bytes of an element. -/
def Cache.touched (c : Cache) (element : Addr × Nat) : Finset Nat :=
  (Finset.range element.2).image fun k =>
    (element.1 + BitVec.ofNat 64 k).toNat / 2 ^ c.blockShift

/-- `before` and `after` differ by `outcomes` in the counters of a kind, and by nothing in
    those of the other kind. -/
def Counters.Differ (before after : Counters) (isRead : Bool) (outcomes : List LookupOutcome) :
    Prop :=
  ∀ o, after.count isRead o = before.count isRead o + outcomes.count o ∧
    after.count (!isRead) o = before.count (!isRead) o

/-- Every block that an element of the access touches increments exactly one of the hit,
    miss and non-cacheable counters of its kind. -/
def Cache.Counted (before after : Cache) (access : CacheAccess) : Prop :=
  ∃ outcomes : List LookupOutcome,
    outcomes.length = (access.elements.map fun e => (before.touched e).card).sum ∧
    before.counters.Differ after.counters access.isRead outcomes

/-! ### When they do -/

/-- The element does not wrap around the end of memory, and one without bytes does not make
    the cache look up the block it starts in. -/
def Cache.ElementOk (c : Cache) (element : Addr × Nat) : Prop :=
  element.1.toNat + element.2 ≤ 2 ^ 64 ∧
    (element.2 = 0 → element.1 ≠ 0 ∧ 2 ^ c.blockShift ∣ element.1.toNat)

/-- An access whose every element has an address of its own and is looked up as it is. -/
def Cache.AccessOk (c : Cache) (access : CacheAccess) : Prop :=
  (∀ e ∈ access.elements, c.ElementOk e) ∧
    match access with
    | .loadVector addresses mask _ | .storeVector addresses mask _ =>
      addresses.length ≤ mask.length ∧
        ∀ i, mask.getD i false = true → i < addresses.length
    | .loadTagged _ none numTags => 0 < numTags ∧ 8 * numTags < 2 ^ 31
    | .load .. | .store .. | .storeTagged .. | .loadTagged _ (some _) _ => True

/-! ### Scanning a set -/

namespace Cache

/-- **Loop rule.** Where the lines exist and `int` is large enough, a scan has a result, and
    what its body keeps from line to line, up to a break, holds of it. -/
theorem scan_exists {β : Type} {lines : List CacheLine} {index : Nat}
    {body : Nat → CacheLine → β → ForInStep β} (P : Nat → β → Prop) (Q : β → Prop) {total : Nat}
    (hlines : index + total ≤ lines.length) (htotal : total < 2 ^ 31)
    (hbody : ∀ set line b, set < total → lines[index + set]? = some line → P set b →
      (∃ b', body set line b = .done b' ∧ Q b') ∨
        ∃ b', body set line b = .yield b' ∧ P (set + 1) b')
    (hend : ∀ b, P total b → Q b) {n set : Nat} (hn : set + n = total) {b : β} (hb : P set b) :
    ∃ b', scan lines index body n set b = some b' ∧ Q b' := by
  induction n generalizing set b with
  | zero =>
    obtain rfl : set = total := by omega
    exact ⟨b, rfl, hend b hb⟩
  | succ n ih =>
    have hlt : index + set < lines.length := by omega
    have hline : lines[index + set]? = some lines[index + set] := List.getElem?_eq_getElem hlt
    unfold scan
    rcases hbody set _ b (by omega) hline hb with ⟨b', hdone, hQ⟩ | ⟨b', hyield, hP⟩
    · simp only [hline, hdone]
      exact ⟨b', rfl, hQ⟩
    · have hint : set + 1 ≠ 2 ^ 31 := by omega
      simp only [hline, hyield, if_neg hint]
      exact ih (by omega) hP

/-- The shape of the cache and the bounds that `int` line indices put on it, with lines where
    they should be. -/
structure Ready (c : Cache) : Prop where
  geometry : c.Geometry
  lines_le : c.cacheLines.length ≤ 2 ^ 31
  numSets_lt : c.numSets < 2 ^ 31
  placed : c.WellPlaced

/-- Two states of one cache. -/
structure SameShape (c c' : Cache) : Prop where
  blockShift_eq : c'.blockShift = c.blockShift
  setShift_eq : c'.setShift = c.setShift
  indexMask_eq : c'.indexMask = c.indexMask
  numSets_eq : c'.numSets = c.numSets
  length_eq : c'.cacheLines.length = c.cacheLines.length

variable {c c' c'' : Cache}

theorem SameShape.refl (c : Cache) : SameShape c c := ⟨rfl, rfl, rfl, rfl, rfl⟩

theorem SameShape.trans (h : SameShape c c') (h' : SameShape c' c'') : SameShape c c'' :=
  ⟨h'.blockShift_eq.trans h.blockShift_eq, h'.setShift_eq.trans h.setShift_eq,
    h'.indexMask_eq.trans h.indexMask_eq, h'.numSets_eq.trans h.numSets_eq,
    h'.length_eq.trans h.length_eq⟩

theorem SameShape.index_eq (h : SameShape c c') (block : Nat) : c'.index block = c.index block := by
  unfold index
  rw [h.indexMask_eq, h.setShift_eq]

theorem SameShape.geometry (h : SameShape c c') (hc : c.Geometry) : c'.Geometry :=
  ⟨by rw [h.numSets_eq, h.setShift_eq, hc.numSets_eq],
    by rw [h.length_eq, h.indexMask_eq, h.numSets_eq, hc.lines_eq]⟩

theorem Geometry.index_add_le (h : c.Geometry) (block : Nat) :
    c.index block + c.numSets ≤ c.cacheLines.length := by
  have hmask : block &&& c.indexMask ≤ c.indexMask := Nat.and_le_right
  have hindex : c.index block = (block &&& c.indexMask) * c.numSets := by
    unfold index
    rw [Nat.shiftLeft_eq, h.numSets_eq]
  calc c.index block + c.numSets
      = (block &&& c.indexMask) * c.numSets + c.numSets := by rw [hindex]
    _ = ((block &&& c.indexMask) + 1) * c.numSets := (Nat.succ_mul _ _).symm
    _ ≤ (c.indexMask + 1) * c.numSets := Nat.mul_le_mul_right _ (by omega)
    _ = c.cacheLines.length := h.lines_eq.symm

theorem findHit_spec (hc : c.Ready) (block : Nat) :
    ∃ found, c.findHit block = some found ∧
      match found with
      | some set => set < c.numSets ∧ ∃ line, c.cacheLines[c.index block + set]? = some line ∧
          line.valid = true ∧ line.tag = block
      | none => ∀ set < c.numSets, ∀ line, c.cacheLines[c.index block + set]? = some line →
          line.valid = true → line.tag ≠ block := by
  refine scan_exists
    (fun set found => found = none ∧ ∀ s < set, ∀ line,
      c.cacheLines[c.index block + s]? = some line → line.valid = true → line.tag ≠ block)
    _ (hc.geometry.index_add_le block) hc.numSets_lt ?_ ?_ (Nat.zero_add _) ⟨rfl, by simp⟩
  · rintro set line found hset hline ⟨rfl, hbefore⟩
    by_cases hhit : line.valid = true ∧ line.tag = block
    · exact .inl ⟨some set, by simp [hhit], hset, line, hline, hhit⟩
    · refine .inr ⟨none, by simpa using hhit, rfl, ?_⟩
      intro s hs other hother hvalid htag
      rcases Nat.lt_succ_iff_lt_or_eq.mp hs with hlt | rfl
      · exact hbefore s hlt other hother hvalid htag
      · obtain rfl : line = other := Option.some.inj (hline.symm.trans hother)
        exact hhit ⟨hvalid, htag⟩
  · rintro found ⟨rfl, hnone⟩
    exact hnone

/-- The line that is replaced, if there is one, is a line of the block's set. -/
theorem findVictim_spec (hc : c.Ready) (block : Nat) :
    ∃ found, c.findVictim block = some found ∧
      (found.1 = -1 ∨ ∃ set < c.numSets, found.1 = (c.index block + set : Nat)) := by
  have hbound := hc.geometry.index_add_le block
  have hlines := hc.lines_le
  have hint : ∀ set < c.numSets, (BitVec.ofNat 32 (c.index block + set)).toInt =
      (c.index block + set : Nat) := by
    intro set hset
    rw [BitVec.toInt_eq_toNat_of_lt]
    · rw [BitVec.toNat_ofNat, Nat.mod_eq_of_lt (by omega)]
    · rw [BitVec.toNat_ofNat, Nat.mod_eq_of_lt (by omega)]
      omega
  refine scan_exists
    (fun _ (found : Int × BitVec 64) => found.1 = -1 ∨
      ∃ set < c.numSets, found.1 = (c.index block + set : Nat))
    _ hbound hc.numSets_lt ?_ (fun _ => id) (Nat.zero_add _) (.inl rfl)
  rintro set line ⟨victim, victimLru⟩ hset hline hfound
  by_cases hvalid : line.valid = false
  · exact .inl ⟨_, if_pos hvalid, .inr ⟨set, hset, hint set hset⟩⟩
  · refine .inr ?_
    by_cases hpinned : line.pinned = true
    · exact ⟨(victim, victimLru), (if_neg hvalid).trans (if_pos hpinned), hfound⟩
    · by_cases hlru : line.lru < victimLru
      · exact ⟨(_, line.lru), (if_neg hvalid).trans ((if_neg hpinned).trans (if_pos hlru)),
          .inr ⟨set, hset, hint set hset⟩⟩
      · exact ⟨(victim, victimLru),
          (if_neg hvalid).trans ((if_neg hpinned).trans (if_neg hlru)), hfound⟩

/-! ### Replacing a line -/

theorem Ready.of_lines (hc : c.Ready) (hs : SameShape c c')
    (hlines : c'.cacheLines = c.cacheLines) : c'.Ready where
  geometry := hs.geometry hc.geometry
  lines_le := by
    rw [hs.length_eq]
    exact hc.lines_le
  numSets_lt := by
    rw [hs.numSets_eq]
    exact hc.numSets_lt
  placed := by
    refine ⟨?_, ?_⟩
    · rw [hlines]
      exact hc.placed.unique
    · intro i line hline hvalid
      rw [hlines] at hline
      rw [hs.index_eq, hs.numSets_eq]
      exact hc.placed.inSet i line hline hvalid

/-- A line of a set takes a block of this set that no other line holds. -/
theorem Ready.of_set (hc : c.Ready) (hs : SameShape c c') {i : Nat} {line : CacheLine}
    (hset : c'.cacheLines = c.cacheLines.set i line)
    (hin : c.index line.tag ≤ i ∧ i < c.index line.tag + c.numSets)
    (hother : ∀ (j : Nat) (other : CacheLine), c.cacheLines[j]? = some other →
      other.valid = true → other.tag = line.tag → j = i) : c'.Ready where
  geometry := hs.geometry hc.geometry
  lines_le := by
    rw [hs.length_eq]
    exact hc.lines_le
  numSets_lt := by
    rw [hs.numSets_eq]
    exact hc.numSets_lt
  placed := by
    -- A line of the new cache is the one that was set, or a line of the old cache.
    have hold : ∀ (j : Nat) (other : CacheLine), c'.cacheLines[j]? = some other →
        (j = i ∧ other = line) ∨ (j ≠ i ∧ c.cacheLines[j]? = some other) := by
      intro j other hget
      rw [hset, List.getElem?_set] at hget
      split at hget
      · next heq =>
        split at hget
        · exact .inl ⟨heq.symm, (Option.some.inj hget).symm⟩
        · cases hget
      · next hne => exact .inr ⟨fun h => hne h.symm, hget⟩
    refine ⟨?_, ?_⟩
    · intro j k other other' hj hk hvalid hvalid' htag
      rcases hold j other hj with ⟨rfl, rfl⟩ | ⟨hji, hj⟩
      · rcases hold k other' hk with ⟨rfl, -⟩ | ⟨-, hk⟩
        · rfl
        · exact (hother k other' hk hvalid' htag.symm).symm
      · rcases hold k other' hk with ⟨rfl, rfl⟩ | ⟨-, hk⟩
        · exact hother j other hj hvalid htag
        · exact hc.placed.unique j k other other' hj hk hvalid hvalid' htag
    · intro j other hj hvalid
      rw [hs.index_eq, hs.numSets_eq]
      rcases hold j other hj with ⟨rfl, rfl⟩ | ⟨-, hj⟩
      · exact hin
      · exact hc.placed.inSet j other hj hvalid

theorem WellPlaced.tag_ne (hc : c.WellPlaced) {block : Nat}
    (hnone : ∀ set < c.numSets, ∀ line, c.cacheLines[c.index block + set]? = some line →
      line.valid = true → line.tag ≠ block) (i : Nat) (line : CacheLine)
    (hline : c.cacheLines[i]? = some line) (hvalid : line.valid = true) : line.tag ≠ block := by
  rintro rfl
  obtain ⟨hlo, hhi⟩ := hc.inSet i line hline hvalid
  refine hnone (i - c.index line.tag) (by omega) line ?_ hvalid rfl
  rwa [Nat.add_sub_cancel' hlo]

/-- The counters of hits, misses and non-cacheable accesses are the same. -/
def SameCounts (k k' : Counters) : Prop := ∀ kind o, k'.count kind o = k.count kind o

theorem sameCounts_around (k : Counters) (isRead : Bool) : SameCounts k (k.around isRead) := by
  intro kind o
  unfold Counters.around
  split <;> cases o <;> rfl

/-- `ReplaceBlock` puts a block that is in no line into a line of its set, or nowhere. -/
theorem replaceBlock_spec (hc : c.Ready) (now : BitVec 64) {block : Nat} (isRead : Bool)
    (hmiss : ∀ (i : Nat) (line : CacheLine), c.cacheLines[i]? = some line → line.valid = true →
      line.tag ≠ block) :
    ∃ c', c.replaceBlock now block isRead = some c' ∧ c'.Ready ∧ SameShape c c' ∧
      SameCounts c.counters c'.counters := by
  obtain ⟨⟨victim, victimLru⟩, hvictim, hfound⟩ := findVictim_spec hc block
  unfold replaceBlock
  rw [hvictim]
  rcases hfound with hnone | ⟨set, hset, hsome⟩
  · refine ⟨_, if_pos hnone, ?_, ⟨rfl, rfl, rfl, rfl, rfl⟩, sameCounts_around _ _⟩
    exact hc.of_lines ⟨rfl, rfl, rfl, rfl, rfl⟩ rfl
  · obtain rfl : victim = (c.index block + set : Nat) := hsome
    have hbound := hc.geometry.index_add_le block
    have hlt : c.index block + set < c.cacheLines.length := by omega
    have hline := List.getElem?_eq_getElem hlt
    have hnotNone : ¬ ((c.index block + set : Nat) : Int) = -1 := by omega
    have hnotNeg : ¬ ((c.index block + set : Nat) : Int) < 0 := by omega
    simp only [if_neg hnotNone, if_neg hnotNeg, Int.toNat_natCast, hline]
    have hshape : ∀ k : Counters, SameShape c { c with
        cacheLines := c.cacheLines.set (c.index block + set)
          { valid := true, tag := block, pinned := false, dirty := false, lru := now },
        counters := k } :=
      fun k => ⟨rfl, rfl, rfl, rfl, List.length_set⟩
    refine ⟨_, rfl, ?_, hshape _, ?_⟩
    · refine hc.of_set (hshape _) rfl ⟨Nat.le_add_right _ _, Nat.add_lt_add_left hset _⟩ ?_
      intro j other hj hvalid htag
      exact absurd htag (hmiss j other hj hvalid)
    · intro kind o
      dsimp only
      split <;> cases o <;> rfl

end Cache

/-! ### Looking a block up -/

namespace Counters

variable {k k' k'' : Counters} {isRead : Bool}

theorem Differ.trans {outcomes outcomes' : List LookupOutcome} (h : Differ k k' isRead outcomes)
    (h' : Differ k' k'' isRead outcomes') : Differ k k'' isRead (outcomes ++ outcomes') := by
  intro o
  rw [List.count_append, (h' o).1, (h' o).2, (h o).1, (h o).2, Nat.add_assoc]
  exact ⟨rfl, rfl⟩

theorem Differ.refl (k : Counters) (isRead : Bool) : Differ k k isRead [] := fun _ => ⟨rfl, rfl⟩

theorem Differ.sameCounts_right {outcomes : List LookupOutcome} (h : Differ k k' isRead outcomes)
    (hs : Cache.SameCounts k' k'') : Differ k k'' isRead outcomes := by
  intro o
  rw [hs, hs]
  exact h o

theorem differ_increment (k : Counters) (isRead : Bool) (o : LookupOutcome) :
    Differ k (k.increment isRead o) isRead [o] := by
  intro o'
  cases o <;> cases isRead <;> cases o' <;> exact ⟨rfl, rfl⟩

theorem differ_increment_of_sameCounts (hs : Cache.SameCounts k k') (isRead : Bool)
    (o : LookupOutcome) : Differ k (k'.increment isRead o) isRead [o] := by
  intro o'
  obtain ⟨hsame, hother⟩ := differ_increment k' isRead o o'
  rw [hsame, hother, hs, hs]
  exact ⟨rfl, rfl⟩

end Counters

namespace Cache

variable {c c' : Cache} (now : BitVec 64) (range : AddressRange)

/-- **Step lemma.** A lookup keeps to the lines of the cache and leaves each valid line in its
    place, and it increments one of the three counters. -/
theorem lookupBlock_spec (hc : c.Ready) (isRead : Bool) (block : Nat) :
    ∃ c', lookupBlock contains c now range isRead block = some c' ∧ c'.Ready ∧ SameShape c c' ∧
      ∃ o, c.counters.Differ c'.counters isRead [o] := by
  unfold lookupBlock
  split
  · exact ⟨_, rfl, hc.of_lines ⟨rfl, rfl, rfl, rfl, rfl⟩ rfl, ⟨rfl, rfl, rfl, rfl, rfl⟩,
      .nonCacheable, Counters.differ_increment _ _ _⟩
  obtain ⟨found, hfind, hfound⟩ := findHit_spec hc block
  rw [hfind]
  cases found with
  | some set =>
    -- A hit changes the time stamp and the dirty bit of the line only.
    obtain ⟨hset, line, hline, hvalid, htag⟩ := hfound
    simp only [hline]
    have hshape : SameShape c (({ c with
        cacheLines := c.cacheLines.set (c.index block + set)
          { line with lru := now, dirty := line.dirty || !isRead } }).counted isRead .hit) :=
      ⟨rfl, rfl, rfl, rfl, List.length_set⟩
    refine ⟨_, rfl, ?_, hshape, .hit, Counters.differ_increment _ _ _⟩
    refine hc.of_set hshape rfl ?_ ?_
    · exact hc.placed.inSet _ line hline hvalid
    · intro j other hj hvalid' htag'
      exact hc.placed.unique j _ other line hj hline hvalid' hvalid htag'
  | none =>
    have hmiss := hc.placed.tag_ne hfound
    cases isRead with
    | true =>
      obtain ⟨c', hreplace, hready, hshape, hcounts⟩ := replaceBlock_spec hc now true hmiss
      simp only [hreplace, if_true, Option.map_some]
      exact ⟨_, rfl, hready.of_lines ⟨rfl, rfl, rfl, rfl, rfl⟩ rfl,
        hshape.trans ⟨rfl, rfl, rfl, rfl, rfl⟩, .miss,
        Counters.differ_increment_of_sameCounts hcounts true .miss⟩
    | false =>
      have hcounted : (c.counted false .miss).Ready :=
        hc.of_lines ⟨rfl, rfl, rfl, rfl, rfl⟩ rfl
      have hsame : SameShape c (c.counted false .miss) := ⟨rfl, rfl, rfl, rfl, rfl⟩
      simp only [Bool.false_eq_true, if_false]
      split
      · obtain ⟨c', hreplace, hready, hshape, hcounts⟩ := replaceBlock_spec hcounted now false hmiss
        exact ⟨c', hreplace, hready, hsame.trans hshape, .miss,
          (Counters.differ_increment c.counters false .miss).sameCounts_right hcounts⟩
      · exact ⟨_, rfl, hc.of_lines ⟨rfl, rfl, rfl, rfl, rfl⟩ rfl, ⟨rfl, rfl, rfl, rfl, rfl⟩, .miss,
          (Counters.differ_increment c.counters false .miss).sameCounts_right
            (sameCounts_around _ _)⟩

/-- What a part of an access leaves: `n` blocks are counted. -/
structure Progress (isRead : Bool) (n : Nat) (c c' : Cache) : Prop where
  ready : c'.Ready
  shape : SameShape c c'
  counted : ∃ outcomes : List LookupOutcome, outcomes.length = n ∧
    c.counters.Differ c'.counters isRead outcomes

theorem Progress.refl (hc : c.Ready) (isRead : Bool) : Progress isRead 0 c c :=
  ⟨hc, .refl c, [], rfl, .refl _ _⟩

theorem Progress.trans {isRead : Bool} {n m : Nat} {c'' : Cache} (h : Progress isRead n c c')
    (h' : Progress isRead m c' c'') : Progress isRead (n + m) c c'' := by
  obtain ⟨outcomes, hlen, hdiffer⟩ := h.counted
  obtain ⟨outcomes', hlen', hdiffer'⟩ := h'.counted
  refine ⟨h'.ready, h.shape.trans h'.shape, outcomes ++ outcomes', ?_, hdiffer.trans hdiffer'⟩
  rw [List.length_append, hlen, hlen']

variable {address : Addr} {size : Nat}

/-- The blocks of the bytes of an element that does not wrap. -/
theorem touched_eq (c : Cache) (hpos : 0 < size) (hwrap : address.toNat + size ≤ 2 ^ 64) :
    c.touched (address, size) = Finset.Icc (address.toNat / 2 ^ c.blockShift)
      ((address.toNat + (size - 1)) / 2 ^ c.blockShift) := by
  have hbyte : ∀ k < size, (address + BitVec.ofNat 64 k).toNat = address.toNat + k := by
    intro k hk
    rw [BitVec.toNat_add, BitVec.toNat_ofNat, Nat.add_mod_mod, Nat.mod_eq_of_lt (by omega)]
  have hshift : 0 < 2 ^ c.blockShift := Nat.two_pow_pos _
  ext b
  unfold touched
  rw [Finset.mem_image, Finset.mem_Icc]
  constructor
  · rintro ⟨k, hk, rfl⟩
    have hk : k < size := Finset.mem_range.mp hk
    rw [hbyte k hk]
    exact ⟨Nat.div_le_div_right (by omega), Nat.div_le_div_right (by omega)⟩
  · rintro ⟨hlo, hhi⟩
    have hlast : b * 2 ^ c.blockShift ≤ address.toNat + (size - 1) :=
      (Nat.le_div_iff_mul_le hshift).mp hhi
    -- The first byte of the element in the block is its first byte or that of the block.
    by_cases hfirst : b * 2 ^ c.blockShift ≤ address.toNat
    · refine ⟨0, Finset.mem_range.mpr hpos, ?_⟩
      rw [hbyte 0 hpos, Nat.add_zero]
      exact Nat.le_antisymm hlo ((Nat.le_div_iff_mul_le hshift).mpr hfirst)
    · have hk : b * 2 ^ c.blockShift - address.toNat < size := by omega
      refine ⟨_, Finset.mem_range.mpr hk, ?_⟩
      rw [hbyte _ hk, Nat.add_sub_cancel' (by omega), Nat.mul_div_cancel _ hshift]

theorem length_blocks (c : Cache) (h : c.ElementOk (address, size)) :
    (c.blocks address size).length = (c.touched (address, size)).card := by
  obtain ⟨hwrap, hempty⟩ := h
  have hshift : 0 < 2 ^ c.blockShift := Nat.two_pow_pos _
  have hlast : (address + BitVec.ofInt 64 (size : Int) - 1).toNat =
      (address.toNat + (2 ^ 64 + size - 1)) % 2 ^ 64 := by
    rw [BitVec.ofInt_natCast, BitVec.toNat_sub, BitVec.toNat_add, BitVec.toNat_ofNat]
    simp
    omega
  unfold blocks
  rw [List.length_range', hlast, Nat.shiftRight_eq_div_pow, Nat.shiftRight_eq_div_pow]
  rcases Nat.eq_zero_or_pos size with rfl | hpos
  · -- Nothing is touched, and the last block is the one before the address.
    obtain ⟨hne, q, hq⟩ := hempty rfl
    have hne : address.toNat ≠ 0 := fun h => hne (BitVec.eq_of_toNat_eq h)
    have hmod : (address.toNat + (2 ^ 64 + 0 - 1)) % 2 ^ 64 = address.toNat - 1 := by omega
    have hbefore : (address.toNat - 1) / 2 ^ c.blockShift < address.toNat / 2 ^ c.blockShift := by
      have hq' : address.toNat = 2 ^ c.blockShift * q := hq
      rw [Nat.div_lt_iff_lt_mul hshift, hq', Nat.mul_div_cancel_left _ hshift, Nat.mul_comm q]
      omega
    rw [hmod]
    simp only [touched, Finset.range_zero, Finset.image_empty, Finset.card_empty]
    omega
  · have hmod : (address.toNat + (2 ^ 64 + size - 1)) % 2 ^ 64 = address.toNat + (size - 1) := by
      have hwrap : address.toNat + size ≤ 2 ^ 64 := hwrap
      omega
    rw [touched_eq c hpos hwrap, Nat.card_Icc, hmod]

/-! ### Whole accesses -/

theorem SameShape.elementOk (h : SameShape c c') {e : Addr × Nat} (he : c.ElementOk e) :
    c'.ElementOk e := by
  unfold ElementOk
  rw [h.blockShift_eq]
  exact he

theorem SameShape.touched_eq (h : SameShape c c') (e : Addr × Nat) :
    c'.touched e = c.touched e := by
  unfold touched
  rw [h.blockShift_eq]

theorem SameShape.accessOk (h : SameShape c c') {a : CacheAccess} (ha : c.AccessOk a) :
    c'.AccessOk a :=
  ⟨fun e he => h.elementOk (ha.1 e he), ha.2⟩

theorem cacheLookup_spec (hc : c.Ready) (he : c.ElementOk (address, size)) (isRead : Bool) :
    ∃ c', cacheLookup contains c now address size isRead = some c' ∧
      Progress isRead (c.touched (address, size)).card c c' := by
  rw [← length_blocks c he]
  refine foldlM_exists (fun done => Progress isRead done.length c) ?_ (.refl hc isRead)
  intro done block _ mid hmid
  obtain ⟨c', hlookup, hready, hshape, o, hdiffer⟩ :=
    lookupBlock_spec contains now ⟨address, address + BitVec.ofInt 64 (size : Int) - 1⟩
      hmid.ready isRead block
  refine ⟨c', hlookup, ?_⟩
  rw [List.length_append, List.length_singleton]
  exact hmid.trans ⟨hready, hshape, [o], rfl, hdiffer⟩

/-- The elements of a vector access whose unmasked elements have addresses. -/
theorem elements_filter {addresses : List Addr} {mask : List Bool}
    (hlen : addresses.length ≤ mask.length)
    (hmask : ∀ i, mask.getD i false = true → i < addresses.length) (elSize : Nat) :
    ((List.range mask.length).filter fun i => mask.getD i false).map
        (fun i => (elementAddress addresses elSize i, elSize)) =
      ((List.range addresses.length).filter fun i => mask.getD i false).map
        fun i => (addresses.getD i 0, elSize) := by
  have hfilter : ((List.range mask.length).filter fun i => mask.getD i false) =
      (List.range addresses.length).filter fun i => mask.getD i false := by
    obtain ⟨extra, hextra⟩ := Nat.exists_eq_add_of_le hlen
    rw [hextra, List.range_add, List.filter_append]
    have hnone : ((List.range extra).map (addresses.length + ·)).filter
        (fun i => mask.getD i false) = [] := by
      refine List.filter_eq_nil_iff.mpr ?_
      intro i hi htrue
      obtain ⟨k, -, rfl⟩ := List.mem_map.mp hi
      have hlt := hmask _ htrue
      omega
    rw [hnone, List.append_nil]
  rw [hfilter]
  refine List.map_congr_left fun i hi => ?_
  have hlt : i < addresses.length := List.mem_range.mp (List.mem_of_mem_filter hi)
  rw [elementAddress_of_lt hlt]

/-- A vector access counts each block that one of its elements touches once. -/
theorem lookupElements_spec (hc : c.Ready) {addresses : List Addr} {mask : List Bool}
    {elSize : Nat} (hlen : addresses.length ≤ mask.length)
    (hmask : ∀ i, mask.getD i false = true → i < addresses.length)
    (he : ∀ i, mask.getD i false = true → c.ElementOk (addresses.getD i 0, elSize))
    (isRead : Bool) :
    ∃ c', lookupElements contains c now addresses mask elSize isRead = some c' ∧
      Progress isRead (((((List.range mask.length).filter fun i => mask.getD i false).map
        fun i => (elementAddress addresses elSize i, elSize)).map
          fun e => (c.touched e).card).sum) c c' := by
  rw [elements_filter hlen hmask, List.map_map]
  refine foldlM_exists (fun done => Progress isRead
    (((done.filter fun i => mask.getD i false).map
      ((fun e => (c.touched e).card) ∘ fun i => (addresses.getD i 0, elSize))).sum) c)
    ?_ (.refl hc isRead)
  intro done i hi mid hmid
  have hlt : i < mask.length := lt_of_lt_of_le (List.mem_range.mp hi) hlen
  rw [List.filter_append, List.map_append, List.sum_append]
  cases hbit : mask[i]? with
  | none => exact absurd (List.getElem?_eq_none_iff.mp hbit) (by omega)
  | some bit =>
    have hgetD : mask.getD i false = bit := by
      rw [List.getD_eq_getElem?_getD, hbit, Option.getD_some]
    have hone : [i].filter (fun i => mask.getD i false) = if bit then [i] else [] := by
      rw [List.filter_cons]
      simp only [hgetD]
      rfl
    rw [hone]
    cases bit with
    | true =>
      obtain ⟨c', hlookup, hprogress⟩ :=
        cacheLookup_spec contains now hmid.ready (hmid.shape.elementOk (he i hgetD)) isRead
      rw [hmid.shape.touched_eq] at hprogress
      exact ⟨c', hlookup, hmid.trans hprogress⟩
    | false => exact ⟨mid, rfl, hmid⟩

theorem toNat_and_not_seven (address : Addr) :
    (address &&& ~~~7#64).toNat = address.toNat - address.toNat % 8 := by
  have hones : ~~~7#64 = BitVec.allOnes 64 <<< 3 := by decide
  rw [hones, toNat_and_shiftLeft_allOnes]
  omega

theorem tagSize_eq (address : Addr) {numTags : Nat} (hpos : 0 < numTags)
    (hlt : 8 * numTags < 2 ^ 31) :
    (((address &&& ~~~7#64) + BitVec.ofNat 64 (numTags <<< 3) - address).setWidth 32).toInt =
      (8 * numTags - address.toNat % 8 : Nat) := by
  have hsize : ((address &&& ~~~7#64) + BitVec.ofNat 64 (numTags <<< 3) - address).toNat =
      8 * numTags - address.toNat % 8 := by
    have hgranule := toNat_and_not_seven address
    rw [BitVec.toNat_sub, BitVec.toNat_add, BitVec.toNat_ofNat, hgranule, Nat.shiftLeft_eq]
    omega
  have hmod : (8 * numTags - address.toNat % 8) % 2 ^ 32 = 8 * numTags - address.toNat % 8 :=
    Nat.mod_eq_of_lt (by omega)
  rw [BitVec.toInt_eq_toNat_of_lt]
  · rw [BitVec.toNat_setWidth, hsize, hmod]
  · rw [BitVec.toNat_setWidth, hsize, hmod]
    omega

/-- **Step lemma.** An access counts each block that it touches once. -/
theorem access_spec (hc : c.Ready) {a : CacheAccess} (ha : c.AccessOk a) :
    ∃ c', c.access contains (now, a) = some c' ∧
      Progress a.isRead ((a.elements.map fun e => (c.touched e).card).sum) c c' := by
  obtain ⟨he, hform⟩ := ha
  cases a with
  | load address size | store address size | storeTagged address size =>
    exact cacheLookup_spec contains now hc (he _ (List.mem_singleton_self _)) _
  | loadVector addresses mask elSize | storeVector addresses mask elSize =>
    obtain ⟨hlen, hmask⟩ := hform
    refine lookupElements_spec contains now hc hlen hmask ?_ _
    intro i hbit
    have hi := hmask i hbit
    rw [← elementAddress_of_lt hi elSize]
    refine he _ (List.mem_map.mpr ⟨i, List.mem_filter.mpr ⟨?_, hbit⟩, rfl⟩)
    exact List.mem_range.mpr (lt_of_lt_of_le hi hlen)
  | loadTagged address db numTags =>
    cases db with
    | some size => exact cacheLookup_spec contains now hc (he _ (List.mem_singleton_self _)) _
    | none =>
      obtain ⟨hpos, hlt⟩ := hform
      have hspec := cacheLookup_spec contains now hc (he _ (List.mem_singleton_self _)) true
      rw [← tagSize_eq address hpos hlt] at hspec
      exact hspec

theorem wellPlaced_of_invalid (h : ∀ line ∈ c.cacheLines, line.valid = false) : c.WellPlaced := by
  have hnone : ∀ (i : Nat) (line : CacheLine), c.cacheLines[i]? = some line →
      line.valid ≠ true := by
    intro i line hline
    rw [h line (List.mem_of_getElem? hline)]
    exact Bool.false_ne_true
  exact ⟨fun i _ line _ hline _ hvalid => absurd hvalid (hnone i line hline),
    fun i line hline hvalid => absurd hvalid (hnone i line hline)⟩

/-- **Run lemma.** A run of accesses keeps to the lines and leaves each valid one in place. -/
theorem accesses_ready (hc : c.Ready) {accesses : List (BitVec 64 × CacheAccess)}
    (hok : ∀ a ∈ accesses, c.AccessOk a.2) :
    ∃ c', c.accesses contains accesses = some c' ∧ c'.Ready ∧ SameShape c c' := by
  refine foldlM_exists (fun _ c' => c'.Ready ∧ SameShape c c') ?_ ⟨hc, .refl c⟩
  rintro - ⟨now, a⟩ ha mid ⟨hready, hshape⟩
  obtain ⟨c', hstep, hprogress⟩ :=
    access_spec contains now hready (hshape.accessOk (hok _ ha))
  exact ⟨c', hstep, hprogress.ready, hshape.trans hprogress.shape⟩

end Cache

/-- **Structural invariant.** From a configuration that succeeds on, all accesses stay within
    the lines of the cache, which keeps its valid lines in place and counts each block that is
    touched once. -/
theorem cache_invariant {before c : Cache} {config : List Char}
    (hconfig : before.Configures config c) (hlines : c.cacheLines.length ≤ 2 ^ 31)
    (hsets : c.numSets < 2 ^ 31)
    {accesses : List (BitVec 64 × CacheAccess)} (hok : ∀ a ∈ accesses, c.AccessOk a.2) :
    (∃ last, c.accesses contains accesses = some last ∧ last.WellPlaced) ∧
    ∀ earlier a later, accesses = earlier ++ a :: later →
      ∃ s s', c.accesses contains earlier = some s ∧ s.access contains a = some s' ∧
        s.WellPlaced ∧ s'.WellPlaced ∧ s.Counted s' a.2 := by
  obtain ⟨hgeometry, hinvalid⟩ := hconfig.spec
  have hc : c.Ready := ⟨hgeometry, hlines, hsets, Cache.wellPlaced_of_invalid hinvalid⟩
  constructor
  · obtain ⟨last, hrun, hready, -⟩ := Cache.accesses_ready contains hc hok
    exact ⟨last, hrun, hready.placed⟩
  · rintro earlier ⟨now, a⟩ later rfl
    obtain ⟨s, hrun, hready, hshape⟩ :=
      Cache.accesses_ready contains hc fun b hb => hok b (List.mem_append_left _ hb)
    have ha := hok (now, a) (List.mem_append_right _ (List.mem_cons_self ..))
    obtain ⟨s', hstep, hprogress⟩ := Cache.access_spec contains now hready (hshape.accessOk ha)
    exact ⟨s, s', hrun, hstep, hready.placed, hprogress.ready.placed, hprogress.counted⟩

/-- A cache of two lines of 4 bytes. -/
def twoLines : Cache :=
  ((configure ['8', ',', '4', ',', '1', ',', 't', 'r', 'u', 'e'] true).run.run {}).2

theorem twoLines_configures :
    Cache.Configures {} ['8', ',', '4', ',', '1', ',', 't', 'r', 'u', 'e'] twoLines := ⟨true, rfl⟩

/-- A store of two elements with addresses of their own. -/
def twoElements : BitVec 64 × CacheAccess := (5, .storeVector [0, 4] [true, true] 4)

theorem cache_invariant_twoElements :
    (∃ last, twoLines.accesses (fun _ _ => false) [twoElements] = some last ∧ last.WellPlaced) ∧
    ∀ earlier a later, [twoElements] = earlier ++ a :: later →
      ∃ s s', twoLines.accesses (fun _ _ => false) earlier = some s ∧
        s.access (fun _ _ => false) a = some s' ∧
        s.WellPlaced ∧ s'.WellPlaced ∧ s.Counted s' a.2 := by
  refine cache_invariant (fun _ _ => false) twoLines_configures (by decide) (by decide) ?_
  intro a ha
  obtain rfl := List.mem_singleton.mp ha
  refine ⟨?_, by decide, ?_⟩
  · unfold Cache.ElementOk
    decide
  · rintro (_ | _ | i) hi
    · decide
    · decide
    · cases hi

/-- A load of two elements from one address on. -/
def unitStride : CacheAccess := .loadVector [0] [true, true] 4

theorem LookupOutcome.length_eq (outcomes : List LookupOutcome) :
    outcomes.length =
      outcomes.count .hit + outcomes.count .miss + outcomes.count .nonCacheable := by
  induction outcomes with
  | nil => rfl
  | cons o rest ih =>
    rw [List.length_cons, ih]
    cases o <;> simp <;> omega

/-- The elements of a unit-stride access after the first one are not counted. -/
theorem unitStride_not_counted :
    Cache.Configures {} ['8', ',', '4', ',', '1', ',', 't', 'r', 'u', 'e'] twoLines ∧
    ∃ s, twoLines.access (fun _ _ => false) (0, unitStride) = some s ∧
      ¬ twoLines.Counted s unitStride := by
  refine ⟨twoLines_configures, _, rfl, ?_⟩
  rintro ⟨outcomes, hlen, hdiffer⟩
  have htouched : (unitStride.elements.map fun e => (twoLines.touched e).card).sum = 2 := by decide
  have hhit : 0 = 0 + outcomes.count .hit := (hdiffer .hit).1
  have hmiss : 1 = 0 + outcomes.count .miss := (hdiffer .miss).1
  have hnonCacheable : 0 = 0 + outcomes.count .nonCacheable := (hdiffer .nonCacheable).1
  have hsum := LookupOutcome.length_eq outcomes
  omega

end MpactSim.Memory
