import MpactSim.Lib.Run
import MpactSim.Memory.Cache

namespace MpactSim.Memory

open Lib

/-!
# Runs of cache lookups

A sequence of accesses is one of lookups of blocks.  This says of one lookup what it does to the
lines, whatever the size of the cache.

* `Lookup`                 — one round of the loop of `CacheLookup`;
* `Hits`, `Brings`         — the line that a lookup finds, or replaces;
* `lookup_cases`           — a lookup hits a line, brings its block into one, or changes none;
* `foldlM_lookups`         — a run of accesses is a run of the lookups they make.
-/

/-- A lookup of a block: the cycle, the range of the access, and whether it is a read. -/
structure Lookup where
  now : BitVec 64
  range : AddressRange
  isRead : Bool
  block : Nat
  deriving DecidableEq

variable (contains : List AddressRange → AddressRange → Bool)

/-- One round of the loop of `CacheLookup`. -/
def Cache.lookup (c : Cache) (l : Lookup) : Option Cache :=
  Cache.lookupBlock contains c l.now l.range l.isRead l.block

namespace Lookup

/-- The access is not to be cached. -/
def DontFetch (c : Cache) (l : Lookup) : Prop := Cache.dontFetch contains c l.range = true

/-- The line in which a lookup finds its block. -/
def Hits (i : Nat) (c : Cache) (l : Lookup) : Prop :=
  ¬l.DontFetch contains c ∧ ∃ set, c.findHit l.block = some (some set) ∧ i = c.index l.block + set

/-- The line that a lookup replaces by its block. -/
def Brings (i : Nat) (c : Cache) (l : Lookup) : Prop :=
  ¬l.DontFetch contains c ∧ c.findHit l.block = some none ∧
    (l.isRead = true ∨ c.writeAllocate = true) ∧ ∃ lru, c.findVictim l.block = some ((i : Int), lru)

end Lookup

namespace Cache

/-- What no access changes. -/
structure SameConfig (c c' : Cache) : Prop where
  shape : SameShape c c'
  writeAllocate_eq : c'.writeAllocate = c.writeAllocate
  fetch_eq : ∀ range, dontFetch contains c' range = dontFetch contains c range

variable {contains} {c c' c'' : Cache} {l : Lookup}

theorem SameConfig.refl (c : Cache) : SameConfig contains c c := ⟨.refl c, rfl, fun _ => rfl⟩

theorem SameConfig.trans (h : SameConfig contains c c') (h' : SameConfig contains c' c'') :
    SameConfig contains c c'' :=
  ⟨h.shape.trans h'.shape, h'.writeAllocate_eq.trans h.writeAllocate_eq,
    fun range => (h'.fetch_eq range).trans (h.fetch_eq range)⟩

theorem sameConfig_counters (c : Cache) (k : Counters) :
    SameConfig contains c { c with counters := k } :=
  ⟨⟨rfl, rfl, rfl, rfl, rfl⟩, rfl, fun _ => rfl⟩

theorem sameConfig_set (c : Cache) (k : Counters) (i : Nat) (line : CacheLine) :
    SameConfig contains c { c with counters := k, cacheLines := c.cacheLines.set i line } :=
  ⟨⟨rfl, rfl, rfl, rfl, List.length_set⟩, rfl, fun _ => rfl⟩

/-- A lookup leaves the lines and the number of write-backs as they are. -/
structure Passes (c c' : Cache) : Prop where
  lines_eq : c'.cacheLines = c.cacheLines
  writeback_eq : c'.counters.dirtyLineWriteback = c.counters.dirtyLineWriteback

/-- The line `i` is found, and its time stamp and its mark are updated. -/
structure Touches (i : Nat) (l : Lookup) (c c' : Cache) : Prop where
  line : ∃ line, c.cacheLines[i]? = some line ∧ c'.cacheLines
    = c.cacheLines.set i { line with lru := l.now, dirty := line.dirty || !l.isRead }
  writeback_eq : c'.counters.dirtyLineWriteback = c.counters.dirtyLineWriteback

/-- The line `i` is replaced. -/
structure Replaces (i : Nat) (l : Lookup) (c c' : Cache) : Prop where
  line : ∃ line, c.cacheLines[i]? = some line ∧
    c'.cacheLines = c.cacheLines.set i
      { valid := true, tag := l.block, pinned := false, dirty := false, lru := l.now } ∧
    c'.counters.dirtyLineWriteback = c.counters.dirtyLineWriteback +
      if line.valid && line.dirty then 1 else 0

theorem writeback_increment (k : Counters) (isRead : Bool) (o : LookupOutcome) :
    (k.increment isRead o).dirtyLineWriteback = k.dirtyLineWriteback := by
  cases o <;> cases isRead <;> rfl

theorem writeback_around (k : Counters) (isRead : Bool) :
    (k.around isRead).dirtyLineWriteback = k.dirtyLineWriteback := by
  cases isRead <;> rfl

variable (contains) in
/-- `ReplaceBlock` replaces the line that is its victim. -/
theorem replaceBlock_cases {now : BitVec 64} {block : Nat} {isRead : Bool}
    (h : c.replaceBlock now block isRead = some c') :
    SameConfig contains c c' ∧
      ((∃ lru, c.findVictim block = some (-1, lru) ∧ Passes c c') ∨
        ∃ (i : Nat) (lru : BitVec 64), c.findVictim block = some ((i : Int), lru) ∧
          ∀ l : Lookup, l.now = now → l.block = block → Replaces i l c c') := by
  rw [replaceBlock] at h
  split at h
  · cases h
  · rename_i victim lru hvictim
    split at h
    · rename_i hnone
      cases h
      rw [hnone] at hvictim
      exact ⟨sameConfig_counters c _, .inl ⟨lru, hvictim, rfl, writeback_around _ _⟩⟩
    · split at h
      · cases h
      · rename_i hneg
        obtain ⟨i, rfl⟩ := Int.eq_ofNat_of_zero_le (not_lt.mp hneg)
        rw [Int.toNat_natCast] at h
        split at h
        · cases h
        · rename_i line hline
          cases h
          refine ⟨sameConfig_set c _ i _, .inr ⟨i, lru, hvictim, ?_⟩⟩
          rintro l rfl rfl
          refine ⟨line, hline, rfl, ?_⟩
          dsimp only
          split <;> rfl

/-- **What a lookup does.** -/
theorem lookup_cases (h : c.lookup contains l = some c') :
    SameConfig contains c c' ∧
      ((∃ i, l.Hits contains i c ∧ Touches i l c c') ∨
        (∃ i, l.Brings contains i c ∧ Replaces i l c c') ∨
        ((∀ i, ¬l.Hits contains i c) ∧ (∀ i, ¬l.Brings contains i c) ∧ Passes c c')) := by
  rw [lookup, lookupBlock] at h
  split at h
  · rename_i hfetch
    cases h
    exact ⟨sameConfig_counters c _, .inr (.inr ⟨fun i hi => hi.1 hfetch, fun i hi => hi.1 hfetch,
      rfl, writeback_increment _ _ _⟩)⟩
  · rename_i hfetch
    split at h
    · cases h
    · rename_i set hfound
      split at h
      · cases h
      · rename_i line hline
        cases h
        exact ⟨sameConfig_set c _ _ _, .inl ⟨_, ⟨hfetch, set, hfound, rfl⟩,
          ⟨line, hline, rfl⟩, writeback_increment _ _ _⟩⟩
    · rename_i hmiss
      have hnoHit : ∀ i, ¬l.Hits contains i c := by
        rintro i ⟨-, set, hset, -⟩
        rw [hmiss] at hset
        cases hset
      split at h
      · rename_i hread
        obtain ⟨mid, hreplace, rfl⟩ := Option.map_eq_some_iff.mp h
        obtain ⟨hconfig, hcases⟩ := replaceBlock_cases contains hreplace
        refine ⟨hconfig.trans (sameConfig_counters mid _), ?_⟩
        rcases hcases with ⟨lru, hvictim, hlines, hwriteback⟩ | ⟨i, lru, hvictim, hreplaces⟩
        · refine .inr (.inr ⟨hnoHit, ?_, hlines, (writeback_increment _ _ _).trans hwriteback⟩)
          rintro i ⟨-, -, -, lru', hother⟩
          rw [hvictim] at hother
          cases hother
        · obtain ⟨line, hline, hlines, hwriteback⟩ := hreplaces l rfl rfl
          exact .inr (.inl ⟨i, ⟨hfetch, hmiss, .inl hread, lru, hvictim⟩, line, hline, hlines,
            (writeback_increment _ _ _).trans hwriteback⟩)
      · rename_i hwrite
        split at h
        · rename_i hallocate
          obtain ⟨hconfig, hcases⟩ := replaceBlock_cases contains h
          refine ⟨(sameConfig_counters c _).trans hconfig, ?_⟩
          -- The victim is the same after the miss has been counted.
          have hsame : (c.counted false .miss).findVictim l.block = c.findVictim l.block := rfl
          rw [hsame] at hcases
          rcases hcases with ⟨lru, hvictim, hlines, hwriteback⟩ | ⟨i, lru, hvictim, hreplaces⟩
          · refine .inr (.inr ⟨hnoHit, ?_, hlines, hwriteback.trans (writeback_increment _ _ _)⟩)
            rintro i ⟨-, -, -, lru', hother⟩
            rw [hvictim] at hother
            cases hother
          · obtain ⟨line, hline, hlines, hwriteback⟩ := hreplaces l rfl rfl
            exact .inr (.inl ⟨i, ⟨hfetch, hmiss, .inr hallocate, lru, hvictim⟩, line, hline, hlines,
              hwriteback⟩)
        · rename_i hallocate
          cases h
          refine ⟨sameConfig_counters c _, .inr (.inr ⟨hnoHit, ?_, rfl, rfl⟩)⟩
          rintro i ⟨-, -, hfetches, -⟩
          exact hfetches.elim hwrite hallocate

theorem replaceBlock_counts {now : BitVec 64} {block : Nat} {isRead : Bool}
    (h : c.replaceBlock now block isRead = some c') : SameCounts c.counters c'.counters := by
  rw [replaceBlock] at h
  split at h
  · cases h
  · split at h
    · cases h
      exact sameCounts_around _ _
    · split at h
      · cases h
      · split at h
        · cases h
        · cases h
          intro kind o
          dsimp only
          split <;> cases o <;> rfl

/-- **What a lookup is counted as.** -/
theorem lookup_counts (hfetch : ¬l.DontFetch contains c) (h : c.lookup contains l = some c') :
    ∃ o, c.counters.Differ c'.counters l.isRead [o] ∧
      ((o = .hit ∧ ∃ i, l.Hits contains i c) ∨ (o = .miss ∧ c.findHit l.block = some none)) := by
  have hcached : ¬dontFetch contains c l.range = true := hfetch
  rw [lookup, lookupBlock, if_neg hcached] at h
  split at h
  · cases h
  · rename_i set hfound
    split at h
    · cases h
    · cases h
      exact ⟨.hit, Counters.differ_increment _ _ _, .inl ⟨rfl, _, hfetch, set, hfound, rfl⟩⟩
  · rename_i hmiss
    refine ⟨.miss, ?_, .inr ⟨rfl, hmiss⟩⟩
    split at h
    · rename_i hread
      obtain ⟨mid, hreplace, rfl⟩ := Option.map_eq_some_iff.mp h
      rw [hread]
      exact Counters.differ_increment_of_sameCounts (replaceBlock_counts hreplace) true .miss
    · rename_i hwrite
      rw [(Bool.not_eq_true _).mp hwrite]
      split at h
      · exact (Counters.differ_increment c.counters false .miss).sameCounts_right
          (replaceBlock_counts h)
      · cases h
        exact (Counters.differ_increment c.counters false .miss).sameCounts_right
          (sameCounts_around _ _)

/-- A lookup has a result if what it finds, and what it replaces, is one of the lines. -/
theorem exists_lookup {found : Option Nat} (hfound : c.findHit l.block = some found)
    (hline : ∀ set, found = some set → c.index l.block + set < c.cacheLines.length)
    (hvictim : found = none → ∃ (i : Nat) (lru : BitVec 64),
      c.findVictim l.block = some ((i : Int), lru) ∧ i < c.cacheLines.length) :
    ∃ c', c.lookup contains l = some c' := by
  rw [lookup, lookupBlock]
  split
  · exact ⟨_, rfl⟩
  · rw [hfound]
    cases found with
    | some set =>
      simp only [List.getElem?_eq_getElem (hline set rfl)]
      exact ⟨_, rfl⟩
    | none =>
      obtain ⟨i, lru, hfind, hlt⟩ := hvictim rfl
      have hreplace : ∀ (k : Counters) (isRead : Bool), ∃ c', replaceBlock { c with counters := k }
          l.now l.block isRead = some c' := by
        intro k isRead
        have hsame : findVictim { c with counters := k } l.block = c.findVictim l.block := rfl
        have hnotNone : ¬(i : Int) = -1 := by omega
        have hnotNeg : ¬(i : Int) < 0 := by omega
        rw [replaceBlock, hsame, hfind]
        simp only [if_neg hnotNone, if_neg hnotNeg, Int.toNat_natCast,
          List.getElem?_eq_getElem hlt]
        exact ⟨_, rfl⟩
      dsimp only
      split
      · obtain ⟨c', hc'⟩ := hreplace c.counters true
        exact ⟨_, congrArg (Option.map _) hc'⟩
      · split
        · exact hreplace _ false
        · exact ⟨_, rfl⟩

/-! ### Scans with a result -/

/-- **Loop rule.** What the body of a scan keeps holds of its result. -/
theorem scan_invariant {β : Type} {lines : List CacheLine} {index total : Nat}
    {body : Nat → CacheLine → β → ForInStep β} (P : Nat → β → Prop) (Q : β → Prop)
    (hbody : ∀ set line b, set < total → lines[index + set]? = some line → P set b →
      (∀ b', body set line b = .done b' → Q b') ∧ ∀ b', body set line b = .yield b' → P (set + 1) b')
    (hend : ∀ b, P total b → Q b) {n set : Nat} (hn : set + n = total) {b b' : β} (hb : P set b)
    (h : scan lines index body n set b = some b') : Q b' := by
  induction n generalizing set b with
  | zero =>
    cases h
    obtain rfl : set = total := by omega
    exact hend _ hb
  | succ n ih =>
    unfold scan at h
    split at h
    · cases h
    · rename_i line hline
      obtain ⟨hdone, hyield⟩ := hbody set line b (by omega) hline hb
      split at h
      · rename_i b'' heq
        cases h
        exact hdone _ heq
      · rename_i b'' heq
        split at h
        · cases h
        · exact ih (by omega) (hyield _ heq) h

/-- A block is in its set. -/
def Holds (c : Cache) (block : Nat) : Prop :=
  ∃ set < c.numSets, ∃ line, c.cacheLines[c.index block + set]? = some line ∧
    line.valid = true ∧ line.tag = block

/-- What a search for a block finds: a line of the set that holds it, or that there is none. -/
def FoundIn (c : Cache) (block : Nat) : Option Nat → Prop
  | some set => set < c.numSets ∧ ∃ line, c.cacheLines[c.index block + set]? = some line ∧
      line.valid = true ∧ line.tag = block
  | none => ¬c.Holds block

theorem findHit_cases {block : Nat} {found : Option Nat} (h : c.findHit block = some found) :
    c.FoundIn block found := by
  refine scan_invariant
    (fun set found => found = none ∧ ∀ s < set, ∀ line,
      c.cacheLines[c.index block + s]? = some line → line.valid = true → line.tag ≠ block)
    (c.FoundIn block) ?_ ?_ (Nat.zero_add _) ⟨rfl, by simp⟩ h
  · rintro set line found hset hline ⟨rfl, hbefore⟩
    by_cases hhit : line.valid = true ∧ line.tag = block
    · refine ⟨fun b' hb' => ?_, fun b' hb' => ?_⟩
      · rw [if_pos (by simpa using hhit)] at hb'
        cases hb'
        exact ⟨hset, line, hline, hhit⟩
      · rw [if_pos (by simpa using hhit)] at hb'
        cases hb'
    · refine ⟨fun b' hb' => ?_, fun b' hb' => ?_⟩
      · rw [if_neg (by simpa using hhit)] at hb'
        cases hb'
      · rw [if_neg (by simpa using hhit)] at hb'
        cases hb'
        refine ⟨rfl, fun s hs other hother hvalid htag => ?_⟩
        rcases Nat.lt_succ_iff_lt_or_eq.mp hs with hlt | rfl
        · exact hbefore s hlt other hother hvalid htag
        · obtain rfl : line = other := Option.some.inj (hline.symm.trans hother)
          exact hhit ⟨hvalid, htag⟩
  · rintro found ⟨rfl, hnone⟩ ⟨set, hset, line, hline, hvalid, htag⟩
    exact hnone set hset line hline hvalid htag

/-! ### Accesses -/

theorem foldlM_singleton :
    [l].foldlM (lookup contains) c = some c' ↔ c.lookup contains l = some c' := by
  rw [List.foldlM_cons, Option.bind_eq_bind, Option.bind_eq_some_iff]
  constructor
  · rintro ⟨mid, hmid, hend⟩
    cases hend
    exact hmid
  · exact fun h => ⟨c', h, rfl⟩

theorem foldlM_lookup_config {ls : List Lookup} (h : ls.foldlM (lookup contains) c = some c') :
    SameConfig contains c c' :=
  foldlM_invariant (SameConfig contains c)
    (fun _ _ _ _ hmid hstep => hmid.trans (lookup_cases hstep).1) h (.refl c)

/-- The lookups of `CacheLookup`. -/
def elementLookups (c : Cache) (now : BitVec 64) (address : Addr) (size : Int) (isRead : Bool) :
    List Lookup :=
  (c.blocks address size).map fun block =>
    ⟨now, ⟨address, address + BitVec.ofInt 64 size - 1⟩, isRead, block⟩

/-- The lookups of a vector access. -/
def vectorLookups (c : Cache) (now : BitVec 64) (addresses : List Addr) (mask : List Bool)
    (elSize : Nat) (isRead : Bool) : List Lookup :=
  (List.range addresses.length).flatMap fun i =>
    if mask.getD i false then c.elementLookups now (addresses.getD i 0) elSize isRead else []

/-- The lookups of an access. -/
def lookups (c : Cache) : BitVec 64 × CacheAccess → List Lookup
  | (now, .load address size) => c.elementLookups now address size true
  | (now, .store address size) | (now, .storeTagged address size) =>
    c.elementLookups now address size false
  | (now, .loadVector addresses mask elSize) => c.vectorLookups now addresses mask elSize true
  | (now, .storeVector addresses mask elSize) => c.vectorLookups now addresses mask elSize false
  | (now, .loadTagged address (some size) _) => c.elementLookups now address size true
  | (now, .loadTagged address none numTags) =>
    c.elementLookups now address
      (((address &&& ~~~7#64) + BitVec.ofNat 64 (numTags <<< 3) - address).setWidth 32).toInt true

theorem SameShape.elementLookups_eq (h : SameShape c c') (now : BitVec 64) (address : Addr)
    (size : Int) (isRead : Bool) :
    c'.elementLookups now address size isRead = c.elementLookups now address size isRead := by
  rw [elementLookups, elementLookups, blocks, blocks, h.blockShift_eq]

theorem SameShape.lookups_eq (h : SameShape c c') (a : BitVec 64 × CacheAccess) :
    c'.lookups a = c.lookups a := by
  obtain ⟨now, a⟩ := a
  cases a with
  | load address size | store address size | storeTagged address size =>
    exact h.elementLookups_eq ..
  | loadVector addresses mask elSize | storeVector addresses mask elSize =>
    simp only [lookups, vectorLookups, h.elementLookups_eq]
  | loadTagged address db numTags => cases db <;> exact h.elementLookups_eq ..

theorem cacheLookup_eq (c : Cache) (now : BitVec 64) (address : Addr) (size : Int)
    (isRead : Bool) :
    cacheLookup contains c now address size isRead
      = (c.elementLookups now address size isRead).foldlM (lookup contains) c := by
  rw [cacheLookup, elementLookups, List.foldlM_map]
  rfl

theorem foldlM_vectorLookups {now : BitVec 64} {addresses : List Addr} {mask : List Bool}
    {elSize : Nat} {isRead : Bool}
    (h : lookupElements contains c now addresses mask elSize isRead = some c') :
    (c.vectorLookups now addresses mask elSize isRead).foldlM (lookup contains) c = some c' := by
  rw [vectorLookups]
  refine foldlM_flatMap_of_foldlM (SameConfig contains c) (fun i mid last hmid hstep => ?_)
    (.refl c) h
  split at hstep
  · cases hstep
  · rename_i hbit
    rw [cacheLookup_eq, hmid.shape.elementLookups_eq] at hstep
    rw [List.getD_eq_getElem?_getD, hbit]
    exact ⟨hstep, hmid.trans (foldlM_lookup_config hstep)⟩
  · rename_i hbit
    cases hstep
    rw [List.getD_eq_getElem?_getD, hbit]
    exact ⟨rfl, hmid⟩

/-- **An access** is the run of its lookups. -/
theorem foldlM_lookups {a : BitVec 64 × CacheAccess} (h : c.access contains a = some c') :
    (c.lookups a).foldlM (lookup contains) c = some c' := by
  obtain ⟨now, a⟩ := a
  cases a with
  | load address size | store address size | storeTagged address size =>
    exact (cacheLookup_eq ..).symm.trans h
  | loadVector addresses mask elSize | storeVector addresses mask elSize =>
    exact foldlM_vectorLookups h
  | loadTagged address db numTags => cases db <;> exact (cacheLookup_eq ..).symm.trans h

/-- **A run** of accesses is the run of the lookups that they make. -/
theorem foldlM_accesses {accesses : List (BitVec 64 × CacheAccess)}
    (h : c.accesses contains accesses = some c') :
    (accesses.flatMap c.lookups).foldlM (lookup contains) c = some c' := by
  refine foldlM_flatMap_of_foldlM (SameConfig contains c) (fun a mid last hmid hstep => ?_)
    (.refl c) h
  have hrun := foldlM_lookups hstep
  rw [hmid.shape.lookups_eq] at hrun
  exact ⟨hrun, hmid.trans (foldlM_lookup_config hrun)⟩

/-! ### Lookups that are accesses -/

/-- A vector access has a mask for each of its addresses. -/
def MaskCovers (a : BitVec 64 × CacheAccess) : Prop :=
  match a.2 with
  | .loadVector addresses mask _ | .storeVector addresses mask _ => addresses.length ≤ mask.length
  | .load .. | .loadTagged .. | .store .. | .storeTagged .. => True

theorem lookupElements_of_foldlM {now : BitVec 64} {addresses : List Addr} {mask : List Bool}
    {elSize : Nat} {isRead : Bool} (hmask : addresses.length ≤ mask.length)
    (h : (c.vectorLookups now addresses mask elSize isRead).foldlM (lookup contains) c = some c') :
    lookupElements contains c now addresses mask elSize isRead = some c' := by
  rw [vectorLookups] at h
  refine foldlM_of_foldlM_flatMap (SameConfig contains c) (fun i hi mid last hmid hrun => ?_)
    (.refl c) h
  have hlt : i < mask.length := lt_of_lt_of_le (List.mem_range.mp hi) hmask
  have hconfig := hmid.trans (foldlM_lookup_config hrun)
  refine ⟨?_, hconfig⟩
  rw [List.getD_eq_getElem?_getD, List.getElem?_eq_getElem hlt, Option.getD_some] at hrun
  rw [List.getElem?_eq_getElem hlt]
  cases hbit : mask[i] with
  | true =>
    rw [hbit, if_pos rfl, ← hmid.shape.elementLookups_eq, ← cacheLookup_eq] at hrun
    exact hrun
  | false =>
    rw [hbit, if_neg Bool.false_ne_true] at hrun
    exact hrun

theorem access_of_foldlM_lookups {a : BitVec 64 × CacheAccess} (ha : MaskCovers a)
    (h : (c.lookups a).foldlM (lookup contains) c = some c') : c.access contains a = some c' := by
  obtain ⟨now, a⟩ := a
  cases a with
  | load address size | store address size | storeTagged address size =>
    exact (cacheLookup_eq ..).trans h
  | loadVector addresses mask elSize | storeVector addresses mask elSize =>
    exact lookupElements_of_foldlM ha h
  | loadTagged address db numTags => cases db <;> exact (cacheLookup_eq ..).trans h

theorem accesses_of_foldlM_lookups {accesses : List (BitVec 64 × CacheAccess)}
    (hmasks : ∀ a ∈ accesses, MaskCovers a)
    (h : (accesses.flatMap c.lookups).foldlM (lookup contains) c = some c') :
    c.accesses contains accesses = some c' := by
  refine foldlM_of_foldlM_flatMap (SameConfig contains c) (fun a ha mid last hmid hrun => ?_)
    (.refl c) h
  have hconfig := hmid.trans (foldlM_lookup_config hrun)
  rw [← hmid.shape.lookups_eq] at hrun
  exact ⟨access_of_foldlM_lookups (hmasks a ha) hrun, hconfig⟩

end Cache

end MpactSim.Memory
