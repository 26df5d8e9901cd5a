import MpactSim.Lib.Recency
import MpactSim.Memory.CacheLookups

namespace MpactSim.Memory

open Lib

/-!
# Least recently used lines

The time stamps of the lines of a set put its blocks in the order of their last uses.

* `Tracks`    — each set holds the blocks that were used last, with the times of these uses;
* `LruStep`   — a lookup hits exactly these blocks, and replaces the one used the longest time ago;
* `lru_iff`   — every lookup of a run does so exactly if `int` can index the sets it uses.
-/

namespace Cache

/-- The blocks of a set, in the order in which lookups use them. -/
def history (c : Cache) (first : Nat) (ls : List Lookup) : List Nat :=
  (ls.filter (c.index ·.block = first)).map (·.block)

/-- The line `i` of the set that starts at `first`. -/
def InSet (c : Cache) (first i : Nat) (line : CacheLine) : Prop :=
  first ≤ i ∧ i < first + c.numSets ∧ c.cacheLines[i]? = some line

/-- The line to replace: an invalid one if there is one, and otherwise that whose block was used
    before those of all others. -/
def IsVictim (c : Cache) (first : Nat) (history : List Nat) (i : Nat) : Prop :=
  ∃ line, c.InSet first i line ∧ (line.valid = false ∨
    (∀ j other, c.InSet first j other → other.valid = true) ∧
      ∃ before since, history = before ++ line.tag :: since ∧ line.tag ∉ since ∧
        ∀ j other, c.InSet first j other → j ≠ i → other.tag ∈ since)

/-- The lookup `l` from `s` to `s'`, after those of `ls`, is that of a cache whose sets hold the
    blocks that were used last. -/
structure LruStep (c : Cache) (ls : List Lookup) (l : Lookup) (s s' : Cache) : Prop where
  hit_iff : s.counters.Differ s'.counters l.isRead [.hit] ↔
    Recent c.numSets (c.history (c.index l.block) ls) l.block
  victim : ¬Recent c.numSets (c.history (c.index l.block) ls) l.block →
    s.counters.Differ s'.counters l.isRead [.miss] ∧
      ∃ i, s.IsVictim (c.index l.block) (c.history (c.index l.block) ls) i ∧ Replaces i l s s'

/-! ### The entries of a set -/

/-- The block of a line, and its time stamp. -/
def entry (line : CacheLine) : Option (Nat × Nat) :=
  if line.valid then some (line.tag, line.lru.toNat) else none

/-- The lines of a set. -/
def setLines (c : Cache) (first : Nat) : List CacheLine := (c.cacheLines.drop first).take c.numSets

/-- The blocks of a set, with their time stamps. -/
def entries (c : Cache) (first : Nat) : List (Nat × Nat) := (c.setLines first).filterMap entry

/-- The uses of the blocks of a set. -/
def uses (c : Cache) (first : Nat) (ls : List Lookup) : List (Nat × Nat) :=
  (ls.filter (c.index ·.block = first)).map fun l => (l.block, l.now.toNat)

variable {c c' s s' : Cache} {l : Lookup} {ls : List Lookup} {first set i : Nat} {line : CacheLine}

theorem keys_uses (c : Cache) (first : Nat) (ls : List Lookup) :
    (c.uses first ls).map Prod.fst = c.history first ls := by
  rw [uses, history, List.map_map]
  rfl

theorem uses_snoc_self (c : Cache) (ls : List Lookup) (l : Lookup) :
    c.uses (c.index l.block) (ls ++ [l]) = c.uses (c.index l.block) ls ++ [(l.block, l.now.toNat)] := by
  rw [uses, uses, List.filter_append, List.map_append]
  simp

theorem uses_snoc_ne (h : c.index l.block ≠ first) : c.uses first (ls ++ [l]) = c.uses first ls := by
  rw [uses, uses, List.filter_append]
  simp [h]

theorem mem_entries {e : Nat × Nat} :
    e ∈ c.entries first ↔
      ∃ set < c.numSets, ∃ line, c.cacheLines[first + set]? = some line ∧ line.valid = true ∧
        e = (line.tag, line.lru.toNat) := by
  rw [entries, List.mem_filterMap]
  constructor
  · rintro ⟨line, hmem, hentry⟩
    obtain ⟨set, hset⟩ := List.mem_iff_getElem?.mp hmem
    rw [setLines, List.getElem?_take] at hset
    split at hset
    · rename_i hlt
      rw [List.getElem?_drop] at hset
      rw [entry] at hentry
      split at hentry
      · cases hentry
        exact ⟨set, hlt, line, hset, ‹_›, rfl⟩
      · cases hentry
    · cases hset
  · rintro ⟨set, hset, line, hline, hvalid, rfl⟩
    refine ⟨line, List.mem_iff_getElem?.mpr ⟨set, ?_⟩, if_pos hvalid⟩
    rw [setLines, List.getElem?_take, if_pos hset, List.getElem?_drop, hline]

/-- The entries in front of a line of a set, and those behind it. -/
def entriesBefore (c : Cache) (first set : Nat) : List (Nat × Nat) :=
  ((c.setLines first).take set).filterMap entry

def entriesBehind (c : Cache) (first set : Nat) : List (Nat × Nat) :=
  ((c.setLines first).drop (set + 1)).filterMap entry

theorem mem_entries_others (hi : i < c.numSets) (hne : i ≠ set)
    (hline : c.cacheLines[first + i]? = some line) (hvalid : line.valid = true) :
    (line.tag, line.lru.toNat) ∈ c.entriesBefore first set ++ c.entriesBehind first set := by
  have hget : (c.setLines first)[i]? = some line := by
    rw [setLines, List.getElem?_take, if_pos hi, List.getElem?_drop, hline]
  rw [List.mem_append, entriesBefore, entriesBehind, List.mem_filterMap, List.mem_filterMap]
  rcases Nat.lt_or_gt_of_ne hne with hlt | hgt
  · refine .inl ⟨line, List.mem_iff_getElem?.mpr ⟨i, ?_⟩, if_pos hvalid⟩
    rw [List.getElem?_take, if_pos hlt, hget]
  · refine .inr ⟨line, List.mem_iff_getElem?.mpr ⟨i - (set + 1), ?_⟩, if_pos hvalid⟩
    rw [List.getElem?_drop, Nat.add_sub_cancel' hgt, hget]

theorem entries_set (hset : set < c.numSets) (hlt : first + set < c.cacheLines.length)
    (hnumSets : c'.numSets = c.numSets)
    (hlines : c'.cacheLines = c.cacheLines.set (first + set) line) :
    c'.entries first = c.entriesBefore first set ++
      ((entry line).toList ++ c.entriesBehind first set) := by
  have hset' : c'.setLines first = (c.setLines first).set set line := by
    rw [setLines, setLines, hlines, hnumSets, List.drop_set, if_neg (by omega), List.take_set,
      Nat.add_sub_cancel_left]
  have hlen : set < (c.setLines first).length := by
    rw [setLines, List.length_take, List.length_drop]
    omega
  rw [entries, hset', List.set_eq_take_append_cons_drop, if_pos hlen, List.filterMap_append,
    entriesBefore, entriesBehind, List.filterMap_cons]
  cases entry line <;> rfl

theorem entries_eq (hset : set < c.numSets) (hline : c.cacheLines[first + set]? = some line) :
    c.entries first = c.entriesBefore first set ++
      ((entry line).toList ++ c.entriesBehind first set) := by
  obtain ⟨hlt, hget⟩ := List.getElem?_eq_some_iff.mp hline
  refine entries_set hset hlt rfl ?_
  rw [← hget, List.set_getElem_self]

theorem entries_set_ne (hout : i < first ∨ first + c.numSets ≤ i) (hnumSets : c'.numSets = c.numSets)
    (hlines : c'.cacheLines = c.cacheLines.set i line) : c'.entries first = c.entries first := by
  rw [entries, entries, setLines, setLines, hlines, hnumSets, List.drop_set]
  split
  · rfl
  · rw [List.take_set, List.set_eq_of_length_le]
    rw [List.length_take, List.length_drop]
    omega

theorem length_entries_le (c : Cache) (first set : Nat) (hset : set < c.numSets)
    (hlen : first + c.numSets ≤ c.cacheLines.length) :
    (c.entriesBefore first set ++ c.entriesBehind first set).length < c.numSets := by
  have hbefore := List.length_filterMap_le entry ((c.setLines first).take set)
  have hbehind := List.length_filterMap_le entry ((c.setLines first).drop (set + 1))
  have hlines : (c.setLines first).length = c.numSets := by
    rw [setLines, List.length_take, List.length_drop]
    omega
  rw [List.length_take, hlines] at hbefore
  rw [List.length_drop, hlines] at hbehind
  rw [List.length_append, entriesBefore, entriesBehind]
  omega

theorem length_entries_of_valid (hlen : first + c.numSets ≤ c.cacheLines.length)
    (hvalid : ∀ set < c.numSets, ∀ line, c.cacheLines[first + set]? = some line →
      line.valid = true) : (c.entries first).length = c.numSets := by
  have hmap : c.entries first = (c.setLines first).map fun line => (line.tag, line.lru.toNat) := by
    rw [entries, ← List.filterMap_eq_map]
    refine List.filterMap_congr fun line hmem => if_pos ?_
    obtain ⟨set, hset⟩ := List.mem_iff_getElem?.mp hmem
    rw [setLines, List.getElem?_take] at hset
    split at hset
    · rename_i hlt
      rw [List.getElem?_drop] at hset
      exact hvalid set hlt line hset
    · cases hset
  rw [hmap, List.length_map, setLines, List.length_take, List.length_drop]
  omega

/-! ### Sets -/

theorem Geometry.index_eq_mul (h : c.Geometry) (block : Nat) :
    c.index block = (block &&& c.indexMask) * c.numSets := by
  rw [index, Nat.shiftLeft_eq, h.numSets_eq]

theorem Geometry.disjoint (h : c.Geometry) {block block' : Nat}
    (hne : c.index block ≠ c.index block') (hset : set < c.numSets) :
    c.index block + set < c.index block' ∨ c.index block' + c.numSets ≤ c.index block + set := by
  rw [h.index_eq_mul, h.index_eq_mul] at *
  rcases Nat.lt_or_gt_of_ne fun heq => hne (congrArg (· * c.numSets) heq) with hlt | hgt
  · have := Nat.mul_le_mul_right c.numSets (Nat.succ_le_of_lt hlt)
    rw [Nat.succ_mul] at this
    omega
  · have := Nat.mul_le_mul_right c.numSets (Nat.succ_le_of_lt hgt)
    rw [Nat.succ_mul] at this
    omega

theorem Geometry.index_add_le_int (h : c.Geometry) {block : Nat} (hsets : c.numSets < 2 ^ 31)
    (hindex : c.index block < 2 ^ 31) : c.index block + c.numSets ≤ 2 ^ 31 := by
  have hshift : c.setShift < 31 := by
    rw [h.numSets_eq] at hsets
    exact (Nat.pow_lt_pow_iff_right (by omega)).mp hsets
  have hpow : 2 ^ 31 = 2 ^ (31 - c.setShift) * c.numSets := by
    rw [h.numSets_eq, ← Nat.pow_add, Nat.sub_add_cancel hshift.le]
  rw [h.index_eq_mul, hpow] at hindex
  have hlt := Nat.lt_of_mul_lt_mul_right hindex
  rw [h.index_eq_mul, hpow, ← Nat.succ_mul]
  exact Nat.mul_le_mul_right _ hlt

theorem toInt_ofNat_of_lt {n : Nat} (h : n < 2 ^ 31) : (BitVec.ofNat 32 n).toInt = n := by
  rw [BitVec.toInt_eq_toNat_of_lt]
  · rw [BitVec.toNat_ofNat, Nat.mod_eq_of_lt (by omega)]
  · rw [BitVec.toNat_ofNat, Nat.mod_eq_of_lt (by omega)]
    omega

theorem exists_findHit (h : c.Geometry) (hsets : c.numSets < 2 ^ 31) (block : Nat) :
    ∃ found, c.findHit block = some found := by
  have hscan : ∃ found, c.findHit block = some found ∧ True := by
    refine scan_exists (fun _ _ => True) _ (h.index_add_le block) hsets ?_ (fun _ => id)
      (Nat.zero_add _) trivial
    intro set line found _ _ _
    by_cases hhit : (line.valid && line.tag = block) = true
    · exact .inl ⟨_, if_pos hhit, trivial⟩
    · exact .inr ⟨_, if_neg hhit, trivial⟩
  obtain ⟨found, hfound, -⟩ := hscan
  exact ⟨found, hfound⟩

/-- **The victim** is an invalid line of the set, or one with the least stamp. -/
theorem findVictim_least (h : c.Geometry) (hsets : c.numSets < 2 ^ 31) {block : Nat}
    (hindex : c.index block < 2 ^ 31) (hunpinned : ∀ line ∈ c.cacheLines, line.pinned = false)
    (hstamps : ∀ line ∈ c.cacheLines, line.valid = true → line.lru ≠ BitVec.allOnes 64) :
    ∃ set < c.numSets, ∃ lru line,
      c.findVictim block = some (((c.index block + set : Nat) : Int), lru) ∧
      c.cacheLines[c.index block + set]? = some line ∧ (line.valid = false ∨
        ∀ set' < c.numSets, ∀ other, c.cacheLines[c.index block + set']? = some other →
          other.valid = true ∧ line.lru.toNat ≤ other.lru.toNat) := by
  have hbound := h.index_add_le_int hsets hindex
  have hint : ∀ {set}, set < c.numSets → (BitVec.ofNat 32 (c.index block + set)).toInt
      = (c.index block + set : Nat) := fun hset => toInt_ofNat_of_lt (by omega)
  have hscan : ∃ found, c.findVictim block = some found ∧
      ∃ set < c.numSets, ∃ line, found.1 = (c.index block + set : Nat) ∧
        c.cacheLines[c.index block + set]? = some line ∧ (line.valid = false ∨
          ∀ set' < c.numSets, ∀ other, c.cacheLines[c.index block + set']? = some other →
            other.valid = true ∧ line.lru.toNat ≤ other.lru.toNat) := by
    refine scan_exists
      -- All lines so far are valid, and the victim is the one with the least stamp of them.
      (fun set (found : Int × BitVec 64) =>
        (∀ set' < set, ∀ other, c.cacheLines[c.index block + set']? = some other →
          other.valid = true ∧ found.2.toNat ≤ other.lru.toNat) ∧
        (set = 0 ∧ found.2 = BitVec.allOnes 64 ∨ ∃ v < c.numSets, ∃ line,
          c.cacheLines[c.index block + v]? = some line ∧ found.1 = (c.index block + v : Nat) ∧
            found.2 = line.lru))
      _ (h.index_add_le block) hsets ?_ ?_ (Nat.zero_add _) ⟨by simp, .inl ⟨rfl, rfl⟩⟩
    · rintro set line ⟨victim, victimLru⟩ hset hline ⟨hbefore, hvictim⟩
      have hmem := List.mem_of_getElem? hline
      by_cases hvalid : line.valid = false
      · exact .inl ⟨_, if_pos hvalid, set, hset, line, hint hset, hline, .inl hvalid⟩
      · have hpinned : ¬line.pinned = true := by simp [hunpinned line hmem]
        have hvalid' := (Bool.not_eq_false _).mp hvalid
        refine .inr ?_
        by_cases hlru : line.lru < victimLru
        · refine ⟨_, (if_neg hvalid).trans ((if_neg hpinned).trans (if_pos hlru)), ?_,
            .inr ⟨set, hset, line, hline, hint hset, rfl⟩⟩
          intro set' hset' other hother
          rcases Nat.lt_succ_iff_lt_or_eq.mp hset' with hlt | rfl
          · obtain ⟨hother', hle⟩ := hbefore set' hlt other hother
            exact ⟨hother', (BitVec.lt_def.mp hlru).le.trans hle⟩
          · obtain rfl := Option.some.inj (hline.symm.trans hother)
            exact ⟨hvalid', le_rfl⟩
        · refine ⟨_, (if_neg hvalid).trans ((if_neg hpinned).trans (if_neg hlru)), ?_, .inr ?_⟩
          · intro set' hset' other hother
            rcases Nat.lt_succ_iff_lt_or_eq.mp hset' with hlt | rfl
            · exact hbefore set' hlt other hother
            · obtain rfl := Option.some.inj (hline.symm.trans hother)
              exact ⟨hvalid', not_lt.mp fun hlt => hlru (BitVec.lt_def.mpr hlt)⟩
          · -- The stamp of a valid line is not the largest one, so that there is a victim already.
            refine hvictim.resolve_left ?_
            rintro ⟨-, hmax⟩
            have hmax' : victimLru = BitVec.allOnes 64 := hmax
            refine hlru (BitVec.lt_def.mpr ?_)
            have hne : line.lru.toNat ≠ 2 ^ 64 - 1 := fun heq => hstamps line hmem hvalid'
              (BitVec.eq_of_toNat_eq (by rw [heq, BitVec.toNat_allOnes]))
            rw [hmax', BitVec.toNat_allOnes]
            omega
    · rintro ⟨victim, victimLru⟩ ⟨hall, hnone | ⟨v, hv, line, hline, hvictim, hlru⟩⟩
      · have hpos : 0 < c.numSets := by
          rw [h.numSets_eq]
          exact Nat.two_pow_pos _
        omega
      · refine ⟨v, hv, line, hvictim, hline, .inr fun set' hset' other hother => ?_⟩
        rw [← show victimLru = line.lru from hlru]
        exact hall set' hset' other hother
  obtain ⟨⟨victim, lru⟩, hfind, set, hset, line, rfl, hline, hleast⟩ := hscan
  exact ⟨set, hset, lru, line, hfind, hline, hleast⟩

/-! ### One lookup -/

variable (contains : List AddressRange → AddressRange → Bool)

/-- The state `s` after the lookups `ls`: each set holds the blocks that were used last. -/
structure Tracks (c : Cache) (ls : List Lookup) (s : Cache) : Prop where
  config : SameConfig contains c s
  unpinned : ∀ line ∈ s.cacheLines, line.pinned = false
  stamped : ∀ line ∈ s.cacheLines, line.valid = true → ∃ l ∈ ls, line.lru = l.now
  entries : ∀ block, (s.entries (c.index block)).Perm
    ((recency (c.uses (c.index block) ls)).take c.numSets)

variable {contains}

theorem Tracks.recent_iff (hs : Tracks contains c ls s) (block : Nat) :
    Recent c.numSets (c.history (c.index block) ls) block ↔ s.Holds block := by
  rw [← keys_uses, Lib.recent_iff, ← ((hs.entries block).map Prod.fst).mem_iff, List.mem_map, Holds,
    hs.config.shape.index_eq]
  constructor
  · rintro ⟨e, he, rfl⟩
    obtain ⟨set, hset, line, hline, hvalid, rfl⟩ := mem_entries.mp he
    exact ⟨set, hset, line, hline, hvalid, rfl⟩
  · rintro ⟨set, hset, line, hline, hvalid, rfl⟩
    exact ⟨_, mem_entries.mpr ⟨set, hset, line, hline, hvalid, rfl⟩, rfl⟩

theorem Tracks.snoc (hgeometry : c.Geometry) (hs : Tracks contains c ls s)
    (hconfig : SameConfig contains s s') (hset : set < c.numSets)
    (hlines : s'.cacheLines = s.cacheLines.set (c.index l.block + set) line)
    (hlru : line.lru = l.now) (hpinned : line.pinned = false)
    (hentries : (s'.entries (c.index l.block)).Perm
      ((recency (c.uses (c.index l.block) (ls ++ [l]))).take c.numSets)) :
    Tracks contains c (ls ++ [l]) s' where
  config := hs.config.trans hconfig
  unpinned other hmem := by
    rw [hlines] at hmem
    rcases List.mem_or_eq_of_mem_set hmem with hold | rfl
    · exact hs.unpinned other hold
    · exact hpinned
  stamped other hmem hvalid := by
    rw [hlines] at hmem
    rcases List.mem_or_eq_of_mem_set hmem with hold | rfl
    · obtain ⟨l', hl', hstamp⟩ := hs.stamped other hold hvalid
      exact ⟨l', List.mem_append_left _ hl', hstamp⟩
    · exact ⟨l, List.mem_append_right _ (List.mem_singleton_self _), hlru⟩
  entries block := by
    by_cases hsame : c.index l.block = c.index block
    · rw [← hsame]
      exact hentries
    · have hout := hgeometry.disjoint hsame hset
      rw [← hs.config.shape.numSets_eq] at hout
      rw [entries_set_ne hout hconfig.shape.numSets_eq hlines, uses_snoc_ne hsame]
      exact hs.entries block

theorem pairwise_uses (c : Cache) (first : Nat)
    (htimes : ls.Pairwise fun l l' => l.now < l'.now) :
    (c.uses first ls).Pairwise fun e e' => e.2 < e'.2 := by
  rw [uses, List.pairwise_map]
  exact (htimes.filter _).imp fun h => BitVec.lt_def.mp h

theorem Tracks.hit (hgeometry : c.Geometry) (hs : Tracks contains c ls s) (hi : l.Hits contains i s)
    (hconfig : SameConfig contains s s') (htouches : Touches i l s s') :
    Tracks contains c (ls ++ [l]) s' := by
  obtain ⟨-, set, hfound, rfl⟩ := hi
  obtain ⟨hset, line, hline, hvalid, htag⟩ := findHit_cases hfound
  obtain ⟨line', hline', hlines⟩ := htouches.line
  obtain rfl := Option.some.inj (hline.symm.trans hline')
  have hlt := (List.getElem?_eq_some_iff.mp hline).1
  rw [hs.config.shape.index_eq] at hline hlines hlt
  have hset' : set < c.numSets := hs.config.shape.numSets_eq ▸ hset
  refine hs.snoc hgeometry hconfig hset' hlines rfl (hs.unpinned line (List.mem_of_getElem? hline)) ?_
  have hstore := hs.entries l.block
  rw [entries_eq hset hline, entry, if_pos hvalid, htag] at hstore
  rw [entries_set hset hlt hconfig.shape.numSets_eq hlines, uses_snoc_self, entry, if_pos hvalid,
    htag]
  exact perm_hit hstore

/-- A miss replaces the line of the set whose block was used the longest time ago. -/
theorem Tracks.replace (hgeometry : c.Geometry) (hs : Tracks contains c ls s)
    (htimes : ls.Pairwise fun l l' => l.now < l'.now) (hmiss : ¬s.Holds l.block)
    (hset : set < c.numSets) (hline : s.cacheLines[c.index l.block + set]? = some line)
    (hleast : line.valid = false ∨
      ∀ set' < c.numSets, ∀ other, s.cacheLines[c.index l.block + set']? = some other →
        other.valid = true ∧ line.lru.toNat ≤ other.lru.toNat)
    (hconfig : SameConfig contains s s') (hreplaces : Replaces (c.index l.block + set) l s s') :
    Tracks contains c (ls ++ [l]) s' ∧
      s.IsVictim (c.index l.block) (c.history (c.index l.block) ls) (c.index l.block + set) := by
  have hshape := hs.config.shape
  obtain ⟨line', hline', hlines, -⟩ := hreplaces.line
  obtain rfl := Option.some.inj (hline.symm.trans hline')
  have hlt := (List.getElem?_eq_some_iff.mp hline).1
  have hset' : set < s.numSets := hshape.numSets_eq.symm ▸ hset
  have hbound : c.index l.block + s.numSets ≤ s.cacheLines.length := by
    rw [hshape.numSets_eq, hshape.length_eq]
    exact hgeometry.index_add_le l.block
  have hin : s.InSet (c.index l.block) (c.index l.block + set) line :=
    ⟨Nat.le_add_right _ _, Nat.add_lt_add_left hset' _, hline⟩
  have hnotMem : l.block ∉ (s.entries (c.index l.block)).map Prod.fst := by
    rintro hmem
    obtain ⟨e, he, heq⟩ := List.mem_map.mp hmem
    obtain ⟨v, hv, other, hother, hvalid, rfl⟩ := mem_entries.mp he
    refine hmiss ⟨v, hv, other, ?_, hvalid, heq⟩
    rwa [hshape.index_eq]
  have hstore := hs.entries l.block
  have hnew : s'.entries (c.index l.block) = s.entriesBefore (c.index l.block) set ++
      (l.block, l.now.toNat) :: s.entriesBehind (c.index l.block) set :=
    entries_set hset' hlt hconfig.shape.numSets_eq hlines
  by_cases hvalid : line.valid = false
  · -- There is room for the entry.
    have hentry : entry line = none := if_neg (by simp [hvalid])
    rw [entries_eq hset' hline, hentry] at hstore hnotMem
    refine ⟨hs.snoc hgeometry hconfig hset hlines rfl rfl ?_, line, hin, .inl hvalid⟩
    rw [hnew, uses_snoc_self]
    refine perm_fill hstore ?_ hnotMem
    rw [← hshape.numSets_eq]
    exact length_entries_le s _ _ hset' hbound
  · have hall := hleast.resolve_left hvalid
    have hvalid' := (Bool.not_eq_false _).mp hvalid
    have hentry : entry line = some (line.tag, line.lru.toNat) := if_pos hvalid'
    have hfull : (s.entries (c.index l.block)).length = s.numSets :=
      length_entries_of_valid hbound fun v hv other hother =>
        (hall v (hshape.numSets_eq ▸ hv) other hother).1
    rw [hshape.numSets_eq] at hfull
    have hleast' : ∀ e ∈ s.entries (c.index l.block), line.lru.toNat ≤ e.2 := by
      intro e he
      obtain ⟨v, hv, other, hother, -, rfl⟩ := mem_entries.mp he
      exact (hall v (hshape.numSets_eq ▸ hv) other hother).2
    have hsplit := entries_eq hset' hline
    rw [hentry] at hsplit
    have hsub : ∀ e ∈ s.entriesBefore (c.index l.block) set ++
        s.entriesBehind (c.index l.block) set, e ∈ s.entries (c.index l.block) := by
      intro e he
      rw [hsplit]
      exact List.perm_middle.symm.subset (List.mem_cons_of_mem _ he)
    rw [hsplit] at hstore hfull hnotMem
    obtain ⟨hperm, before, since, hhistory, hlast, hsince⟩ :=
      perm_evict (t := l.now.toNat) (pairwise_uses c _ htimes) hstore hfull hnotMem
        fun e he => hleast' e (hsub e he)
    refine ⟨hs.snoc hgeometry hconfig hset hlines rfl rfl ?_, line, hin, .inr ⟨?_, ?_⟩⟩
    · rw [hnew, uses_snoc_self]
      exact hperm
    · rintro j other ⟨hlo, hhi, hother⟩
      refine (hall (j - c.index l.block) (by rw [← hshape.numSets_eq]; omega) other ?_).1
      rwa [Nat.add_sub_cancel' hlo]
    · rw [keys_uses] at hhistory
      refine ⟨before, since, hhistory, hlast, ?_⟩
      rintro j other ⟨hlo, hhi, hother⟩ hne
      have hother' : s.cacheLines[c.index l.block + (j - c.index l.block)]? = some other := by
        rwa [Nat.add_sub_cancel' hlo]
      obtain ⟨hvalid, -⟩ := hall (j - c.index l.block) (by rw [← hshape.numSets_eq]; omega) other
        hother'
      exact hsince _ (mem_entries_others (by omega) (by omega) hother' hvalid)

theorem differ_unique {k k' : Counters} {isRead : Bool} {o o' : LookupOutcome}
    (h : k.Differ k' isRead [o]) (h' : k.Differ k' isRead [o']) : o = o' := by
  have hcount := (h o).1.symm.trans (h' o).1
  rw [Nat.add_left_cancel_iff, List.count_singleton_self] at hcount
  exact (List.mem_singleton.mp (List.count_pos_iff.mp (hcount ▸ Nat.one_pos)))

/-- **Step lemma.** A lookup hits the blocks that were used last. -/
theorem Tracks.step (hgeometry : c.Geometry) (hallocate : c.writeAllocate = true)
    (hs : Tracks contains c ls s) (htimes : (ls ++ [l]).Pairwise fun l l' => l.now < l'.now)
    (hfetch : ¬l.DontFetch contains c) (hsets : c.numSets < 2 ^ 31)
    (hindex : c.index l.block < 2 ^ 31) :
    ∃ s', s.lookup contains l = some s' ∧ Tracks contains c (ls ++ [l]) s' ∧
      LruStep c ls l s s' := by
  have hshape := hs.config.shape
  have hgeometry' := hshape.geometry hgeometry
  rw [← hshape.numSets_eq] at hsets
  rw [← hshape.index_eq] at hindex
  have hfetch' : ¬l.DontFetch contains s := fun h =>
    hfetch ((hs.config.fetch_eq l.range).symm.trans h)
  obtain ⟨hbefore, -, hpast⟩ := List.pairwise_append.mp htimes
  have hstamps : ∀ line ∈ s.cacheLines, line.valid = true → line.lru ≠ BitVec.allOnes 64 := by
    intro line hmem hvalid hmax
    obtain ⟨l', hl', hstamp⟩ := hs.stamped line hmem hvalid
    have hlt := hpast l' hl' l (List.mem_singleton_self _)
    rw [← hstamp, hmax, BitVec.lt_def, BitVec.toNat_allOnes] at hlt
    have := l.now.isLt
    omega
  obtain ⟨v, hv, lru, line, hvictim, hline, hleast⟩ :=
    findVictim_least hgeometry' hsets hindex hs.unpinned hstamps
  obtain ⟨found, hfound⟩ := exists_findHit hgeometry' hsets l.block
  obtain ⟨s', hrun⟩ : ∃ s', s.lookup contains l = some s' := by
    refine exists_lookup hfound ?_ fun _ => ⟨_, lru, hvictim, (List.getElem?_eq_some_iff.mp hline).1⟩
    rintro set rfl
    obtain ⟨-, other, hother, -⟩ := findHit_cases hfound
    exact (List.getElem?_eq_some_iff.mp hother).1
  refine ⟨s', hrun, ?_⟩
  obtain ⟨o, hdiffer, hwhat⟩ := lookup_counts hfetch' hrun
  obtain ⟨hconfig, ⟨i, hhits, htouches⟩ | ⟨i, hbrings, hreplaces⟩ | ⟨hnoHit, hnoBring, -⟩⟩ :=
    lookup_cases hrun
  · obtain ⟨-, set, hset, -⟩ := id hhits
    have hholds : s.Holds l.block := by
      obtain ⟨hlt, other, hother, hvalid, htag⟩ := findHit_cases hset
      exact ⟨set, hlt, other, hother, hvalid, htag⟩
    have hrecent := (hs.recent_iff l.block).mpr hholds
    rcases hwhat with ⟨rfl, -⟩ | ⟨-, hmiss⟩
    · exact ⟨hs.hit hgeometry hhits hconfig htouches, ⟨fun _ => hrecent, fun _ => hdiffer⟩,
        fun hnot => absurd hrecent hnot⟩
    · rw [hmiss] at hset
      cases hset
  · obtain ⟨-, hmiss, -, lru', hvictim'⟩ := hbrings
    have hnotHolds : ¬s.Holds l.block := findHit_cases hmiss
    have hnotRecent := fun h => hnotHolds ((hs.recent_iff l.block).mp h)
    rw [hvictim] at hvictim'
    cases hvictim'
    rw [hshape.index_eq] at hline hleast hreplaces
    rw [hshape.numSets_eq] at hv hleast
    obtain ⟨htracks, hisVictim⟩ :=
      hs.replace hgeometry hbefore hnotHolds hv hline hleast hconfig hreplaces
    rcases hwhat with ⟨-, i, -, set, hset, -⟩ | ⟨rfl, -⟩
    · rw [hmiss] at hset
      cases hset
    · refine ⟨htracks, ⟨fun hhit => ?_, fun h => absurd h hnotRecent⟩, fun _ =>
        ⟨hdiffer, _, hisVictim, hreplaces⟩⟩
      cases differ_unique hhit hdiffer
  · cases found with
    | some set => exact absurd ⟨hfetch', set, hfound, rfl⟩ (hnoHit _)
    | none =>
      exact absurd ⟨hfetch', hfound, .inr (hs.config.writeAllocate_eq.trans hallocate), lru, hvictim⟩
        (hnoBring _)

theorem tracks_nil (hempty : ∀ line ∈ c.cacheLines, line.valid = false ∧ line.pinned = false) :
    Tracks contains c [] c where
  config := .refl c
  unpinned line hmem := (hempty line hmem).2
  stamped line hmem hvalid := by
    rw [(hempty line hmem).1] at hvalid
    cases hvalid
  entries block := by
    have hnone : c.entries (c.index block) = [] := by
      refine List.eq_nil_iff_forall_not_mem.mpr fun e he => ?_
      obtain ⟨set, -, line, hline, hvalid, -⟩ := mem_entries.mp he
      rw [(hempty line (List.mem_of_getElem? hline)).1] at hvalid
      cases hvalid
    rw [hnone, uses, List.filter_nil, List.map_nil, recency_nil, List.take_nil]

/-- **Run lemma.** A run of lookups in sets that `int` can index. -/
theorem tracks_run (hgeometry : c.Geometry) (hallocate : c.writeAllocate = true)
    (hempty : ∀ line ∈ c.cacheLines, line.valid = false ∧ line.pinned = false)
    (htimes : ls.Pairwise fun l l' => l.now < l'.now) (hfetch : ∀ l ∈ ls, ¬l.DontFetch contains c)
    (hint : ∀ l ∈ ls, c.numSets < 2 ^ 31 ∧ c.index l.block < 2 ^ 31) :
    ∃ s, ls.foldlM (lookup contains) c = some s ∧ Tracks contains c ls s := by
  induction ls using List.reverseRecOn with
  | nil => exact ⟨c, rfl, tracks_nil hempty⟩
  | append_singleton ls l ih =>
    obtain ⟨s, hrun, hs⟩ := ih (List.pairwise_append.mp htimes).1
      (fun l' hl' => hfetch l' (List.mem_append_left _ hl'))
      (fun l' hl' => hint l' (List.mem_append_left _ hl'))
    have hmem : l ∈ ls ++ [l] := List.mem_append_right _ (List.mem_singleton_self _)
    obtain ⟨s', hstep, hs', -⟩ := hs.step hgeometry hallocate htimes (hfetch l hmem)
      (hint l hmem).1 (hint l hmem).2
    refine ⟨s', ?_, hs'⟩
    rw [List.foldlM_append, hrun]
    exact foldlM_singleton.mpr hstep

/-! ### Sets that `int` cannot index -/

theorem scan_eq_none {β : Type} {lines : List CacheLine} {index : Nat}
    {body : Nat → CacheLine → β → ForInStep β}
    (hbody : ∀ set line b, lines[index + set]? = some line → set < c.numSets →
      ∃ b', body set line b = .yield b')
    {n set : Nat} (hn : set + n = c.numSets) (hset : set < 2 ^ 31) (hint : 2 ^ 31 ≤ c.numSets)
    (b : β) : scan lines index body n set b = none := by
  induction n generalizing set b with
  | zero => omega
  | succ n ih =>
    unfold scan
    cases hline : lines[index + set]? with
    | none => rfl
    | some line =>
      obtain ⟨b', hyield⟩ := hbody set line b hline (by omega)
      simp only [hyield]
      split
      · rfl
      · exact ih (by omega) (by omega) b'

theorem findVictim_lt {block : Nat} {found : Int × BitVec 64}
    (h : c.findVictim block = some found) : found.1 < 2 ^ 31 := by
  have hint : ∀ n : Nat, (BitVec.ofNat 32 n).toInt < 2 ^ 31 := fun n => BitVec.toInt_lt
  refine scan_invariant (fun _ (found : Int × BitVec 64) => found.1 < 2 ^ 31)
    (fun found => found.1 < 2 ^ 31) ?_ (fun _ => id) (Nat.zero_add _) (by decide) h
  rintro set line ⟨victim, victimLru⟩ - - hvictim
  by_cases hvalid : line.valid = false
  · simp only [if_pos hvalid]
    refine ⟨fun b' hb' => ?_, (fun b' hb' => by cases hb')⟩
    cases hb'
    exact hint _
  · simp only [if_neg hvalid]
    refine ⟨fun b' hb' => ?_, fun b' hb' => ?_⟩
    · split at hb'
      · cases hb'
      · split at hb' <;> cases hb'
    · split at hb'
      · cases hb'
        exact hvictim
      · split at hb'
        · cases hb'
          exact hint _
        · cases hb'
          exact hvictim

/-- A lookup in a set that was not used before is exact only if `int` can index the set. -/
theorem Tracks.bounds (hs : Tracks contains c ls s)
    (hfetch : ¬l.DontFetch contains c)
    (hint : ∀ l' ∈ ls, c.numSets < 2 ^ 31 ∧ c.index l'.block < 2 ^ 31)
    (h : s.lookup contains l = some s') (hstep : LruStep c ls l s s') :
    c.numSets < 2 ^ 31 ∧ c.index l.block < 2 ^ 31 := by
  by_contra hbounds
  have hshape := hs.config.shape
  have hunused : ls.filter (c.index ·.block = c.index l.block) = [] := by
    refine List.filter_eq_nil_iff.mpr fun l' hl' hsame => hbounds ?_
    obtain ⟨hsets, hindex⟩ := hint l' hl'
    exact ⟨hsets, of_decide_eq_true hsame ▸ hindex⟩
  have hempty : ∀ set < s.numSets, ∀ line, s.cacheLines[c.index l.block + set]? = some line →
      line.valid = false := by
    intro set hset line hline
    by_contra hvalid
    have hentries := hs.entries l.block
    rw [uses, hunused, List.map_nil, recency_nil, List.take_nil] at hentries
    have hmem := mem_entries.mpr ⟨set, hset, line, hline, (Bool.not_eq_false _).mp hvalid, rfl⟩
    rw [hentries.eq_nil] at hmem
    cases hmem
  have hnotRecent : ¬Recent c.numSets (c.history (c.index l.block) ls) l.block := by
    rw [history, hunused]
    rintro ⟨before, since, hsplit, -⟩
    cases before <;> cases hsplit
  obtain ⟨-, i, ⟨line, ⟨hlo, hhi, hline⟩, -⟩, hreplaces⟩ := hstep.victim hnotRecent
  have hinvalid : line.valid = false := by
    refine hempty (i - c.index l.block) (by omega) line ?_
    rwa [Nat.add_sub_cancel' hlo]
  obtain ⟨line', hline', hlines, -⟩ := hreplaces.line
  have hnew := congrArg (·[i]?) hlines
  simp only [List.getElem?_set_self (List.getElem?_eq_some_iff.mp hline).1] at hnew
  by_cases hsets : c.numSets < 2 ^ 31
  · -- The index of the line is too large for the `int` of its victim.
    have hindex : 2 ^ 31 ≤ c.index l.block := not_lt.mp fun hlt => hbounds ⟨hsets, hlt⟩
    have hkeeps : s'.cacheLines[i]? = some line → False := by
      intro hsame
      rw [hsame] at hnew
      cases hnew
      cases hinvalid
    obtain ⟨-, ⟨j, ⟨-, set, hfound, -⟩, -⟩ | ⟨j, ⟨-, -, -, lru, hvictim⟩, hreplaces'⟩ |
      ⟨-, -, hpasses⟩⟩ := lookup_cases h
    · obtain ⟨hset, other, hother, hvalid, -⟩ := findHit_cases hfound
      rw [hshape.index_eq] at hother
      rw [hempty set hset other hother] at hvalid
      cases hvalid
    · have hlt : j < 2 ^ 31 := by
        have hlt := findVictim_lt hvictim
        dsimp only at hlt
        omega
      obtain ⟨-, -, hlines', -⟩ := hreplaces'.line
      refine hkeeps ?_
      rw [hlines', List.getElem?_set_ne (by omega), hline]
    · refine hkeeps ?_
      rw [hpasses.lines_eq, hline]
  · have hnone : s.findHit l.block = none := by
      refine scan_eq_none (c := s) (fun set line b hget hset => ?_) (Nat.zero_add _) (by omega) ?_ _
      · rw [hshape.index_eq] at hget
        exact ⟨b, if_neg (by simp [hempty set hset line hget])⟩
      · rw [hshape.numSets_eq]
        exact not_lt.mp hsets
    have hcached : ¬dontFetch contains s l.range = true := fun hdont =>
      hfetch ((hs.config.fetch_eq l.range).symm.trans hdont)
    rw [lookup, lookupBlock, if_neg hcached, hnone] at h
    cases h

/-! ### Single-block accesses -/

variable (contains) in
/-- An access that looks up one block, which is cacheable. -/
def SingleBlock (c : Cache) (a : BitVec 64 × CacheAccess) : Prop :=
  MaskCovers a ∧ ∃ l, c.lookups a = [l] ∧ ¬l.DontFetch contains c

variable (contains) in
/-- Every access of a run is a lookup of a cache whose sets hold the blocks that were used last. -/
def LruExact (c : Cache) (accesses : List (BitVec 64 × CacheAccess)) : Prop :=
  ∀ earlier a later, accesses = earlier ++ a :: later →
    ∃ s s' l, c.accesses contains earlier = some s ∧ s.access contains a = some s' ∧
      c.lookups a = [l] ∧ LruStep c (earlier.flatMap c.lookups) l s s'

theorem now_of_mem_lookups {a : BitVec 64 × CacheAccess} (h : l ∈ c.lookups a) : l.now = a.1 := by
  have helement : ∀ {now address size isRead}, l ∈ c.elementLookups now address size isRead →
      l.now = now := by
    intro now address size isRead h
    obtain ⟨block, -, rfl⟩ := List.mem_map.mp h
    rfl
  have hvector : ∀ {now addresses mask elSize isRead},
      l ∈ c.vectorLookups now addresses mask elSize isRead → l.now = now := by
    intro now addresses mask elSize isRead h
    obtain ⟨i, -, h⟩ := List.mem_flatMap.mp h
    split at h
    · exact helement h
    · cases h
  obtain ⟨now, a⟩ := a
  cases a with
  | load address size | store address size | storeTagged address size => exact helement h
  | loadVector addresses mask elSize | storeVector addresses mask elSize => exact hvector h
  | loadTagged address db numTags => cases db <;> exact helement h

variable {accesses : List (BitVec 64 × CacheAccess)}

theorem pairwise_lookups (hsingle : ∀ a ∈ accesses, c.SingleBlock contains a)
    (htimes : accesses.Pairwise fun a a' => a.1 < a'.1) :
    (accesses.flatMap c.lookups).Pairwise fun l l' => l.now < l'.now := by
  refine List.pairwise_flatMap.mpr ⟨fun a ha => ?_, htimes.imp fun hlt l hl l' hl' => ?_⟩
  · obtain ⟨-, l, hl, -⟩ := hsingle a ha
    rw [hl]
    exact List.pairwise_singleton _ _
  · rw [now_of_mem_lookups hl, now_of_mem_lookups hl']
    exact hlt

theorem fetch_of_singleBlock (hsingle : ∀ a ∈ accesses, c.SingleBlock contains a) :
    ∀ l ∈ accesses.flatMap c.lookups, ¬l.DontFetch contains c := by
  intro l hl
  obtain ⟨a, ha, hl⟩ := List.mem_flatMap.mp hl
  obtain ⟨-, l', hl', hfetch⟩ := hsingle a ha
  rw [hl'] at hl
  obtain rfl := List.mem_singleton.mp hl
  exact hfetch

end Cache

open Cache

variable (contains : List AddressRange → AddressRange → Bool)

/-- **LRU stack property.** For single-block cacheable accesses at increasing times to a configured
    cache with write-allocate, a block is hit exactly if it is one of the `numSets` blocks of its set
    that were used last, and the victim of a miss is an invalid line or the one used the longest time
    ago, exactly if `int` can count the lines of a set and index those of the sets that are used. -/
theorem lru_iff (before c : Cache) (config : List Char) (hconfig : before.Configures config c)
    (hallocate : c.writeAllocate = true) (accesses : List (BitVec 64 × CacheAccess))
    (hsingle : ∀ a ∈ accesses, c.SingleBlock contains a)
    (htimes : accesses.Pairwise fun a a' => a.1 < a'.1) :
    c.LruExact contains accesses ↔
      ∀ l ∈ accesses.flatMap c.lookups, c.numSets < 2 ^ 31 ∧ c.index l.block < 2 ^ 31 := by
  obtain ⟨hgeometry, -⟩ := hconfig.spec
  have hempty : ∀ line ∈ c.cacheLines, line.valid = false ∧ line.pinned = false := by
    intro line hmem
    rw [hconfig.new line hmem]
    exact ⟨rfl, rfl⟩
  constructor
  · intro hexact
    -- Induction on the part of the run that has been looked at: its sets could be indexed.
    suffices hprefix : ∀ earlier later, accesses = earlier ++ later →
        ∀ l ∈ earlier.flatMap c.lookups, c.numSets < 2 ^ 31 ∧ c.index l.block < 2 ^ 31 from
      hprefix accesses [] (by simp)
    intro earlier
    induction earlier using List.reverseRecOn with
    | nil => simp
    | append_singleton earlier a ih =>
      rintro later rfl
      rw [List.append_assoc, List.singleton_append] at hsingle htimes hexact
      have hint := ih (a :: later) (by simp)
      have hearlier : ∀ b ∈ earlier, c.SingleBlock contains b :=
        fun b hb => hsingle b (List.mem_append_left _ hb)
      obtain ⟨s, s', l, hrun, hstep, hl, hlru⟩ := hexact earlier a later rfl
      obtain ⟨-, l', hl', hfetch⟩ :=
        hsingle a (List.mem_append_right _ List.mem_cons_self)
      obtain rfl : l = l' := by
        rw [hl] at hl'
        cases hl'
        rfl
      obtain ⟨s₀, hrun₀, hs⟩ := tracks_run hgeometry hallocate hempty
        (pairwise_lookups hearlier (List.pairwise_append.mp htimes).1)
        (fetch_of_singleBlock hearlier) hint
      obtain rfl : s₀ = s := Option.some.inj (hrun₀.symm.trans (foldlM_accesses hrun))
      have hlookup : s₀.lookup contains l = some s' := by
        have h := foldlM_lookups hstep
        rw [hs.config.shape.lookups_eq, hl] at h
        exact foldlM_singleton.mp h
      rw [List.flatMap_append, List.flatMap_singleton, hl]
      intro m hm
      rcases List.mem_append.mp hm with hm | hm
      · exact hint m hm
      · obtain rfl := List.mem_singleton.mp hm
        exact hs.bounds hfetch hint hlookup hlru
  · rintro hint earlier a later rfl
    have hearlier : ∀ b ∈ earlier, c.SingleBlock contains b :=
      fun b hb => hsingle b (List.mem_append_left _ hb)
    have hmem : a ∈ earlier ++ a :: later := List.mem_append_right _ List.mem_cons_self
    obtain ⟨hmask, l, hl, hfetch⟩ := hsingle a hmem
    have hint' : ∀ b ∈ earlier ++ a :: later, ∀ m ∈ c.lookups b,
        c.numSets < 2 ^ 31 ∧ c.index m.block < 2 ^ 31 :=
      fun b hb m hm => hint m (List.mem_flatMap.mpr ⟨b, hb, hm⟩)
    obtain ⟨s, hrun, hs⟩ := tracks_run hgeometry hallocate hempty
      (pairwise_lookups hearlier (List.pairwise_append.mp htimes).1) (fetch_of_singleBlock hearlier)
      (fun m hm => by
        obtain ⟨b, hb, hm⟩ := List.mem_flatMap.mp hm
        exact hint' b (List.mem_append_left _ hb) m hm)
    have hpast : (earlier.flatMap c.lookups ++ [l]).Pairwise fun m m' => m.now < m'.now := by
      have h := pairwise_lookups hsingle htimes
      rw [List.flatMap_append, List.flatMap_cons, hl, ← List.append_assoc] at h
      exact (List.pairwise_append.mp h).1
    obtain ⟨hsets, hindex⟩ := hint' a hmem l (by rw [hl]; exact List.mem_singleton_self _)
    obtain ⟨s', hstep, -, hlru⟩ := hs.step hgeometry hallocate hpast hfetch hsets hindex
    refine ⟨s, s', l, accesses_of_foldlM_lookups (fun b hb => (hearlier b hb).1) hrun, ?_, hl, hlru⟩
    refine access_of_foldlM_lookups hmask ?_
    rw [hs.config.shape.lookups_eq, hl]
    exact foldlM_singleton.mpr hstep

/-- Three accesses to one set of two lines. -/
def oneSet : List (BitVec 64 × CacheAccess) := [(1, .load 0 4), (2, .store 8 4), (3, .load 0 4)]

theorem lru_iff_oneSet :
    twoLines.LruExact (fun _ _ => false) oneSet ↔
      ∀ l ∈ oneSet.flatMap twoLines.lookups, twoLines.numSets < 2 ^ 31 ∧
        twoLines.index l.block < 2 ^ 31 := by
  refine lru_iff (fun _ _ => false) {} twoLines _ twoLines_configures rfl oneSet ?_ (by decide)
  intro a ha
  have hfetch : ∀ l : Lookup, ¬l.DontFetch (fun _ _ => false) twoLines :=
    fun _ => Bool.false_ne_true
  fin_cases ha
  · exact ⟨trivial, _, rfl, hfetch _⟩
  · exact ⟨trivial, _, rfl, hfetch _⟩
  · exact ⟨trivial, _, rfl, hfetch _⟩

/-- A direct-mapped cache of 16 gigabytes. -/
def manyLines : Cache :=
  ((configure ['1', '6', 'G', ',', '4', ',', '1', ',', 't', 'r', 'u', 'e'] true).run.run {}).2

theorem manyLines_configures : Cache.Configures {}
    ['1', '6', 'G', ',', '4', ',', '1', ',', 't', 'r', 'u', 'e'] manyLines :=
  have hok : ((configure ['1', '6', 'G', ',', '4', ',', '1', ',', 't', 'r', 'u', 'e'] true).run.run
    {}).1 = .ok () := rfl
  ⟨true, Prod.ext hok rfl⟩

/-- A load whose line has an index that does not fit in `int`. -/
def farLoad : List (BitVec 64 × CacheAccess) := [(1, .load (1#64 <<< 33) 4)]

theorem farLoad_not_exact :
    Cache.Configures {} ['1', '6', 'G', ',', '4', ',', '1', ',', 't', 'r', 'u', 'e'] manyLines ∧
    manyLines.writeAllocate = true ∧ (∀ a ∈ farLoad, manyLines.SingleBlock (fun _ _ => false) a) ∧
    farLoad.Pairwise (fun a a' => a.1 < a'.1) ∧ ¬manyLines.LruExact (fun _ _ => false) farLoad := by
  have hfetch : ∀ l : Lookup, ¬l.DontFetch (fun _ _ => false) manyLines :=
    fun _ => Bool.false_ne_true
  have hlookups : manyLines.lookups (1, .load (1#64 <<< 33) 4)
      = [⟨1, ⟨1#64 <<< 33, (1#64 <<< 33) + 3⟩, true, 2147483648⟩] := by
    decide
  refine ⟨manyLines_configures, rfl, ?_, List.pairwise_singleton _ _, fun hexact => ?_⟩
  · intro a ha
    obtain rfl := List.mem_singleton.mp ha
    exact ⟨trivial, _, hlookups, hfetch _⟩
  · obtain ⟨s, s', l, hrun, hstep, hl, hlru⟩ := hexact [] _ [] rfl
    obtain rfl : manyLines = s := Option.some.inj hrun
    have hlookup := foldlM_lookups hstep
    rw [hlookups] at hl hlookup
    cases hl
    have hempty : ∀ line ∈ manyLines.cacheLines, line.valid = false ∧ line.pinned = false := by
      intro line hmem
      rw [manyLines_configures.new line hmem]
      exact ⟨rfl, rfl⟩
    obtain ⟨-, hindex⟩ := (tracks_nil hempty).bounds (hfetch _) (by simp)
      (foldlM_singleton.mp hlookup) hlru
    have hlarge : manyLines.index 2147483648 = 2147483648 := rfl
    rw [hlarge] at hindex
    exact absurd hindex (by decide)

end MpactSim.Memory
