import MpactSim.Memory.CacheLookups

namespace MpactSim.Memory

open Lib

/-!
# Dirty lines

A line is marked as dirty when a write hits it, and its mark is counted when it is replaced.
`ReplaceBlock` leaves a line without a mark, also if it is a write that brings the block in.

* `Written`, `evictions`     — the lines that are written, and how many of these are replaced;
* `WriteAllocates`           — a write that brings a block in;
* `dirty_iff_written`        — without such writes, the marks and the counter are right.
-/

variable (contains : List AddressRange → AddressRange → Bool)

namespace Cache

/-- The system of the lookups. -/
def step : Cache → Lookup → Cache := attempt (lookup contains)

/-- The line `i` has been written by a hit or by the allocation since its block was brought in. -/
def Written (i : Nat) (c : Cache) (ls : List Lookup) : Prop :=
  Since (step contains) (fun c l => l.isRead = false ∧ (l.Hits contains i c ∨ l.Brings contains i c))
    (fun c l => ¬l.Brings contains i c) c ls

/-- The lookup at a place of a run evicts a line that has been written. -/
def EvictsWritten (c : Cache) (ls : List Lookup) (k : Nat) : Prop :=
  ∃ l i line, ls[k]? = some l ∧ l.Brings contains i (run (step contains) c (ls.take k)) ∧
    (run (step contains) c (ls.take k)).cacheLines[i]? = some line ∧ line.valid = true ∧
    Written contains i c (ls.take k)

open Classical in
/-- The number of evictions of lines that had been written. -/
noncomputable def evictions (c : Cache) (ls : List Lookup) : Nat :=
  ((Finset.range ls.length).filter (EvictsWritten contains c ls)).card

/-- A line of a set can be replaced: it is not valid, or it is neither pinned nor has the largest
    time stamp. -/
def CanReplace (c : Cache) (block : Nat) : Prop :=
  ∃ set < c.numSets, ∃ line, c.cacheLines[c.index block + set]? = some line ∧
    (line.valid = false ∨ line.pinned = false ∧ line.lru ≠ BitVec.allOnes 64)

/-- A write that brings its block in. -/
def WriteAllocates (c : Cache) (l : Lookup) : Prop :=
  l.isRead = false ∧ c.writeAllocate = true ∧ ¬l.DontFetch contains c ∧ ¬c.Holds l.block ∧
    c.CanReplace l.block

variable {contains} {c c' : Cache} {l : Lookup} {i j : Nat}

/-- There is a victim only if a line of the set can be replaced. -/
theorem canReplace_of_findVictim {block : Nat} {lru : BitVec 64}
    (h : c.findVictim block = some ((i : Int), lru)) : c.CanReplace block := by
  have hscan := scan_invariant
    (fun _ (found : Int × BitVec 64) => found = (-1, BitVec.allOnes 64) ∨ c.CanReplace block)
    (fun found => found.1 = -1 ∨ c.CanReplace block) ?_ ?_ (Nat.zero_add _) (.inl rfl) h
  · exact hscan.resolve_left (by show ¬((i : Int) = -1); omega)
  · rintro set line ⟨victim, victimLru⟩ hset hline hfound
    by_cases hvalid : line.valid = false
    · have hcan : c.CanReplace block := ⟨set, hset, line, hline, .inl hvalid⟩
      exact ⟨fun b' _ => .inr hcan, fun b' _ => .inr hcan⟩
    · by_cases hpinned : line.pinned = true
      · simp only [if_neg hvalid, if_pos hpinned]
        refine ⟨(fun b' hb' => by cases hb'), fun b' hb' => ?_⟩
        cases hb'
        exact hfound
      · simp only [if_neg hvalid, if_neg hpinned]
        refine ⟨fun b' hb' => ?_, fun b' hb' => ?_⟩
        · split at hb' <;> cases hb'
        · split at hb'
          · rename_i hlru
            refine .inr ⟨set, hset, line, hline, .inr ⟨by simpa using hpinned, fun hmax => ?_⟩⟩
            rw [hmax, BitVec.lt_def] at hlru
            have := victimLru.isLt
            simp at hlru
            omega
          · cases hb'
            exact hfound
  · rintro found (rfl | hcan)
    · exact .inl rfl
    · exact .inr hcan

theorem writeAllocates_of_brings (hbrings : l.Brings contains i c) (hwrite : l.isRead = false) :
    c.WriteAllocates contains l := by
  obtain ⟨hfetch, hmiss, hallocate, lru, hvictim⟩ := hbrings
  refine ⟨hwrite, hallocate.resolve_left ?_, hfetch, findHit_cases hmiss,
    canReplace_of_findVictim hvictim⟩
  rw [hwrite]
  exact Bool.false_ne_true

theorem Hits.unique (hi : l.Hits contains i c) (hj : l.Hits contains j c) : i = j := by
  obtain ⟨-, set, hset, rfl⟩ := hi
  obtain ⟨-, set', hset', rfl⟩ := hj
  rw [hset] at hset'
  cases hset'
  rfl

theorem Brings.unique (hi : l.Brings contains i c) (hj : l.Brings contains j c) : i = j := by
  obtain ⟨-, -, -, lru, hvictim⟩ := hi
  obtain ⟨-, -, -, lru', hvictim'⟩ := hj
  rw [hvictim] at hvictim'
  cases hvictim'
  rfl

theorem Hits.not_brings (hi : l.Hits contains i c) : ¬l.Brings contains j c := by
  obtain ⟨-, set, hset, -⟩ := hi
  rintro ⟨-, hmiss, -⟩
  rw [hset] at hmiss
  cases hmiss

/-- The line `i` is valid and marked. -/
def Dirty (c : Cache) (i : Nat) : Prop :=
  ∃ line, c.cacheLines[i]? = some line ∧ line.valid = true ∧ line.dirty = true

theorem dirty_of_lines_eq (h : c'.cacheLines = c.cacheLines) : c'.Dirty i ↔ c.Dirty i := by
  rw [Dirty, Dirty, h]

theorem dirty_set_ne {line : CacheLine} (h : c'.cacheLines = c.cacheLines.set j line) (hne : i ≠ j) :
    c'.Dirty i ↔ c.Dirty i := by
  rw [Dirty, Dirty, h, List.getElem?_set_ne (Ne.symm hne)]

theorem dirty_set_self {line old : CacheLine} (h : c'.cacheLines = c.cacheLines.set i line)
    (hold : c.cacheLines[i]? = some old) :
    c'.Dirty i ↔ line.valid = true ∧ line.dirty = true := by
  have hget : c'.cacheLines[i]? = some line := by
    rw [h, List.getElem?_set_self (List.getElem?_eq_some_iff.mp hold).1]
  constructor
  · rintro ⟨line', hline', hmark⟩
    obtain rfl := Option.some.inj (hget.symm.trans hline')
    exact hmark
  · exact fun hmark => ⟨line, hget, hmark⟩

/-- **Step lemma.** A line is marked after a lookup if it is written, or if it was and is not
    replaced. -/
theorem dirty_step_iff (h : c.lookup contains l = some c') (hok : ¬c.WriteAllocates contains l) :
    c'.Dirty i ↔ (l.isRead = false ∧ (l.Hits contains i c ∨ l.Brings contains i c)) ∨
      c.Dirty i ∧ ¬l.Brings contains i c := by
  have hread : ∀ {j}, l.Brings contains j c → l.isRead = true := fun hbrings =>
    (Bool.not_eq_false _).mp fun hwrite => hok (writeAllocates_of_brings hbrings hwrite)
  obtain ⟨-, ⟨j, hhits, ⟨line, hline, hset⟩, -⟩ | ⟨j, hbrings, line, hline, hset, -⟩ |
    ⟨hnoHit, hnoBring, hlines, -⟩⟩ := lookup_cases h
  · have hnotBrings : ¬l.Brings contains i c := Hits.not_brings hhits
    by_cases hij : i = j
    · subst hij
      have hvalid : line.valid = true := by
        obtain ⟨-, set, hfound, rfl⟩ := hhits
        obtain ⟨-, found, hfound', hvalid, -⟩ := findHit_cases hfound
        obtain rfl := Option.some.inj (hline.symm.trans hfound')
        exact hvalid
      have hdirty : c.Dirty i ↔ line.dirty = true := by
        constructor
        · rintro ⟨line', hline', -, hmark⟩
          obtain rfl := Option.some.inj (hline.symm.trans hline')
          exact hmark
        · exact fun hmark => ⟨line, hline, hvalid, hmark⟩
      rw [dirty_set_self hset hline, hdirty]
      simp [hvalid, hhits, hnotBrings, or_comm]
    · have hnotHits : ¬l.Hits contains i c := fun hi => hij (Hits.unique hi hhits)
      rw [dirty_set_ne hset hij]
      simp [hnotHits, hnotBrings]
  · have hnotHits : ¬l.Hits contains i c := fun hi => Hits.not_brings hi hbrings
    have hisRead := hread hbrings
    by_cases hij : i = j
    · subst hij
      rw [dirty_set_self hset hline]
      simp [hbrings, hisRead]
    · have hnotBrings : ¬l.Brings contains i c := fun hi => hij (Brings.unique hi hbrings)
      rw [dirty_set_ne hset hij]
      simp [hnotBrings, hisRead]
  · rw [dirty_of_lines_eq hlines]
    simp [hnoHit i, hnoBring i]

/-! ### Runs -/

variable {ls : List Lookup}

/-- The lookups of a run have results, and no write brings a block in. -/
def RunOk (contains : List AddressRange → AddressRange → Bool) (c : Cache) (l : Lookup) : Prop :=
  (∃ c', c.lookup contains l = some c') ∧ ¬c.WriteAllocates contains l

/-- **Run lemma**: the lines that are marked are those that have been written. -/
theorem dirty_run_iff (hinit : ¬c.Dirty i) (hok : Along (step contains) (RunOk contains) c ls) :
    (run (step contains) c ls).Dirty i ↔ Written contains i c ls := by
  refine iff_since_of_step (fun s => s.Dirty i) hinit (fun s l hl => ?_) hok
  obtain ⟨⟨s', hrun⟩, hwrite⟩ := hl
  show (step contains s l).Dirty i ↔ _
  rw [step, attempt_eq hrun]
  exact dirty_step_iff hrun hwrite

theorem evictsWritten_snoc_of_lt {k : Nat} (hk : k < ls.length) :
    EvictsWritten contains c (ls ++ [l]) k ↔ EvictsWritten contains c ls k := by
  rw [EvictsWritten, EvictsWritten, List.getElem?_append_left hk,
    List.take_append_of_le_length hk.le]

theorem evictsWritten_snoc_self :
    EvictsWritten contains c (ls ++ [l]) ls.length ↔
      ∃ i line, l.Brings contains i (run (step contains) c ls) ∧
        (run (step contains) c ls).cacheLines[i]? = some line ∧ line.valid = true ∧
        Written contains i c ls := by
  rw [EvictsWritten, List.getElem?_concat_length, List.take_left]
  constructor
  · rintro ⟨l', i, line, hl, hrest⟩
    cases hl
    exact ⟨i, line, hrest⟩
  · rintro ⟨i, line, hrest⟩
    exact ⟨l, i, line, rfl, hrest⟩

open Classical in
theorem evictions_snoc (contains : List AddressRange → AddressRange → Bool) (c : Cache)
    (ls : List Lookup) (l : Lookup) :
    evictions contains c (ls ++ [l]) = evictions contains c ls +
      if EvictsWritten contains c (ls ++ [l]) ls.length then 1 else 0 := by
  have hbefore : (Finset.range ls.length).filter (EvictsWritten contains c (ls ++ [l]))
      = (Finset.range ls.length).filter (EvictsWritten contains c ls) :=
    Finset.filter_congr fun k hk => evictsWritten_snoc_of_lt (Finset.mem_range.mp hk)
  rw [evictions, evictions, List.length_append, List.length_singleton, Finset.range_add_one,
    Finset.filter_insert, hbefore]
  split
  · rw [Finset.card_insert_of_notMem]
    intro hmem
    exact absurd (Finset.mem_range.mp (Finset.mem_filter.mp hmem).1) (lt_irrefl _)
  · rw [Nat.add_zero]

open Classical in
/-- **Run lemma**: the counter is that of the lines that were written and evicted. -/
theorem writeback_run (hinit : ∀ i, ¬c.Dirty i)
    (hok : Along (step contains) (RunOk contains) c ls) :
    (run (step contains) c ls).counters.dirtyLineWriteback
      = c.counters.dirtyLineWriteback + evictions contains c ls := by
  -- Induction on the end of the run: the last lookup counts a line that it replaces.
  induction ls using List.reverseRecOn with
  | nil =>
    show _ = _ + Finset.card _
    simp
  | append_singleton ls l ih =>
    obtain ⟨hbefore, ⟨s', hrun⟩, hwrite⟩ := along_snoc.mp hok
    have hcount := ih hbefore
    have hlast : step contains (run (step contains) c ls) l = s' := attempt_eq hrun
    rw [run_snoc, hlast, evictions_snoc, ← Nat.add_assoc, ← hcount]
    have hdirty : ∀ i, (run (step contains) c ls).Dirty i ↔ Written contains i c ls :=
      fun i => dirty_run_iff (hinit i) hbefore
    obtain ⟨-, ⟨j, hhits, -, hwriteback⟩ | ⟨j, hbrings, line, hline, -, hwriteback⟩ |
      ⟨-, hnoBring, -, hwriteback⟩⟩ := lookup_cases hrun
    · rw [hwriteback, if_neg, Nat.add_zero]
      rw [evictsWritten_snoc_self]
      rintro ⟨i, -, hbrings, -⟩
      exact Hits.not_brings hhits hbrings
    · rw [hwriteback]
      refine congrArg _ (if_congr ?_ rfl rfl)
      rw [evictsWritten_snoc_self, Bool.and_eq_true]
      constructor
      · rintro ⟨hvalid, hmark⟩
        exact ⟨j, line, hbrings, hline, hvalid, (hdirty j).mp ⟨line, hline, hvalid, hmark⟩⟩
      · rintro ⟨i, line', hbrings', hline', hvalid, hwritten⟩
        obtain rfl := Brings.unique hbrings hbrings'
        obtain rfl := Option.some.inj (hline.symm.trans hline')
        obtain ⟨line', hline'', -, hmark⟩ := (hdirty j).mpr hwritten
        obtain rfl := Option.some.inj (hline.symm.trans hline'')
        exact ⟨hvalid, hmark⟩
    · rw [hwriteback, if_neg, Nat.add_zero]
      rw [evictsWritten_snoc_self]
      rintro ⟨i, -, hbrings, -⟩
      exact hnoBring i hbrings

end Cache

open Cache

variable (contains : List AddressRange → AddressRange → Bool)

/-- **Dirty lines and write-backs.** After every run of accesses to a configured cache in which no
    write brings a block in, a valid line is marked exactly if it was written since its block was
    brought in, and the counter has been incremented for each eviction of such a line. -/
theorem dirty_iff_written (before c last : Cache) (config : List Char)
    (hconfig : before.Configures config c) (accesses : List (BitVec 64 × CacheAccess))
    (hrun : c.accesses contains accesses = some last)
    (hok : Along (Cache.step contains) (fun s l => ¬s.WriteAllocates contains l) c
      (accesses.flatMap c.lookups)) :
    (∀ i line, last.cacheLines[i]? = some line → line.valid = true →
      (line.dirty = true ↔ Written contains i c (accesses.flatMap c.lookups))) ∧
    last.counters.dirtyLineWriteback = c.counters.dirtyLineWriteback +
      evictions contains c (accesses.flatMap c.lookups) := by
  obtain ⟨-, hinvalid⟩ := hconfig.spec
  have hinit : ∀ i, ¬c.Dirty i := by
    rintro i ⟨line, hline, hvalid, -⟩
    rw [hinvalid line (List.mem_of_getElem? hline)] at hvalid
    cases hvalid
  obtain ⟨rfl, hresults⟩ := run_attempt_of_foldlM (foldlM_accesses hrun)
  have halong : Along (Cache.step contains) (RunOk contains) c (accesses.flatMap c.lookups) :=
    along_and hresults hok
  refine ⟨fun i line hline hvalid => ?_, writeback_run hinit halong⟩
  rw [← dirty_run_iff (hinit i) halong]
  constructor
  · exact fun hmark => ⟨line, hline, hvalid, hmark⟩
  · rintro ⟨line', hline', -, hmark⟩
    obtain rfl := Option.some.inj (hline.symm.trans hline')
    exact hmark

/-- A block is loaded, written, and replaced by another one. -/
def storeThenEvict : List (BitVec 64 × CacheAccess) :=
  [(1, .load 0 4), (2, .store 0 4), (3, .load 8 4)]

theorem dirty_iff_written_storeThenEvict :
    ∃ last, twoLines.accesses (fun _ _ => false) storeThenEvict = some last ∧
      (∀ i line, last.cacheLines[i]? = some line → line.valid = true → (line.dirty = true ↔
        Written (fun _ _ => false) i twoLines (storeThenEvict.flatMap twoLines.lookups))) ∧
      last.counters.dirtyLineWriteback = twoLines.counters.dirtyLineWriteback +
        evictions (fun _ _ => false) twoLines (storeThenEvict.flatMap twoLines.lookups) := by
  refine ⟨_, rfl, dirty_iff_written (fun _ _ => false) {} twoLines _ _ twoLines_configures
    storeThenEvict rfl ?_⟩
  refine ⟨?_, ?_, ?_, trivial⟩
  · rintro ⟨hwrite, -⟩
    cases hwrite
  · rintro ⟨-, -, -, hmiss, -⟩
    exact hmiss ⟨0, by decide, _, rfl, rfl, rfl⟩
  · rintro ⟨hwrite, -⟩
    cases hwrite

/-- The line that a store brings in is not marked, though it is written. -/
theorem store_not_dirty :
    Cache.Configures {} ['8', ',', '4', ',', '1', ',', 't', 'r', 'u', 'e'] twoLines ∧
    ∃ last line, twoLines.accesses (fun _ _ => false) [(1, .store 0 4)] = some last ∧
      last.cacheLines[0]? = some line ∧ line.valid = true ∧
      ¬(line.dirty = true ↔ Written (fun _ _ => false) 0 twoLines
        ([(1, .store 0 4)].flatMap twoLines.lookups)) := by
  refine ⟨twoLines_configures, _, _, rfl, rfl, rfl, fun h => ?_⟩
  have hbrings : Lookup.Brings (fun _ _ => false) 0 twoLines ⟨1, ⟨0, 3⟩, false, 0⟩ :=
    ⟨Bool.false_ne_true, rfl, .inr rfl, _, rfl⟩
  exact Bool.false_ne_true (h.mpr ⟨[], _, [], rfl, ⟨rfl, .inr hbrings⟩, trivial⟩)

end MpactSim.Memory
