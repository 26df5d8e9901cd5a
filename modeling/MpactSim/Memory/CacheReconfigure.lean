import MpactSim.Memory.CacheLookups

namespace MpactSim.Memory

open Lib

/-!
# Configuring a cache again

A text is read into members of the cache before all of it has been checked.

* `Fields`        — what `Configure` reads before it assigns a member, and `fieldsOf` reads them;
* `Accepts`       — the texts that are accepted;
* `Leaves`        — the refused texts that change nothing;
* `configure_atomic_iff` — a sequence of calls is atomic and safe exactly if each of them has no
  cycle counter, is accepted, or changes nothing.
-/

/-- A cache with its cycle counter, of which only the identity matters. -/
structure ConfiguredCache where
  cache : Cache := {}
  cycleCounter : Option Nat := none

/-- `Configure`: the result, and the cache after it. -/
def ConfiguredCache.configure (s : ConfiguredCache) (config : List Char) (cycleCounter : Option Nat) :
    Except ConfigError Unit × ConfiguredCache :=
  let (result, cache) := (Memory.configure config cycleCounter.isSome).run.run s.cache
  (result, ⟨cache, cycleCounter <|> s.cycleCounter⟩)

/-! ### The texts that are accepted -/

/-- A number with the suffix behind it. -/
def withSuffix (n : Nat) : List Char → Option Nat
  | [] => some n
  | ['k'] => some (n * 1024 % 2 ^ 64)
  | ['M'] => some (n * (1024 * 1024) % 2 ^ 64)
  | ['G'] => some (n * (1024 * 1024 * 1024) % 2 ^ 64)
  | _ => none

/-- The size of the cache in bytes. -/
def cacheSizeOf (text : List Char) : Option Nat :=
  (stoull 10 text).bind fun (n, suffix) => withSuffix n suffix

/-- What is read before the number of sets is assigned, and what is behind it. -/
structure Fields where
  cacheSize : Nat
  lineSize : Nat
  numSets : Nat
  behindSets : List Char
  allocate : List Char
  ranges : List (List Char)

/-- The fields of a text, if it is read as far as the number of sets. -/
def fieldsOf (config : List Char) : Option Fields :=
  match config.splitOn ',' with
  | size :: line :: sets :: allocate :: ranges => do
    let cacheSize ← cacheSizeOf size
    let (lineSize, behindLine) ← stoull 10 line
    guard (behindLine = [])
    let (numSets, behindSets) ← stoull 10 sets
    some ⟨cacheSize, lineSize, numSets, behindSets, allocate, ranges⟩
  | _ => none

/-- The number of sets ends its field, and the next one is a flag. -/
def Fields.FlagOk (f : Fields) : Prop :=
  f.behindSets = [] ∧ (f.allocate = ['t', 'r', 'u', 'e'] ∨ f.allocate = ['f', 'a', 'l', 's', 'e'])

/-- Insert the range that a field describes, unless there is one of the other kind. -/
def Cache.insertRange (c : Cache) (text : List Char) : Option Cache :=
  match text.splitOn ':' with
  | [kind, start, stop] => do
    let (rangeStart, behindStart) ← stoull 0 start
    guard (behindStart = [])
    let (rangeEnd, behindEnd) ← stoull 0 stop
    guard (behindEnd = [])
    guard (rangeStart ≤ rangeEnd)
    guard (kind = ['c'] ∨ kind = ['n', 'c'])
    let range : AddressRange := ⟨BitVec.ofNat 64 rangeStart, BitVec.ofNat 64 rangeEnd⟩
    if kind = ['c'] then do
      guard (c.nonCacheableRanges = [])
      some { c with cacheableRanges := c.cacheableRanges ++ [range], hasCacheable := true }
    else do
      guard (c.cacheableRanges = [])
      some { c with nonCacheableRanges := c.nonCacheableRanges ++ [range], hasNonCacheable := true }
  | _ => none

/-- The sanity checks. -/
structure SizesOk (cacheSize lineSize numSets : Nat) : Prop where
  cache : hasSingleBit cacheSize = true
  line : hasSingleBit lineSize = true
  sets : numSets ≠ 0 → hasSingleBit numSets = true
  line_ge : 4 ≤ lineSize
  line_le : lineSize ≤ cacheSize
  sets_le : numSets ≠ 0 → numSets ≤ cacheSize / lineSize

/-- The members that are assigned before the ranges are read. -/
def Cache.assign (c : Cache) (f : Fields) : Cache :=
  { c with numSets := f.numSets, writeAllocate := f.allocate = ['t', 'r', 'u', 'e'] }

/-- A text that is accepted. -/
def Accepts (c : Cache) (config : List Char) : Prop :=
  ∃ f, fieldsOf config = some f ∧ f.FlagOk ∧
    (∃ c', f.ranges.foldlM Cache.insertRange (c.assign f) = some c') ∧
    SizesOk f.cacheSize f.lineSize f.numSets

/-- A text that changes no member, unless it is accepted: what is assigned before it is refused is
    what the members are, and no range is inserted. -/
def Leaves (c : Cache) (config : List Char) : Prop :=
  ∀ f, fieldsOf config = some f → f.numSets = c.numSets ∧
    (f.FlagOk → c.writeAllocate = decide (f.allocate = ['t', 'r', 'u', 'e']) ∧
      ∀ text rest, f.ranges = text :: rest → c.insertRange text = none)

/-! ### Parts that only read -/

namespace ConfigM

variable {α β : Type} {x : ConfigM α} {f : α → ConfigM β} {o : Option α}
  {o' : Option Cache} {c c' : Cache}

/-- The part has a result or fails, and changes nothing. -/
structure Reads (x : ConfigM α) (o : Option α) : Prop where
  ok : ∀ a, o = some a → ∀ c, x.run.run c = (.ok a, c)
  error : o = none → ∀ c, ∃ e, x.run.run c = (.error e, c)

theorem reads_pure (a : α) : Reads (pure a) (some a) :=
  ⟨fun _ h _ => by cases h; rfl, nofun⟩

theorem reads_throw (e : ConfigError) : Reads (throw e : ConfigM α) none :=
  ⟨nofun, fun _ _ => ⟨e, rfl⟩⟩

theorem reads_readNumber (base : Nat) (text : List Char) :
    Reads (readNumber base text) (stoull base text) := by
  rw [readNumber]
  cases stoull base text with
  | none => exact reads_throw _
  | some result => exact reads_pure _

theorem reads_failIf {condition check : Prop} [Decidable condition] [Decidable check]
    {message : String} (h : check ↔ ¬condition) :
    Reads (failIf condition message) (guard check) := by
  rw [failIf, guard]
  by_cases hcondition : condition
  · rw [if_pos hcondition, if_neg fun hcheck => h.mp hcheck hcondition]
    exact reads_throw _
  · rw [if_neg hcondition, if_pos (h.mpr hcondition)]
    exact reads_pure _

theorem Reads.bind_ok (hx : Reads x o) {a : α} (ho : o = some a) (f : α → ConfigM β) (c : Cache) :
    (x >>= f).run.run c = (f a).run.run c := by
  rw [bind_run, hx.ok a ho c]

theorem Reads.bind_error (hx : Reads x o) (ho : o = none) (f : α → ConfigM β) (c : Cache) :
    ∃ e, (x >>= f).run.run c = (.error e, c) := by
  obtain ⟨e, he⟩ := hx.error ho c
  exact ⟨e, by rw [bind_run, he]⟩

theorem Reads.bind {g : α → Option β} (hx : Reads x o) (hf : ∀ a, Reads (f a) (g a)) :
    Reads (x >>= f) (o >>= g) := by
  refine ⟨fun b hb c => ?_, fun hnone c => ?_⟩
  · obtain ⟨a, ha, hb⟩ := Option.bind_eq_some_iff.mp hb
    rw [hx.bind_ok ha]
    exact (hf a).ok b hb c
  · cases o with
    | none => exact hx.bind_error rfl f c
    | some a =>
      rw [hx.bind_ok rfl]
      exact (hf a).error hnone c

/-- The part changes the cache, or fails without a change. -/
structure Settles (x : ConfigM PUnit) (c : Cache) (o : Option Cache) : Prop where
  ok : ∀ c', o = some c' → x.run.run c = (.ok ⟨⟩, c')
  error : o = none → ∃ e, x.run.run c = (.error e, c)

theorem settles_throw (e : ConfigError) (c : Cache) : Settles (throw e) c none :=
  ⟨nofun, fun _ => ⟨e, rfl⟩⟩

theorem settles_set (c c' : Cache) : Settles (set c') c (some c') :=
  ⟨fun _ h => by cases h; rfl, nofun⟩

theorem Reads.settles {f : α → ConfigM PUnit} {g : α → Option Cache} (hx : Reads x o)
    (hf : ∀ a, o = some a → Settles (f a) c (g a)) : Settles (x >>= f) c (o >>= g) := by
  refine ⟨fun c' hc' => ?_, fun hnone => ?_⟩
  · obtain ⟨a, ha, hc'⟩ := Option.bind_eq_some_iff.mp hc'
    rw [hx.bind_ok ha]
    exact (hf a ha).ok c' hc'
  · cases o with
    | none => exact hx.bind_error rfl f c
    | some a =>
      rw [hx.bind_ok rfl]
      exact (hf a rfl).error hnone

theorem get_bind_run (f : Cache → ConfigM α) (c : Cache) :
    ((get : ConfigM Cache) >>= f).run.run c = (f c).run.run c := rfl

theorem modify_bind_run (g : Cache → Cache) (f : PUnit → ConfigM α) (c : Cache) :
    ((modify g : ConfigM PUnit) >>= f).run.run c = (f ⟨⟩).run.run (g c) := rfl

theorem settles_get {f : Cache → ConfigM PUnit} (h : Settles (f c) c o') : Settles (get >>= f) c o' :=
  ⟨h.ok, h.error⟩

end ConfigM

open ConfigM

theorem reads_readCacheSize (text : List Char) : Reads (readCacheSize text) (cacheSizeOf text) := by
  refine (reads_readNumber 10 text).bind fun (cacheSize, suffix) => ?_
  dsimp only
  split
  · exact reads_pure _
  · exact reads_pure _
  · exact reads_pure _
  · exact reads_pure _
  · have hnone : withSuffix cacheSize suffix = none := by rw [withSuffix] <;> assumption
    rw [hnone]
    exact reads_throw _

/-! ### Ranges -/

variable {c c' : Cache}

theorem settles_readRange (text : List Char) (c : Cache) :
    Settles (readRange text) c (c.insertRange text) := by
  rw [Cache.insertRange, readRange]
  rcases text.splitOn ':' with _ | ⟨kind, _ | ⟨start, _ | ⟨stop, _ | ⟨extra, more⟩⟩⟩⟩
  case cons.cons.cons.nil =>
    refine (reads_readNumber 0 start).settles fun (rangeStart, behindStart) _ => ?_
    refine (reads_failIf not_not.symm).settles fun _ _ => ?_
    refine (reads_readNumber 0 stop).settles fun (rangeEnd, behindEnd) _ => ?_
    refine (reads_failIf not_not.symm).settles fun _ _ => ?_
    refine (reads_failIf not_lt.symm).settles fun _ _ => ?_
    refine (reads_failIf (by tauto)).settles fun _ _ => settles_get ?_
    dsimp only
    split
    · exact (reads_failIf not_not.symm).settles fun _ _ => settles_set _ _
    · exact (reads_failIf not_not.symm).settles fun _ _ => settles_set _ _
  all_goals exact settles_throw _ _

/-- The number of ranges. -/
def Cache.rangeCount (c : Cache) : Nat := c.cacheableRanges.length + c.nonCacheableRanges.length

theorem rangeCount_insertRange {text : List Char} (h : c.insertRange text = some c') :
    c'.rangeCount = c.rangeCount + 1 := by
  rw [Cache.insertRange] at h
  split at h
  · simp only [Option.bind_eq_bind, Option.bind_eq_some_iff, Option.guard_eq_some'] at h
    obtain ⟨_, _, _, _, _, _, _, _, _, _, _, _, h⟩ := h
    split at h
    · obtain ⟨_, _, h⟩ := Option.bind_eq_some_iff.mp h
      cases h
      simp only [Cache.rangeCount, List.length_append, List.length_singleton]
      omega
    · obtain ⟨_, _, h⟩ := Option.bind_eq_some_iff.mp h
      cases h
      simp only [Cache.rangeCount, List.length_append, List.length_singleton]
      omega
  · cases h

/-- The first range is refused, or there is none, and nothing changes; or there are more ranges. -/
def Inserted (ranges : List (List Char)) (c c' : Cache) : Prop :=
  (∀ text rest, ranges = text :: rest → c.insertRange text = none) ∧ c' = c ∨
    (∃ text rest mid, ranges = text :: rest ∧ c.insertRange text = some mid) ∧
      c.rangeCount < c'.rangeCount

theorem Inserted.le {ranges : List (List Char)} (h : Inserted ranges c c') :
    c.rangeCount ≤ c'.rangeCount := by
  rcases h with ⟨-, rfl⟩ | ⟨-, hlt⟩
  · exact le_rfl
  · exact hlt.le

/-- The ranges are inserted up to one that is refused. -/
theorem forM_readRange_run (ranges : List (List Char)) (c : Cache) :
    (∀ c', ranges.foldlM Cache.insertRange c = some c' →
      (ranges.forM readRange).run.run c = (.ok ⟨⟩, c') ∧ Inserted ranges c c') ∧
    (ranges.foldlM Cache.insertRange c = none → ∃ e c',
      (ranges.forM readRange).run.run c = (.error e, c') ∧ Inserted ranges c c') := by
  induction ranges generalizing c with
  | nil =>
    refine ⟨fun c' h => ?_, nofun⟩
    cases h
    exact ⟨rfl, .inl ⟨nofun, rfl⟩⟩
  | cons text rest ih =>
    rw [List.foldlM_cons]
    have hrun : ((text :: rest).forM readRange).run.run c
        = (readRange text >>= fun _ => rest.forM readRange).run.run c := rfl
    have hread := settles_readRange text c
    cases hinsert : c.insertRange text with
    | none =>
      refine ⟨nofun, fun _ => ?_⟩
      obtain ⟨e, he⟩ := hread.error hinsert
      refine ⟨e, c, by rw [hrun, bind_run, he], .inl ⟨?_, rfl⟩⟩
      rintro text' rest' heq
      cases heq
      exact hinsert
    | some mid =>
      have hstep : ((text :: rest).forM readRange).run.run c = (rest.forM readRange).run.run mid := by
        rw [hrun, bind_run, hread.ok mid hinsert]
      have hmore : ∀ {c'}, Inserted rest mid c' → Inserted (text :: rest) c c' := by
        intro c' h
        have hcount := h.le
        rw [rangeCount_insertRange hinsert] at hcount
        exact .inr ⟨⟨text, rest, mid, rfl, hinsert⟩, hcount⟩
      obtain ⟨hok, herror⟩ := ih mid
      rw [hstep]
      refine ⟨fun c' hc' => ⟨(hok c' hc').1, hmore (hok c' hc').2⟩, fun hnone => ?_⟩
      obtain ⟨e, c', he, hinserted⟩ := herror hnone
      exact ⟨e, c', he, hmore hinserted⟩

/-! ### Sizes -/

/-- The lines are allocated if the sizes pass the checks. -/
def Cache.allocate (c : Cache) (cacheSize lineSize : Nat) : Option Cache := do
  guard (hasSingleBit cacheSize = true)
  guard (hasSingleBit lineSize = true)
  guard (¬(c.numSets ≠ 0 ∧ hasSingleBit c.numSets = false))
  guard (cacheSize ≠ 0)
  guard (4 ≤ lineSize)
  guard (lineSize ≤ cacheSize)
  guard (c.numSets ≠ 0 → c.numSets ≤ cacheSize / lineSize)
  let numSets := if c.numSets = 0 then cacheSize / lineSize else c.numSets
  some { c with
    numSets
    cacheLines := List.replicate (cacheSize / lineSize) {}
    blockShift := bitWidth lineSize - 1
    indexMask := 2 ^ (bitWidth (cacheSize / lineSize / numSets) - 1) - 1
    setShift := bitWidth numSets - 1 }

theorem settles_allocateLines (cacheSize lineSize : Nat) (c : Cache) :
    Settles (allocateLines cacheSize lineSize) c (c.allocate cacheSize lineSize) := by
  rw [allocateLines, Cache.allocate]
  refine (reads_failIf (by simp)).settles fun _ _ => ?_
  refine (reads_failIf (by simp)).settles fun _ _ => settles_get (settles_get ?_)
  refine (reads_failIf Iff.rfl).settles fun _ _ => ?_
  refine (reads_failIf Iff.rfl).settles fun _ _ => ?_
  refine (reads_failIf not_lt.symm).settles fun _ _ => ?_
  refine (reads_failIf not_lt.symm).settles fun _ _ => ?_
  -- The number of sets is too large only if it was given, and then it is not assigned again.
  by_cases hassoc : c.numSets ≠ 0 → c.numSets ≤ cacheSize / lineSize
  · have hle : ¬(if c.numSets = 0 then cacheSize / lineSize else c.numSets) > cacheSize / lineSize := by
      split
      · exact lt_irrefl _
      · rename_i hne
        exact not_lt.mpr (hassoc hne)
    refine ⟨fun c' hc' => ?_, fun hnone => ?_⟩
    · rw [guard, if_pos hassoc] at hc'
      cases hc'
      exact (reads_failIf Iff.rfl).bind_ok (if_pos hle) _ _
    · rw [guard, if_pos hassoc] at hnone
      cases hnone
  · have hne : c.numSets ≠ 0 := fun hzero => hassoc fun hne => absurd hzero hne
    have hgt : c.numSets > cacheSize / lineSize := not_le.mp fun hle => hassoc fun _ => hle
    have hsame : { c with
        numSets := if c.numSets = 0 then cacheSize / lineSize else c.numSets } = c := by
      rw [if_neg hne]
    refine ⟨fun c' hc' => ?_, fun _ => ?_⟩
    · rw [guard, if_neg hassoc] at hc'
      cases hc'
    · rw [modify_bind_run, hsame, get_bind_run]
      exact (reads_failIf Iff.rfl).bind_error (if_neg (not_not.mpr hgt)) _ _

theorem isSome_allocate (c : Cache) (cacheSize lineSize : Nat) :
    (c.allocate cacheSize lineSize).isSome ↔ SizesOk cacheSize lineSize c.numSets := by
  rw [Option.isSome_iff_exists, Cache.allocate]
  simp only [Option.bind_eq_bind, Option.bind_eq_some_iff, Option.guard_eq_some']
  constructor
  · rintro ⟨_, _, hcache, _, hline, _, hsets, _, -, _, hge, _, hle, _, hassoc, -⟩
    exact ⟨hcache, hline, fun hne => (Bool.not_eq_false _).mp fun hbit => hsets ⟨hne, hbit⟩, hge, hle,
      hassoc⟩
  · intro h
    have hpos : cacheSize ≠ 0 := by
      have := h.line_ge
      have := h.line_le
      omega
    refine ⟨_, ⟨⟩, h.cache, ⟨⟩, h.line, ⟨⟩, ?_, ⟨⟩, hpos, ⟨⟩, h.line_ge, ⟨⟩, h.line_le, ⟨⟩, h.sets_le, rfl⟩
    rintro ⟨hne, hbit⟩
    rw [h.sets hne] at hbit
    cases hbit

/-! ### A call -/

/-- What is read behind the number of sets. -/
def readFlag (f : Fields) : ConfigM (Nat × Nat) := do
  modify fun c => { c with numSets := f.numSets }
  failIf (f.behindSets ≠ []) "Invalid value for number of sets"
  failIf (f.allocate ≠ ['t', 'r', 'u', 'e'] ∧ f.allocate ≠ ['f', 'a', 'l', 's', 'e'])
    "Invalid write allocate value"
  modify fun c => { c with writeAllocate := f.allocate = ['t', 'r', 'u', 'e'] }
  f.ranges.forM readRange
  pure (f.cacheSize, f.lineSize)

/-- Nothing is assigned before the number of sets. -/
theorem readFields_run (config : List Char) (c : Cache) :
    (fieldsOf config = none → ∃ e, (readFields config).run.run c = (.error e, c)) ∧
    ∀ f, fieldsOf config = some f → (readFields config).run.run c = (readFlag f).run.run c := by
  rw [fieldsOf, readFields]
  rcases config.splitOn ',' with _ | ⟨size, _ | ⟨line, _ | ⟨sets, _ | ⟨allocate, ranges⟩⟩⟩⟩
  case cons.cons.cons.cons =>
    dsimp only
    cases hsize : cacheSizeOf size with
    | none => exact ⟨fun _ => (reads_readCacheSize size).bind_error hsize _ c, nofun⟩
    | some cacheSize =>
      rw [(reads_readCacheSize size).bind_ok hsize]
      cases hline : stoull 10 line with
      | none => exact ⟨fun _ => (reads_readNumber 10 line).bind_error hline _ c, nofun⟩
      | some lineResult =>
        obtain ⟨lineSize, behindLine⟩ := lineResult
        rw [(reads_readNumber 10 line).bind_ok hline]
        cases behindLine with
        | cons d more =>
          exact ⟨fun _ => (reads_failIf Iff.rfl).bind_error (if_neg (by simp)) _ c, nofun⟩
        | nil =>
          dsimp only
          rw [(reads_failIf Iff.rfl).bind_ok (if_pos (by simp))]
          cases hsets : stoull 10 sets with
          | none => exact ⟨fun _ => (reads_readNumber 10 sets).bind_error hsets _ c, nofun⟩
          | some setsResult =>
            obtain ⟨numSets, behindSets⟩ := setsResult
            rw [(reads_readNumber 10 sets).bind_ok hsets]
            refine ⟨nofun, fun f hf => ?_⟩
            cases hf
            rfl
  all_goals exact ⟨fun _ => ⟨_, rfl⟩, nofun⟩

theorem readFlag_run (f : Fields) (c : Cache) :
    (¬f.FlagOk → ∃ e, (readFlag f).run.run c = (.error e, { c with numSets := f.numSets })) ∧
    (f.FlagOk → (readFlag f).run.run c =
      (f.ranges.forM readRange >>= fun _ => pure (f.cacheSize, f.lineSize)).run.run (c.assign f)) := by
  rw [readFlag, modify_bind_run]
  constructor
  · intro hflag
    by_cases hbehind : f.behindSets = []
    · rw [(reads_failIf Iff.rfl).bind_ok (if_pos (not_not.mpr hbehind))]
      refine (reads_failIf Iff.rfl).bind_error (if_neg (not_not.mpr ?_)) _ _
      exact not_or.mp fun hallocate => hflag ⟨hbehind, hallocate⟩
    · exact (reads_failIf Iff.rfl).bind_error (if_neg (not_not.mpr hbehind)) _ _
  · rintro ⟨hbehind, hallocate⟩
    rw [(reads_failIf Iff.rfl).bind_ok (if_pos (not_not.mpr hbehind)),
      (reads_failIf Iff.rfl).bind_ok (if_pos fun h => not_or.mpr h hallocate), modify_bind_run]
    rfl

theorem configure_eq (config : List Char) (c : Cache) :
    (configure config true).run.run c =
      (readFields config >>= fun sizes => allocateLines sizes.1 sizes.2).run.run c := by
  rw [configure, (reads_failIf Iff.rfl).bind_ok (if_pos (by decide))]

theorem numSets_of_insertRanges {ranges : List (List Char)}
    (h : ranges.foldlM Cache.insertRange c = some c') : c'.numSets = c.numSets := by
  refine foldlM_invariant (fun mid => mid.numSets = c.numSets) ?_ h rfl
  intro mid text _ last hmid hinsert
  rw [Cache.insertRange] at hinsert
  split at hinsert
  · simp only [Option.bind_eq_bind, Option.bind_eq_some_iff] at hinsert
    obtain ⟨_, _, _, _, _, _, _, _, _, _, _, _, hinsert⟩ := hinsert
    split at hinsert
    · obtain ⟨_, _, hinsert⟩ := Option.bind_eq_some_iff.mp hinsert
      cases hinsert
      exact hmid
    · obtain ⟨_, _, hinsert⟩ := Option.bind_eq_some_iff.mp hinsert
      cases hinsert
      exact hmid
  · cases hinsert

theorem assign_eq_iff {f : Fields} :
    c.assign f = c ↔
      f.numSets = c.numSets ∧ c.writeAllocate = decide (f.allocate = ['t', 'r', 'u', 'e']) := by
  constructor
  · intro h
    exact ⟨congrArg Cache.numSets h, (congrArg Cache.writeAllocate h).symm⟩
  · rintro ⟨hsets, hallocate⟩
    rw [Cache.assign, hsets, ← hallocate]

theorem Inserted.eq_iff {f : Fields} (h : Inserted f.ranges (c.assign f) c') :
    c' = c ↔ f.numSets = c.numSets ∧
      c.writeAllocate = decide (f.allocate = ['t', 'r', 'u', 'e']) ∧
        ∀ text rest, f.ranges = text :: rest → c.insertRange text = none := by
  rw [← and_assoc, ← assign_eq_iff]
  rcases h with ⟨hrefused, rfl⟩ | ⟨⟨text, rest, mid, hranges, hinsert⟩, hlt⟩
  · constructor
    · intro hsame
      rw [hsame] at hrefused
      exact ⟨hsame, hrefused⟩
    · exact fun h => h.1
  · constructor
    · rintro rfl
      exact absurd hlt (lt_irrefl _)
    · rintro ⟨hsame, hrefused⟩
      rw [hsame, hrefused text rest hranges] at hinsert
      cases hinsert

/-- **What a call does**: it accepts a text, or refuses it and changes nothing exactly if the text
    leaves the members as they are. -/
theorem configure_run (config : List Char) (c : Cache) :
    (Accepts c config → ∃ c', (configure config true).run.run c = (.ok ⟨⟩, c')) ∧
    (¬Accepts c config → ∃ e c', (configure config true).run.run c = (.error e, c') ∧
      (c' = c ↔ Leaves c config)) := by
  obtain ⟨hnone, hsome⟩ := readFields_run config c
  rw [configure_eq]
  cases hfields : fieldsOf config with
  | none =>
    obtain ⟨e, he⟩ := hnone hfields
    refine ⟨?_, fun _ => ⟨e, c, by rw [bind_run, he], fun _ f hf => ?_, fun _ => rfl⟩⟩
    · rintro ⟨f, hf, -⟩
      rw [hfields] at hf
      cases hf
    · rw [hfields] at hf
      cases hf
  | some f =>
    have hleaves : Leaves c config ↔ f.numSets = c.numSets ∧
        (f.FlagOk → c.writeAllocate = decide (f.allocate = ['t', 'r', 'u', 'e']) ∧
          ∀ text rest, f.ranges = text :: rest → c.insertRange text = none) := by
      constructor
      · exact fun h => h f hfields
      · intro h g hg
        rw [hfields] at hg
        cases hg
        exact h
    have haccepts : Accepts c config ↔ f.FlagOk ∧
        (∃ c', f.ranges.foldlM Cache.insertRange (c.assign f) = some c') ∧
        SizesOk f.cacheSize f.lineSize f.numSets := by
      constructor
      · rintro ⟨g, hg, h⟩
        rw [hfields] at hg
        cases hg
        exact h
      · exact fun h => ⟨f, hfields, h⟩
    obtain ⟨hbad, hgood⟩ := readFlag_run f c
    rw [hleaves, haccepts, bind_run, hsome f hfields]
    by_cases hflag : f.FlagOk
    · rw [hgood hflag, bind_run]
      obtain ⟨hok, herror⟩ := forM_readRange_run f.ranges (c.assign f)
      have hleft : ∀ {c'}, Inserted f.ranges (c.assign f) c' → (c' = c ↔ f.numSets = c.numSets ∧
          (f.FlagOk → c.writeAllocate = decide (f.allocate = ['t', 'r', 'u', 'e']) ∧
            ∀ text rest, f.ranges = text :: rest → c.insertRange text = none)) := by
        intro c' hinserted
        rw [hinserted.eq_iff, forall_prop_of_true hflag]
      cases hranges : f.ranges.foldlM Cache.insertRange (c.assign f) with
      | none =>
        obtain ⟨e, c', he, hinserted⟩ := herror hranges
        rw [he]
        refine ⟨?_, fun _ => ⟨e, c', rfl, hleft hinserted⟩⟩
        rintro ⟨-, ⟨c'', hc''⟩, -⟩
        cases hc''
      | some mid =>
        obtain ⟨hrun, hinserted⟩ := hok mid hranges
        rw [hrun]
        have hsettles := settles_allocateLines f.cacheSize f.lineSize mid
        have hsizes := isSome_allocate mid f.cacheSize f.lineSize
        rw [numSets_of_insertRanges hranges] at hsizes
        cases hallocate : mid.allocate f.cacheSize f.lineSize with
        | none =>
          obtain ⟨e, he⟩ := hsettles.error hallocate
          refine ⟨?_, fun _ => ⟨e, mid, he, hleft hinserted⟩⟩
          rintro ⟨-, -, hok⟩
          have hsome := hsizes.mpr hok
          rw [hallocate] at hsome
          cases hsome
        | some c' =>
          refine ⟨fun _ => ⟨c', hsettles.ok c' hallocate⟩, fun hnot => ?_⟩
          exact absurd ⟨hflag, ⟨mid, rfl⟩, hsizes.mp (by rw [hallocate]; rfl)⟩ hnot
    · obtain ⟨e, he⟩ := hbad hflag
      rw [he]
      refine ⟨fun h => absurd h.1 hflag, fun _ => ⟨e, _, rfl, ?_⟩⟩
      constructor
      · exact fun h => ⟨congrArg Cache.numSets h, fun h => absurd h hflag⟩
      · rintro ⟨hsets, -⟩
        rw [hsets]

/-! ### What a call that succeeds leaves -/

/-- The lines that accesses compute exist, and no shift is too large. -/
structure Cache.Safe (c : Cache) : Prop where
  line_lt : ∀ block, ∀ set < c.numSets, c.index block + set < c.cacheLines.length
  lines_lt : c.cacheLines.length < 2 ^ 64
  numSets_pos : 0 < c.numSets
  blockShift_lt : c.blockShift < 64
  setShift_lt : c.setShift < 64

theorem stoull_lt {base : Nat} {text behind : List Char} {n : Nat}
    (h : stoull base text = some (n, behind)) : n < 2 ^ 64 := by
  -- The sign, the digits and the body they are read from do not matter.
  have hbound : ∀ (negative : Bool) (digits : Nat × List Char) (body : List Char),
      (if digits.2.length = body.length ∨ 2 ^ 64 ≤ digits.1 then none
        else some (if negative then (2 ^ 64 - digits.1) % 2 ^ 64 else digits.1, digits.2))
        = some (n, behind) → n < 2 ^ 64 := by
    intro negative digits body hread
    split at hread
    · cases hread
    · rename_i hrange
      cases hread
      split
      · exact Nat.mod_lt _ (Nat.two_pow_pos _)
      · exact not_le.mp fun hle => hrange (.inr hle)
  exact hbound _ _ _ h

theorem cacheSizeOf_lt {text : List Char} {cacheSize : Nat} (h : cacheSizeOf text = some cacheSize) :
    cacheSize < 2 ^ 64 := by
  obtain ⟨⟨n, suffix⟩, hread, hsuffix⟩ := Option.bind_eq_some_iff.mp h
  dsimp only [withSuffix] at hsuffix
  split at hsuffix
  · cases hsuffix
    exact stoull_lt hread
  · cases hsuffix
    exact Nat.mod_lt _ (Nat.two_pow_pos _)
  · cases hsuffix
    exact Nat.mod_lt _ (Nat.two_pow_pos _)
  · cases hsuffix
    exact Nat.mod_lt _ (Nat.two_pow_pos _)
  · cases hsuffix

/-- The size of the cache that is read is a `uint64_t`. -/
theorem cacheSize_lt {config : List Char} {cacheSize lineSize : Nat}
    (h : (readFields config).run.run c = (.ok (cacheSize, lineSize), c')) : cacheSize < 2 ^ 64 := by
  obtain ⟨hnone, hsome⟩ := readFields_run config c
  cases hfields : fieldsOf config with
  | none =>
    obtain ⟨e, he⟩ := hnone hfields
    rw [he] at h
    cases h
  | some f =>
    rw [hsome f hfields] at h
    obtain ⟨hbad, hgood⟩ := readFlag_run f c
    by_cases hflag : f.FlagOk
    · rw [hgood hflag] at h
      obtain ⟨u, mid, -, hpure⟩ := bind_ok.mp h
      cases hpure
      unfold fieldsOf at hfields
      split at hfields
      · obtain ⟨cacheSize, hsize, hrest⟩ := Option.bind_eq_some_iff.mp hfields
        obtain ⟨⟨lineSize, behindLine⟩, -, hrest⟩ := Option.bind_eq_some_iff.mp hrest
        obtain ⟨_, -, hrest⟩ := Option.bind_eq_some_iff.mp hrest
        obtain ⟨⟨numSets, behindSets⟩, -, hrest⟩ := Option.bind_eq_some_iff.mp hrest
        cases hrest
        exact cacheSizeOf_lt hsize
      · cases hfields
    · obtain ⟨e, he⟩ := hbad hflag
      rw [he] at h
      cases h

theorem bitWidth_lt {n : Nat} (h : n < 2 ^ 64) : bitWidth n - 1 < 64 := by
  have hsize : bitWidth n ≤ 64 := Nat.size_le.mpr h
  omega

theorem safe_of_configure {config : List Char}
    (h : (configure config true).run.run c = (.ok ⟨⟩, c')) : c'.Safe := by
  have hconfigures : Cache.Configures c config c' := ⟨true, h⟩
  obtain ⟨hgeometry, -⟩ := hconfigures.spec
  rw [configure_eq] at h
  obtain ⟨⟨cacheSize, lineSize⟩, mid, hread, halloc⟩ := bind_ok.mp h
  have hcacheSize := cacheSize_lt hread
  have hsettles := settles_allocateLines cacheSize lineSize mid
  have hsizes := isSome_allocate mid cacheSize lineSize
  cases hallocate : mid.allocate cacheSize lineSize with
  | none =>
    obtain ⟨e, he⟩ := hsettles.error hallocate
    rw [he] at halloc
    cases halloc
  | some c'' =>
    obtain rfl : c'' = c' := by
      have hrun := hsettles.ok c'' hallocate
      rw [halloc] at hrun
      cases hrun
      rfl
    rw [hallocate] at hsizes
    have hok := hsizes.mp rfl
    have hlineSize := hok.line_le
    have hlines : cacheSize / lineSize < 2 ^ 64 := lt_of_le_of_lt (Nat.div_le_self _ _) hcacheSize
    have hpos : 0 < c''.numSets := by
      rw [hgeometry.numSets_eq]
      exact Nat.two_pow_pos _
    unfold Cache.allocate at hallocate
    simp only [Option.bind_eq_bind, Option.bind_eq_some_iff] at hallocate
    obtain ⟨_, -, _, -, _, -, _, -, _, -, _, -, _, -, hc''⟩ := hallocate
    cases hc''
    refine ⟨fun block set hset => ?_, ?_, hpos, ?_, ?_⟩
    · exact lt_of_lt_of_le (Nat.add_lt_add_left hset _) (hgeometry.index_add_le block)
    · rw [List.length_replicate]
      exact hlines
    · exact bitWidth_lt (by omega)
    · refine bitWidth_lt ?_
      split
      · exact hlines
      · rename_i hne
        exact lt_of_le_of_lt (hok.sets_le hne) hlines

/-! ### Runs -/

namespace ConfiguredCache

/-- The cache after a call with a text and a cycle counter. -/
def step (s : ConfiguredCache) (call : List Char × Option Nat) : ConfiguredCache :=
  (s.configure call.1 call.2).2

/-- A call that fails changes nothing, and after one that succeeds the cache is safe to access. -/
structure AtomicAndSafe (s : ConfiguredCache) (calls : List (List Char × Option Nat)) : Prop where
  atomic : ∀ before call after, calls = before ++ call :: after →
    ∀ e, ((run step s before).configure call.1 call.2).1 = .error e →
      step (run step s before) call = run step s before
  safe : ∀ before call between after, calls = before ++ call :: (between ++ after) →
    ((run step s before).configure call.1 call.2).1 = .ok () →
      (run step s (before ++ call :: between)).cache.Safe

/-- The call has no cycle counter, its text is accepted, or it changes nothing. -/
def Harmless (s : ConfiguredCache) (call : List Char × Option Nat) : Prop :=
  call.2 = none ∨ Accepts s.cache call.1 ∨ call.2 = s.cycleCounter ∧ Leaves s.cache call.1

variable {s : ConfiguredCache} {call : List Char × Option Nat}

/-- **Step lemma.** -/
theorem atomic_iff_harmless :
    (∀ e, (s.configure call.1 call.2).1 = .error e → s.step call = s) ↔ s.Harmless call := by
  obtain ⟨config, cycleCounter⟩ := call
  cases cycleCounter with
  | none =>
    refine ⟨fun _ => .inl rfl, fun _ e _ => ?_⟩
    rfl
  | some k =>
    obtain ⟨haccepts, hrefuses⟩ := configure_run config s.cache
    by_cases haccept : Accepts s.cache config
    · obtain ⟨c', hrun⟩ := haccepts haccept
      refine ⟨fun _ => .inr (.inl haccept), fun _ e he => ?_⟩
      have hok : (s.configure config (some k)).1 = .ok () := congrArg Prod.fst hrun
      rw [hok] at he
      cases he
    · obtain ⟨e, c', hrun, hsame⟩ := hrefuses haccept
      have herror : (s.configure config (some k)).1 = .error e := congrArg Prod.fst hrun
      have hstep : s.step (config, some k) = ⟨c', some k⟩ := by
        rw [step, ConfiguredCache.configure, Option.isSome_some, hrun]
        rfl
      rw [hstep]
      constructor
      · intro h
        have hs := h e herror
        refine .inr (.inr ⟨congrArg ConfiguredCache.cycleCounter hs, ?_⟩)
        exact hsame.mp (congrArg ConfiguredCache.cache hs)
      · rintro (hnone | haccept' | ⟨hcounter, hleaves⟩) e he
        · cases hnone
        · exact absurd haccept' haccept
        · rw [hsame.mpr hleaves, show some k = s.cycleCounter from hcounter]

theorem safe_of_ok (h : (s.configure call.1 call.2).1 = .ok ()) : (s.step call).cache.Safe := by
  obtain ⟨config, cycleCounter⟩ := call
  cases cycleCounter with
  | none => cases h
  | some k => exact safe_of_configure (Prod.ext h rfl)

/-- **Configuration.** A sequence of `Configure` calls is atomic and leaves a safe cache exactly if
    each call has no cycle counter, has a text that is accepted, or leaves the members it assigns
    before it fails as they are. -/
theorem configure_atomic_iff (s : ConfiguredCache) (calls : List (List Char × Option Nat)) :
    s.AtomicAndSafe calls ↔ Along step Harmless s calls := by
  have hatomic : Along step (fun s call => ∀ e, (s.configure call.1 call.2).1 = .error e →
      s.step call = s) s calls ↔ Along step Harmless s calls :=
    along_iff_along (fun _ => True) (fun s call _ => atomic_iff_harmless) (fun _ _ _ _ => trivial)
      trivial
  rw [← hatomic, along_iff_forall]
  refine ⟨fun h => h.atomic, fun h => ⟨h, ?_⟩⟩
  intro before call between after hcalls hok
  -- Induction on the calls after the one that succeeds: each succeeds as well, or changes nothing.
  induction between using List.reverseRecOn generalizing after with
  | nil =>
    rw [run_snoc]
    exact safe_of_ok hok
  | append_singleton between last ih =>
    have hbefore := ih (last :: after) (by rw [hcalls]; simp)
    rw [← List.cons_append, ← List.append_assoc, run_snoc]
    cases hlast : ((run step s (before ++ call :: between)).configure last.1 last.2).1 with
    | ok u => exact safe_of_ok hlast
    | error e =>
      rw [h (before ++ call :: between) last after (by rw [hcalls]; simp) e hlast]
      exact hbefore

end ConfiguredCache

/-- Two lines, and then a text whose flag is not one, with more sets than there are lines. -/
def reconfigured : List (List Char × Option Nat) :=
  [(['8', ',', '4', ',', '1', ',', 't', 'r', 'u', 'e'], some 0),
    (['8', ',', '4', ',', '4', ',', 'x'], some 0)]

/-- The second call fails, and leaves a cache of which accesses compute lines that do not exist. -/
theorem reconfigured_not_atomic :
    ((Lib.run ConfiguredCache.step {} (reconfigured.take 1)).configure
        ['8', ',', '4', ',', '4', ',', 'x'] (some 0)).1
      = .error (.invalidArgument "Invalid write allocate value") ∧
    (Lib.run ConfiguredCache.step {} reconfigured).cache.numSets = 4 ∧
    (Lib.run ConfiguredCache.step {} reconfigured).cache.cacheLines.length = 2 ∧
    ¬ConfiguredCache.AtomicAndSafe {} reconfigured := by
  refine ⟨rfl, rfl, rfl, fun h => ?_⟩
  have hsame := h.atomic (reconfigured.take 1) _ [] rfl _ rfl
  have hsets := congrArg (fun s : ConfiguredCache => s.cache.numSets) hsame
  have hne : (4 : Nat) ≠ 1 := by decide
  exact hne hsets

end MpactSim.Memory
