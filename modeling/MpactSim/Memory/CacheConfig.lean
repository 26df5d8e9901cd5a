import Mathlib.Data.Nat.Size
import MpactSim.Lib.Regex
import MpactSim.Memory.Interface

namespace MpactSim.Memory

open Lib

/-!
# Configuring a cache

`Cache` is the state of a cache and `configure` reads its parameters from a text of the
form `<cache_size>,<block_size>,<associativity>,<write_allocate>` and optional address
ranges.  It writes the parameters as it reads them, so that a text that is refused leaves
some of them changed.

* `Geometry` — what the sizes, shifts and masks of a cache have to do with each other;
* `configure_ok` — a configuration that succeeds leaves a cache of that geometry in which
  no line is valid.
-/

/-- A line of the cache. -/
structure CacheLine where
  valid : Bool := false
  tag : Nat := 0
  pinned : Bool := false
  dirty : Bool := false
  lru : BitVec 64 := BitVec.allOnes 64
  deriving DecidableEq, Repr

/-- The performance counters. -/
structure Counters where
  readHit : Nat := 0
  readMiss : Nat := 0
  writeHit : Nat := 0
  writeMiss : Nat := 0
  dirtyLineWriteback : Nat := 0
  readAround : Nat := 0
  writeAround : Nat := 0
  readNonCacheable : Nat := 0
  writeNonCacheable : Nat := 0
  deriving DecidableEq, Repr

/-- `Cache`.  The ranges are in the order of their insertion. -/
structure Cache where
  cacheLines : List CacheLine := []
  blockShift : Nat := 0
  setShift : Nat := 0
  indexMask : Nat := 0
  writeAllocate : Bool := false
  numSets : Nat := 0
  nonCacheableRanges : List AddressRange := []
  cacheableRanges : List AddressRange := []
  hasNonCacheable : Bool := false
  hasCacheable : Bool := false
  counters : Counters := {}

/-! ### Numbers -/

/-- The value of a digit of `strtoull`. -/
def digitOf (base : Nat) (c : Char) : Option Nat :=
  let digit :=
    if '0' ≤ c ∧ c ≤ '9' then c.toNat - '0'.toNat
    else if 'a' ≤ c ∧ c ≤ 'z' then c.toNat - 'a'.toNat + 10
    else if 'A' ≤ c ∧ c ≤ 'Z' then c.toNat - 'A'.toNat + 10
    else base
  if digit < base then some digit else none

/-- The digits at the start of a text as a number, and the text behind them. -/
def takeDigits (base : Nat) (n : Nat) : List Char → Nat × List Char
  | [] => (n, [])
  | c :: rest =>
    match digitOf base c with
    | some d => takeDigits base (base * n + d) rest
    | none => (n, c :: rest)

/-- The base of a number whose base is given by its prefix, and its digits. -/
def takeBase : List Char → Nat × List Char
  | '0' :: x :: c :: rest =>
    if (x = 'x' ∨ x = 'X') ∧ (digitOf 16 c).isSome then (16, c :: rest)
    else (8, '0' :: x :: c :: rest)
  | '0' :: rest => (8, '0' :: rest)
  | text => (10, text)

/-- `std::stoull`: white space and a sign may come before the number.  The result is the
    value and the text behind the number; a text without digits and a value that does not
    fit throw. -/
def stoull (base : Nat) (text : List Char) : Option (Nat × List Char) :=
  let body := text.dropWhile fun c => isSpace c || c = '\x0b'
  let (negative, body) := match body with
    | '-' :: rest => (true, rest)
    | '+' :: rest => (false, rest)
    | rest => (false, rest)
  let (base, body) := if base = 0 then takeBase body else (base, body)
  let (n, behind) := takeDigits base 0 body
  if behind.length = body.length ∨ 2 ^ 64 ≤ n then none
  else some (if negative then (2 ^ 64 - n) % 2 ^ 64 else n, behind)

/-- `absl::has_single_bit` -/
def hasSingleBit (n : Nat) : Bool := n ≠ 0 ∧ n &&& (n - 1) = 0

/-- `absl::bit_width` -/
def bitWidth (n : Nat) : Nat := n.size

/-! ### The configuration -/

/-- The ways in which `Configure` fails: with a status or with an exception. -/
inductive ConfigError where
  | invalidArgument (message : String)
  | thrown
  deriving DecidableEq, Repr

/-- A part of `Configure`, which changes the cache also when it fails. -/
abbrev ConfigM := ExceptT ConfigError (StateM Cache)

/-- Fail with `absl::InvalidArgumentError` if a condition holds. -/
def failIf (condition : Prop) [Decidable condition] (message : String) : ConfigM Unit :=
  if condition then throw (.invalidArgument message) else pure ()

/-- `std::stoull` as `Configure` calls it. -/
def readNumber (base : Nat) (text : List Char) : ConfigM (Nat × List Char) :=
  match stoull base text with
  | some result => pure result
  | none => throw .thrown

/-- The size of the cache, with its suffix. -/
def readCacheSize (text : List Char) : ConfigM Nat := do
  let (cacheSize, suffix) ← readNumber 10 text
  match suffix with
  | [] => pure cacheSize
  | ['k'] => pure (cacheSize * 1024 % 2 ^ 64)
  | ['M'] => pure (cacheSize * (1024 * 1024) % 2 ^ 64)
  | ['G'] => pure (cacheSize * (1024 * 1024 * 1024) % 2 ^ 64)
  | _ => throw (.invalidArgument ("Invalid cache size suffix: '" ++ String.ofList suffix ++ "'"))

/-- An address range, `[c|nc]:<start_address>:<end_address>`. -/
def readRange (text : List Char) : ConfigM Unit := do
  match text.splitOn ':' with
  | [kind, start, stop] =>
    let (rangeStart, behindStart) ← readNumber 0 start
    failIf (behindStart ≠ []) "Invalid cacheable range - invalid start address"
    let (rangeEnd, behindEnd) ← readNumber 0 stop
    failIf (behindEnd ≠ []) "Invalid cacheable range - invalid size"
    failIf (rangeStart > rangeEnd)
      "Invalid cacheable range - start address is greater than end address"
    failIf (kind ≠ ['c'] ∧ kind ≠ ['n', 'c'])
      "Invalid cacheable range - must start with 'c' or 'nc'"
    let c ← get
    let range : AddressRange := ⟨BitVec.ofNat 64 rangeStart, BitVec.ofNat 64 rangeEnd⟩
    if kind = ['c'] then
      failIf (c.nonCacheableRanges ≠ []) "Cannot mix cacheable and non-cacheable ranges"
      set { c with cacheableRanges := c.cacheableRanges ++ [range], hasCacheable := true }
    else
      failIf (c.cacheableRanges ≠ []) "Cannot mix cacheable and non-cacheable ranges"
      set { c with nonCacheableRanges := c.nonCacheableRanges ++ [range], hasNonCacheable := true }
  | _ => throw (.invalidArgument "Invalid (non)cacheable range - must have 3 fields")

/-- The fields of the configuration: the size of the cache and the size of a line. -/
def readFields (config : List Char) : ConfigM (Nat × Nat) := do
  match config.splitOn ',' with
  | size :: line :: sets :: allocate :: ranges =>
    let cacheSize ← readCacheSize size
    let (lineSize, behindLine) ← readNumber 10 line
    failIf (behindLine ≠ []) "Invalid value for line size"
    let (numSets, behindSets) ← readNumber 10 sets
    modify fun c => { c with numSets := numSets }
    failIf (behindSets ≠ []) "Invalid value for number of sets"
    failIf (allocate ≠ ['t', 'r', 'u', 'e'] ∧ allocate ≠ ['f', 'a', 'l', 's', 'e'])
      "Invalid write allocate value"
    modify fun c => { c with writeAllocate := allocate = ['t', 'r', 'u', 'e'] }
    ranges.forM readRange
    pure (cacheSize, lineSize)
  | _ => throw (.invalidArgument "Invalid configuration - too few fields")

/-- The sanity checks of the parameters, and the allocation of the lines. -/
def allocateLines (cacheSize lineSize : Nat) : ConfigM Unit := do
  failIf (hasSingleBit cacheSize = false) "Cache size is not a power of 2"
  failIf (hasSingleBit lineSize = false) "Line size is not a power of 2"
  failIf ((← get).numSets ≠ 0 ∧ hasSingleBit (← get).numSets = false)
    "Number of sets is not a power of 2"
  failIf (cacheSize = 0) "Cache size is zero"
  failIf (lineSize < 4) "Line size must be at least 4 bytes"
  failIf (cacheSize < lineSize) "Cache size is less than line size"
  -- A cache without a number of sets is fully associative.
  modify fun c => { c with numSets := if c.numSets = 0 then cacheSize / lineSize else c.numSets }
  let numLines := cacheSize / lineSize
  failIf ((← get).numSets > numLines) "Cache associativity is greater than the number of lines"
  modify fun c => { c with
    cacheLines := List.replicate numLines {}
    blockShift := bitWidth lineSize - 1
    indexMask := 2 ^ (bitWidth (numLines / c.numSets) - 1) - 1
    setShift := bitWidth c.numSets - 1 }

/-- `Configure`.  Of the cycle counter only whether there is one matters here; its values
    come with the accesses. -/
def configure (config : List Char) (cycleCounter : Bool) : ConfigM Unit := do
  failIf (cycleCounter = false) "Cycle counter is null"
  let (cacheSize, lineSize) ← readFields config
  allocateLines cacheSize lineSize

/-- A cache that is configured as `config` says. -/
def Cache.Configures (before : Cache) (config : List Char) (after : Cache) : Prop :=
  ∃ cycleCounter, (configure config cycleCounter).run.run before = (.ok (), after)

/-! ### What a configuration leaves -/

namespace ConfigM

variable {α β : Type} {c c' : Cache}

theorem bind_run (x : ConfigM α) (f : α → ConfigM β) (c : Cache) :
    (x >>= f).run.run c =
      match x.run.run c with
      | (.ok a, mid) => (f a).run.run mid
      | (.error e, mid) => (.error e, mid) := by
  show (ExceptT.bind x f) c = _
  show (StateT.bind (m := Id) x (ExceptT.bindCont f)) c = _
  cases h : x.run.run c with
  | mk r mid =>
    have hx : x c = (r, mid) := h
    show (match x c with | (r, mid) => ExceptT.bindCont f r mid) = _
    rw [hx]
    cases r <;> rfl

theorem bind_ok {x : ConfigM α} {f : α → ConfigM β} {b : β} :
    (x >>= f).run.run c = (.ok b, c') ↔
      ∃ a mid, x.run.run c = (.ok a, mid) ∧ (f a).run.run mid = (.ok b, c') := by
  rw [bind_run]
  constructor
  · intro h
    split at h
    · next a mid hx => exact ⟨a, mid, hx, h⟩
    · cases h
  · rintro ⟨a, mid, hx, hf⟩
    rw [hx]
    exact hf

theorem failIf_ok {condition : Prop} [Decidable condition] {message : String} {u : Unit} :
    (failIf condition message).run.run c = (.ok u, c') ↔ ¬ condition ∧ c' = c := by
  unfold failIf
  split
  · next h =>
    constructor
    · intro hrun
      cases hrun
    · intro hrun
      exact absurd h hrun.1
  · next h =>
    constructor
    · intro hrun
      cases hrun
      exact ⟨h, rfl⟩
    · rintro ⟨-, rfl⟩
      rfl

theorem get_ok {s : Cache} : (get : ConfigM Cache).run.run c = (.ok s, c') ↔ s = c ∧ c' = c := by
  constructor
  · intro h
    cases h
    exact ⟨rfl, rfl⟩
  · rintro ⟨rfl, rfl⟩
    rfl

theorem modify_ok {f : Cache → Cache} {u : PUnit} :
    (modify f : ConfigM PUnit).run.run c = (.ok u, c') ↔ c' = f c := by
  constructor
  · intro h
    cases h
    rfl
  · rintro rfl
    rfl

end ConfigM

/-- How the sizes, shifts and masks of a cache fit together. -/
structure Cache.Geometry (c : Cache) : Prop where
  numSets_eq : c.numSets = 2 ^ c.setShift
  lines_eq : c.cacheLines.length = (c.indexMask + 1) * c.numSets

theorem hasSingleBit_iff {n : Nat} : hasSingleBit n = true ↔ ∃ k, n = 2 ^ k := by
  unfold hasSingleBit
  rw [decide_eq_true_eq]
  exact Nat.ne_zero_and_sub_one_eq_zero_iff_isPowerOfTwo

theorem bitWidth_two_pow (k : Nat) : bitWidth (2 ^ k) - 1 = k := by
  unfold bitWidth
  rw [Nat.size_pow, Nat.add_sub_cancel]

theorem exists_sets {lines sets : Nat} (hlines : ∃ k, lines = 2 ^ k) (hsets : ∃ k, sets = 2 ^ k)
    (hle : sets ≤ lines) :
    sets = 2 ^ (bitWidth sets - 1) ∧
      lines = (2 ^ (bitWidth (lines / sets) - 1) - 1 + 1) * sets := by
  obtain ⟨l, rfl⟩ := hlines
  obtain ⟨s, rfl⟩ := hsets
  have hsl : s ≤ l := (Nat.pow_le_pow_iff_right (by omega)).mp hle
  have hquot : 2 ^ l / 2 ^ s = 2 ^ (l - s) := Nat.pow_div hsl (by omega)
  have hpos : 1 ≤ 2 ^ (l - s) := Nat.one_le_two_pow
  rw [hquot, bitWidth_two_pow, bitWidth_two_pow, Nat.sub_add_cancel hpos, ← Nat.pow_add,
    Nat.sub_add_cancel hsl]
  exact ⟨rfl, rfl⟩

/-- The lines that are allocated are a whole number of sets, and none is valid. -/
theorem allocateLines_ok {c c' : Cache} {cacheSize lineSize : Nat} {u : Unit}
    (h : (allocateLines cacheSize lineSize).run.run c = (.ok u, c')) :
    c'.Geometry ∧ ∀ line ∈ c'.cacheLines, line.valid = false := by
  unfold allocateLines at h
  simp only [ConfigM.bind_ok, ConfigM.failIf_ok, ConfigM.get_ok, ConfigM.modify_ok] at h
  obtain ⟨_, _, ⟨hcache, rfl⟩, _, _, ⟨hline, rfl⟩, _, _, ⟨rfl, rfl⟩, _, _, ⟨rfl, rfl⟩, _, _,
    ⟨hsets, rfl⟩, _, _, ⟨-, rfl⟩, _, _, ⟨-, rfl⟩, _, s, ⟨hle, rfl⟩, _, _, rfl, _, _, ⟨rfl, rfl⟩,
    _, _, ⟨hassoc, rfl⟩, rfl⟩ := h
  rw [Bool.not_eq_false] at hcache hline
  obtain ⟨cs, rfl⟩ := hasSingleBit_iff.mp hcache
  obtain ⟨ls, rfl⟩ := hasSingleBit_iff.mp hline
  have hsize : 2 ^ ls ≤ 2 ^ cs := Nat.le_of_not_lt hle
  have hls : ls ≤ cs := (Nat.pow_le_pow_iff_right (by omega)).mp hsize
  have hlines : ∃ k, 2 ^ cs / 2 ^ ls = 2 ^ k := ⟨cs - ls, Nat.pow_div hls (by omega)⟩
  have hpow : ∃ k, (if s.numSets = 0 then 2 ^ cs / 2 ^ ls else s.numSets) = 2 ^ k := by
    split
    · exact hlines
    · next hne =>
      exact hasSingleBit_iff.mp ((Bool.not_eq_false _).mp fun hbit => hsets ⟨hne, hbit⟩)
  obtain ⟨hnum, hlen⟩ := exists_sets hlines hpow (Nat.le_of_not_lt hassoc)
  refine ⟨⟨hnum, ?_⟩, ?_⟩
  · rw [List.length_replicate]
    exact hlen
  · intro line hmem
    rw [List.eq_of_mem_replicate hmem]

theorem Cache.Configures.spec {before after : Cache} {config : List Char}
    (h : before.Configures config after) :
    after.Geometry ∧ ∀ line ∈ after.cacheLines, line.valid = false := by
  obtain ⟨cycleCounter, h⟩ := h
  unfold configure at h
  simp only [ConfigM.bind_ok] at h
  obtain ⟨_, _, _, ⟨cacheSize, lineSize⟩, mid, -, h⟩ := h
  exact allocateLines_ok h

theorem allocateLines_new {c c' : Cache} {cacheSize lineSize : Nat} {u : Unit}
    (h : (allocateLines cacheSize lineSize).run.run c = (.ok u, c')) :
    ∀ line ∈ c'.cacheLines, line = {} := by
  unfold allocateLines at h
  simp only [ConfigM.bind_ok, ConfigM.failIf_ok, ConfigM.get_ok, ConfigM.modify_ok] at h
  obtain ⟨_, _, -, _, _, -, _, _, -, _, _, -, _, _, -, _, _, -, _, _, -, _, _, -, _, _, -,
    _, _, -, _, _, -, rfl⟩ := h
  exact fun line hmem => List.eq_of_mem_replicate hmem

theorem Cache.Configures.new {before after : Cache} {config : List Char}
    (h : before.Configures config after) : ∀ line ∈ after.cacheLines, line = {} := by
  obtain ⟨cycleCounter, h⟩ := h
  unfold configure at h
  simp only [ConfigM.bind_ok] at h
  obtain ⟨_, _, _, _, _, -, h⟩ := h
  exact allocateLines_new h

end MpactSim.Memory
