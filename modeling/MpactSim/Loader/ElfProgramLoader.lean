import MpactSim.Lib.SearchTree
import Mathlib.Tactic.Ring

namespace MpactSim.Loader

open Lib

/-!
# Symbols of the ELF program loader

The loader puts the function symbols of a program in two maps, one by value and one by address
range.  The second one is ordered by a comparison that does not order ranges that overlap.

* `ElfProgramLoader` — what the loader keeps of the symbols;
* `loadSymbols`, `getFunctionName` — the functions of the source;
* `kept`          — the symbols that end up in the map of ranges;
* `lookupCorrect_iff` — the look-up of an address is right unless a symbol that is not kept is the
  only one there.
-/

/-! ### Address ranges -/

/-- `AddressRange` -/
structure AddressRange where
  start : BitVec 64
  stop : BitVec 64
  deriving DecidableEq

/-- `AddressRange(start)` -/
def AddressRange.single (start : BitVec 64) : AddressRange := ⟨start, start + 1⟩

/-- `AddressRange(start, size)` -/
def AddressRange.sized (start size : BitVec 64) : AddressRange := ⟨start, start + size⟩

/-- `AddressRangeComp` -/
def addressRangeComp (lhs rhs : AddressRange) : Bool := decide (lhs.stop ≤ rhs.start)

/-! ### The loader -/

/-- `ELFIO::STT_FUNC` -/
def sttFunc : BitVec 8 := 2

/-- An entry of a symbol table, as far as the loader reads it. -/
structure Symbol where
  name : String
  value : BitVec 64
  size : BitVec 64
  type : BitVec 8
  deriving DecidableEq

/-- What `ELFIO` makes of a file. -/
inductive ElfFile where
  | missing
  | unreadable
  | invalid (msg : String)
  /-- The symbols of each section of type `SHT_SYMTAB`, and the entry point. -/
  | valid (symbolTables : List (List Symbol)) (entry : BitVec 64)

/-- The errors of the loader. -/
inductive Status where
  | internal (message : String)
  | notFound (message : String)
  deriving DecidableEq

/-- A size scale of the loader, which divides by it. -/
abbrev SizeScale := { scale : BitVec 64 // scale ≠ 0 }

/-- `ElfProgramLoader`, as far as it deals with symbols. -/
structure ElfProgramLoader where
  textSizeScale : SizeScale
  loaded : Bool
  fcnSymbolMap : List (BitVec 64 × String)
  functionRangeMap : SearchTree (AddressRange × String)

/-- A loader that has loaded nothing. -/
def ElfProgramLoader.new (textSizeScale : SizeScale) : ElfProgramLoader :=
  ⟨textSizeScale, false, [], .leaf⟩

namespace ElfProgramLoader

/-- `AddressRange(value, size / text_size_scale_)` -/
def rangeOf (scale : SizeScale) (symbol : Symbol) : AddressRange :=
  .sized symbol.value (symbol.size / scale.val)

/-- The body of the loop of `LoadSymbols`. -/
def addSymbol (rebalancing : Rebalancing (AddressRange × String)) (loader : ElfProgramLoader)
    (symbol : Symbol) : ElfProgramLoader :=
  if symbol.type = sttFunc then
    { loader with
      -- `emplace` does not replace an entry.
      fcnSymbolMap :=
        if (loader.fcnSymbolMap.lookup symbol.value).isSome then loader.fcnSymbolMap
        else (symbol.value, symbol.name) :: loader.fcnSymbolMap
      functionRangeMap := loader.functionRangeMap.insert
        (fun lhs rhs => addressRangeComp lhs.1 rhs.1) rebalancing
        (rangeOf loader.textSizeScale symbol, symbol.name) }
  else loader

/-- `ElfProgramLoader::LoadSymbols` -/
def loadSymbols (rebalancing : Rebalancing (AddressRange × String)) (fileName : String)
    (file : ElfFile) (loader : ElfProgramLoader) :
    Except Status (BitVec 64) × ElfProgramLoader :=
  match file with
  | .missing => (.error (.notFound s!"Unable to open elf file: '{fileName}'"), loader)
  | .unreadable => (.error (.internal s!"Elf loading error for '{fileName}'"), loader)
  | .invalid msg => (.error (.internal s!"Validation error for '{fileName}': {msg}"), loader)
  | .valid symbolTables entry =>
    (.ok entry, symbolTables.foldl
      (fun loader symtab => symtab.foldl (addSymbol rebalancing) loader)
      { loader with loaded := true })

/-- `ElfProgramLoader::GetFunctionName` -/
def getFunctionName (loader : ElfProgramLoader) (address : BitVec 64) : Except Status String :=
  if !loader.loaded then .error (.internal "No program loaded")
  else if loader.fcnSymbolMap.isEmpty then .error (.notFound "Symbol information not found")
  else match loader.functionRangeMap.find?
      (fun e => addressRangeComp e.1 (.single address))
      (fun e => addressRangeComp (.single address) e.1) with
    | some e => .ok e.2
    | none => .error (.notFound "Function not found")

end ElfProgramLoader

variable {loader : ElfProgramLoader} {symbols : List Symbol} {symbol : Symbol} {scale : SizeScale}

/-! ### What a look-up should find -/

open ElfProgramLoader (rangeOf addSymbol loadSymbols getFunctionName)

/-- The symbols of functions. -/
def functions (symbols : List Symbol) : List Symbol := symbols.filter (·.type == sttFunc)

/-- The end of a symbol does not wrap. -/
def NoWrap (symbol : Symbol) : Prop := symbol.value.toNat + symbol.size.toNat < 2 ^ 64

instance : DecidablePred NoWrap := fun _ => Nat.decLt _ _

/-- An address is in the range of a symbol. -/
def Contains (scale : SizeScale) (symbol : Symbol) (address : BitVec 64) : Prop :=
  symbol.value.toNat ≤ address.toNat ∧
    address.toNat < symbol.value.toNat + (symbol.size / scale.val).toNat

instance (scale : SizeScale) (symbol : Symbol) (address : BitVec 64) :
    Decidable (Contains scale symbol address) := inferInstanceAs (Decidable (_ ∧ _))

/-- A look-up finds a name if there is a function at the address, and the name of one that is. -/
def LookupCorrect (scale : SizeScale) (symbols : List Symbol) (address : BitVec 64)
    (result : Except Status String) : Prop :=
  ((∃ name, result = .ok name) ↔ ∃ symbol ∈ functions symbols, Contains scale symbol address) ∧
    ∀ name, result = .ok name →
      ∃ symbol ∈ functions symbols, symbol.name = name ∧ Contains scale symbol address

/-- Neither of two ranges lies before the other. -/
def unordered (scale : SizeScale) (symbol symbol' : Symbol) : Bool :=
  !addressRangeComp (rangeOf scale symbol) (rangeOf scale symbol') &&
    !addressRangeComp (rangeOf scale symbol') (rangeOf scale symbol)

/-- A symbol is kept after those that are kept already, if its range is ordered with theirs. -/
def keep (scale : SizeScale) (kept : List Symbol) (symbol : Symbol) : List Symbol :=
  if symbol.type = sttFunc ∧ ∀ k ∈ kept, unordered scale k symbol = false then kept ++ [symbol]
  else kept

/-- The function symbols whose ranges are ordered with those of the ones kept before. -/
def kept (scale : SizeScale) (symbols : List Symbol) : List Symbol := symbols.foldl (keep scale) []

theorem mem_functions_of_mem_foldl_keep (scale : SizeScale) {done : List Symbol}
    (h : symbol ∈ symbols.foldl (keep scale) done) :
    symbol ∈ done ∨ symbol ∈ functions symbols := by
  induction symbols generalizing done with
  | nil => exact .inl h
  | cons s rest ih =>
    rw [List.foldl_cons] at h
    rcases ih h with h | h
    · unfold keep at h
      split at h
      · rename_i hkeep
        rcases List.mem_append.mp h with h | h
        · exact .inl h
        · rw [List.mem_singleton.mp h]
          exact .inr (List.mem_filter.mpr ⟨List.mem_cons_self, beq_iff_eq.mpr hkeep.1⟩)
      · exact .inl h
    · exact .inr (((List.sublist_cons_self s rest).filter _).subset h)

theorem mem_functions_of_mem_kept (h : symbol ∈ kept scale symbols) :
    symbol ∈ functions symbols := by
  apply (mem_functions_of_mem_foldl_keep scale h).resolve_left
  exact List.not_mem_nil

/-! ### The map of ranges -/

/-- The first address of an entry, and the one past its last. -/
def lo (e : AddressRange × String) : Nat := e.1.start.toNat

/-- See `lo`. -/
def hi (e : AddressRange × String) : Nat := e.1.stop.toNat

/-- The entry of a symbol. -/
def entryOf (scale : SizeScale) (symbol : Symbol) : AddressRange × String :=
  (rangeOf scale symbol, symbol.name)

theorem hi_entryOf (h : NoWrap symbol) :
    hi (entryOf scale symbol) = symbol.value.toNat + (symbol.size / scale.val).toNat := by
  have hdiv : (symbol.size / scale.val).toNat ≤ symbol.size.toNat := by
    rw [BitVec.toNat_udiv]
    exact Nat.div_le_self _ _
  show (symbol.value + symbol.size / scale.val).toNat = _
  rw [BitVec.toNat_add_of_lt (lt_of_le_of_lt (Nat.add_le_add_left hdiv _) h)]

theorem contains_iff (h : NoWrap symbol) (address : BitVec 64) : Contains scale symbol address ↔
      lo (entryOf scale symbol) ≤ address.toNat ∧ address.toNat < hi (entryOf scale symbol) := by
  rw [hi_entryOf h]
  exact Iff.rfl

theorem unordered_eq_false_iff (scale : SizeScale) (symbol symbol' : Symbol) :
    unordered scale symbol symbol' = false ↔
      ¬ Clash lo hi (entryOf scale symbol) (entryOf scale symbol') := by
  simp only [unordered, addressRangeComp, Clash, lo, hi, entryOf, BitVec.le_def,
    Bool.and_eq_false_iff, Bool.not_eq_false', decide_eq_true_eq]
  omega

/-- What the loader knows of the symbols that it has scanned. -/
structure Indexed (scale : SizeScale) (symbols : List Symbol) (loader : ElfProgramLoader) :
    Prop where
  scale_eq : loader.textSizeScale = scale
  loaded : loader.loaded = true
  ordered : RangesOrdered lo hi loader.functionRangeMap.entries
  mem_entries : ∀ e, e ∈ loader.functionRangeMap.entries ↔
    ∃ symbol ∈ kept scale symbols, e = entryOf scale symbol
  isEmpty_iff : loader.fcnSymbolMap.isEmpty = true ↔ functions symbols = []

theorem kept_concat (scale : SizeScale) (symbols : List Symbol) (symbol : Symbol) :
    kept scale (symbols ++ [symbol]) = keep scale (kept scale symbols) symbol := by
  rw [kept, List.foldl_append]
  rfl

theorem addSymbol_fcnSymbolMap_isEmpty (rebalancing : Rebalancing (AddressRange × String))
    (loader : ElfProgramLoader) (h : symbol.type = sttFunc) :
    (addSymbol rebalancing loader symbol).fcnSymbolMap.isEmpty = false := by
  rw [addSymbol, if_pos h]
  dsimp only
  split
  · rename_i hfound
    cases hmap : loader.fcnSymbolMap with
    | nil => simp [hmap] at hfound
    | cons => rfl
  · rfl

theorem Indexed.step (rebalancing : Rebalancing (AddressRange × String)) {scale : SizeScale}
    {symbols : List Symbol} {loader : ElfProgramLoader} (h : Indexed scale symbols loader)
    {symbol : Symbol} (hwrap : symbol.type = sttFunc → NoWrap symbol) :
    Indexed scale (symbols ++ [symbol]) (addSymbol rebalancing loader symbol) := by
  have hfunctions : functions (symbols ++ [symbol]) = functions symbols ++ functions [symbol] :=
    List.filter_append ..
  by_cases htype : symbol.type = sttFunc
  · have hempty := addSymbol_fcnSymbolMap_isEmpty rebalancing loader htype
    have hvalid : lo (entryOf scale symbol) ≤ hi (entryOf scale symbol) := by
      rw [hi_entryOf (hwrap htype)]
      exact Nat.le_add_right _ _
    obtain ⟨hordered, hmem⟩ := insert_spec rebalancing h.ordered hvalid
    have hmap : (addSymbol rebalancing loader symbol).functionRangeMap =
        loader.functionRangeMap.insert (precedes lo hi) rebalancing (entryOf scale symbol) := by
      rw [addSymbol, if_pos htype, ← h.scale_eq]
      rfl
    refine ⟨?_, ?_, hmap ▸ hordered, fun e => ?_, ?_⟩
    · rw [addSymbol, if_pos htype]
      exact h.scale_eq
    · rw [addSymbol, if_pos htype]
      exact h.loaded
    · -- The symbol is kept if its entry is inserted.
      have hiff : (∀ y ∈ loader.functionRangeMap.entries, ¬ Clash lo hi y (entryOf scale symbol)) ↔
          ∀ k ∈ kept scale symbols, unordered scale k symbol = false := by
        simp only [h.mem_entries, unordered_eq_false_iff]
        constructor
        · intro hno k hk
          exact hno _ ⟨k, hk, rfl⟩
        · intro hno y ⟨k, hk, hy⟩
          exact hy ▸ hno k hk
      rw [hmap, hmem, h.mem_entries, hiff, kept_concat, keep]
      by_cases hkeep : ∀ k ∈ kept scale symbols, unordered scale k symbol = false
      · rw [if_pos ⟨htype, hkeep⟩]
        simp only [List.mem_append, List.mem_singleton, or_and_right, exists_or, exists_eq_left,
          and_iff_left hkeep]
      · rw [if_neg (fun hboth => hkeep hboth.2)]
        simp only [hkeep, and_false, or_false]
    · rw [hempty, hfunctions]
      simp [functions, htype]
  · have hsame : addSymbol rebalancing loader symbol = loader := if_neg htype
    have hkept : kept scale (symbols ++ [symbol]) = kept scale symbols := by
      rw [kept_concat, keep, if_neg (fun hboth => htype hboth.1)]
    rw [hsame]
    refine ⟨h.scale_eq, h.loaded, h.ordered, fun e => ?_, ?_⟩
    · rw [hkept]
      exact h.mem_entries e
    · rw [h.isEmpty_iff, hfunctions]
      simp [functions, htype]

theorem Indexed.run (rebalancing : Rebalancing (AddressRange × String)) {done : List Symbol}
    (h : Indexed scale done loader) (hwrap : ∀ symbol ∈ functions symbols, NoWrap symbol) :
    Indexed scale (done ++ symbols) (symbols.foldl (addSymbol rebalancing) loader) := by
  induction symbols generalizing done loader with
  | nil => rwa [List.append_nil]
  | cons symbol rest ih =>
    have hfirst : symbol.type = sttFunc → NoWrap symbol := fun htype =>
      hwrap symbol (List.mem_filter.mpr ⟨List.mem_cons_self, beq_iff_eq.mpr htype⟩)
    have hrest : ∀ s ∈ functions rest, NoWrap s := fun s hs =>
      hwrap s (((List.sublist_cons_self symbol rest).filter _).subset hs)
    have hindexed := ih (h.step rebalancing hfirst) hrest
    rwa [List.append_assoc] at hindexed

theorem indexed_loadSymbols (rebalancing : Rebalancing (AddressRange × String)) (scale : SizeScale)
    (fileName : String) (symbolTables : List (List Symbol)) (entry : BitVec 64)
    (hwrap : ∀ symbol ∈ functions symbolTables.flatten, NoWrap symbol) :
    Indexed scale symbolTables.flatten
      (loadSymbols rebalancing fileName (.valid symbolTables entry) (.new scale)).2 := by
  have hstart : Indexed scale [] { ElfProgramLoader.new scale with loaded := true } :=
    ⟨rfl, rfl, ⟨List.Pairwise.nil, fun x hx => absurd hx List.not_mem_nil⟩,
      fun e => by simp [ElfProgramLoader.new, SearchTree.entries, kept],
      by simp [ElfProgramLoader.new, functions]⟩
  have hend := hstart.run rebalancing hwrap
  rw [List.nil_append, List.foldl_flatten] at hend
  exact hend

/-! ### Look-up by address -/

/-- The comparisons of the look-up, as those of the address with the ends of a range. -/
theorem find?_single {t : SearchTree (AddressRange × String)} (h : RangesOrdered lo hi t.entries)
    (address : BitVec 64) (e : AddressRange × String) :
    t.find? (fun e => addressRangeComp e.1 (.single address))
        (fun e => addressRangeComp (.single address) e.1) = some e ↔
      e ∈ t.entries ∧ lo e ≤ address.toNat ∧ address.toNat < hi e := by
  by_cases hlast : address.toNat + 1 < 2 ^ 64
  · rw [← find?_ordered h address.toNat]
    have hstop : (fun e : AddressRange × String => addressRangeComp (.single address) e.1) =
        fun e => decide (address.toNat < lo e) := by
      funext e
      rw [addressRangeComp, AddressRange.single, lo, decide_eq_decide, BitVec.le_def,
        BitVec.toNat_add_of_lt hlast]
      exact Nat.succ_le_iff
    rw [hstop]
    exact Iff.rfl
  · -- The range of the last address ends at 0, and no range of a symbol contains that address.
    have hwraps : AddressRange.single address = ⟨address, 0⟩ := by
      have hval : address = BitVec.allOnes 64 := by
        apply BitVec.eq_of_toNat_eq
        have := address.isLt
        simp only [BitVec.toNat_allOnes]
        omega
      rw [hval]
      decide
    constructor
    · intro hfind
      rw [SearchTree.find?, Option.filter_eq_some_iff] at hfind
      rw [addressRangeComp, hwraps] at hfind
      simp at hfind
    · rintro ⟨-, -, hlt⟩
      have := e.1.stop.isLt
      simp only [hi] at hlt
      omega

theorem Indexed.getFunctionName_eq_ok (h : Indexed scale symbols loader)
    (hwrap : ∀ symbol ∈ functions symbols, NoWrap symbol) (address : BitVec 64) (name : String) :
    loader.getFunctionName address = .ok name ↔
      ∃ symbol ∈ kept scale symbols, symbol.name = name ∧ Contains scale symbol address := by
  have hfind : (∃ e, loader.functionRangeMap.find?
        (fun e => addressRangeComp e.1 (.single address))
        (fun e => addressRangeComp (.single address) e.1) = some e ∧ e.2 = name) ↔
      ∃ symbol ∈ kept scale symbols, symbol.name = name ∧ Contains scale symbol address := by
    simp only [find?_single h.ordered, h.mem_entries]
    constructor
    · intro ⟨e, ⟨⟨symbol, hkept, he⟩, hlo, hhi⟩, hname⟩
      subst he
      have hfits := hwrap symbol (mem_functions_of_mem_kept hkept)
      exact ⟨symbol, hkept, hname, (contains_iff hfits address).mpr ⟨hlo, hhi⟩⟩
    · intro ⟨symbol, hkept, hname, hcontains⟩
      have hfits := hwrap symbol (mem_functions_of_mem_kept hkept)
      obtain ⟨hlo, hhi⟩ := (contains_iff hfits address).mp hcontains
      exact ⟨entryOf scale symbol, ⟨⟨symbol, hkept, rfl⟩, hlo, hhi⟩, hname⟩
  rw [← hfind, getFunctionName, h.loaded]
  cases hempty : loader.fcnSymbolMap.isEmpty with
  | true =>
    -- Without functions the map of ranges is empty too.
    have hnone : ∀ symbol, symbol ∉ kept scale symbols := by
      intro symbol hkept
      have hmem := mem_functions_of_mem_kept hkept
      rw [h.isEmpty_iff.mp hempty] at hmem
      exact absurd hmem List.not_mem_nil
    rw [hfind]
    simp [hnone]
  | false =>
    simp only [Bool.not_true, Bool.false_eq_true, if_false]
    split <;> rename_i hresult <;> simp [hresult]

/-- **A look-up by address is right exactly if a function symbol at the address, where there is one,
    is among those that are kept.** -/
theorem lookupCorrect_iff (rebalancing : Rebalancing (AddressRange × String)) (scale : SizeScale)
    (fileName : String) (symbolTables : List (List Symbol)) (entry : BitVec 64)
    (hwrap : ∀ symbol ∈ functions symbolTables.flatten, NoWrap symbol) (address : BitVec 64) :
    LookupCorrect scale symbolTables.flatten address
        ((loadSymbols rebalancing fileName (.valid symbolTables entry)
          (.new scale)).2.getFunctionName address) ↔
      ((∃ symbol ∈ functions symbolTables.flatten, Contains scale symbol address) →
        ∃ symbol ∈ kept scale symbolTables.flatten, Contains scale symbol address) := by
  have hindexed := indexed_loadSymbols rebalancing scale fileName symbolTables entry hwrap
  have hok := hindexed.getFunctionName_eq_ok hwrap address
  have hsome : (∃ name, (loadSymbols rebalancing fileName (.valid symbolTables entry)
        (.new scale)).2.getFunctionName address = .ok name) ↔
      ∃ symbol ∈ kept scale symbolTables.flatten, Contains scale symbol address := by
    simp only [hok]
    constructor
    · intro ⟨name, symbol, hkept, _, hcontains⟩
      exact ⟨symbol, hkept, hcontains⟩
    · intro ⟨symbol, hkept, hcontains⟩
      exact ⟨symbol.name, symbol, hkept, rfl, hcontains⟩
  rw [LookupCorrect, hsome]
  constructor
  · intro h
    exact h.1.mpr
  · intro h
    refine ⟨⟨?_, h⟩, ?_⟩
    · intro ⟨symbol, hkept, hcontains⟩
      exact ⟨symbol, mem_functions_of_mem_kept hkept, hcontains⟩
    · intro name hname
      obtain ⟨symbol, hkept, hnamed, hcontains⟩ := (hok name).mp hname
      exact ⟨symbol, mem_functions_of_mem_kept hkept, hnamed, hcontains⟩

/-- A function of which a part has a name of its own, without a size, in front of it. -/
def loopInMain : List Symbol :=
  [⟨"loop", 0x104, 0, sttFunc⟩, ⟨"main", 0x100, 0x10, sttFunc⟩]

/-- The loader does not balance the tree. -/
def unbalanced : Rebalancing (AddressRange × String) := ⟨id, fun _ => rfl⟩

theorem lookupCorrect_iff_main :
    LookupCorrect ⟨1, by decide⟩ [⟨"main", 0x100, 0x10, sttFunc⟩] 0x108
      ((loadSymbols unbalanced "main.elf" (.valid [[⟨"main", 0x100, 0x10, sttFunc⟩]] 0x100)
        (.new ⟨1, by decide⟩)).2.getFunctionName 0x108) := by
  apply (lookupCorrect_iff unbalanced ⟨1, by decide⟩ "main.elf" [[⟨"main", 0x100, 0x10, sttFunc⟩]]
    0x100 (by decide) 0x108).mpr
  decide

/-- The range of the label is not ordered with that of the function, which is not kept. -/
theorem not_lookupCorrect_loopInMain :
    (∀ symbol ∈ functions loopInMain, NoWrap symbol) ∧
      ¬ LookupCorrect ⟨1, by decide⟩ loopInMain 0x108
        ((loadSymbols unbalanced "main.elf" (.valid [loopInMain] 0x100)
          (.new ⟨1, by decide⟩)).2.getFunctionName 0x108) := by
  refine ⟨by decide, ?_⟩
  have hresult : (loadSymbols unbalanced "main.elf" (.valid [loopInMain] 0x100)
      (.new ⟨1, by decide⟩)).2.getFunctionName 0x108 = .error (.notFound "Function not found") := by
    decide
  have hfunction : ∃ symbol ∈ functions loopInMain, Contains ⟨1, by decide⟩ symbol 0x108 := by
    decide
  intro h
  obtain ⟨name, hname⟩ := h.1.mpr hfunction
  rw [hresult] at hname
  cases hname

end MpactSim.Loader
