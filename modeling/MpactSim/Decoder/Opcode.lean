import MpactSim.Lib.Ordered
import MpactSim.Lib.Regex
import Mathlib.Data.Char

namespace MpactSim.Decoder

open Lib

/-!
# Opcode numbers and the assembler's dispatch table

Three parts of the generated code refer to an opcode by a number:

* `enum class OpcodeEnum` numbers the PascalCase names in their order (`opcodeEnum`);
* the array `encode_fcns` lists the `Encode` functions in the order of the raw names
  (`encodeFcns`);
* the matcher of a slot looks `encode_fcns` up at the `OpcodeEnum` value of the
  instruction it matched (`matcherIndex`).

`dispatch_agrees_iff` says when the three agree.
-/

/-- A name: the characters of a `std::string`, ordered as the ordered containers do. -/
abbrev Name := List Char

/-! ### The source -/

/-- The loop of `ToPascalCase`; `capitalize` is set at the start and after an underscore. -/
def pascalFrom (capitalize : Bool) : Name → Name
  | [] => []
  | c :: rest =>
    if c = '_' then pascalFrom true rest
    else
      let c := if capitalize then c.toUpper else c
      c :: pascalFrom (c = '_') rest

/-- `ToPascalCase`. -/
def toPascalCase (name : Name) : Name := pascalFrom true name

/-- The enumerators of `OpcodeEnum` after `kNone`, in order: `name_set` of `GenerateEnums`. -/
def opcodeNameSet (opcodes : List Name) : List Name := keys (opcodes.map toPascalCase)

/-- The value of the enumerator with a given PascalCase name. -/
def opcodeEnum (opcodes : List Name) (pascal : Name) : Option Nat :=
  if pascal ∈ opcodeNameSet opcodes then some ((opcodeNameSet opcodes).idxOf pascal + 1) else none

/-- `encode_fcns`: `EncodeNone`, then the function generated for each instruction of the
    instruction set, in the order of `instruction_map_`. -/
def encodeFcns (opcodes : List Name) : List (Option Name) := none :: (keys opcodes).map some

/-- The entry of `index_to_opcode_map_` that a slot's matcher makes for an instruction. -/
def matcherIndex (opcodes : List Name) (name : Name) : Option Nat :=
  opcodeEnum opcodes (toPascalCase name)

/-- The function that encodes a line a slot has matched as the instruction `name`. -/
def dispatch (opcodes : List Name) (name : Name) : Option (Option Name) :=
  (matcherIndex opcodes name).bind fun index => (encodeFcns opcodes)[index]?

/-! ### Positions -/

/-- What it takes for the table to agree with the enumeration: entry `i` is the function
    of the opcode numbered `i`, and every slot dispatches each of its instructions to
    the function of that instruction.  A slot is the list of the opcodes in it. -/
def DispatchAgrees (opcodes : List Name) (slots : List (List Name)) : Prop :=
  (∀ i, 1 ≤ i → i ≤ opcodes.length → ∃ name ∈ opcodes,
    (encodeFcns opcodes)[i]? = some (some name) ∧ opcodeEnum opcodes (toPascalCase name) = some i) ∧
  ∀ slot ∈ slots, ∀ name ∈ slot, dispatch opcodes name = some (some name)

variable {opcodes : List Name}

theorem opcodeEnum_of_mem {name : Name} (h : name ∈ opcodes) :
    opcodeEnum opcodes (toPascalCase name)
      = some ((opcodeNameSet opcodes).idxOf (toPascalCase name) + 1) := by
  rw [opcodeEnum, if_pos]
  exact mem_keys.mpr (List.mem_map_of_mem h)

theorem getElem_encodeFcns {i : Nat} {name : Name} (h : name ∈ opcodes) :
    (encodeFcns opcodes)[i + 1]? = some (some name) ↔ i = (keys opcodes).idxOf name := by
  rw [encodeFcns, List.getElem?_cons_succ, List.getElem?_map, Option.map_eq_some_iff]
  constructor
  · rintro ⟨x, hx, hxn⟩
    obtain rfl := Option.some.inj hxn
    obtain ⟨hi, hget⟩ := List.getElem?_eq_some_iff.mp hx
    rw [← hget, (nodup_keys opcodes).idxOf_getElem]
  · rintro rfl
    exact ⟨name, List.getElem?_idxOf (mem_keys.mpr h), rfl⟩

theorem getElem_encodeFcns_enum {i : Nat} {name : Name} (h : name ∈ opcodes)
    (hi : opcodeEnum opcodes (toPascalCase name) = some i) :
    (encodeFcns opcodes)[i]? = some (some name) ↔
      (opcodeNameSet opcodes).idxOf (toPascalCase name) = (keys opcodes).idxOf name := by
  rw [opcodeEnum_of_mem h, Option.some.injEq] at hi
  rw [← hi, getElem_encodeFcns h]

/-- **Dispatch.** For distinct opcode names the table agrees with the enumeration exactly
    if PascalCase keeps the names in their order, strictly. -/
theorem dispatch_agrees_iff {opcodes : List Name} (hnodup : opcodes.Nodup)
    (slots : List (List Name)) (hslots : ∀ slot ∈ slots, ∀ name ∈ slot, name ∈ opcodes) :
    DispatchAgrees opcodes slots ↔
      ∀ a ∈ opcodes, ∀ b ∈ opcodes, a < b → toPascalCase a < toPascalCase b := by
  constructor
  · rintro ⟨htable, -⟩ a ha b hb hab
    -- Each opcode is named by the entry at its own position, hence by its own number.
    have hpos : ∀ name ∈ opcodes,
        (opcodeNameSet opcodes).idxOf (toPascalCase name) = (keys opcodes).idxOf name := by
      intro name hname
      have hlt : (keys opcodes).idxOf name < (keys opcodes).length :=
        List.idxOf_lt_length_of_mem (mem_keys.mpr hname)
      rw [length_keys hnodup] at hlt
      obtain ⟨other, hother, hentry, henum⟩ := htable ((keys opcodes).idxOf name + 1) (by omega)
        (by omega)
      have hsame : other = name := by
        have hself := (getElem_encodeFcns hname).mpr rfl
        rw [hentry] at hself
        exact Option.some.inj (Option.some.inj hself)
      rw [hsame] at henum hentry
      exact (getElem_encodeFcns_enum hname henum).mp hentry
    have hidx := (idxOf_keys_lt_iff ha hb).mpr hab
    rw [← hpos a ha, ← hpos b hb] at hidx
    exact (idxOf_keys_lt_iff (List.mem_map_of_mem ha) (List.mem_map_of_mem hb)).mp hidx
  · intro hmono
    have hkeys : (keys opcodes).map toPascalCase = opcodeNameSet opcodes :=
      map_keys_of_strictMonoOn hnodup hmono
    have hpos : ∀ name ∈ opcodes,
        (opcodeNameSet opcodes).idxOf (toPascalCase name) = (keys opcodes).idxOf name := by
      intro name hname
      have hlt : (keys opcodes).idxOf name < (keys opcodes).length :=
        List.idxOf_lt_length_of_mem (mem_keys.mpr hname)
      have hlt' : (keys opcodes).idxOf name < (opcodeNameSet opcodes).length := by
        rwa [← hkeys, List.length_map]
      have hget : (opcodeNameSet opcodes)[(keys opcodes).idxOf name] = toPascalCase name := by
        simp only [← hkeys, List.getElem_map, List.getElem_idxOf]
      rw [← hget]
      exact (nodup_keys (opcodes.map toPascalCase)).idxOf_getElem _ hlt'
    refine ⟨fun i h1 hi => ?_, fun slot hslot name hname => ?_⟩
    · obtain ⟨j, rfl⟩ := Nat.exists_eq_add_of_le' h1
      have hj : j < (keys opcodes).length := by
        rw [length_keys hnodup]
        omega
      have hmem : (keys opcodes)[j] ∈ opcodes := mem_keys.mp (List.getElem_mem hj)
      have hidx : j = (keys opcodes).idxOf (keys opcodes)[j] :=
        ((nodup_keys opcodes).idxOf_getElem j hj).symm
      refine ⟨(keys opcodes)[j], hmem, (getElem_encodeFcns hmem).mpr hidx, ?_⟩
      rw [opcodeEnum_of_mem hmem, hpos _ hmem, ← hidx]
    · have hmem := hslots slot hslot name hname
      have henum := opcodeEnum_of_mem hmem
      rw [dispatch, matcherIndex, henum, Option.bind_some]
      exact (getElem_encodeFcns_enum hmem henum).mpr (hpos name hmem)

/-- Two opcodes whose names and PascalCase names are in the same order. -/
theorem dispatch_agrees_add_sub :
    DispatchAgrees [['a', 'd', 'd'], ['s', 'u', 'b']] [[['s', 'u', 'b']]] ↔
      ∀ a ∈ [['a', 'd', 'd'], ['s', 'u', 'b']], ∀ b ∈ [['a', 'd', 'd'], ['s', 'u', 'b']],
        a < b → toPascalCase a < toPascalCase b :=
  dispatch_agrees_iff (by decide) _ (by decide)

/-- `Sub` comes before `add`, but `Add` before `Sub`: a line matched as `add` is encoded
    as `Sub`. -/
theorem dispatch_sub_add :
    dispatch [['a', 'd', 'd'], ['S', 'u', 'b']] ['a', 'd', 'd'] = some (some ['S', 'u', 'b']) ∧
      ¬ DispatchAgrees [['a', 'd', 'd'], ['S', 'u', 'b']] [[['a', 'd', 'd']]] := by
  have hdispatch : dispatch [['a', 'd', 'd'], ['S', 'u', 'b']] ['a', 'd', 'd']
      = some (some ['S', 'u', 'b']) := by decide
  refine ⟨hdispatch, fun h => ?_⟩
  have := h.2 _ List.mem_cons_self _ List.mem_cons_self
  rw [hdispatch] at this
  exact absurd this (by decide)

end MpactSim.Decoder
