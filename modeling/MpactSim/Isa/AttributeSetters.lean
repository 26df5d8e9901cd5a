import MpactSim.Isa.OperandSetters
import MpactSim.Lib.SortedMap

namespace MpactSim.Isa

open Decoder (Name)
open Lib

/-!
# Attribute setters

The attributes of an instruction are an array with an element for each attribute of its slot.
The array is installed by a generated function, which instructions of all slots share if their
attribute keys are equal.

* `createAttributeLookupKey`    — the key: the attributes of the instruction, and how many are
  not set;
* `generateAttributeSetterFcn`  — the array of the function;
* `attributeEnum`               — the indices by which the array is read.

`attribute_setters_iff` says when every instruction is given its own attributes.
-/

/-! ### The source -/

/-- An instruction with the attributes of its slot, an ordered set.  `AddAttributeName` is called
    for every attribute that is added to an instruction. -/
structure AttributeInstruction where
  attributeNames : List Name
  sorted : attributeNames.Pairwise (· < ·)
  attributeMap : SortedMap Name TemplateExpression
  named : ∀ entry ∈ attributeMap.entries, entry.1 ∈ attributeNames

/-- The value of an expression, if it has one. -/
def constantValue (expr : TemplateExpression) : Option Int := expr.getValue.toOption

/-- The value of an attribute in a key.  A value is always an `int`, so there is no `e2`. -/
def attributeText : Option Int → Name
  | some v => intText v
  | none => "e1".toList

namespace AttributeInstruction

/-- The number of attributes that are not set. -/
def unset (inst : AttributeInstruction) : Nat :=
  inst.attributeNames.length - inst.attributeMap.entries.length

/-- `CreateAttributeLookupKey`. -/
def createAttributeLookupKey (inst : AttributeInstruction) : Name :=
  (inst.attributeMap.entries.flatMap fun entry =>
      entry.1 ++ "[".toList ++ attributeText (constantValue entry.2) ++ "]:".toList)
    ++ (List.replicate inst.unset "[]:".toList).flatten

/-- The value of an attribute: zero if it is not set or has no value. -/
def attributeValue (inst : AttributeInstruction) (name : Name) : Int :=
  match inst.attributeMap.lookup name with
  | none => 0
  | some expr => (constantValue expr).getD 0

/-- `GenerateAttributeSetterFcn`: the array that the function passes to `SetAttributes`, which it
    does not call if the slot has no attributes. -/
def generateAttributeSetterFcn (inst : AttributeInstruction) : Option (List Int) :=
  if inst.attributeNames.length > 0 then some (inst.attributeNames.map inst.attributeValue)
  else none

/-- The enumerators of `AttributeEnum`, by the names of the attributes. -/
def attributeEnum (inst : AttributeInstruction) : List (Name × Nat) := inst.attributeNames.zipIdx

end AttributeInstruction

/-- The attributes of an instruction after its setter; there are none before. -/
def installed (fcn : Option (List Int)) : List Int := fcn.getD []

/-- The setters of the instructions of all slots, in the order in which `GenerateAttributeSetter`
    is called: the instructions for which functions are generated, and the function of each
    instruction. -/
def attributeSetters (insts : List AttributeInstruction) : List AttributeInstruction × List Nat :=
  enterAll AttributeInstruction.createAttributeLookupKey [] insts

/-! ### The specification -/

/-- The function of `m` installs the attributes of `inst`. -/
structure Installs (m inst : AttributeInstruction) : Prop where
  size : (installed m.generateAttributeSetterFcn).length = inst.attributeNames.length
  value : ∀ entry ∈ inst.attributeEnum,
    (installed m.generateAttributeSetterFcn)[entry.2]? = some (inst.attributeValue entry.1)

/-- The function that two instructions share installs the attributes of either. -/
def AttributesFit (insts : List AttributeInstruction) : Prop :=
  ∀ (i j : Nat) a b k m, insts[i]? = some a → insts[j]? = some b →
    (attributeSetters insts).2[i]? = some k → (attributeSetters insts).2[j]? = some k →
    (attributeSetters insts).1[k]? = some m → Installs m a ∧ Installs m b

/-- The attributes that are set, with their values. -/
def AttributeInstruction.setValues (inst : AttributeInstruction) : List (Name × Option Int) :=
  inst.attributeMap.entries.map fun entry => (entry.1, constantValue entry.2)

/-- The same attributes are set to the same values, in slots with equally many attributes. -/
structure SameAttributes (a b : AttributeInstruction) : Prop where
  setValues : a.setValues = b.setValues
  count : a.attributeNames.length = b.attributeNames.length

/-- An attribute that is not zero stands at the same position in both slots. -/
def SamePositions (a b : AttributeInstruction) : Prop :=
  ∀ (i : Nat) name, a.attributeValue name ≠ 0 →
    (a.attributeNames[i]? = some name ↔ b.attributeNames[i]? = some name)

/-! ### The array -/

section

variable {a b : AttributeInstruction}

@[simp]
theorem installed_generateAttributeSetterFcn (inst : AttributeInstruction) :
    installed inst.generateAttributeSetterFcn = inst.attributeNames.map inst.attributeValue := by
  unfold AttributeInstruction.generateAttributeSetterFcn
  split
  · rfl
  · rename_i h
    have hnil : inst.attributeNames = [] := by simpa using h
    rw [hnil]
    rfl

theorem installs_iff : Installs a b ↔
    a.attributeNames.map a.attributeValue = b.attributeNames.map b.attributeValue := by
  constructor
  · rintro ⟨hsize, hvalue⟩
    rw [installed_generateAttributeSetterFcn] at hsize hvalue
    apply List.ext_getElem?
    intro i
    cases hname : b.attributeNames[i]? with
    | none =>
      rw [List.getElem?_eq_none_iff] at hname
      rw [List.getElem?_eq_none (hsize.trans_le hname),
        List.getElem?_eq_none (by simpa using hname)]
    | some name =>
      rw [hvalue (name, i) (List.mk_mem_zipIdx_iff_getElem?.mpr hname), List.getElem?_map, hname]
      rfl
  · intro h
    refine ⟨?_, ?_⟩
    · rw [installed_generateAttributeSetterFcn, h, List.length_map]
    · rintro ⟨name, i⟩ hentry
      have hname := List.mk_mem_zipIdx_iff_getElem?.mp hentry
      rw [installed_generateAttributeSetterFcn, h, List.getElem?_map, hname]
      rfl

/-! ### The key -/

/-- The names of the attributes are identifiers. -/
def AttributeInstruction.WellNamed (inst : AttributeInstruction) : Prop :=
  ∀ name ∈ inst.attributeNames, IsIdent name

/-- The parts of a key, where what is not set is an attribute without a name and a value. -/
def AttributeInstruction.keyParts (inst : AttributeInstruction) : List (Name × Name) :=
  (inst.setValues.map fun entry => (entry.1, attributeText entry.2))
    ++ List.replicate inst.unset ([], [])

theorem createAttributeLookupKey_eq (inst : AttributeInstruction) :
    inst.createAttributeLookupKey =
      inst.keyParts.flatMap fun part => part.1 ++ '[' :: (part.2 ++ ']' :: [':']) := by
  unfold AttributeInstruction.createAttributeLookupKey AttributeInstruction.keyParts
    AttributeInstruction.setValues
  rw [List.flatMap_append, List.flatMap_map, List.flatMap_map, List.flatMap_replicate]
  congr 1
  refine List.flatMap_congr fun entry _ => ?_
  simp

/-- Parts with a name before a bracket and a text in it are read back. -/
theorem bracketed_inj {l l' : List (Name × Name)} (h : ∀ p ∈ l, '[' ∉ p.1 ∧ ']' ∉ p.2)
    (h' : ∀ p ∈ l', '[' ∉ p.1 ∧ ']' ∉ p.2)
    (heq : (l.flatMap fun p => p.1 ++ '[' :: (p.2 ++ ']' :: [':'])) =
      l'.flatMap fun p => p.1 ++ '[' :: (p.2 ++ ']' :: [':'])) : l = l' := by
  induction l generalizing l' with
  | nil =>
    cases l' with
    | nil => rfl
    | cons p' rest' => simp at heq
  | cons p rest ih =>
    cases l' with
    | nil => simp at heq
    | cons p' rest' =>
      obtain ⟨⟨hname, htext⟩, hrest⟩ := List.forall_mem_cons.mp h
      obtain ⟨⟨hname', htext'⟩, hrest'⟩ := List.forall_mem_cons.mp h'
      have heq : p.1 ++ '[' :: (p.2 ++ ']' :: (':' :: rest.flatMap fun p =>
            p.1 ++ '[' :: (p.2 ++ ']' :: [':']))) =
          p'.1 ++ '[' :: (p'.2 ++ ']' :: (':' :: rest'.flatMap fun p =>
            p.1 ++ '[' :: (p.2 ++ ']' :: [':']))) := by
        simpa using heq
      obtain ⟨hfst, hafter⟩ := cut_inj hname hname' heq
      obtain ⟨hsnd, htail⟩ := cut_inj htext htext' hafter
      rw [ih hrest hrest' (List.cons.inj htail).2, Prod.ext hfst hsnd]

theorem attributeText_injective : Function.Injective attributeText := by
  have hsign : ∀ v, intText v ≠ "e1".toList := by
    intro v heq
    exact notMem_intText v (by decide : 'e'.isDigit = false) (by decide) (heq ▸ by decide)
  intro v w h
  cases v with
  | none =>
    cases w with
    | none => rfl
    | some w => exact absurd h.symm (hsign w)
  | some v =>
    cases w with
    | none => exact absurd h (hsign v)
    | some w => exact congrArg some (intText_injective h)

theorem close_notMem_attributeText (v : Option Int) : ']' ∉ attributeText v := by
  cases v with
  | none => decide
  | some v => exact notMem_intText v (by decide) (by decide)

theorem isIdent_of_mem_setValues (h : a.WellNamed) : ∀ entry ∈ a.setValues, IsIdent entry.1 := by
  intro entry hentry
  obtain ⟨e, he, rfl⟩ := List.mem_map.mp hentry
  exact h e.1 (a.named e he)

theorem keyParts_readable (h : a.WellNamed) : ∀ p ∈ a.keyParts, '[' ∉ p.1 ∧ ']' ∉ p.2 := by
  intro p hp
  rcases List.mem_append.mp hp with hp | hp
  · obtain ⟨entry, hentry, rfl⟩ := List.mem_map.mp hp
    exact ⟨(isIdent_of_mem_setValues h entry hentry).notMem (by decide),
      close_notMem_attributeText entry.2⟩
  · obtain rfl := List.eq_of_mem_replicate hp
    exact ⟨List.not_mem_nil, List.not_mem_nil⟩

theorem filter_keyParts (h : a.WellNamed) :
    a.keyParts.filter (fun p => p.1 ≠ []) =
      a.setValues.map fun entry => (entry.1, attributeText entry.2) := by
  unfold AttributeInstruction.keyParts
  rw [List.filter_append, List.filter_replicate_of_neg (by simp), List.append_nil,
    List.filter_eq_self]
  intro p hp
  obtain ⟨entry, hentry, rfl⟩ := List.mem_map.mp hp
  simpa using (isIdent_of_mem_setValues h entry hentry).1

theorem length_entries_le (inst : AttributeInstruction) :
    inst.attributeMap.entries.length ≤ inst.attributeNames.length := by
  have hnodup : (inst.attributeMap.entries.map Prod.fst).Nodup :=
    List.pairwise_map.mpr (inst.attributeMap.sorted.imp fun h => ne_of_lt h)
  have hsubset : inst.attributeMap.entries.map Prod.fst ⊆ inst.attributeNames := by
    intro name hname
    obtain ⟨entry, hentry, rfl⟩ := List.mem_map.mp hname
    exact inst.named entry hentry
  simpa using (hnodup.subperm hsubset).length_le

theorem length_keyParts (inst : AttributeInstruction) :
    inst.keyParts.length = inst.attributeNames.length := by
  have hle := length_entries_le inst
  simp only [AttributeInstruction.keyParts, AttributeInstruction.setValues,
    AttributeInstruction.unset, List.length_append, List.length_map, List.length_replicate]
  omega

/-- **Keys.** Two keys are equal exactly if the same attributes are set to the same values and as
    many are not. -/
theorem createAttributeLookupKey_eq_iff (ha : a.WellNamed) (hb : b.WellNamed) :
    a.createAttributeLookupKey = b.createAttributeLookupKey ↔ SameAttributes a b := by
  rw [createAttributeLookupKey_eq, createAttributeLookupKey_eq]
  constructor
  · intro heq
    have hparts := bracketed_inj (keyParts_readable ha) (keyParts_readable hb) heq
    refine ⟨?_, ?_⟩
    · have hset := filter_keyParts ha
      rw [hparts, filter_keyParts hb] at hset
      refine (List.map_injective_iff.mpr (fun x y hxy => ?_) hset).symm
      obtain ⟨hname, htext⟩ := Prod.mk.inj hxy
      exact Prod.ext hname (attributeText_injective htext)
    · rw [← length_keyParts, hparts, length_keyParts]
  · rintro ⟨hset, hcount⟩
    have hentries : a.attributeMap.entries.length = b.attributeMap.entries.length := by
      have hlength := congrArg List.length hset
      simpa only [AttributeInstruction.setValues, List.length_map] using hlength
    have hparts : a.keyParts = b.keyParts := by
      unfold AttributeInstruction.keyParts AttributeInstruction.unset
      rw [hset, hcount, hentries]
    rw [hparts]

/-! ### Positions -/

theorem attributeValue_eq_iff {name : Name} {v : Int} (hv : v ≠ 0) :
    a.attributeValue name = v ↔ (name, some v) ∈ a.setValues := by
  have hmem : (name, some v) ∈ a.setValues ↔
      ∃ expr, a.attributeMap.lookup name = some expr ∧ constantValue expr = some v := by
    unfold AttributeInstruction.setValues
    rw [List.mem_map]
    constructor
    · rintro ⟨⟨name', expr⟩, hentry, heq⟩
      obtain ⟨rfl, hvalue⟩ := Prod.mk.inj heq
      exact ⟨expr, SortedMap.lookup_eq_some_iff.mpr hentry, hvalue⟩
    · rintro ⟨expr, hlookup, hvalue⟩
      exact ⟨(name, expr), SortedMap.lookup_eq_some_iff.mp hlookup, by rw [hvalue]⟩
  rw [hmem]
  unfold AttributeInstruction.attributeValue
  cases a.attributeMap.lookup name with
  | none => simpa using hv.symm
  | some expr =>
    cases hconst : constantValue expr with
    | none => simpa [hconst] using hv.symm
    | some w => simp [hconst]

theorem attributeValue_congr (h : a.setValues = b.setValues) (name : Name) :
    a.attributeValue name = b.attributeValue name := by
  by_cases hv : a.attributeValue name = 0
  · by_contra hne
    have hb := (attributeValue_eq_iff fun hzero => hne (hv.trans hzero.symm)).mp
      (rfl : b.attributeValue name = _)
    rw [← h, ← attributeValue_eq_iff fun hzero => hne (hv.trans hzero.symm)] at hb
    exact hne hb
  · exact ((attributeValue_eq_iff hv).mpr (h ▸ (attributeValue_eq_iff hv).mp rfl)).symm

theorem mem_attributeNames {name : Name} (hv : a.attributeValue name ≠ 0) :
    name ∈ a.attributeNames := by
  obtain ⟨entry, hentry, heq⟩ := List.mem_map.mp ((attributeValue_eq_iff hv).mp rfl)
  exact (Prod.mk.inj heq).1 ▸ a.named entry hentry

end

/-- Lists with the same images under `f` have an element that is not mapped to zero at the same
    position, if they have the same such elements in the same order. -/
theorem getElem?_of_map_eq {α : Type} {f : α → Int} {l l' : List α} (hmap : l.map f = l'.map f)
    (hfilter : l.filter (fun x => f x ≠ 0) = l'.filter (fun x => f x ≠ 0)) (i : Nat) {x : α}
    (hx : f x ≠ 0) (hi : l[i]? = some x) : l'[i]? = some x := by
  induction l generalizing l' i with
  | nil => cases hi
  | cons y rest ih =>
    cases l' with
    | nil => cases hmap
    | cons y' rest' =>
      obtain ⟨hhead, htail⟩ := List.cons.inj hmap
      by_cases hy : f y = 0
      · rw [List.filter_cons_of_neg (by simpa using hy),
          List.filter_cons_of_neg (by simpa using hhead ▸ hy)] at hfilter
        cases i with
        | zero => exact absurd hy (Option.some.inj hi ▸ hx)
        | succ i => exact ih htail hfilter i hi
      · rw [List.filter_cons_of_pos (by simpa using hy),
          List.filter_cons_of_pos (by simpa using hhead ▸ hy)] at hfilter
        obtain ⟨hyy', hfilter⟩ := List.cons.inj hfilter
        cases i with
        | zero => exact hyy' ▸ hi
        | succ i => exact ih htail hfilter i hi

section

variable {a b : AttributeInstruction}

theorem filter_attributeNames (h : a.setValues = b.setValues) :
    a.attributeNames.filter (fun name => a.attributeValue name ≠ 0) =
      b.attributeNames.filter fun name => a.attributeValue name ≠ 0 := by
  have : Std.Asymm fun x y : Name => x < y := ⟨fun _ _ h h' => lt_asymm h h'⟩
  refine (a.sorted.filter _).eq_of_mem_iff (b.sorted.filter _) fun name => ?_
  rw [List.mem_filter, List.mem_filter]
  refine and_congr_left fun hv => ?_
  have hv : a.attributeValue name ≠ 0 := by simpa using hv
  have hv' := attributeValue_congr h name ▸ hv
  exact iff_of_true (mem_attributeNames hv) (mem_attributeNames hv')

/-- **Arrays.** Where the same attributes are set in slots with equally many, the arrays are the
    same exactly if the positions of the attributes that are not zero are. -/
theorem map_attributeValue_eq_iff (h : SameAttributes a b) :
    a.attributeNames.map a.attributeValue = b.attributeNames.map b.attributeValue ↔
      SamePositions a b := by
  have hvalue : b.attributeValue = a.attributeValue :=
    funext fun name => (attributeValue_congr h.setValues name).symm
  rw [hvalue]
  constructor
  · intro hmap i name hv
    have hfilter := filter_attributeNames h.setValues
    exact ⟨getElem?_of_map_eq hmap hfilter i hv, getElem?_of_map_eq hmap.symm hfilter.symm i hv⟩
  · intro hpos
    refine List.ext_getElem (by simp [h.count]) fun i hi hi' => ?_
    rw [List.length_map] at hi hi'
    rw [List.getElem_map, List.getElem_map]
    -- If one of the two attributes is not zero, it stands in both slots.
    by_cases hv : a.attributeValue a.attributeNames[i] = 0
    · by_contra hne
      have hv' : a.attributeValue b.attributeNames[i] ≠ 0 := fun hzero => hne (hv.trans hzero.symm)
      have hname := (hpos i _ hv').mpr (List.getElem?_eq_getElem hi')
      rw [List.getElem?_eq_getElem hi, Option.some.injEq] at hname
      exact hne (congrArg a.attributeValue hname)
    · have hname := (hpos i _ hv).mp (List.getElem?_eq_getElem hi)
      rw [List.getElem?_eq_getElem hi', Option.some.injEq] at hname
      exact congrArg a.attributeValue hname.symm

end

/-- **Attribute setters.** Whatever the slots and the order of their instructions, every function
    installs the attributes of all instructions it is given to exactly if instructions with the
    same attributes, in slots with equally many, have those that are not zero at the same
    positions. -/
theorem attribute_setters_iff {insts : List AttributeInstruction}
    (hnamed : ∀ a ∈ insts, a.WellNamed) :
    AttributesFit insts ↔ ∀ a ∈ insts, ∀ b ∈ insts, SameAttributes a b → SamePositions a b := by
  unfold AttributesFit
  simp only [installs_iff]
  refine (@forall_entered_iff _ _ _ AttributeInstruction.createAttributeLookupKey
    (fun a b => a.attributeNames.map a.attributeValue = b.attributeNames.map b.attributeValue)
    (fun _ _ => Eq.symm) (fun _ _ _ => Eq.trans) insts).trans ?_
  refine forall₂_congr fun a ha => forall₂_congr fun b hb => ?_
  rw [createAttributeLookupKey_eq_iff (hnamed a ha) (hnamed b hb)]
  exact forall_congr' fun hsame => map_attributeValue_eq_iff hsame

/-- An instruction that sets the attribute `a` to one. -/
def setsA (names : List Name) (sorted : names.Pairwise (· < ·)) (mem : ['a'] ∈ names) :
    AttributeInstruction :=
  ⟨names, sorted, SortedMap.empty.insert ['a'] (.constant 1), by
    intro entry hentry
    obtain rfl := List.mem_singleton.mp hentry
    exact mem⟩

/-- The attribute `a` comes before another one. -/
def beforeB : AttributeInstruction := setsA [['a'], ['b']] (by decide) (by decide)

def beforeC : AttributeInstruction := setsA [['a'], ['c']] (by decide) (by decide)

/-- The attribute `a` comes after another one. -/
def afterZ : AttributeInstruction := setsA [['Z'], ['a']] (by decide) (by decide)

theorem attributeValue_setsA {names : List Name} {sorted : names.Pairwise (· < ·)}
    {mem : ['a'] ∈ names} {name : Name}
    (hv : (setsA names sorted mem).attributeValue name ≠ 0) : name = ['a'] := by
  by_contra hne
  refine hv ?_
  unfold AttributeInstruction.attributeValue setsA
  rw [SortedMap.lookup_insert, if_neg hne, SortedMap.lookup_empty]

/-- The attribute comes first in both slots. -/
theorem attributesFit_first : AttributesFit [beforeB, beforeC] := by
  have hident : ∀ c, IdentChar c → IsIdent [c] :=
    fun c hc => ⟨List.cons_ne_nil c [], by simpa using hc⟩
  have ha := hident 'a' (by decide)
  have hb := hident 'b' (by decide)
  have hc := hident 'c' (by decide)
  refine (attribute_setters_iff ?_).mpr ?_
  · rintro inst hinst name hname
    rcases List.mem_pair.mp hinst with rfl | rfl
    · rcases List.mem_pair.mp hname with rfl | rfl
      · exact ha
      · exact hb
    · rcases List.mem_pair.mp hname with rfl | rfl
      · exact ha
      · exact hc
  · have hfirst : ∀ inst ∈ [beforeB, beforeC], ∀ i : Nat,
        inst.attributeNames[i]? = some ['a'] ↔ i = 0 := by
      intro inst hinst i
      rcases List.mem_pair.mp hinst with rfl | rfl
      · show [['a'], ['b']][i]? = some ['a'] ↔ i = 0
        rcases i with _ | _ | i <;> simp
      · show [['a'], ['c']][i]? = some ['a'] ↔ i = 0
        rcases i with _ | _ | i <;> simp
    intro a hinst b hinst' _ i name hv
    obtain rfl : name = ['a'] := by
      rcases List.mem_pair.mp hinst with rfl | rfl
      · exact attributeValue_setsA hv
      · exact attributeValue_setsA hv
    rw [hfirst a hinst, hfirst b hinst']

/-- The attribute is the first of one slot and the second of another: the second instruction is
    given the function of the first, which sets `Z` instead. -/
theorem attribute_setter_of_other_slot :
    (attributeSetters [beforeB, afterZ]).2 = [0, 0] ∧
      beforeB.generateAttributeSetterFcn = some [1, 0] ∧
      afterZ.generateAttributeSetterFcn = some [0, 1] ∧
      ¬ AttributesFit [beforeB, afterZ] := by
  have hmade : (attributeSetters [beforeB, afterZ]).1 = [beforeB] := rfl
  have hentries : (attributeSetters [beforeB, afterZ]).2 = [0, 0] := by decide +kernel
  have hbefore : beforeB.generateAttributeSetterFcn = some [1, 0] := by decide +kernel
  have hafter : afterZ.generateAttributeSetterFcn = some [0, 1] := by decide +kernel
  refine ⟨hentries, hbefore, hafter, fun h => ?_⟩
  have hshared := (h 0 1 beforeB afterZ 0 beforeB rfl rfl (by rw [hentries]; rfl)
    (by rw [hentries]; rfl) (by rw [hmade]; rfl)).2
  have hvalue := hshared.value (['Z'], 0) (List.mk_mem_zipIdx_iff_getElem?.mpr rfl)
  rw [hbefore] at hvalue
  exact absurd hvalue (by decide +kernel)

end MpactSim.Isa
