import MpactSim.Decoder.Overlay

namespace MpactSim.Decoder

open Lib

/-!
# The tree of encoding groups

A decoder tells the encodings of an instruction group apart by a tree.  A node has the bits
that all its encodings fix; those of them that vary make the index into its subgroups.

* `computeMaskAndValue`  — the bits that an encoding fixes by its equal constraints;
* `getExtractionRecipe`  — how the bits of a mask are gathered into an index;
* `addSubGroups`         — the subtree of a group;
* `processEncodings`     — the groups of an instruction group;
* `checkEncodings`       — the collisions of opcodes that are reported.

`none` is a shift of the generator that is undefined.
-/

/-! ### Constraints and encodings -/

/-- `ConstraintType`. -/
inductive ConstraintType where
  | kEq | kNe | kLt | kLe | kGt | kGe
  deriving DecidableEq, Repr

/-- A field or an overlay of the encoding's format. -/
inductive Operand where
  | field (field : Field)
  | overlay (overlay : Overlay)
  deriving DecidableEq, Repr

/-- `Constraint`: a comparison with a value, or with another operand if there is one. -/
structure Constraint where
  type : ConstraintType
  lhs : Operand
  rhs : Option Operand
  value : BitVec 64
  deriving DecidableEq, Repr

/-- An opcode with the constraints of its encoding. -/
structure ConstrainedOpcode where
  name : String
  formatName : String
  equalConstraints : List Constraint
  equalExtractedConstraints : List Constraint
  otherConstraints : List Constraint
  deriving DecidableEq, Repr

/-- `InstructionEncoding`.  `mask` and `value` are those of its equal constraints;
    `specializations` are in the order of their names. -/
structure InstructionEncoding extends ConstrainedOpcode where
  specializations : List ConstrainedOpcode
  mask : BitVec 64
  value : BitVec 64
  deriving DecidableEq, Repr

namespace Operand

/-- The bits of an operand in the instruction word. -/
def mask : Operand → Option (BitVec 64)
  | .field f => do shiftLeftULL (← widthMask f.width) f.low
  | .overlay o => o.mask

/-- The bits of the instruction word that make up a value of the operand. -/
def bits (value : BitVec 64) : Operand → Option (BitVec 64)
  | .field f => shiftLeftULL value f.low
  | .overlay o => o.getBitField value

end Operand

/-- The equal constraints in `ComputeMaskAndValue`. -/
def computeMaskAndValue (constraints : List Constraint) : Option (BitVec 64 × BitVec 64) :=
  constraints.foldlM (fun r c => do
    let mask ← c.lhs.mask
    let value ← c.lhs.bits c.value
    return (r.1 ||| mask, r.2 ||| (mask &&& value))) (0, 0)

/-- An encoding as the visitor makes it, with its mask and value.  Specializations are attached
    to it only after the groups have been built and checked. -/
def newEncoding (opcode : ConstrainedOpcode) : Option InstructionEncoding := do
  let (mask, value) ← computeMaskAndValue opcode.equalConstraints
  return ⟨opcode, [], mask, value⟩

/-! ### Extraction -/

/-- `ExtractionStep`. -/
structure ExtractionStep where
  mask : BitVec 64
  shift : Nat
  deriving DecidableEq, Repr

/-- The loop of `GetExtractionRecipe`, with the run of ones that was read last. -/
def recipeLoop : Nat → BitVec 64 → BitVec 64 → Nat → Nat → Nat → List ExtractionStep
  | 0, _, mask, shift, width, total =>
    if mask ≠ 0 then [⟨mask <<< total, shift - width - total⟩] else []
  | left + 1, value, mask, shift, width, total =>
    if value = 0 then
      if mask ≠ 0 then [⟨mask <<< total, shift - width - total⟩] else []
    else if value.getLsbD 0 then
      recipeLoop left (value >>> 1) ((mask <<< 1) ||| 1) (shift + 1) (width + 1) total
    else if mask ≠ 0 then
      ⟨mask <<< total, shift - width - total⟩ ::
        recipeLoop left (value >>> 1) 0 (shift + 1) 0 (total + width)
    else recipeLoop left (value >>> 1) 0 (shift + 1) 0 total

/-- `GetExtractionRecipe`. -/
def getExtractionRecipe (value : BitVec 64) : List ExtractionStep :=
  recipeLoop 64 value 0 0 0 0

/-- `ExtractValue`. -/
def extractValue (value : BitVec 64) (recipe : List ExtractionStep) : BitVec 64 :=
  recipe.foldl (fun extracted step => extracted ||| ((value >>> step.shift) &&& step.mask)) 0

/-- `absl::popcount` of a `uint64_t`. -/
def popcount64 (x : BitVec 64) : Nat := x.cpop.toNat

/-! ### Groups -/

/-- The members of an `EncodingGroup`, apart from its subgroups. -/
structure GroupData where
  encodings : List InstructionEncoding
  mask : BitVec 64
  ignore : BitVec 64
  varying : BitVec 64
  constant : BitVec 64
  lastValue : BitVec 64
  discriminator : BitVec 64
  discriminatorSize : Nat
  simpleDecoding : Bool
  deriving DecidableEq, Repr

/-- `EncodingGroup`. -/
inductive EncodingGroup where
  | mk (data : GroupData) (groups : List EncodingGroup)
  deriving Repr

namespace EncodingGroup

/-- The members of the group. -/
def data : EncodingGroup → GroupData
  | mk data _ => data

/-- `encoding_group_vec()`. -/
def groups : EncodingGroup → List EncodingGroup
  | mk _ groups => groups

end EncodingGroup

namespace GroupData

/-- A group without encodings. -/
def empty (ignore : BitVec 64) : GroupData := ⟨[], 0, ignore, 0, 0, 0, 0, 0, false⟩

/-- `AddEncoding`. -/
def addEncoding (g : GroupData) (enc : InstructionEncoding) : GroupData :=
  let lastValue := if g.encodings = [] then enc.value else g.lastValue
  let mask := (if g.encodings = [] then enc.mask else g.mask) &&& enc.mask &&& ~~~g.ignore
  let varying := g.varying ||| (enc.value ^^^ lastValue)
  { g with
    encodings := g.encodings ++ [enc]
    mask := mask
    varying := varying
    constant := ~~~varying &&& mask &&& ~~~g.ignore
    lastValue := enc.value }

/-- `CanAddEncoding`. -/
def canAddEncoding (g : GroupData) (enc : InstructionEncoding) : Bool :=
  g.encodings = [] ∨ g.mask &&& enc.mask ≠ 0

/-- `AdjustMask`.  `std::sort` leaves the order of equal elements open; here it is kept. -/
def adjustMask (parentMask : BitVec 64) (g : GroupData) : GroupData :=
  let mask := g.mask &&& ~~~parentMask
  let constant := g.constant &&& ~~~parentMask
  let key := mask &&& ~~~constant &&& ~~~g.ignore
  { g with
    mask := mask
    constant := constant
    varying := g.varying &&& ~~~parentMask
    encodings := g.encodings.insertionSort fun a b => (a.value &&& key) ≤ (b.value &&& key) }

/-- `IsSimpleDecode`, for a group that has no subgroups. -/
def isSimpleDecode (g : GroupData) : Bool :=
  (g.encodings.all fun enc => enc.otherConstraints = [] ∧ enc.equalExtractedConstraints = [] ∧
    enc.specializations ≠ []) ∧ g.discriminator = g.varying

/-- The part of `AddSubGroups` before its loop, which is also done for a subgroup that is not
    divided any more. -/
def setDiscriminator (g : GroupData) : GroupData :=
  let g := { g with discriminator := g.mask &&& ~~~g.constant }
  { g with simpleDecoding := g.isSimpleDecode }

/-- The encodings that have the value `i` in the bits of the discriminator. -/
def subGroup (g : GroupData) (i : Nat) : GroupData :=
  (g.encodings.filter fun enc =>
    extractValue enc.value (getExtractionRecipe g.discriminator) = i).foldl addEncoding
      (empty (g.ignore ||| g.constant ||| g.discriminator))

/-- Number of values of the discriminator; `1 << popcount` is an `int`. -/
def tableSize (g : GroupData) : Option Nat :=
  if popcount64 g.discriminator < 31 then some (2 ^ popcount64 g.discriminator) else none

end GroupData

/-- The subgroups are kept only if enough bits vary in one of them. -/
def undoSubGroups (tree : EncodingGroup) : EncodingGroup :=
  if (tree.groups.map fun g => popcount64 g.data.varying).foldl max 0 < 2 then .mk tree.data []
  else tree

/-- The loop of `AddSubGroups` over the values of the discriminator, with `simple_decoding_` of
    the group and its subgroups so far.  `addSubGroups` is the recursive call. -/
def subGroupLoop (addSubGroups : GroupData → Option EncodingGroup) (g : GroupData) :
    List Nat → Bool → List EncodingGroup → Option (Bool × List EncodingGroup)
  | [], simple, groups => some (simple, groups)
  | i :: rest, simple, groups =>
    let sub := g.subGroup i
    if sub.encodings = [] then subGroupLoop addSubGroups g rest simple groups
    else if sub.encodings.length = g.encodings.length then some (simple, groups)
    else
      let sub := sub.adjustMask g.mask
      if sub.varying ||| sub.constant ≠ sub.mask then do
        let tree ← addSubGroups sub
        subGroupLoop addSubGroups g rest false (groups ++ [undoSubGroups tree])
      else do
        let sub := sub.setDiscriminator
        let size ← sub.tableSize
        subGroupLoop addSubGroups g rest simple
          (groups ++ [.mk { sub with discriminatorSize := size } []])

/-- `AddSubGroups`, with the parent's mask.  A subgroup has fewer encodings than its group, so
    their number bounds the depth. -/
def addSubGroups : Nat → BitVec 64 → GroupData → Option EncodingGroup
  | 0, _, _ => none
  | depth + 1, parentMask, g => do
    let g := (g.adjustMask parentMask).setDiscriminator
    let size ← g.tableSize
    let g := { g with discriminatorSize := if g.discriminator = 0 then 0 else size }
    let (simple, groups) ← subGroupLoop (addSubGroups depth g.mask) g (List.range size)
      g.simpleDecoding []
    return .mk { g with simpleDecoding := simple } groups

/-- The first group that takes an encoding, or a new one. -/
def addToGroups (enc : InstructionEncoding) : List GroupData → List GroupData
  | [] => [(GroupData.empty 0).addEncoding enc]
  | g :: rest =>
    if g.canAddEncoding enc then g.addEncoding enc :: rest else g :: addToGroups enc rest

/-- `ProcessEncodings`: the encodings in the order of their masks. -/
def processEncodings (encodings : List InstructionEncoding) : Option (List EncodingGroup) :=
  ((encodings.insertionSort fun a b => a.mask ≤ b.mask).foldl
    (fun groups enc => addToGroups enc groups) []).mapM fun g =>
      addSubGroups g.encodings.length 0 g

/-! ### The check -/

/-- The loop of `CheckEncodings` in a leaf: neighbours with one value of the discriminator. -/
def collisions (groupName : String) (recipe : List ExtractionStep) :
    List InstructionEncoding → List String
  | [] => []
  | [_] => []
  | prev :: enc :: rest =>
    (if extractValue enc.value recipe = extractValue prev.value recipe then
      ["Duplicate encodings in instruction group " ++ groupName ++ ": " ++ enc.name ++ " and " ++
        prev.name] else []) ++ collisions groupName recipe (enc :: rest)

mutual

/-- `EncodingGroup::CheckEncodings`. -/
def EncodingGroup.checkEncodings (groupName : String) : EncodingGroup → List String
  | .mk data groups =>
    (if groups.isEmpty ∧ data.simpleDecoding then
      collisions groupName (getExtractionRecipe data.discriminator) data.encodings
    else []) ++ checkGroups groupName groups

/-- Its calls for the subgroups. -/
def checkGroups (groupName : String) : List EncodingGroup → List String
  | [] => []
  | g :: rest => g.checkEncodings groupName ++ checkGroups groupName rest

end

/-! ### How a tree is built -/

namespace GroupData

theorem foldl_addEncoding_encodings (encs : List InstructionEncoding) (g : GroupData) :
    (encs.foldl addEncoding g).encodings = g.encodings ++ encs := by
  induction encs generalizing g with
  | nil => exact (List.append_nil _).symm
  | cons enc rest ih =>
    rw [List.foldl_cons, ih]
    exact List.append_assoc g.encodings [enc] rest

theorem subGroup_encodings (g : GroupData) (i : Nat) :
    (g.subGroup i).encodings = g.encodings.filter fun enc =>
      extractValue enc.value (getExtractionRecipe g.discriminator) = i :=
  foldl_addEncoding_encodings _ _

theorem adjustMask_perm (parentMask : BitVec 64) (g : GroupData) :
    (g.adjustMask parentMask).encodings.Perm g.encodings :=
  List.perm_insertionSort _ _

/-- What the members of a group say about its encodings. -/
structure Built (g : GroupData) : Prop where
  nonempty : g.encodings ≠ []
  discriminator : g.discriminator = g.mask &&& ~~~g.constant
  simple : g.simpleDecoding = true → g.isSimpleDecode = true

theorem setDiscriminator_built {g : GroupData} (h : g.encodings ≠ []) :
    g.setDiscriminator.Built :=
  ⟨h, rfl, id⟩

end GroupData

/-- The encodings of a subgroup are those with its value of the discriminator, and not all. -/
structure IsSubGroup (encodings : List InstructionEncoding) (discriminator : BitVec 64) (i : Nat)
    (sub : EncodingGroup) : Prop where
  perm : sub.data.encodings.Perm (encodings.filter fun enc =>
    extractValue enc.value (getExtractionRecipe discriminator) = i)
  fewer : sub.data.encodings.length ≠ encodings.length

/-- A group whose subgroups are made for different values of its discriminator. -/
def EncodingGroup.Divided (tree : EncodingGroup) : Prop :=
  tree.data.Built ∧ ∃ indices : List Nat,
    indices.Sublist (List.range (2 ^ popcount64 tree.data.discriminator)) ∧
      List.Forall₂ (IsSubGroup tree.data.encodings tree.data.discriminator) indices tree.groups

/-- A property of a group and of all groups below it. -/
inductive EncodingGroup.All (P : EncodingGroup → Prop) : EncodingGroup → Prop where
  | mk {data : GroupData} {groups : List EncodingGroup} (self : P (.mk data groups))
      (below : ∀ g ∈ groups, All P g) : All P (.mk data groups)

variable {tree : EncodingGroup} {groups : List EncodingGroup}

theorem EncodingGroup.All.self {P : EncodingGroup → Prop} (h : tree.All P) : P tree := by
  cases h with
  | mk self _ => exact self

theorem all_divided_leaf {data : GroupData} (h : data.Built) :
    (EncodingGroup.mk data []).All EncodingGroup.Divided :=
  .mk ⟨h, [], List.nil_sublist _, .nil⟩ (by simp)

theorem undoSubGroups_data (tree : EncodingGroup) : (undoSubGroups tree).data = tree.data := by
  unfold undoSubGroups
  split <;> rfl

theorem undoSubGroups_divided (h : tree.All EncodingGroup.Divided) :
    (undoSubGroups tree).All EncodingGroup.Divided := by
  unfold undoSubGroups
  split
  · exact all_divided_leaf h.self.1
  · exact h

/-- What the recursive call has to do for a group. -/
def Builds (addSubGroups : GroupData → Option EncodingGroup) : Prop :=
  ∀ {g : GroupData} {tree : EncodingGroup}, addSubGroups g = some tree → g.encodings ≠ [] →
    tree.data.encodings.Perm g.encodings ∧ tree.All EncodingGroup.Divided

/-- Subgroups are added for some of the given values of the discriminator. -/
def AddsSubGroups (g : GroupData) (is : List Nat) (groups groups' : List EncodingGroup) : Prop :=
  ∃ indices added, groups' = groups ++ added ∧ indices.Sublist is ∧
    List.Forall₂ (IsSubGroup g.encodings g.discriminator) indices added ∧
      ∀ sub ∈ added, sub.All EncodingGroup.Divided

/-- The loop adds subgroups for some of the values that are left. -/
theorem subGroupLoop_spec {addSubGroups : GroupData → Option EncodingGroup}
    (hbuilds : Builds addSubGroups) {g : GroupData} {is : List Nat} {simple simple' : Bool}
    {groups' : List EncodingGroup}
    (h : subGroupLoop addSubGroups g is simple groups = some (simple', groups')) :
    (simple' = true → simple = true) ∧ AddsSubGroups g is groups groups' := by
  induction is generalizing simple groups with
  | nil =>
    cases h
    exact ⟨id, [], [], (List.append_nil _).symm, .slnil, .nil, by simp⟩
  | cons i rest ih =>
    -- A subgroup that is kept is followed by those of the remaining values.
    have hkeep : ∀ (sub : EncodingGroup) (simple₁ : Bool),
        sub.data.encodings.Perm (g.subGroup i).encodings →
        (g.subGroup i).encodings.length ≠ g.encodings.length →
        sub.All EncodingGroup.Divided → (simple₁ = true → simple = true) →
        subGroupLoop addSubGroups g rest simple₁ (groups ++ [sub]) = some (simple', groups') →
        (simple' = true → simple = true) ∧ AddsSubGroups g (i :: rest) groups groups' := by
      intro sub simple₁ hperm hfewer hdivided hsimple₁ h
      obtain ⟨hsimple, indices, added, rfl, hsub, hadded, hall⟩ := ih h
      refine ⟨fun hs => hsimple₁ (hsimple hs), i :: indices, sub :: added, by simp,
        hsub.cons_cons i, .cons ⟨?_, ?_⟩ hadded, ?_⟩
      · rw [← g.subGroup_encodings i]
        exact hperm
      · rw [hperm.length_eq]
        exact hfewer
      · simpa using ⟨hdivided, hall⟩
    rw [subGroupLoop] at h
    dsimp only at h
    split at h
    · obtain ⟨hsimple, indices, added, hgroups, hsub, hadded⟩ := ih h
      exact ⟨hsimple, indices, added, hgroups, hsub.cons i, hadded⟩
    · rename_i hne
      split at h
      · cases h
        exact ⟨id, [], [], (List.append_nil _).symm, List.nil_sublist _, .nil, by simp⟩
      · rename_i hfewer
        have hperm := (g.subGroup i).adjustMask_perm g.mask
        have hne' : ((g.subGroup i).adjustMask g.mask).encodings ≠ [] := by
          intro hnil
          rw [hnil] at hperm
          exact hne (List.nil_perm.mp hperm)
        split at h
        · obtain ⟨tree, htree, h⟩ := Option.bind_eq_some_iff.mp h
          obtain ⟨htreePerm, hdivided⟩ := hbuilds htree hne'
          refine hkeep _ _ ?_ hfewer (undoSubGroups_divided hdivided) (by simp) h
          rw [undoSubGroups_data]
          exact htreePerm.trans hperm
        · obtain ⟨size, -, h⟩ := Option.bind_eq_some_iff.mp h
          have hbuilt := GroupData.setDiscriminator_built hne'
          refine hkeep _ _ ?_ hfewer (all_divided_leaf ?_) id h
          · exact hperm
          · exact ⟨hbuilt.nonempty, hbuilt.discriminator, hbuilt.simple⟩

theorem addSubGroups_spec (depth : Nat) (parentMask : BitVec 64) :
    Builds (addSubGroups depth parentMask) := by
  -- Induction on the depth; the loop is for the groups one level down.
  induction depth generalizing parentMask with
  | zero => exact fun h _ => nomatch h
  | succ depth ih =>
    intro g tree h hne
    rw [addSubGroups] at h
    obtain ⟨size, hsize, h⟩ := Option.bind_eq_some_iff.mp h
    obtain ⟨⟨simple, groups⟩, hloop, h⟩ := Option.bind_eq_some_iff.mp h
    cases h
    obtain ⟨hsimple, indices, added, rfl, hsub, hadded, hall⟩ := subGroupLoop_spec (ih _) hloop
    have hperm := g.adjustMask_perm parentMask
    have hne' : (g.adjustMask parentMask).encodings ≠ [] := by
      intro hnil
      rw [hnil] at hperm
      exact hne (List.nil_perm.mp hperm)
    refine ⟨hperm, .mk ⟨⟨hne', rfl, hsimple⟩, indices, ?_, hadded⟩ hall⟩
    unfold GroupData.tableSize at hsize
    split at hsize
    · cases hsize
      exact hsub
    · cases hsize

/-! ### The groups of an instruction group -/

theorem addToGroups_perm (enc : InstructionEncoding) (groups : List GroupData) :
    ((addToGroups enc groups).flatMap GroupData.encodings).Perm
      (enc :: groups.flatMap GroupData.encodings) := by
  induction groups with
  | nil => exact .refl _
  | cons g rest ih =>
    rw [addToGroups]
    split
    · change (g.encodings ++ [enc] ++ rest.flatMap GroupData.encodings).Perm _
      rw [List.append_assoc]
      exact List.perm_middle
    · exact (ih.append_left g.encodings).trans List.perm_middle

theorem addToGroups_nonempty {enc : InstructionEncoding} {groups : List GroupData}
    (h : ∀ g ∈ groups, g.encodings ≠ []) : ∀ g ∈ addToGroups enc groups, g.encodings ≠ [] := by
  induction groups with
  | nil => simp [addToGroups, GroupData.addEncoding]
  | cons g rest ih =>
    obtain ⟨hg, hrest⟩ := List.forall_mem_cons.mp h
    rw [addToGroups]
    split
    · exact List.forall_mem_cons.mpr ⟨by simp [GroupData.addEncoding], hrest⟩
    · exact List.forall_mem_cons.mpr ⟨hg, ih hrest⟩

theorem foldl_addToGroups (encodings : List InstructionEncoding) (groups : List GroupData)
    (h : ∀ g ∈ groups, g.encodings ≠ []) :
    let result := encodings.foldl (fun groups enc => addToGroups enc groups) groups
    (∀ g ∈ result, g.encodings ≠ []) ∧ (result.flatMap GroupData.encodings).Perm
      (encodings ++ groups.flatMap GroupData.encodings) := by
  induction encodings generalizing groups with
  | nil => exact ⟨h, .refl _⟩
  | cons enc rest ih =>
    obtain ⟨hne, hperm⟩ := ih _ (addToGroups_nonempty h)
    refine ⟨hne, hperm.trans ?_⟩
    exact ((addToGroups_perm enc groups).append_left rest).trans List.perm_middle

theorem processEncodings_spec {encodings : List InstructionEncoding}
    (h : processEncodings encodings = some groups) (htree : tree ∈ groups) :
    tree.All EncodingGroup.Divided ∧ ∀ enc ∈ tree.data.encodings, enc ∈ encodings := by
  obtain ⟨hne, hperm⟩ := foldl_addToGroups
    (encodings.insertionSort fun a b => a.mask ≤ b.mask) [] (by simp)
  obtain ⟨g, hg, hbuild⟩ := exists_of_mapM_eq_some h htree
  obtain ⟨hencodings, hdivided⟩ := addSubGroups_spec _ _ hbuild (hne g hg)
  refine ⟨hdivided, fun enc henc => ?_⟩
  have hmem := hperm.subset (List.mem_flatMap.mpr ⟨g, hg, hencodings.subset henc⟩)
  rw [List.flatMap_nil, List.append_nil] at hmem
  exact (List.perm_insertionSort _ _).subset hmem

/-! ### What the check reports -/

theorem checkGroups_eq_nil {groupName : String} (h : ∀ g ∈ groups, g.checkEncodings groupName = []) : checkGroups groupName groups = [] := by
  induction groups with
  | nil => rfl
  | cons g rest ih =>
    obtain ⟨hg, hrest⟩ := List.forall_mem_cons.mp h
    rw [checkGroups, hg, ih hrest, List.append_nil]

theorem GroupData.Built.not_simple {g : GroupData} (hg : g.Built)
    (hnew : ∀ enc ∈ g.encodings, enc.specializations = []) : g.simpleDecoding = false := by
  rw [← Bool.not_eq_true]
  intro hsimple
  obtain ⟨enc, rest, henc⟩ := List.exists_cons_of_ne_nil hg.nonempty
  have hmem : enc ∈ g.encodings := henc ▸ List.mem_cons_self
  have hall := hg.simple hsimple
  simp only [GroupData.isSimpleDecode, List.all_eq_true, decide_eq_true_eq] at hall
  exact (hall.1 enc hmem).2.2 (hnew enc hmem)

theorem EncodingGroup.Divided.mem_of_mem {sub : EncodingGroup} (h : tree.Divided)
    (hsub : sub ∈ tree.groups) {enc : InstructionEncoding} (henc : enc ∈ sub.data.encodings) :
    enc ∈ tree.data.encodings := by
  obtain ⟨-, indices, -, hforall⟩ := h
  obtain ⟨i, -, hi⟩ := exists_of_forall₂ hforall hsub
  exact List.mem_of_mem_filter (hi.perm.subset henc)

theorem checkEncodings_eq_nil {groupName : String} (h : tree.All EncodingGroup.Divided)
    (hnew : ∀ enc ∈ tree.data.encodings, enc.specializations = []) :
    tree.checkEncodings groupName = [] := by
  -- Induction on the tree: no group is simple, and the subgroups have encodings of their group.
  induction h with
  | mk self below ih =>
    have hsimple : GroupData.simpleDecoding _ = false := self.1.not_simple hnew
    simp only [EncodingGroup.data] at hsimple
    rw [EncodingGroup.checkEncodings, hsimple]
    simp only [Bool.false_eq_true, and_false, if_false, List.nil_append]
    exact checkGroups_eq_nil fun g hg => ih g hg fun enc henc => hnew enc (self.mem_of_mem hg henc)

/-! ### The check of an instruction group -/

/-- `PerformEncodingChecks` for one instruction group: its encodings, as the visitor makes them,
    go into groups, and the groups are checked.  Specializations come after that. -/
def performEncodingChecks (groupName : String) (opcodes : List ConstrainedOpcode) :
    Option (List String) := do
  let encodings ← opcodes.mapM newEncoding
  let groups ← processEncodings encodings
  return checkGroups groupName groups

/-- Two of the encodings have only equal constraints, and the same mask and value. -/
def HasDuplicate (opcodes : List ConstrainedOpcode) : Prop :=
  ∃ i j : Nat, i < j ∧ ∃ a ∈ opcodes[i]?, ∃ b ∈ opcodes[j]?, ∃ maskAndValue,
    (∀ o ∈ [a, b], o.equalExtractedConstraints = [] ∧ o.otherConstraints = []) ∧
      ∀ o ∈ [a, b], computeMaskAndValue o.equalConstraints = some maskAndValue

/-- The check reports a duplicate encoding. -/
def ReportsDuplicate (groupName : String) (opcodes : List ConstrainedOpcode) : Prop :=
  ∃ errors, performEncodingChecks groupName opcodes = some errors ∧ errors ≠ []

/-- **Duplicate detection.** No group ever has a duplicate encoding reported, whatever its
    encodings are: a leaf is checked only if each of its encodings has a specialization, and
    none has one yet. -/
theorem not_reportsDuplicate (groupName : String) (opcodes : List ConstrainedOpcode) :
    ¬ ReportsDuplicate groupName opcodes := by
  rintro ⟨errors, h, hne⟩
  unfold performEncodingChecks at h
  obtain ⟨encodings, hencodings, h⟩ := Option.bind_eq_some_iff.mp h
  obtain ⟨groups, hgroups, h⟩ := Option.bind_eq_some_iff.mp h
  cases h
  have hnew : ∀ enc ∈ encodings, enc.specializations = [] := by
    intro enc henc
    obtain ⟨opcode, -, hopcode⟩ := exists_of_mapM_eq_some hencodings henc
    obtain ⟨r, -, hr⟩ := Option.bind_eq_some_iff.mp hopcode
    cases hr
    rfl
  refine hne (checkGroups_eq_nil fun tree htree => ?_)
  obtain ⟨hdivided, hmem⟩ := processEncodings_spec hgroups htree
  exact checkEncodings_eq_nil hdivided fun enc henc => hnew enc (hmem enc henc)

/-- The 4-bit function code of an 8-bit format. -/
def funcField : Field := ⟨"func", false, 3, 0, 4⟩

/-- An instruction with one function code. -/
def funcOpcode (name : String) (func : BitVec 64) : ConstrainedOpcode :=
  ⟨name, "Inst8", [⟨.kEq, .field funcField, none, func⟩], [], []⟩

/-- Two instructions with one function code, next to another one, go unnoticed. -/
theorem duplicate_unreported :
    HasDuplicate [funcOpcode "add" 1, funcOpcode "sub" 2, funcOpcode "addu" 1] ∧
      performEncodingChecks "alu" [funcOpcode "add" 1, funcOpcode "sub" 2, funcOpcode "addu" 1] =
        some [] := by
  refine ⟨⟨0, 2, by decide, _, rfl, _, rfl, (15, 1), by simp [funcOpcode], ?_⟩, by decide +kernel⟩
  decide +kernel

end MpactSim.Decoder
