import MpactSim.Decoder.ExtractionRecipe
import MpactSim.Lib.Masks
import MpactSim.Lib.WordSets

namespace MpactSim.Decoder

open Lib

/-!
# Invariants of the decoder tree

`AddSubGroups` divides a group by the bits that vary among its encodings.  As long as it can count
their values with an `int`, it ends, and the tree that it leaves has the invariants that the emitted
decoders rely on.

* `Visited`        — the groups that are divided or completed under a group;
* `addSubGroups_isSome_iff` — a group is divided unless one of them has too many bits;
* `SoundNode`      — what holds of a node: its encodings are split, its masks are disjoint;
* `PathTested`     — ignored bits have been tested on the path from the root;
* `treesSound_iff` — the encodings whose trees are built and sound.
-/

/-! ### Indices -/

theorem length_selected (mask : BitVec 64) :
    (selected mask.getLsbD 64).length = popcount64 mask := by
  rw [popcount64, cpop_eq_card, selected]
  simp [Finset.card, Finset.filter, Finset.range, Multiset.range]

theorem extractValue_lt (mask value : BitVec 64) :
    (extractValue value (getExtractionRecipe mask)).toNat < 2 ^ popcount64 mask := by
  apply Nat.lt_pow_two_of_testBit
  intro i hi
  rw [BitVec.testBit_toNat, extractValue_bits]
  exact packed_of_length_le (by rw [length_selected]; exact hi)

namespace GroupData

/-! ### Parts of a group -/

/-- A group when it is divided. -/
def node (parentMask : BitVec 64) (g : GroupData) : GroupData :=
  (g.adjustMask parentMask).setDiscriminator

/-- There is a subgroup for the value, and it has not all encodings. -/
def IsPart (g : GroupData) (i : Nat) : Prop :=
  i < 2 ^ popcount64 g.discriminator ∧ (g.subGroup i).encodings ≠ [] ∧
    (g.subGroup i).encodings.length ≠ g.encodings.length

instance (g : GroupData) (i : Nat) : Decidable (g.IsPart i) :=
  inferInstanceAs (Decidable (_ ∧ _ ∧ _))

/-- The subgroup for a value, without the bits that its group has tested. -/
def part (g : GroupData) (i : Nat) : GroupData := (g.subGroup i).adjustMask g.mask

/-- There are bits left to divide a subgroup by. -/
def Divides (sub : GroupData) : Prop := sub.varying ||| sub.constant ≠ sub.mask

instance (sub : GroupData) : Decidable sub.Divides := inferInstanceAs (Decidable (_ ≠ _))

variable {g : GroupData} {i : Nat}

theorem mem_subGroup {enc : InstructionEncoding} :
    enc ∈ (g.subGroup i).encodings ↔ enc ∈ g.encodings ∧
      extractValue enc.value (getExtractionRecipe g.discriminator) = i := by
  rw [subGroup_encodings, List.mem_filter, decide_eq_true_iff]

theorem not_isPart_of_full (hfull : (g.subGroup i).encodings.length = g.encodings.length) (j : Nat) : ¬ g.IsPart j := by
  intro hpart
  obtain ⟨-, hne, hfewer⟩ := hpart
  rw [subGroup_encodings, List.length_filter_eq_length_iff] at hfull
  obtain ⟨enc, hmem⟩ := List.exists_mem_of_ne_nil _ hne
  obtain ⟨henc, hj⟩ := mem_subGroup.mp hmem
  -- Both values are the same index.
  have hij : (i : BitVec 64) = (j : BitVec 64) := by
    rw [← hj]
    exact (of_decide_eq_true (hfull enc henc)).symm
  apply hfewer
  rw [subGroup_encodings, List.length_filter_eq_length_iff]
  intro enc henc
  rw [← hij]
  exact hfull enc henc

theorem encodings_part_perm (g : GroupData) (i : Nat) :
    (g.part i).encodings.Perm (g.subGroup i).encodings :=
  (g.subGroup i).adjustMask_perm g.mask

theorem part_nonempty (h : g.IsPart i) : (g.part i).encodings ≠ [] := by
  intro hnil
  have hperm := g.encodings_part_perm i
  rw [hnil] at hperm
  exact h.2.1 (List.nil_perm.mp hperm)

theorem length_part_lt (h : g.IsPart i) : (g.part i).encodings.length < g.encodings.length := by
  rw [(g.encodings_part_perm i).length_eq]
  refine lt_of_le_of_ne ?_ h.2.2
  rw [subGroup_encodings]
  exact List.length_filter_le _ _

theorem tableSize_isSome_iff (g : GroupData) :
    g.tableSize.isSome = true ↔ popcount64 g.discriminator < 31 := by
  unfold tableSize
  split <;> simp_all

end GroupData

/-! ### The loop -/

/-- What the loop keeps for a part. -/
def keptGroup (addSubGroups : GroupData → Option EncodingGroup) (g : GroupData) (i : Nat) :
    Option EncodingGroup :=
  if (g.part i).Divides then (addSubGroups (g.part i)).map undoSubGroups
  else (g.part i).setDiscriminator.tableSize.map fun size =>
    .mk { (g.part i).setDiscriminator with discriminatorSize := size } []

/-- The loop keeps a group for every part.  If it ends early there is none. -/
theorem subGroupLoop_eq (addSubGroups : GroupData → Option EncodingGroup) (g : GroupData)
    {is : List Nat} (his : ∀ i ∈ is, i < 2 ^ popcount64 g.discriminator) (simple : Bool)
    (groups : List EncodingGroup) :
    (subGroupLoop addSubGroups g is simple groups).map Prod.snd =
      ((is.filter fun i => g.IsPart i).mapM (keptGroup addSubGroups g)).map (groups ++ ·) := by
  induction is generalizing simple groups with
  | nil =>
    show some groups = some (groups ++ [])
    rw [List.append_nil]
  | cons i rest ih =>
    obtain ⟨hi, hrest⟩ := List.forall_mem_cons.mp his
    rw [subGroupLoop]
    dsimp only
    split
    · rename_i hempty
      rw [ih hrest, List.filter_cons_of_neg]
      simp [GroupData.IsPart, hempty]
    · rename_i hne
      split
      · rename_i hfull
        rw [List.filter_eq_nil_iff.mpr]
        · show some groups = some (groups ++ [])
          rw [List.append_nil]
        · intro j _
          simpa using GroupData.not_isPart_of_full hfull j
      · rename_i hfewer
        have hpart : g.IsPart i := ⟨hi, hne, hfewer⟩
        rw [List.filter_cons_of_pos (by simpa using hpart), List.mapM_cons, keptGroup]
        -- The group that is kept stands before those of the other values.
        have hkeep : ∀ (sub : EncodingGroup) (simple₁ : Bool),
            (subGroupLoop addSubGroups g rest simple₁ (groups ++ [sub])).map Prod.snd =
              ((rest.filter fun i => g.IsPart i).mapM (keptGroup addSubGroups g)).map
                (groups ++ sub :: ·) := by
          intro sub simple₁
          rw [ih hrest]
          simp
        split
        · rename_i hdivides
          rw [if_pos (show (g.part i).Divides from hdivides)]
          change Option.map Prod.snd ((addSubGroups (g.part i)).bind _) = _
          cases addSubGroups (g.part i) with
          | none => rfl
          | some tree =>
            refine (hkeep (undoSubGroups tree) false).trans ?_
            cases (rest.filter fun i => g.IsPart i).mapM (keptGroup addSubGroups g) <;> rfl
        · rename_i hdivides
          rw [if_neg (show ¬ (g.part i).Divides from hdivides)]
          change Option.map Prod.snd ((g.part i).setDiscriminator.tableSize.bind _) = _
          cases (g.part i).setDiscriminator.tableSize with
          | none => rfl
          | some size =>
            refine (hkeep _ simple).trans ?_
            cases (rest.filter fun i => g.IsPart i).mapM (keptGroup addSubGroups g) <;> rfl

/-- The number of subgroups does not matter to the loop. -/
def GroupData.sized (g : GroupData) (size : Nat) : GroupData :=
  { g with discriminatorSize := if g.discriminator = 0 then 0 else size }

theorem addSubGroups_succ (depth : Nat) (parentMask : BitVec 64) (g : GroupData) :
    addSubGroups (depth + 1) parentMask g = (g.node parentMask).tableSize.bind fun size =>
      (subGroupLoop (addSubGroups depth (g.node parentMask).mask) ((g.node parentMask).sized size)
        (List.range size) (g.node parentMask).simpleDecoding []).bind fun r =>
          some (.mk { (g.node parentMask).sized size with simpleDecoding := r.1 } r.2) := rfl

variable {g : GroupData} {depth : Nat} {parentMask : BitVec 64} {tree : EncodingGroup}

theorem tableSize_eq {size : Nat} (h : g.tableSize = some size) :
    size = 2 ^ popcount64 g.discriminator := by
  unfold GroupData.tableSize at h
  split at h
  · exact (Option.some.inj h).symm
  · cases h

theorem keptGroups_eq (addSubGroups : GroupData → Option EncodingGroup) (g : GroupData)
    {size : Nat} (hsize : size = 2 ^ popcount64 g.discriminator) (simple : Bool) :
    (subGroupLoop addSubGroups (g.sized size) (List.range size) simple []).map Prod.snd =
      ((List.range size).filter fun i => g.IsPart i).mapM (keptGroup addSubGroups g) := by
  rw [subGroupLoop_eq addSubGroups (g.sized size) (fun i hi => hsize ▸ List.mem_range.mp hi)]
  show ((((List.range size).filter fun i => g.IsPart i).mapM (keptGroup addSubGroups g)).map
    fun added => added) = _
  rw [Option.map_id']

/-- A group is divided if its values can be counted and every part can be. -/
theorem isSome_addSubGroups_succ (depth : Nat) (parentMask : BitVec 64) (g : GroupData) :
    (addSubGroups (depth + 1) parentMask g).isSome = true ↔
      popcount64 (g.node parentMask).discriminator < 31 ∧ ∀ i, (g.node parentMask).IsPart i →
        (keptGroup (addSubGroups depth (g.node parentMask).mask) (g.node parentMask) i).isSome := by
  rw [addSubGroups_succ, ← GroupData.tableSize_isSome_iff]
  cases htable : (g.node parentMask).tableSize with
  | none => simp
  | some size =>
    have hsize := tableSize_eq htable
    have hkept := congrArg Option.isSome (keptGroups_eq
      (addSubGroups depth (g.node parentMask).mask) (g.node parentMask) hsize
      (g.node parentMask).simpleDecoding)
    rw [Option.isSome_map] at hkept
    have hbind : ∀ {α β : Type} (x : Option α) (f : α → β),
        (x.bind fun a => some (f a)).isSome = x.isSome := by
      intro α β x f
      cases x <;> rfl
    rw [Option.bind_some, hbind]
    refine Iff.trans (iff_of_eq (congrArg (· = true) hkept)) ?_
    rw [isSome_mapM_iff]
    refine ⟨fun h => ⟨rfl, fun i hi => h i ?_⟩, fun h i hi => h.2 i ?_⟩
    · rw [List.mem_filter, List.mem_range, hsize]
      exact ⟨hi.1, decide_eq_true hi⟩
    · exact of_decide_eq_true (List.mem_filter.mp hi).2

theorem of_addSubGroups_succ (h : addSubGroups (depth + 1) parentMask g = some tree) :
    (∃ simple, tree.data =
      { (g.node parentMask).sized (2 ^ popcount64 (g.node parentMask).discriminator) with
        simpleDecoding := simple }) ∧
    List.Forall₂ (fun i sub => keptGroup (addSubGroups depth (g.node parentMask).mask)
        (g.node parentMask) i = some sub)
      ((List.range (2 ^ popcount64 (g.node parentMask).discriminator)).filter
        fun i => (g.node parentMask).IsPart i) tree.groups := by
  rw [addSubGroups_succ] at h
  obtain ⟨size, hsize, h⟩ := Option.bind_eq_some_iff.mp h
  obtain ⟨⟨simple, groups⟩, hloop, h⟩ := Option.bind_eq_some_iff.mp h
  cases h
  obtain rfl := tableSize_eq hsize
  refine ⟨⟨simple, rfl⟩, ?_⟩
  have hkept := keptGroups_eq (addSubGroups depth (g.node parentMask).mask) (g.node parentMask)
    rfl (g.node parentMask).simpleDecoding
  rw [hloop] at hkept
  exact forall₂_of_mapM_eq_some hkept.symm

/-! ### When a group is divided -/

/-- The groups whose values are counted when a group is divided: the group itself, the parts that
    are complete, and those below the parts that are divided. -/
inductive Visited : BitVec 64 → GroupData → GroupData → Prop where
  | self {parentMask : BitVec 64} {g : GroupData} : Visited parentMask g (g.node parentMask)
  | complete {parentMask : BitVec 64} {g : GroupData} {i : Nat}
    (hpart : (g.node parentMask).IsPart i) (hcomplete : ¬ ((g.node parentMask).part i).Divides) :
    Visited parentMask g ((g.node parentMask).part i).setDiscriminator
  | descend {parentMask : BitVec 64} {g visited : GroupData} {i : Nat}
    (hpart : (g.node parentMask).IsPart i) (hdivides : ((g.node parentMask).part i).Divides)
    (hbelow : Visited (g.node parentMask).mask ((g.node parentMask).part i) visited) :
    Visited parentMask g visited

theorem isSome_keptGroup_iff (addSubGroups : GroupData → Option EncodingGroup) (g : GroupData)
    (i : Nat) : (keptGroup addSubGroups g i).isSome = true ↔
      ((g.part i).Divides → (addSubGroups (g.part i)).isSome = true) ∧
        (¬ (g.part i).Divides → popcount64 (g.part i).setDiscriminator.discriminator < 31) := by
  rw [keptGroup]
  split
  · rename_i hdivides
    simp [hdivides]
  · rename_i hdivides
    rw [Option.isSome_map, GroupData.tableSize_isSome_iff]
    simp [hdivides]

/-- **Termination.** A group with at most `depth` encodings is divided within `depth` levels unless
    a group that is visited has too many values. -/
theorem addSubGroups_isSome_iff (hdepth : g.encodings.length ≤ depth) (hne : g.encodings ≠ []) :
    (addSubGroups depth parentMask g).isSome = true ↔
      ∀ visited, Visited parentMask g visited → popcount64 visited.discriminator < 31 := by
  -- Induction on the depth: a part has fewer encodings than its group.
  induction depth generalizing parentMask g with
  | zero => exact absurd (List.length_eq_zero_iff.mp (Nat.le_zero.mp hdepth)) hne
  | succ depth ih =>
    have hpart : ∀ i, (g.node parentMask).IsPart i →
        ((addSubGroups depth (g.node parentMask).mask ((g.node parentMask).part i)).isSome = true ↔
          ∀ visited, Visited (g.node parentMask).mask ((g.node parentMask).part i) visited →
            popcount64 visited.discriminator < 31) := by
      intro i hi
      have hlt := GroupData.length_part_lt hi
      have hlength : (g.node parentMask).encodings.length = g.encodings.length :=
        (g.adjustMask_perm parentMask).length_eq
      exact ih (by omega) (GroupData.part_nonempty hi)
    rw [isSome_addSubGroups_succ]
    constructor
    · intro ⟨hself, hkept⟩ visited hvisited
      cases hvisited with
      | self => exact hself
      | @complete _ _ i hi hcomplete =>
        exact ((isSome_keptGroup_iff _ _ i).mp (hkept i hi)).2 hcomplete
      | @descend _ _ _ i hi hdivides hbelow =>
        have hsome := ((isSome_keptGroup_iff _ _ i).mp (hkept i hi)).1 hdivides
        exact (hpart i hi).mp hsome visited hbelow
    · intro h
      refine ⟨h _ .self, fun i hi => (isSome_keptGroup_iff _ _ i).mpr ⟨fun hdivides => ?_, ?_⟩⟩
      · exact (hpart i hi).mpr fun visited hvisited => h visited (.descend hi hdivides hvisited)
      · exact fun hcomplete => h _ (.complete hi hcomplete)

/-! ### Masks -/

namespace GroupData

/-- The common bits are not ignored, and the constant bits are common. -/
structure Masked (g : GroupData) : Prop where
  mask : g.mask &&& g.ignore = 0
  constant : g.constant &&& ~~~g.mask = 0

/-- No bit is ignored, constant and discriminating at the same time. -/
structure Disjoint (g : GroupData) : Prop where
  ignoreConstant : g.ignore &&& g.constant = 0
  ignoreDiscriminator : g.ignore &&& g.discriminator = 0
  constantDiscriminator : g.constant &&& g.discriminator = 0

theorem masked_addEncoding (g : GroupData) (enc : InstructionEncoding) :
    (g.addEncoding enc).Masked := by
  constructor
  · rw [and_eq_zero_iff]
    intro i hi
    simp only [addEncoding, BitVec.getLsbD_and, BitVec.getLsbD_not, Bool.and_eq_true] at hi ⊢
    simpa using hi.2.2
  · rw [and_not_eq_zero_iff]
    intro i hi
    simp only [addEncoding, BitVec.getLsbD_and, Bool.and_eq_true] at hi ⊢
    exact hi.1.2

variable {g : GroupData}

theorem masked_foldl {encs : List InstructionEncoding} (h : g.Masked) :
    (encs.foldl addEncoding g).Masked := by
  induction encs generalizing g with
  | nil => exact h
  | cons enc rest ih => exact ih (g.masked_addEncoding enc)

theorem ignore_foldl (encs : List InstructionEncoding) (g : GroupData) :
    (encs.foldl addEncoding g).ignore = g.ignore := by
  induction encs generalizing g with
  | nil => rfl
  | cons enc rest ih => exact ih (g.addEncoding enc)

theorem masked_empty (ignore : BitVec 64) : (empty ignore).Masked :=
  ⟨by simp [empty], by simp [empty]⟩

theorem masked_adjustMask (h : g.Masked) (parentMask : BitVec 64) :
    (g.adjustMask parentMask).Masked := by
  have hmask := and_eq_zero_iff.mp h.mask
  have hconstant := and_not_eq_zero_iff.mp h.constant
  constructor
  · rw [and_eq_zero_iff]
    intro i hi
    simp only [adjustMask, BitVec.getLsbD_and, Bool.and_eq_true] at hi
    exact hmask i hi.1
  · rw [and_not_eq_zero_iff]
    intro i hi
    simp only [adjustMask, BitVec.getLsbD_and, Bool.and_eq_true] at hi ⊢
    exact ⟨hconstant i hi.1, hi.2⟩

theorem masked_part (g : GroupData) (i : Nat) : (g.part i).Masked :=
  masked_adjustMask (masked_foldl (masked_empty _)) _

theorem ignore_part (g : GroupData) (i : Nat) :
    (g.part i).ignore = g.ignore ||| g.constant ||| g.discriminator :=
  ignore_foldl _ _

theorem Masked.disjoint (h : g.Masked) : g.setDiscriminator.Disjoint := by
  have hmask := and_eq_zero_iff.mp h.mask
  have hconstant := and_not_eq_zero_iff.mp h.constant
  refine ⟨?_, ?_, ?_⟩
  · show g.ignore &&& g.constant = 0
    rw [BitVec.and_comm, and_eq_zero_iff]
    exact fun i hi => hmask i (hconstant i hi)
  · show g.ignore &&& (g.mask &&& ~~~g.constant) = 0
    rw [BitVec.and_comm, and_eq_zero_iff]
    intro i hi
    rw [BitVec.getLsbD_and, Bool.and_eq_true] at hi
    exact hmask i hi.1
  · show g.constant &&& (g.mask &&& ~~~g.constant) = 0
    rw [and_eq_zero_iff]
    intro i hi
    simp [hi]

end GroupData

/-! ### The tree -/

/-- Every encoding of a group is in one of its subgroups: that of its own discriminator value. -/
def EncodingsSplit (g : GroupData) (groups : List EncodingGroup) : Prop :=
  ∃ indices : List Nat, indices.Nodup ∧ (∀ enc ∈ g.encodings, g.indexOf enc ∈ indices) ∧
    List.Forall₂ (fun i sub =>
      sub.data.encodings.Perm (g.encodings.filter fun enc => g.indexOf enc = i)) indices groups

/-- A node: its masks are disjoint, and its encodings are split if it has subgroups. -/
structure SoundNode (tree : EncodingGroup) : Prop where
  masks : tree.data.Disjoint
  split : tree.groups ≠ [] → EncodingsSplit tree.data tree.groups

/-- Every ignored bit of the tree is among the bits that have been tested above it. -/
inductive PathTested : BitVec 64 → EncodingGroup → Prop where
  | mk {tested : BitVec 64} {data : GroupData} {groups : List EncodingGroup}
    (ignore : data.ignore &&& ~~~tested = 0)
    (subgroups : ∀ sub ∈ groups,
      PathTested (tested ||| data.constant ||| data.discriminator) sub) :
    PathTested tested (.mk data groups)

theorem pathTested_leaf {tested : BitVec 64} {data : GroupData}
    (h : data.ignore &&& ~~~tested = 0) : PathTested tested (.mk data []) :=
  .mk h (by simp)

theorem PathTested.undo {tested : BitVec 64} (h : PathTested tested tree) :
    PathTested tested (undoSubGroups tree) := by
  unfold undoSubGroups
  split
  · cases h with
    | mk ignore _ => exact pathTested_leaf ignore
  · exact h

theorem all_sound_leaf {data : GroupData} (h : data.Disjoint) :
    (EncodingGroup.mk data []).All SoundNode :=
  .mk ⟨h, fun hne => absurd rfl hne⟩ (by simp)

theorem all_sound_undo (h : tree.All SoundNode) : (undoSubGroups tree).All SoundNode := by
  unfold undoSubGroups
  split
  · exact all_sound_leaf h.self.masks
  · exact h

theorem inside_or {a b c : BitVec 64} (h : a &&& ~~~b = 0) : (a ||| c) &&& ~~~(b ||| c) = 0 := by
  rw [and_not_eq_zero_iff] at h ⊢
  intro i hi
  rw [BitVec.getLsbD_or, Bool.or_eq_true] at hi ⊢
  exact hi.imp_left (h i)

/-- What is true of a group that has been divided. -/
structure SoundlyBuilt (g : GroupData) (tree : EncodingGroup) : Prop where
  perm : tree.data.encodings.Perm g.encodings
  sound : tree.All SoundNode
  tested : ∀ tested, g.ignore &&& ~~~tested = 0 → PathTested tested tree

theorem soundlyBuilt_keptGroup {addSubGroups : GroupData → Option EncodingGroup} {i : Nat}
    {sub : EncodingGroup} (h : keptGroup addSubGroups g i = some sub)
    (hbuild : ∀ tree, addSubGroups (g.part i) = some tree → SoundlyBuilt (g.part i) tree) :
    SoundlyBuilt (g.part i) sub := by
  rw [keptGroup] at h
  split at h
  · obtain ⟨tree, htree, rfl⟩ := Option.map_eq_some_iff.mp h
    obtain ⟨hperm, hsound, htested⟩ := hbuild tree htree
    refine ⟨?_, all_sound_undo hsound, fun tested hignore => (htested tested hignore).undo⟩
    rw [undoSubGroups_data]
    exact hperm
  · obtain ⟨size, -, rfl⟩ := Option.map_eq_some_iff.mp h
    have hdisjoint := (g.masked_part i).disjoint
    exact ⟨.refl _, all_sound_leaf ⟨hdisjoint.1, hdisjoint.2, hdisjoint.3⟩,
      fun tested hignore => pathTested_leaf hignore⟩

/-- Groups that are kept for the parts split the encodings, if there are any parts. -/
theorem encodingsSplit_of_kept {addSubGroups : GroupData → Option EncodingGroup}
    {groups : List EncodingGroup} (hne : groups ≠ [])
    (h : List.Forall₂ (fun i sub => keptGroup addSubGroups g i = some sub)
      ((List.range (2 ^ popcount64 g.discriminator)).filter fun i => g.IsPart i) groups)
    (hperm : ∀ i sub, keptGroup addSubGroups g i = some sub →
      sub.data.encodings.Perm (g.subGroup i).encodings) : EncodingsSplit g groups := by
  refine ⟨(List.range (2 ^ popcount64 g.discriminator)).filter fun i => g.IsPart i,
    List.nodup_range.filter _, fun enc henc => ?_, ?_⟩
  · -- Some value has a part, so no value is that of all encodings.
    obtain ⟨sub, rest, rfl⟩ := List.exists_cons_of_ne_nil hne
    obtain ⟨j, hj, -⟩ := exists_of_forall₂ h List.mem_cons_self
    have hpart : g.IsPart j := of_decide_eq_true (List.mem_filter.mp hj).2
    have hlt : g.indexOf enc < 2 ^ popcount64 g.discriminator := extractValue_lt _ _
    have hmem : enc ∈ (g.subGroup (g.indexOf enc)).encodings :=
      GroupData.mem_subGroup.mpr ⟨henc, by simp [GroupData.indexOf]⟩
    rw [List.mem_filter, List.mem_range]
    refine ⟨hlt, decide_eq_true ⟨hlt, List.ne_nil_of_mem hmem, fun hfull => ?_⟩⟩
    exact GroupData.not_isPart_of_full hfull j hpart
  · have hbound : ∀ i ∈ (List.range (2 ^ popcount64 g.discriminator)).filter fun i => g.IsPart i,
        i < 2 ^ 64 := by
      intro i hi
      have hpop : popcount64 g.discriminator ≤ 64 := BitVec.toNat_cpop_le _
      exact lt_of_lt_of_le (List.mem_range.mp (List.mem_filter.mp hi).1)
        (Nat.pow_le_pow_right two_pos hpop)
    refine ((List.forall₂_and_left _ _).mpr ⟨hbound, h⟩).imp fun i sub hi => ?_
    have hsub := hperm i sub hi.2
    rw [GroupData.subGroup_encodings] at hsub
    refine hsub.trans (List.Perm.of_eq (List.filter_congr fun enc _ => ?_))
    have hcast : (i : BitVec 64).toNat = i := by simpa using Nat.mod_eq_of_lt hi.1
    rw [decide_eq_decide, GroupData.indexOf, ← BitVec.toNat_inj, hcast]

/-- **The tree of a group.** All its nodes are sound, and no bit is ignored untested. -/
theorem soundlyBuilt_addSubGroups (h : addSubGroups depth parentMask g = some tree)
    (hmasked : g.Masked) : SoundlyBuilt g tree := by
  -- Induction on the depth, for the trees of the parts.
  induction depth generalizing parentMask g tree with
  | zero => cases h
  | succ depth ih =>
    obtain ⟨⟨simple, hdata⟩, hgroups⟩ := of_addSubGroups_succ h
    have hkept : ∀ i sub, keptGroup (addSubGroups depth (g.node parentMask).mask)
        (g.node parentMask) i = some sub → SoundlyBuilt ((g.node parentMask).part i) sub := by
      intro i sub hsub
      exact soundlyBuilt_keptGroup hsub fun tree htree => ih htree (GroupData.masked_part _ i)
    have hdisjoint : (g.node parentMask).Disjoint :=
      (GroupData.masked_adjustMask hmasked parentMask).disjoint
    -- Subgroups are kept for parts.
    have hbelow : ∀ sub ∈ tree.groups, ∃ i, SoundlyBuilt ((g.node parentMask).part i) sub := by
      intro sub hsub
      obtain ⟨i, -, hi⟩ := exists_of_forall₂ hgroups hsub
      exact ⟨i, hkept i sub hi⟩
    obtain ⟨data, groups⟩ := tree
    obtain rfl : data = _ := hdata
    refine ⟨g.adjustMask_perm parentMask, .mk ⟨?_, fun hne => ?_⟩ fun sub hsub => ?_,
      fun tested hignore => .mk hignore fun sub hsub => ?_⟩
    · exact ⟨hdisjoint.1, hdisjoint.2, hdisjoint.3⟩
    · refine encodingsSplit_of_kept (g := g.node parentMask) hne hgroups fun i sub hi => ?_
      exact (hkept i sub hi).perm.trans (GroupData.encodings_part_perm _ i)
    · obtain ⟨i, hi⟩ := hbelow sub hsub
      exact hi.sound
    · obtain ⟨i, hi⟩ := hbelow sub hsub
      refine hi.tested _ ?_
      rw [GroupData.ignore_part]
      exact inside_or (inside_or hignore)

/-! ### The trees of an instruction group -/

/-- The groups of an instruction group before they are divided. -/
def undividedGroups (encodings : List InstructionEncoding) : List GroupData :=
  (encodings.insertionSort fun a b => a.mask ≤ b.mask).foldl
    (fun groups enc => addToGroups enc groups) []

/-- The trees of an instruction group are built, their nodes are sound, and what they ignore has
    been tested. -/
def TreesSound (encodings : List InstructionEncoding) : Prop :=
  ∃ groups, processEncodings encodings = some groups ∧
    ∀ tree ∈ groups, tree.All SoundNode ∧ PathTested 0 tree

/-- In no group that is visited more than 30 bits discriminate. -/
def CountableValues (encodings : List InstructionEncoding) : Prop :=
  ∀ g ∈ undividedGroups encodings, ∀ visited, Visited 0 g visited →
    popcount64 visited.discriminator < 31

theorem masked_addToGroups {enc : InstructionEncoding} {groups : List GroupData}
    (h : ∀ g ∈ groups, g.Masked ∧ g.ignore = 0) :
    ∀ g ∈ addToGroups enc groups, g.Masked ∧ g.ignore = 0 := by
  induction groups with
  | nil => simpa [addToGroups] using ⟨GroupData.masked_addEncoding _ enc, rfl⟩
  | cons g rest ih =>
    obtain ⟨hg, hrest⟩ := List.forall_mem_cons.mp h
    rw [addToGroups]
    split
    · exact List.forall_mem_cons.mpr ⟨⟨g.masked_addEncoding enc, hg.2⟩, hrest⟩
    · exact List.forall_mem_cons.mpr ⟨hg, ih hrest⟩

theorem masked_undividedGroups (encodings : List InstructionEncoding) :
    ∀ g ∈ undividedGroups encodings, g.Masked ∧ g.ignore = 0 := by
  unfold undividedGroups
  generalize encodings.insertionSort (fun a b => a.mask ≤ b.mask) = sorted
  suffices hfold : ∀ groups : List GroupData, (∀ g ∈ groups, g.Masked ∧ g.ignore = 0) →
      ∀ g ∈ sorted.foldl (fun groups enc => addToGroups enc groups) groups,
        g.Masked ∧ g.ignore = 0 from hfold [] (by simp)
  induction sorted with
  | nil => exact fun groups h => h
  | cons enc rest ih => exact fun groups h => ih _ (masked_addToGroups h)

/-- The trees of an instruction group are built unless a group that is visited has too many values
    to count. -/
theorem isSome_processEncodings_iff (encodings : List InstructionEncoding) :
    (processEncodings encodings).isSome = true ↔ CountableValues encodings := by
  obtain ⟨hne, -⟩ := foldl_addToGroups (encodings.insertionSort fun a b => a.mask ≤ b.mask) []
    (by simp)
  refine isSome_mapM_iff.trans (forall₂_congr fun g hg => ?_)
  exact addSubGroups_isSome_iff (le_refl _) (hne g hg)

/-- **Decoder trees.** For any encodings, the trees are built, every node has disjoint masks, its
    encodings go to the subgroups of their own values, and its ignored bits have been tested above
    it, if and only if no group that is visited has too many values to count. -/
theorem treesSound_iff (encodings : List InstructionEncoding) :
    TreesSound encodings ↔ CountableValues encodings := by
  rw [← isSome_processEncodings_iff, Option.isSome_iff_exists]
  refine exists_congr fun groups => and_iff_left_of_imp fun h tree htree => ?_
  obtain ⟨g, hg, htree⟩ := exists_of_mapM_eq_some h htree
  obtain ⟨hmasked, hignore⟩ := masked_undividedGroups encodings g hg
  obtain ⟨-, hsound, htested⟩ := soundlyBuilt_addSubGroups htree hmasked
  exact ⟨hsound, htested 0 (by simp [hignore])⟩

/-- An instruction that fixes all bits of its word. -/
def wordOpcode (name : String) (high low : BitVec 64) : ConstrainedOpcode :=
  ⟨name, "Inst32", [⟨.kEq, .field ⟨"high", false, 31, 16, 16⟩, none, high⟩,
    ⟨.kEq, .field ⟨"low", false, 15, 0, 16⟩, none, low⟩], [], []⟩

/-- Two instructions that differ in all of their 32 bits: their values cannot be counted. -/
theorem not_treesSound_words :
    ∃ encodings, [wordOpcode "nop" 0 0, wordOpcode "halt" 0xffff 0xffff].mapM newEncoding =
      some encodings ∧ ¬ TreesSound encodings := by
  have hcode : ([wordOpcode "nop" 0 0, wordOpcode "halt" 0xffff 0xffff].mapM newEncoding).map
      (fun encodings => (processEncodings encodings).isSome) = some false := by decide +kernel
  obtain ⟨encodings, hencodings, hnone⟩ := Option.map_eq_some_iff.mp hcode
  refine ⟨encodings, hencodings, fun ⟨groups, hgroups, _⟩ => ?_⟩
  rw [hgroups] at hnone
  cases hnone

end MpactSim.Decoder
