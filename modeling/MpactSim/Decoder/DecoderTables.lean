import MpactSim.Decoder.TreeInvariants

namespace MpactSim.Decoder

open Lib

/-!
# The tables of the emitted decoders

Tables and functions are emitted by recursions of their own over a tree.  Both visit a group under
the name of its path from the root, so they can be compared group by group.

* `EncodingGroup.At`   — the groups of a tree, with the paths that lead to them;
* `tableEntries_eq`    — the gaps between the values of the subgroups are filled;
* `EncodingGroup.Tabled` — what the tables need of a group;
* `TablesTotal`        — tables have an entry for every value, and those that are read are there;
* `tablesTotal_of_processEncodings` — the trees of an instruction group have total tables.
-/

/-! ### Groups and their paths -/

namespace EncodingGroup

/-- The value of its parent's discriminator that a subgroup is for. -/
def valueIn (parent : GroupData) (g : EncodingGroup) : Nat :=
  (extractValue g.data.firstValue parent.discriminatorRecipe).toNat

/-- A path leads from a tree to one of its groups. -/
inductive At : EncodingGroup → List Nat → EncodingGroup → Prop where
  | here {tree : EncodingGroup} : At tree [] tree
  | there {data : GroupData} {groups : List EncodingGroup} {sub node : EncodingGroup}
    {path : List Nat} (hsub : sub ∈ groups) (hnode : At sub path node) :
    At (.mk data groups) (sub.valueIn data :: path) node

/-- All encodings of the subgroup have the value. -/
def HasSubGroup (node : EncodingGroup) (i : Nat) (sub : EncodingGroup) : Prop :=
  sub ∈ node.groups ∧ ∀ enc ∈ sub.data.encodings, node.data.indexOf enc = i

/-- The function of a group. -/
def decoder (groupWidth : Nat) (name : String) (node : EncodingGroup) : DecodeFunction :=
  ⟨"Decode" ++ name,
    if node.groups.isEmpty then node.data.emitLeaf groupWidth
    else node.data.constantTest ++ node.data.indexExtraction groupWidth ++ [.retTable name]⟩

/-- The table of a group. -/
def table (groupName name : String) (node : EncodingGroup) : DecodeTable :=
  ⟨name, tableEntries groupName name node.subIndices (List.range node.data.discriminatorSize)⟩

variable {P : EncodingGroup → Prop} {tree node : EncodingGroup} {path : List Nat}

theorem At.all (h : tree.At path node) (hall : tree.All P) : P node := by
  induction h with
  | here => exact hall.self
  | there hsub _ ih => exact ih ((all_mk.mp hall).2 _ hsub)

theorem At.subgroup {sub : EncodingGroup} (h : tree.At path node) (hsub : sub ∈ node.groups) :
    tree.At (path ++ [sub.valueIn node.data]) sub := by
  induction h with
  | @here tree =>
    obtain ⟨data, groups⟩ := tree
    exact .there hsub .here
  | there hmem _ ih => exact .there hmem (ih hsub)

theorem At.groups_ne_nil (h : tree.At path node) (hne : node.groups ≠ []) : tree.groups ≠ [] := by
  cases h with
  | here => exact hne
  | there hsub _ => exact List.ne_nil_of_mem hsub

/-! ### What the recursions visit -/

@[simp]
theorem pathName_nil (name : String) : pathName name [] = name := by
  simp [pathName, hexPath]

theorem emitDecoders_eq (groupWidth : Nat) (name : String) (tree : EncodingGroup) :
    tree.emitDecoders groupWidth name = tree.decoder groupWidth name ::
      tree.groups.flatMap fun g => g.emitDecoders groupWidth
        (subName name (g.valueIn tree.data)) := by
  obtain ⟨data, groups⟩ := tree
  rw [emitDecoders, emitGroups_eq]
  rfl

theorem emitInitializers_eq (groupName name : String) (tree : EncodingGroup) :
    tree.emitInitializers groupName name =
      if tree.data.discriminatorSize = 0 then []
      else tree.table groupName name :: tree.groups.flatMap fun g =>
        if g.groups.isEmpty then []
        else g.emitInitializers groupName (subName name (g.valueIn tree.data)) := by
  obtain ⟨data, groups⟩ := tree
  rw [emitInitializers, initGroups_eq]
  rfl

theorem At.decoder_mem (h : tree.At path node) (groupWidth : Nat) (name : String) :
    node.decoder groupWidth (pathName name path) ∈ tree.emitDecoders groupWidth name := by
  induction h generalizing name with
  | here =>
    rw [pathName_nil, emitDecoders_eq]
    exact List.mem_cons_self
  | @there data groups sub node path hsub _ ih =>
    rw [emitDecoders_eq, ← pathName_subName]
    exact List.mem_cons_of_mem _ (List.mem_flatMap.mpr ⟨sub, hsub, ih _⟩)

theorem exists_of_mem_emitDecoders (hall : tree.All P) {groupWidth : Nat} {name : String}
    {f : DecodeFunction} (hf : f ∈ tree.emitDecoders groupWidth name) :
    ∃ path node, tree.At path node ∧ f = node.decoder groupWidth (pathName name path) := by
  induction hall generalizing name with
  | @mk data groups self below ih =>
    rw [emitDecoders_eq] at hf
    rcases List.mem_cons.mp hf with rfl | hf
    · exact ⟨[], _, .here, by rw [pathName_nil]⟩
    · obtain ⟨sub, hsub, hf⟩ := List.mem_flatMap.mp hf
      obtain ⟨path, node, hnode, hf⟩ := ih sub hsub hf
      refine ⟨sub.valueIn data :: path, node, .there hsub hnode, ?_⟩
      rw [hf, pathName_subName]
      rfl

theorem exists_of_mem_emitInitializers (hall : tree.All P) {groupName name : String}
    {t : DecodeTable} (ht : t ∈ tree.emitInitializers groupName name) :
    ∃ path node, tree.At path node ∧ t = node.table groupName (pathName name path) ∧
      node.data.discriminatorSize ≠ 0 := by
  induction hall generalizing name with
  | @mk data groups self below ih =>
    rw [emitInitializers_eq] at ht
    split at ht
    · cases ht
    · rename_i hsize
      rcases List.mem_cons.mp ht with rfl | ht
      · exact ⟨[], _, .here, by rw [pathName_nil], hsize⟩
      · obtain ⟨sub, hsub, ht⟩ := List.mem_flatMap.mp ht
        split at ht
        · cases ht
        · obtain ⟨path, node, hnode, ht, hnodeSize⟩ := ih sub hsub ht
          refine ⟨sub.valueIn data :: path, node, .there hsub hnode, ?_, hnodeSize⟩
          rw [ht, pathName_subName]
          rfl

end EncodingGroup

/-! ### The entries of a table -/

/-- The gaps are filled if the values are some of the indices, in their order. -/
theorem tableEntries_eq {groupName name : String} {values indices : List Nat}
    (h : values.Sublist indices) (hnodup : indices.Nodup) :
    tableEntries groupName name values indices = indices.map fun i =>
      if i ∈ values then "Decode" ++ subName name i else "Decode" ++ groupName ++ "None" := by
  induction indices generalizing values with
  | nil => cases values <;> rfl
  | cons i rest ih =>
    obtain ⟨hi, hrest⟩ := List.nodup_cons.mp hnodup
    cases values with
    | nil =>
      rw [tableEntries, ih (List.nil_sublist rest) hrest, List.map_cons, if_neg List.not_mem_nil]
    | cons value values =>
      rw [tableEntries, List.map_cons]
      split
      · -- The entry of the first value; that value does not come again.
        rename_i heq
        subst heq
        rw [if_pos List.mem_cons_self, ih (List.cons_sublist_cons.mp h) hrest]
        refine congrArg (_ :: ·) (List.map_congr_left fun j hj => ?_)
        have hne : j ≠ value := fun heq => hi (heq ▸ hj)
        simp only [List.mem_cons, hne, false_or]
      · -- An entry of the gap before it.
        rename_i hne
        have hsub : (value :: values).Sublist rest := by
          cases h with
          | cons _ hsub => exact hsub
          | cons_cons _ _ => exact absurd rfl hne
        have hnot : i ∉ value :: values := fun hmem => hi (hsub.subset hmem)
        rw [if_neg hnot, ih hsub hrest]

namespace EncodingGroup

/-- The table has as many entries as there are values. -/
def Sized (tree : EncodingGroup) : Prop :=
  tree.groups ≠ [] → tree.data.discriminatorSize = 2 ^ popcount64 tree.data.discriminator

/-- What the tables need of a group. -/
structure Tabled (tree : EncodingGroup) : Prop where
  regular : tree.Regular
  sized : tree.Sized
  within : tree.subIndices.Sublist (List.range tree.data.discriminatorSize)
  nonempty : ∀ sub ∈ tree.groups, sub.data.encodings ≠ []
  values : ∀ sub ∈ tree.groups, ∀ enc ∈ sub.data.encodings,
    tree.data.indexOf enc = sub.valueIn tree.data

namespace Tabled

variable {tree : EncodingGroup} (h : tree.Tabled)

include h

theorem hasSubGroup_iff {i : Nat} {sub : EncodingGroup} :
    tree.HasSubGroup i sub ↔ sub ∈ tree.groups ∧ sub.valueIn tree.data = i := by
  refine and_congr_right fun hsub => ⟨fun hall => ?_, fun hvalue enc henc => ?_⟩
  · obtain ⟨enc, henc⟩ := List.exists_mem_of_ne_nil _ (h.nonempty sub hsub)
    rw [← h.values sub hsub enc henc]
    exact hall enc henc
  · rw [h.values sub hsub enc henc, hvalue]

theorem table_entry {groupName name : String} {i : Nat} (hi : i < tree.data.discriminatorSize) :
    (tree.table groupName name).entries[i]? =
      some (if i ∈ tree.subIndices then "Decode" ++ subName name i
        else "Decode" ++ groupName ++ "None") := by
  show (tableEntries groupName name _ _)[i]? = _
  rw [tableEntries_eq h.within List.nodup_range, List.getElem?_map, List.getElem?_range hi,
    Option.map_some]

theorem table_length (groupName name : String) :
    (tree.table groupName name).entries.length = tree.data.discriminatorSize := by
  show (tableEntries groupName name _ _).length = _
  rw [tableEntries_eq h.within List.nodup_range, List.length_map, List.length_range]

end Tabled

theorem At.table_mem {tree node : EncodingGroup} {path : List Nat} (h : tree.At path node)
    (hall : tree.All Tabled) (hne : node.groups ≠ []) (groupName name : String) :
    node.table groupName (pathName name path) ∈ tree.emitInitializers groupName name := by
  have hsize : tree.data.discriminatorSize ≠ 0 := by
    rw [hall.self.sized (h.groups_ne_nil hne)]
    exact (Nat.two_pow_pos _).ne'
  rw [emitInitializers_eq, if_neg hsize]
  induction h generalizing name with
  | here =>
    rw [pathName_nil]
    exact List.mem_cons_self
  | @there data groups sub node path hsub hnode ih =>
    have hbelow : sub.All Tabled := (all_mk.mp hall).2 sub hsub
    have hgroups := hnode.groups_ne_nil hne
    have hsize' : sub.data.discriminatorSize ≠ 0 := by
      rw [hbelow.self.sized hgroups]
      exact (Nat.two_pow_pos _).ne'
    refine List.mem_cons_of_mem _ (List.mem_flatMap.mpr ⟨sub, hsub, ?_⟩)
    rw [if_neg (by simpa using hgroups), emitInitializers_eq, if_neg hsize', ← pathName_subName]
    exact ih hbelow hne _ hsize'

end EncodingGroup

/-! ### Total tables -/

/-- A table has an entry for each value of the discriminator: the function of the subgroup that the
    value is for, or else that for no instruction. -/
structure EntriesTotal (groupWidth : Nat) (groupName name : String) (tree : EncodingGroup)
    (path : List Nat) (node : EncodingGroup) (entries : List String) : Prop where
  length : entries.length = node.data.discriminatorSize
  decoder : ∀ i < node.data.discriminatorSize, ∀ sub, node.HasSubGroup i sub →
    sub.decoder groupWidth (pathName name (path ++ [i])) ∈ tree.emitDecoders groupWidth name ∧
    ∀ f ∈ tree.emitDecoders groupWidth name, entries[i]? = some f.name ↔
      f = sub.decoder groupWidth (pathName name (path ++ [i]))
  none : ∀ i < node.data.discriminatorSize, (∀ sub, ¬ node.HasSubGroup i sub) →
    entries[i]? = some ("Decode" ++ groupName ++ "None")

/-- All tables of a tree have all entries, and a function that reads a table finds it, with an
    entry for every instruction word. -/
structure TablesTotal (groupWidth : Nat) (groupName name : String) (tree : EncodingGroup) :
    Prop where
  total : ∀ t ∈ tree.emitInitializers groupName name, ∃ path node, tree.At path node ∧
    t.name = pathName name path ∧
      EntriesTotal groupWidth groupName name tree path node t.entries
  read : ∀ f ∈ tree.emitDecoders groupWidth name, ∀ table, .retTable table ∈ f.body →
    ∃ path node, tree.At path node ∧ f = node.decoder groupWidth (pathName name path) ∧
      ∃ t ∈ tree.emitInitializers groupName name, t.name = table ∧ ∀ word : BitVec 64,
        (extractValue word node.data.discriminatorRecipe).toNat < t.entries.length

theorem subName_pathName (name : String) (path : List Nat) (value : Nat) :
    subName (pathName name path) value = pathName name (path ++ [value]) := by
  rw [subName_eq_pathName, ← String.toList_inj]
  simp [pathName, hexPath, hexPath_append]

namespace EncodingGroup

variable {tree : EncodingGroup}

theorem decoder_eq_of_name (hall : tree.All Regular) {groupWidth : Nat} {name : String}
    {f f' : DecodeFunction} (hf : f ∈ tree.emitDecoders groupWidth name)
    (hf' : f' ∈ tree.emitDecoders groupWidth name) (h : f.name = f'.name) : f = f' := by
  refine List.inj_on_of_nodup_map (f := DecodeFunction.name) ?_ hf hf' h
  rw [emitDecoders_names hall]
  refine (nodup_paths hall).map fun p q hpq => hexPath_injective ?_
  apply functionName_injective name
  simpa [functionName, pathName, String.append_assoc] using hpq

theorem All.imp {P Q : EncodingGroup → Prop} (himp : ∀ tree, P tree → Q tree) (h : tree.All P) :
    tree.All Q := by
  induction h with
  | mk self _ ih => exact .mk (himp _ self) ih

theorem At.entriesTotal {node : EncodingGroup} {path : List Nat} (h : tree.At path node)
    (hall : tree.All Tabled) (groupWidth : Nat) (groupName name : String) :
    EntriesTotal groupWidth groupName name tree path node
      (node.table groupName (pathName name path)).entries := by
  have hnode : node.Tabled := h.all hall
  refine ⟨hnode.table_length _ _, fun i hi sub hsub => ?_, fun i hi hnone => ?_⟩
  · obtain ⟨hmem, hvalue⟩ := hnode.hasSubGroup_iff.mp hsub
    have hdecoder := (h.subgroup hmem).decoder_mem groupWidth name
    rw [hvalue] at hdecoder
    refine ⟨hdecoder, fun f hf => ?_⟩
    have hindex : i ∈ node.subIndices := List.mem_map.mpr ⟨sub, hmem, hvalue⟩
    rw [hnode.table_entry hi, if_pos hindex, subName_pathName, Option.some_inj]
    constructor
    · intro hname
      exact decoder_eq_of_name (hall.imp fun _ hg => hg.regular) hf hdecoder hname.symm
    · intro heq
      rw [heq]
      rfl
  · rw [hnode.table_entry hi, if_neg]
    intro hindex
    obtain ⟨sub, hmem, hvalue⟩ := List.mem_map.mp hindex
    exact hnone sub (hnode.hasSubGroup_iff.mpr ⟨hmem, hvalue⟩)

theorem table_of_mem_decoder {node : EncodingGroup} (hcomplex : node.data.simpleDecoding = false)
    {groupWidth : Nat} {name table : String}
    (h : .retTable table ∈ (node.decoder groupWidth name).body) :
    node.groups ≠ [] ∧ table = name := by
  have hlocal : ∀ lines, LocalText lines → .retTable table ∉ lines := by
    intro lines hlines hmem
    cases (hlines _ hmem).2
  unfold decoder at h
  dsimp only at h
  split at h
  · exact absurd h (hlocal _ (localText_emitLeaf groupWidth hcomplex))
  · rename_i hgroups
    refine ⟨by simpa using hgroups, ?_⟩
    rcases List.mem_append.mp h with h | h
    · exact absurd h (hlocal _ (localText_prologue groupWidth node.data))
    · exact Line.retTable.inj (List.mem_singleton.mp h)

theorem tablesTotal (hall : tree.All Tabled) (groupWidth : Nat) (groupName name : String) :
    TablesTotal groupWidth groupName name tree := by
  refine ⟨fun t ht => ?_, fun f hf table htable => ?_⟩
  · obtain ⟨path, node, hnode, rfl, -⟩ := exists_of_mem_emitInitializers hall ht
    exact ⟨path, node, hnode, rfl, hnode.entriesTotal hall groupWidth groupName name⟩
  · obtain ⟨path, node, hnode, rfl⟩ := exists_of_mem_emitDecoders hall hf
    have htabled : node.Tabled := hnode.all hall
    obtain ⟨hgroups, rfl⟩ := table_of_mem_decoder htabled.regular.complex htable
    refine ⟨path, node, hnode, rfl, _, hnode.table_mem hall hgroups groupName name, rfl, ?_⟩
    intro word
    rw [htabled.table_length, htabled.sized hgroups]
    exact extractValue_lt _ _

/-! ### The trees of an instruction group -/

theorem all_sized_leaf (data : GroupData) : (mk data []).All Sized :=
  .mk (fun hne => absurd rfl hne) (by simp)

theorem all_sized_undo (h : tree.All Sized) : (undoSubGroups tree).All Sized := by
  unfold undoSubGroups
  split
  · exact all_sized_leaf _
  · exact h

end EncodingGroup

theorem GroupData.IsPart.discriminator_ne_zero {g : GroupData} {i : Nat} (h : g.IsPart i) :
    g.discriminator ≠ 0 := by
  intro hzero
  have hvalue : ∀ enc ∈ g.encodings, extractValue enc.value
      (getExtractionRecipe g.discriminator) = 0 := by
    intro enc _
    have hlt := extractValue_lt g.discriminator enc.value
    rw [hzero, show popcount64 0 = 0 from by decide, pow_zero, Nat.lt_one_iff] at hlt
    rw [hzero]
    exact BitVec.eq_of_toNat_eq hlt
  refine GroupData.not_isPart_of_full (i := 0) ?_ i h
  rw [GroupData.subGroup_encodings, List.length_filter_eq_length_iff]
  intro enc henc
  rw [decide_eq_true_iff]
  exact hvalue enc henc

theorem all_sized_addSubGroups {depth : Nat} {parentMask : BitVec 64} {g : GroupData}
    {tree : EncodingGroup} (h : addSubGroups depth parentMask g = some tree) :
    tree.All EncodingGroup.Sized := by
  -- Induction on the depth, for the groups that are kept for the parts.
  induction depth generalizing parentMask g tree with
  | zero => cases h
  | succ depth ih =>
    obtain ⟨⟨simple, hdata⟩, hgroups⟩ := of_addSubGroups_succ h
    obtain ⟨data, groups⟩ := tree
    obtain rfl : data = _ := hdata
    refine .mk (fun hne => ?_) fun sub hsub => ?_
    · obtain ⟨sub, rest, hcons⟩ := List.exists_cons_of_ne_nil hne
      obtain ⟨i, hi, -⟩ := exists_of_forall₂ hgroups (hcons ▸ List.mem_cons_self)
      have hpart : (g.node parentMask).IsPart i := of_decide_eq_true (List.mem_filter.mp hi).2
      exact if_neg hpart.discriminator_ne_zero
    · obtain ⟨i, -, hkept⟩ := exists_of_forall₂ hgroups hsub
      rw [keptGroup] at hkept
      split at hkept
      · obtain ⟨tree, htree, rfl⟩ := Option.map_eq_some_iff.mp hkept
        exact EncodingGroup.all_sized_undo (ih htree)
      · obtain ⟨size, -, rfl⟩ := Option.map_eq_some_iff.mp hkept
        exact EncodingGroup.all_sized_leaf _

namespace EncodingGroup

theorem stripped (data : GroupData) (groups : List EncodingGroup) :
    (mk data groups).strip = .mk { data with encodings := data.encodings.map (·.strip) }
      (groups.map (·.strip)) := by
  rw [strip, stripGroups_eq]

/-- The groups of a tree that was built have what the tables need, whatever is attached to their
    encodings. -/
theorem tabled_of_strip {tree : EncodingGroup} (hdivided : tree.strip.All Divided)
    (hsized : tree.strip.All Sized) : tree.All Tabled := by
  have hregular := regular_of_strip hdivided
  -- Induction on the tree that was built, with the attached tree in step.
  generalize hstrip : tree.strip = built at hdivided hsized
  induction hdivided generalizing tree with
  | @mk data groups self below ih =>
    obtain ⟨hsize, hsizes⟩ := all_mk.mp hsized
    obtain ⟨data', groups'⟩ := tree
    obtain ⟨hreg, hregs⟩ := all_mk.mp hregular
    have hindices := strip_subIndices (mk data' groups')
    rw [stripped] at hstrip hindices
    obtain ⟨rfl, rfl⟩ := mk.inj hstrip
    have hbelow : ∀ g ∈ groups'.map (·.strip), g.data.encodings ≠ [] := fun g hg =>
      (below g hg).self.1.nonempty
    have hwithin := self.subIndices_sublist hbelow
    rw [hindices] at hwithin
    have hsized' : (mk data' groups').Sized := by
      intro hne
      exact hsize fun hnil => hne (List.map_eq_nil_iff.mp hnil)
    refine .mk ⟨hreg, hsized', ?_, fun sub hsub hnil => ?_, fun sub hsub enc henc => ?_⟩
      fun sub hsub => ih sub.strip (List.mem_map_of_mem hsub) (hregs sub hsub) rfl
        (hsizes _ (List.mem_map_of_mem hsub))
    · by_cases hne : groups' = []
      · subst hne
        exact List.nil_sublist _
      · rw [hsized' hne]
        exact hwithin
    · refine hbelow sub.strip (List.mem_map_of_mem hsub) ?_
      obtain ⟨subData, subGroups⟩ := sub
      rw [stripped]
      exact List.map_eq_nil_iff.mpr hnil
    · -- All encodings of a subgroup have the value that it was made for.
      obtain ⟨-, indices, -, hforall⟩ := self
      obtain ⟨i, -, hi⟩ := exists_of_forall₂ hforall (List.mem_map_of_mem hsub)
      have hfirst := hi.index (hbelow _ (List.mem_map_of_mem hsub))
      rw [strip_firstValue] at hfirst
      have hmem : enc.strip ∈ sub.strip.data.encodings := by
        obtain ⟨subData, subGroups⟩ := sub
        rw [stripped]
        exact List.mem_map_of_mem henc
      have hvalue := (List.mem_filter.mp (hi.perm.subset hmem)).2
      rw [decide_eq_true_iff] at hvalue
      exact congrArg BitVec.toNat (hvalue.trans hfirst.symm)

end EncodingGroup

/-- **Decoder tables.** Take the trees that are built for any encodings, and attach any
    specializations to the encodings.  Whatever the names are, each table has one entry for every
    value of its discriminator, the function of the subgroup with that value or else that for no
    instruction, and every table that a function reads is there. -/
theorem tablesTotal_of_processEncodings {encodings : List InstructionEncoding}
    {groups : List EncodingGroup} (h : processEncodings encodings = some (groups.map (·.strip)))
    {tree : EncodingGroup} (htree : tree ∈ groups) (groupWidth : Nat) (groupName name : String) :
    TablesTotal groupWidth groupName name tree := by
  have hstrip := List.mem_map_of_mem (f := EncodingGroup.strip) htree
  obtain ⟨g, -, hbuilt⟩ := exists_of_mapM_eq_some h hstrip
  exact EncodingGroup.tablesTotal (EncodingGroup.tabled_of_strip (processEncodings_spec h hstrip).1
    (all_sized_addSubGroups hbuilt)) groupWidth groupName name

/-- The tree of two instructions that are told apart by their function code. -/
theorem tablesTotal_of_processEncodings_func :
    let groups := (processEncodings (funcEncodings [("add", 1), ("sub", 2)])).getD []
    ∃ tree ∈ groups, tree.groups ≠ [] ∧ TablesTotal 8 "alu" "alu_0" tree := by
  have hne : (processEncodings (funcEncodings [("add", 1), ("sub", 2)])).getD [] ≠ [] := by
    rw [Ne, ← List.isEmpty_iff]
    decide +kernel
  have hgroups : ((processEncodings (funcEncodings [("add", 1), ("sub", 2)])).getD []).all
      (fun tree => ¬ tree.groups.isEmpty) = true := by decide +kernel
  refine ⟨_, List.head_mem hne, ?_, ?_⟩
  · have := List.all_eq_true.mp hgroups _ (List.head_mem hne)
    simpa using this
  · exact tablesTotal_of_processEncodings
      (show processEncodings (funcEncodings [("add", 1), ("sub", 2)]) = some _ from rfl)
      (List.head_mem hne) 8 "alu" "alu_0"

end MpactSim.Decoder
