import MpactSim.Decoder.DecoderTables
import MpactSim.Decoder.GroupOrder

namespace MpactSim.Decoder

open Cpp Lib

/-!
# The way of a word through the decoders

The decoder of a group tests the constant bits, and hands the word to the entry of its table for the
word's index.  No instruction is lost on the way.

* `Tracked`, `Followed` — what a group knows of the words that fit its encodings;
* `EncodingGroup.Descends` — the leaf that a word comes to, by the masks of the groups;
* `exists_descends` — a word that fits an encoding comes to one leaf, and the encoding is in it;
* `Decodes`  — the emitted functions call each other through the emitted tables;
* `Descends.decodes` — they take a word to the function of its leaf.
-/

/-- The word has the bits that the encoding fixes. -/
def InstructionEncoding.Fits (enc : InstructionEncoding) (word : BitVec 64) : Prop :=
  word &&& enc.mask = enc.value &&& enc.mask

/-! ### Groups -/

namespace GroupData

/-- Every encoding fixes the common bits, and has those of the last one that do not vary. -/
structure Tracked (g : GroupData) : Prop where
  masked : g.Masked
  constant : g.constant &&& ~~~~~~g.varying = 0
  mask : ∀ enc ∈ g.encodings, g.mask &&& ~~~enc.mask = 0
  value : ∀ enc ∈ g.encodings, enc.value &&& ~~~g.varying = g.lastValue &&& ~~~g.varying

/-- Every encoding fixes the bits of the mask; words that fit it have the constant bits. -/
def Followed (g : GroupData) : Prop :=
  ∀ enc ∈ g.encodings, g.mask &&& ~~~enc.mask = 0 ∧
    ∀ word, enc.Fits word → word &&& g.constant = g.lastValue &&& g.constant

variable {g : GroupData} {enc : InstructionEncoding} {word : BitVec 64}

theorem tracked_empty (ignore : BitVec 64) : (empty ignore).Tracked :=
  ⟨masked_empty ignore, by simp [empty], by simp [empty], by simp [empty]⟩

theorem Tracked.addEncoding (h : g.Tracked) (enc : InstructionEncoding) :
    (g.addEncoding enc).Tracked := by
  refine ⟨g.masked_addEncoding enc, ?_, fun e he => ?_, fun e he => ?_⟩
  · rw [and_not_eq_zero_iff]
    intro i hi
    rw [GroupData.addEncoding, BitVec.getLsbD_and, BitVec.getLsbD_and] at hi
    exact (Bool.and_eq_true_iff.mp (Bool.and_eq_true_iff.mp hi).1).1
  · rw [and_not_eq_zero_iff]
    intro i hi
    simp only [GroupData.addEncoding, BitVec.getLsbD_and, Bool.and_eq_true] at hi
    by_cases hnil : g.encodings = []
    · obtain rfl : e = enc := by simpa [GroupData.addEncoding, hnil] using he
      exact hi.1.2
    · rw [if_neg hnil] at hi
      rcases List.mem_append.mp he with he | he
      · exact and_not_eq_zero_iff.mp (h.mask e he) i hi.1.1
      · obtain rfl := List.mem_singleton.mp he
        exact hi.1.2
  · rcases List.mem_append.mp he with he | he
    · have hvalue := h.value e he
      simp only [GroupData.addEncoding, if_neg (List.ne_nil_of_mem he), BitVec.not_or]
      rw [← BitVec.and_assoc, hvalue]
      apply BitVec.eq_of_getLsbD_eq
      intro i hi
      simp only [BitVec.getLsbD_and, BitVec.getLsbD_not, BitVec.getLsbD_xor, hi, decide_true]
      cases g.lastValue.getLsbD i <;> cases enc.value.getLsbD i <;> simp
    · obtain rfl := List.mem_singleton.mp he
      rfl

theorem tracked_foldl (h : g.Tracked) (encs : List InstructionEncoding) :
    (encs.foldl GroupData.addEncoding g).Tracked :=
  List.foldlRecOn encs GroupData.addEncoding h fun _ hg enc _ => hg.addEncoding enc

theorem Tracked.followed (h : g.Tracked) : g.Followed := by
  refine fun enc henc => ⟨h.mask enc henc, fun word hfits => ?_⟩
  have hmask := and_eq_of_inside (h.mask enc henc) hfits
  exact (and_eq_of_inside h.masked.constant hmask).trans
    (and_eq_of_inside h.constant (h.value enc henc))

theorem Followed.adjustMask (h : g.Followed) (parentMask : BitVec 64) :
    (g.adjustMask parentMask).Followed := by
  intro enc henc
  obtain ⟨hmask, hconstant⟩ := h enc ((g.adjustMask_perm parentMask).subset henc)
  refine ⟨?_, fun word hfits => ?_⟩
  · show (g.mask &&& ~~~parentMask) &&& ~~~enc.mask = 0
    rw [BitVec.and_assoc, BitVec.and_comm (~~~parentMask), ← BitVec.and_assoc, hmask]
    exact BitVec.zero_and
  · show word &&& (g.constant &&& ~~~parentMask) = g.lastValue &&& (g.constant &&& ~~~parentMask)
    rw [← BitVec.and_assoc, hconstant word hfits, BitVec.and_assoc]

theorem followed_part (g : GroupData) (i : Nat) : (g.part i).Followed :=
  (tracked_foldl (tracked_empty _) _).followed.adjustMask _

end GroupData

theorem tracked_undividedGroups (encodings : List InstructionEncoding) :
    ∀ g ∈ undividedGroups encodings, g.Tracked := by
  refine List.foldlRecOn (motive := fun groups => ∀ g ∈ groups, GroupData.Tracked g)
    _ _ (by simp) fun groups hgroups enc _ => ?_
  induction groups with
  | nil => simpa [addToGroups] using (GroupData.tracked_empty 0).addEncoding enc
  | cons g rest ih =>
    obtain ⟨hg, hrest⟩ := List.forall_mem_cons.mp hgroups
    rw [addToGroups]
    split
    · exact List.forall_mem_cons.mpr ⟨hg.addEncoding enc, hrest⟩
    · exact List.forall_mem_cons.mpr ⟨hg, ih hrest⟩

/-! ### Trees -/

namespace EncodingGroup

variable {tree : EncodingGroup} {word : BitVec 64} {enc : InstructionEncoding}

theorem all_followed_addSubGroups {depth : Nat} {parentMask : BitVec 64} {g : GroupData}
    (h : addSubGroups depth parentMask g = some tree) (hg : g.Followed) :
    tree.All fun node => node.data.Followed := by
  induction depth generalizing parentMask g tree with
  | zero => cases h
  | succ depth ih =>
    obtain ⟨⟨simple, hdata⟩, hgroups⟩ := of_addSubGroups_succ h
    obtain ⟨data, groups⟩ := tree
    obtain rfl : data = _ := hdata
    refine .mk (hg.adjustMask parentMask) fun sub hsub => ?_
    obtain ⟨i, -, hkept⟩ := exists_of_forall₂ hgroups hsub
    have hpart := (g.node parentMask).followed_part i
    rw [keptGroup] at hkept
    split at hkept
    · obtain ⟨tree, htree, rfl⟩ := Option.map_eq_some_iff.mp hkept
      have hall := ih htree hpart
      unfold undoSubGroups
      split
      · exact .mk hall.self (by simp)
      · exact hall
    · obtain ⟨size, -, rfl⟩ := Option.map_eq_some_iff.mp hkept
      exact .mk hpart (by simp)

/-- The decoders hand the word to a leaf; each of them finds its constant bits in the word. -/
inductive Descends (word : BitVec 64) : EncodingGroup → EncodingGroup → Prop where
  | leaf {data : GroupData} (hpass : word &&& data.constant = data.firstValue &&& data.constant) :
    Descends word (.mk data []) (.mk data [])
  | table {data : GroupData} {groups : List EncodingGroup} {sub leaf : EncodingGroup}
    (hpass : word &&& data.constant = data.firstValue &&& data.constant) (hsub : sub ∈ groups)
    (hindex : sub.valueIn data = (extractValue word data.discriminatorRecipe).toNat)
    (hrest : Descends word sub leaf) : Descends word (.mk data groups) leaf

theorem constant_eq_first (h : tree.data.Followed) (henc : enc ∈ tree.data.encodings) :
    enc.value &&& tree.data.constant = tree.data.firstValue &&& tree.data.constant := by
  obtain ⟨first, hmem, hfirst⟩ := firstValue_mem (List.ne_nil_of_mem henc)
  rw [hfirst]
  exact ((h enc henc).2 enc.value rfl).trans ((h first hmem).2 first.value rfl).symm

theorem mem_subgroup_iff {sub : EncodingGroup} (hsound : SoundNode tree) (hsub : sub ∈ tree.groups)
    (hne : sub.data.encodings ≠ []) : enc ∈ sub.data.encodings ↔
      enc ∈ tree.data.encodings ∧ tree.data.indexOf enc = sub.valueIn tree.data := by
  obtain ⟨_, -, -, hforall⟩ := hsound.split (List.ne_nil_of_mem hsub)
  obtain ⟨i, -, hperm⟩ := exists_of_forall₂ hforall hsub
  have hmem : ∀ e, e ∈ sub.data.encodings ↔ e ∈ tree.data.encodings ∧ tree.data.indexOf e = i := by
    intro e
    rw [hperm.mem_iff, List.mem_filter, decide_eq_true_iff]
  obtain ⟨first, hfirst, hvalue⟩ := firstValue_mem hne
  rw [hmem, valueIn, hvalue, ← ((hmem first).mp hfirst).2]

theorem exists_descends (hsound : tree.All SoundNode) (hdivided : tree.All Divided)
    (hfollowed : tree.All fun node => node.data.Followed) (henc : enc ∈ tree.data.encodings)
    (hfits : enc.Fits word) : ∃ leaf, tree.Descends word leaf ∧ enc ∈ leaf.data.encodings ∧
      ∀ leaf', tree.Descends word leaf' → leaf' = leaf := by
  induction hfollowed with
  | @mk data groups self _ ih =>
    obtain ⟨hinside, hconstant⟩ := self enc henc
    have hmask := and_eq_of_inside hinside hfits
    have hpass : word &&& data.constant = data.firstValue &&& data.constant :=
      ((hconstant word hfits).trans (hconstant enc.value rfl).symm).trans
        (constant_eq_first self henc)
    by_cases hne : groups = []
    · subst hne
      refine ⟨_, .leaf hpass, henc, fun leaf' h => ?_⟩
      cases h with
      | leaf => rfl
      | table _ hsub => cases hsub
    · obtain ⟨hnode, hsubs⟩ := all_mk.mp hdivided
      have hnonempty : ∀ g ∈ groups, g.data.encodings ≠ [] := fun g hg =>
        (hsubs g hg).self.1.nonempty
      -- The subgroup of the encoding, which has the index of the word.
      obtain ⟨indices, -, hmem, hforall⟩ := hsound.self.split hne
      obtain ⟨sub, hsub, hperm⟩ := exists_of_forall₂ hforall.flip (hmem enc henc)
      have henc' : enc ∈ sub.data.encodings :=
        hperm.symm.subset (List.mem_filter.mpr ⟨henc, decide_eq_true rfl⟩)
      have hsame := ((mem_subgroup_iff hsound.self hsub (hnonempty sub hsub)).mp henc').2
      have hindex : sub.valueIn data = (extractValue word data.discriminatorRecipe).toNat := by
        refine hsame.symm.trans (congrArg BitVec.toNat ((extractValue_eq_iff _ _ _).mpr ?_))
        rw [hnode.1.discriminator, ← BitVec.and_assoc, ← BitVec.and_assoc, hmask]
      obtain ⟨leaf, hdescends, hleaf, hunique⟩ :=
        ih sub hsub ((all_mk.mp hsound).2 sub hsub) (hsubs sub hsub) henc'
      refine ⟨leaf, .table hpass hsub hindex hdescends, hleaf, fun leaf' h => ?_⟩
      cases h with
      | leaf => exact absurd rfl hne
      | table _ hsub' hindex' hrest =>
        have hnodup := (hnode.subIndices_sublist hnonempty).nodup List.nodup_range
        obtain rfl := List.inj_on_of_nodup_map hnodup hsub' hsub (hindex'.trans hindex.symm)
        exact hunique leaf' hrest

/-- The bits that a leaf ignores are those of its encodings: they have been tested on the way. -/
theorem Descends.ignore {leaf : EncodingGroup} {tested : BitVec 64} (h : tree.Descends word leaf)
    (hsound : tree.All SoundNode) (hdivided : tree.All Divided)
    (hfollowed : tree.All fun node => node.data.Followed) (hpath : PathTested tested tree)
    (htested : ∀ enc ∈ tree.data.encodings, word &&& tested = enc.value &&& tested)
    (henc : enc ∈ leaf.data.encodings) :
    enc ∈ tree.data.encodings ∧ word &&& leaf.data.ignore = enc.value &&& leaf.data.ignore := by
  induction h generalizing tested with
  | @leaf data hpass =>
    cases hpath with
    | mk hignore _ => exact ⟨henc, and_eq_of_inside hignore (htested enc henc)⟩
  | @table data groups sub leaf hpass hsub hindex hrest ih =>
    obtain ⟨hnode, hsubs⟩ := all_mk.mp hdivided
    cases hpath with
    | mk hignore hbelow =>
      have hmem := fun e => @mem_subgroup_iff (mk data groups) e sub hsound.self hsub
        (hsubs sub hsub).self.1.nonempty
      refine (ih ((all_mk.mp hsound).2 sub hsub) (hsubs sub hsub) ((all_mk.mp hfollowed).2 sub hsub)
        (hbelow sub hsub) (fun e he => ?_) henc).imp_left fun h => ((hmem enc).mp h).1
      obtain ⟨he', hvalue⟩ := (hmem e).mp he
      have hconstant : word &&& data.constant = e.value &&& data.constant :=
        hpass.trans (constant_eq_first hfollowed.self he').symm
      have hdiscriminator : e.value &&& data.discriminator = word &&& data.discriminator :=
        (extractValue_eq_iff _ _ _).mp (BitVec.eq_of_toNat_eq (hvalue.trans hindex))
      simp only [BitVec.and_or_distrib_left, htested e he', hconstant, ← hdiscriminator]

theorem Divided.discriminator_lt {bound : Nat} (hdivided : tree.Divided)
    (hfollowed : tree.data.Followed) (henc : enc ∈ tree.data.encodings)
    (hmask : enc.mask.toNat < bound) : tree.data.discriminator.toNat < bound := by
  have hinside := (and_eq_of_inside (hfollowed enc henc).1 (x := BitVec.allOnes 64)
    (y := enc.mask) (by rw [BitVec.allOnes_and, BitVec.and_self])).symm
  rw [BitVec.allOnes_and] at hinside
  rw [hdivided.1.discriminator, ← hinside, BitVec.toNat_and, BitVec.toNat_and]
  exact lt_of_le_of_lt (Nat.and_le_left.trans Nat.and_le_left) hmask

end EncodingGroup

/-! ### The emitted functions -/

/-- The variables of a decode function that is called. -/
def entryVars (groupWidth : Nat) (word : BitVec 64) : Variables :=
  Variables.set (fun _ => none) "inst_word"
    ⟨uintType groupWidth, some (.of (uintType groupWidth) word.toNat)⟩

/-- Decode functions call each other through the tables, down to one that reads no table. -/
inductive Decodes (code : DecoderCode) (groupWidth : Nat) (word : BitVec 64) :
    DecodeFunction → DecodeFunction → Prop where
  | last {f : DecodeFunction} (hlast : ∀ table, .retTable table ∉ f.body) :
    Decodes code groupWidth word f f
  | call {f g last : DecodeFunction} {lines : List Line} {t : DecodeTable} {state : RunState}
    {index : Val} (hbody : f.body = lines ++ [.retTable t.name]) (ht : t ∈ code.initializers)
    (hrun : runLines ⟨entryVars groupWidth word, [], false⟩ lines = some (.goesOn state))
    (hindex : state.vars.env "index" = some index)
    (hentry : t.entries[index.val.toNat]? = some g.name) (hg : g ∈ code.functions)
    (hrest : Decodes code groupWidth word g last) : Decodes code groupWidth word f last

variable {groupWidth : Nat} {word : BitVec 64}

theorem wrap_uintType {n : Nat} (h : n < 2 ^ (uintType groupWidth).width) :
    (uintType groupWidth).wrap n = n := by
  refine IntTy.wrap_of_nonneg (Int.natCast_nonneg n) ?_
  rw [IntTy.upper_eq]
  exact_mod_cast h

theorem run_constantTest {g : GroupData} (hword : word.toNat < 2 ^ (uintType groupWidth).width)
    (hpass : word &&& g.constant = g.firstValue &&& g.constant) (rest : List Line) :
    runLines ⟨entryVars groupWidth word, [], false⟩ (g.constantTest ++ rest) =
      runLines ⟨entryVars groupWidth word, [], false⟩ rest := by
  unfold GroupData.constantTest
  split
  · rfl
  · have hvar : Expr.Yields (entryVars groupWidth word).env (.var "inst_word") word.toNat 32 := by
      refine ⟨_, Variables.env_set_self _ _ _, wrap_uintType hword, by omega, ?_⟩
      rw [Val.of_ty, IntTy.promote_width]
      omega
    obtain ⟨v, hv, hv', hv0, -⟩ := hvar.and (Expr.yields_hex _ g.constant.isLt)
    obtain ⟨c, hc, hc', hc0, -⟩ := Expr.yields_hex (entryVars groupWidth word).env
      (g.firstValue &&& g.constant).isLt
    have heq : v.val = c.val := by
      rw [hv', hc', ← hpass]
      rfl
    have hcond := Comparison.eval_of_nonneg (c := ⟨_, .kNe, _⟩) hv hc (hv' ▸ hv0) (hc' ▸ hc0)
    rw [List.cons_append, runLines_cons, run_active (by simp), Line.runActive, evalConditions,
      List.map_singleton, hcond, heq]
    simp only [ConstraintType.holds, ne_eq, not_true_eq_false, decide_false, allHold,
      Option.bind_some, Bool.false_eq_true, if_false, Option.map_some, Bool.not_false]
    exact runLines_cons_of rfl rest

theorem popcount64_le {x : BitVec 64} {n : Nat} (h : x.toNat < 2 ^ n) : popcount64 x ≤ n := by
  rw [popcount64, cpop_eq_card]
  refine (Finset.card_le_card fun i hi => ?_).trans_eq (Finset.card_range n)
  have hbit := (Finset.mem_filter.mp hi).2
  rw [Finset.mem_range]
  by_contra hge
  have hlt := h.trans_le (Nat.pow_le_pow_right two_pos (not_lt.mp hge))
  rw [← BitVec.testBit_toNat, Nat.testBit_lt_two_pow hlt] at hbit
  cases hbit

theorem run_indexExtraction {g : GroupData} (hword : word.toNat < 2 ^ (uintType groupWidth).width)
    (hdiscriminator : g.discriminator.toNat < 2 ^ (uintType groupWidth).width)
    (hindexed : g.discriminatorRecipe ≠ []) :
    ∃ vars : Variables, runLines ⟨entryVars groupWidth word, [], false⟩
        (g.indexExtraction groupWidth) = some (.goesOn ⟨vars, [], false⟩) ∧
      ∃ index, vars.env "index" = some index ∧
        index.val.toNat = (extractValue word g.discriminatorRecipe).toNat := by
  have hne : g.discriminator ≠ 0 := by
    intro hzero
    refine hindexed ?_
    rw [GroupData.discriminatorRecipe, hzero]
    decide
  rw [GroupData.indexExtraction, if_neg hindexed, runLines_cons_of (run_active (by simp) _)]
  refine ⟨_, run_writeExtraction rfl hne hdiscriminator hword (by decide)
    (Variables.env_set_self _ _ _), _, Variables.env_set_self _ _ _, ?_⟩
  -- The index has no more bits than the discriminator, and so fits into its variable.
  have hlt := (extractValue_lt g.discriminator word).trans_le
    (Nat.pow_le_pow_right two_pos (popcount64_le hdiscriminator))
  rw [Val.of_val, wrap_uintType hlt, Int.toNat_natCast]

namespace EncodingGroup

variable {code : DecoderCode} {tree node built leaf' : EncodingGroup} {path : List Nat}
  {groupName name : String}

/-- The functions of a tree take the word to that of its leaf, by the tables of the tree. -/
theorem Descends.decodes (h : built.Descends word leaf') (hall : tree.All Tabled)
    (htables : ∀ t ∈ tree.emitInitializers groupName name, t ∈ code.initializers)
    (hfunctions : ∀ f ∈ tree.emitDecoders groupWidth name, f ∈ code.functions)
    (hword : word.toNat < 2 ^ (uintType groupWidth).width)
    (hnode : tree.At path node) (hstrip : node.strip = built) (hdivided : built.All Divided)
    (hfollowed : built.All fun node => node.data.Followed)
    (hmask : ∀ enc ∈ built.data.encodings, enc.mask.toNat < 2 ^ (uintType groupWidth).width) :
    ∃ path' leaf, tree.At path' leaf ∧ leaf.strip = leaf' ∧ leaf.groups = [] ∧
      Decodes code groupWidth word (node.decoder groupWidth (pathName name path))
        (leaf.decoder groupWidth (pathName name path')) := by
  induction h generalizing node path with
  | leaf =>
    obtain ⟨data, groups⟩ := node
    have hgroups : groups = [] := by
      rw [stripped] at hstrip
      exact List.map_eq_nil_iff.mp (mk.inj hstrip).2
    refine ⟨path, _, hnode, hstrip, hgroups, .last fun table htable => ?_⟩
    exact (table_of_mem_decoder (hnode.all hall).regular.complex htable).1 hgroups
  | table hpass hsub hindex _ ih =>
    obtain ⟨data, groups⟩ := node
    have hstrip' := hstrip
    rw [stripped] at hstrip'
    obtain ⟨rfl, rfl⟩ := mk.inj hstrip'
    obtain ⟨sub, hsub', rfl⟩ := List.mem_map.mp hsub
    obtain ⟨hnodeDivided, hsubs⟩ := all_mk.mp hdivided
    have htabled : (mk data groups).Tabled := hnode.all hall
    have hne : groups ≠ [] := List.ne_nil_of_mem hsub'
    obtain ⟨path', leaf, hleaf, hstripLeaf, hgroups, hdecodes⟩ :=
      ih (hnode.subgroup hsub') rfl (hsubs _ hsub) ((all_mk.mp hfollowed).2 _ hsub)
        fun enc henc => hmask enc (hnodeDivided.mem_of_mem hsub henc)
    -- The function of the group reads the entry for the index.
    obtain ⟨enc, henc⟩ := List.exists_mem_of_ne_nil _ hnodeDivided.1.nonempty
    obtain ⟨vars, hrun, index, hvars, hvalue⟩ := run_indexExtraction (g := data) hword
      (hnodeDivided.discriminator_lt hfollowed.self henc (hmask enc henc))
      (htabled.regular.indexed hne)
    have hsame : index.val.toNat = sub.valueIn data := by
      rw [hvalue, valueIn, ← strip_firstValue]
      exact hindex.symm
    have hlt : sub.valueIn data < data.discriminatorSize := by
      have hsize : data.discriminatorSize = _ := htabled.sized hne
      rw [← hsame, hvalue, hsize]
      exact extractValue_lt _ _
    have hfirst := strip_firstValue (mk data groups)
    rw [stripped] at hfirst
    obtain ⟨hmem, hentry⟩ := (hnode.entriesTotal hall groupWidth groupName name).decoder _ hlt sub
      (htabled.hasSubGroup_iff.mpr ⟨hsub', rfl⟩)
    have hbody : ((mk data groups).decoder groupWidth (pathName name path)).body =
        data.constantTest ++ data.indexExtraction groupWidth ++ [.retTable (pathName name path)] :=
      if_neg fun hnil => hne (List.isEmpty_iff.mp hnil)
    have hstart := run_constantTest (g := data) hword
      (hpass.trans (congrArg (· &&& data.constant) hfirst)) (data.indexExtraction groupWidth)
    refine ⟨path', leaf, hleaf, hstripLeaf, hgroups, .call hbody
      (htables _ (hnode.table_mem hall hne groupName name)) (hstart.trans hrun) hvars ?_
      (hfunctions _ hmem) hdecodes⟩
    rw [hsame]
    exact (hentry _ hmem).mpr rfl

end EncodingGroup

/-- What the trees that are built for encodings have. -/
structure BuiltTree (tree : EncodingGroup) : Prop where
  sound : tree.All SoundNode
  divided : tree.All EncodingGroup.Divided
  followed : tree.All fun node => node.data.Followed
  tested : PathTested 0 tree

variable {encodings : List InstructionEncoding} {groups : List EncodingGroup}
  {enc : InstructionEncoding}

theorem builtTree_of_mem (h : processEncodings encodings = some groups) {tree : EncodingGroup}
    (htree : tree ∈ groups) : BuiltTree tree := by
  obtain ⟨g, hg, hbuilt⟩ := exists_of_mapM_eq_some h htree
  obtain ⟨hmasked, hignore⟩ := masked_undividedGroups encodings g hg
  have hbuild := soundlyBuilt_addSubGroups hbuilt hmasked
  exact ⟨hbuild.sound, (processEncodings_spec h htree).1, EncodingGroup.all_followed_addSubGroups
    hbuilt (tracked_undividedGroups encodings g hg).followed, hbuild.tested 0 (by simp [hignore])⟩

/-- A word fits the encodings in its leaf whose bits it has outside the bits that are ignored. -/
theorem EncodingGroup.Descends.fits_iff {tree leaf : EncodingGroup} (h : tree.Descends word leaf)
    (hbuilt : BuiltTree tree) (henc : enc ∈ tree.data.encodings) :
    enc.Fits word ↔ enc ∈ leaf.data.encodings ∧ word &&& (enc.mask &&& ~~~leaf.data.ignore) =
      enc.value &&& (enc.mask &&& ~~~leaf.data.ignore) := by
  obtain ⟨hsound, hdivided, hfollowed, htested⟩ := hbuilt
  constructor
  · intro hfits
    obtain ⟨leaf', -, hleaf, hunique⟩ := exists_descends hsound hdivided hfollowed henc hfits
    obtain rfl := hunique leaf h
    rw [← BitVec.and_assoc, ← BitVec.and_assoc, show _ = _ from hfits]
    exact ⟨hleaf, rfl⟩
  · rintro ⟨hleaf, hrest⟩
    obtain ⟨-, hignore⟩ := h.ignore hsound hdivided hfollowed htested (by simp) hleaf
    have hsplit : (enc.mask &&& ~~~leaf.data.ignore) ||| (leaf.data.ignore &&& enc.mask) =
        enc.mask := by
      apply BitVec.eq_of_getLsbD_eq
      intro i hi
      simp only [BitVec.getLsbD_or, BitVec.getLsbD_and, BitVec.getLsbD_not, hi, decide_true,
        Bool.true_and]
      cases leaf.data.ignore.getLsbD i <;> simp
    unfold InstructionEncoding.Fits
    rw [← hsplit, BitVec.and_or_distrib_left, BitVec.and_or_distrib_left, hrest,
      ← BitVec.and_assoc word, hignore, BitVec.and_assoc]

/-- **Decoder descent.** Take the trees that are built for any encodings, and attach any
    specializations to the encodings.  If a word fits an encoding, then the emitted functions of one
    tree call each other through the tables up to that of a leaf which has the encoding.  Of all
    encodings of the tree, the word fits exactly those in the leaf whose bits it has outside the
    bits that the leaf ignores. -/
theorem decodes_of_fits (h : processEncodings encodings = some (groups.map (·.strip)))
    (name : String) (hwidth : ∀ enc ∈ encodings, enc.mask.toNat < 2 ^ (uintType groupWidth).width)
    (hword : word.toNat < 2 ^ (uintType groupWidth).width) (henc : enc ∈ encodings)
    (hfits : enc.Fits word) :
    ∃ tree ∈ groups, ∃ i < groups.length, ∃ path leaf, tree.At path leaf ∧ leaf.groups = [] ∧
      tree.decoder groupWidth (subName name i) ∈
        (emitDecoderCode name groupWidth groups).functions ∧
      Decodes (emitDecoderCode name groupWidth groups) groupWidth word
        (tree.decoder groupWidth (subName name i))
        (leaf.decoder groupWidth (pathName (subName name i) path)) ∧
      enc ∈ leaf.strip.data.encodings ∧ ∀ other ∈ tree.strip.data.encodings,
        other.Fits word ↔ other ∈ leaf.strip.data.encodings ∧
          word &&& (other.mask &&& ~~~leaf.data.ignore) =
            other.value &&& (other.mask &&& ~~~leaf.data.ignore) := by
  -- The tree of the encoding, and its place in the code.
  obtain ⟨-, hperm⟩ := foldl_addToGroups (encodings.insertionSort fun a b => a.mask ≤ b.mask) []
    (by simp)
  rw [List.flatMap_nil, List.append_nil] at hperm
  have hin := (hperm.trans (List.perm_insertionSort _ _)).symm.subset henc
  obtain ⟨g, hg, hin⟩ := List.mem_flatMap.mp hin
  obtain ⟨built, hstrip, hbuilt⟩ := exists_of_forall₂ (forall₂_of_mapM_eq_some h).flip hg
  obtain ⟨tree, htree, rfl⟩ := List.mem_map.mp hstrip
  have hmem := (soundlyBuilt_addSubGroups hbuilt (masked_undividedGroups encodings g hg).1).perm
  obtain ⟨hsound, hdivided, hfollowed, htested⟩ := builtTree_of_mem h hstrip
  have hsorted := List.perm_insertionSort (fun a b => ¬ instructionGroupLess b a) groups
  obtain ⟨i, hi⟩ := List.mem_iff_getElem?.mp (hsorted.symm.subset htree)
  have hplace : (tree, i) ∈ List.zipIdx _ := List.mem_zipIdx_iff_getElem?.mpr hi
  have hcode : emitDecoderCode name groupWidth groups = emitSortedGroups name groupWidth _ :=
    if_neg (List.ne_nil_of_mem htree)
  have htables : ∀ t ∈ tree.emitInitializers name (subName name i),
      t ∈ (emitDecoderCode name groupWidth groups).initializers := by
    intro t ht
    rw [hcode]
    exact List.mem_flatMap.mpr ⟨_, hplace, ht⟩
  have hfunctions : ∀ f ∈ tree.emitDecoders groupWidth (subName name i),
      f ∈ (emitDecoderCode name groupWidth groups).functions := by
    intro f hf
    rw [hcode]
    exact List.mem_cons_of_mem _ (List.mem_append_left _ (List.mem_flatMap.mpr ⟨_, hplace, hf⟩))
  -- The way of the word in the tree, and in the code.
  obtain ⟨leaf', hdescends, hleaf', hunique⟩ :=
    EncodingGroup.exists_descends hsound hdivided hfollowed (hmem.symm.subset hin) hfits
  obtain ⟨path, leaf, hleaf, rfl, hgroups, hdecodes⟩ := hdescends.decodes
    (EncodingGroup.tabled_of_strip hdivided (all_sized_addSubGroups hbuilt)) htables hfunctions
    hword .here rfl hdivided hfollowed fun enc henc =>
      hwidth enc ((processEncodings_spec h hstrip).2 enc henc)
  rw [EncodingGroup.pathName_nil] at hdecodes
  refine ⟨tree, htree, i, ?_, path, leaf, hleaf, hgroups, hfunctions _ ?_, hdecodes, hleaf', ?_⟩
  · rw [← hsorted.length_eq]
    exact (List.getElem?_eq_some_iff.mp hi).1
  · rw [EncodingGroup.emitDecoders_eq]
    exact List.mem_cons_self
  · intro other hother
    have hignore : leaf.strip.data.ignore = leaf.data.ignore := by
      obtain ⟨data, groups⟩ := leaf
      rw [EncodingGroup.stripped]
      rfl
    rw [← hignore]
    exact hdescends.fits_iff ⟨hsound, hdivided, hfollowed, htested⟩ hother

/-- The word of an instruction that is told apart from another one by its function code. -/
theorem decodes_of_fits_func :
    let groups := (processEncodings (funcEncodings [("add", 1), ("sub", 2)])).getD []
    ∃ enc ∈ funcEncodings [("add", 1), ("sub", 2)], ∃ first last,
      Decodes (emitDecoderCode "alu" 8 groups) 8 enc.value first last := by
  intro groups
  have hne : funcEncodings [("add", 1), ("sub", 2)] ≠ [] := by
    rw [Ne, ← List.isEmpty_iff]
    decide +kernel
  have hall : (funcEncodings [("add", 1), ("sub", 2)]).all (fun enc => enc.mask.toNat <
      2 ^ (uintType 8).width ∧ enc.value.toNat < 2 ^ (uintType 8).width) = true := by decide +kernel
  have hbound := fun enc henc => of_decide_eq_true (List.all_eq_true.mp hall enc henc)
  obtain ⟨tree, -, i, -, path, leaf, -, -, -, hdecodes, -⟩ := decodes_of_fits
    (show processEncodings (funcEncodings [("add", 1), ("sub", 2)]) =
      some (groups.map (·.strip)) from rfl) "alu" (fun enc henc => (hbound enc henc).1)
    (hbound _ (List.head_mem hne)).2 (List.head_mem hne) rfl
  exact ⟨_, List.head_mem hne, _, _, hdecodes⟩

end MpactSim.Decoder
