import MpactSim.Isa.Declarations

namespace MpactSim.Isa

open Decoder (Name)
open Lib

/-!
# Visits of slots

A visit puts a slot into the map after the slots it names as bases.

* `slotsVisited_visitSlotDeclaration` — what a visit does that ends;
* `exists_visitSlotDeclaration`       — it ends if no slot inherits from itself.
-/

variable {decls : Declarations} {order : List Name → List Name}

/-! ### Base lists -/

/-- The base slots of all slots are named in their declarations. -/
structure BaseLists (decls : Declarations) (set : InstructionSet) : Prop where
  predecessors : ∀ slot base, base ∈ (set.slots slot).predecessorSet ↔ base ∈ set.slotBases slot
  declared : ∀ slot, ∀ base ∈ set.slotBases slot, base ∈ decls.slotBases slot

variable {slot : Name} {decl : SlotDecl} {depth : Nat} {set set' : InstructionSet}

theorem mem_slotBases_iff {base : Name} (hdecl : decls.slotDecl slot = some decl) :
    base ∈ decls.slotBases slot ↔ (∃ item ∈ decl.baseItems, item.name = base) ∧
      (decls.slotDecl base).isSome := by
  unfold Declarations.slotBases
  rw [hdecl]
  exact List.mem_filter.trans (and_congr_left fun _ => List.mem_map)

theorem mem_keys_of_mem_slotBases {base : Name} (h : base ∈ decls.slotBases slot) :
    base ∈ decls.slotDeclMap.map Prod.fst := by
  unfold Declarations.slotBases at h
  split at h
  · cases h
  · obtain ⟨decl, hdecl⟩ := Option.isSome_iff_exists.mp (List.mem_filter.mp h).2
    obtain ⟨entry, hentry, -⟩ := Option.map_eq_some_iff.mp hdecl
    have hname : entry.1 = base := by simpa using List.find?_some hentry
    exact List.mem_map.mpr ⟨entry, List.mem_of_find?_eq_some hentry, hname⟩

/-- A base is added without an error, or there is an error and nothing is added. -/
theorem addBaseItem_eq_some {item : BaseItem}
    (h : addBaseItem order depth slot item decl set = some set') :
    (∃ errors, errors ≠ [] ∧ set' = set.report errors) ∨
      ∃ arguments, set' = { set with slots := withBase set.slots slot item.name arguments } := by
  have hadd : ∀ arguments, set.addBase order depth slot item.name arguments = some set' →
      (∃ errors, errors ≠ [] ∧ set' = set.report errors) ∨
        ∃ arguments,
          set' = { set with slots := withBase set.slots slot item.name arguments } := by
    intro arguments h
    unfold InstructionSet.addBase Isa.addBase at h
    split at h
    · cases h
    · rename_i hresult
      split at hresult
      · cases hresult
      · cases hresult
      · cases hresult
        exact .inr ⟨arguments, (Option.some.inj h).symm⟩
    · rename_i message slots hresult
      split at hresult
      · cases hresult
      · cases hresult
        exact .inl ⟨[message], List.cons_ne_nil _ _, (Option.some.inj h).symm⟩
      · cases hresult
  unfold addBaseItem at h
  split at h
  · exact .inl ⟨_, List.cons_ne_nil _ _, (Option.some.inj h).symm⟩
  · exact .inl ⟨_, List.cons_ne_nil _ _, (Option.some.inj h).symm⟩
  · split at h
    · exact .inl ⟨_, List.cons_ne_nil _ _, (Option.some.inj h).symm⟩
    · split at h
      · exact .inl ⟨_, List.cons_ne_nil _ _, (Option.some.inj h).symm⟩
      · exact hadd _ h
  · exact hadd _ h

/-! ### Visits -/

/-- What visits of some slots do: they change the slots that they put into the map, and no other
    field than these. -/
structure SlotsVisited (decls : Declarations) (roots : List Name) (set set' : InstructionSet) :
    Prop where
  searched : Searched decls.slotBases roots set.slotMap set'.slotMap
  baseLists : BaseLists decls set'
  unchanged : ∀ slot, slot ∈ set.slotMap ∨ slot ∉ set'.slotMap →
    set'.slots slot = set.slots slot
  recorded : set'.errors = [] → ∀ slot ∈ set'.slotMap, slot ∈ set.slotMap ∨
    ∀ base ∈ decls.slotBases slot, base ∈ set'.slotBases slot
  errors : set.errors <+: set'.errors
  frame : set' =
    { set with slotMap := set'.slotMap, slots := set'.slots, errors := set'.errors }

theorem SlotsVisited.of_mem {roots : List Name} (hmem : ∀ slot ∈ roots, slot ∈ set.slotMap)
    (hnodup : set.slotMap.Nodup) (htopological : Topological decls.slotBases set.slotMap)
    (h : BaseLists decls set) : SlotsVisited decls roots set set :=
  ⟨.of_mem hmem hnodup htopological, h, fun _ _ => rfl,
    fun _ _ h => .inl h, List.prefix_rfl, rfl⟩

theorem errors_eq_nil {errors errors' : List String} (h : errors <+: errors')
    (hnil : errors' = []) : errors = [] :=
  List.prefix_nil.mp (hnil ▸ h)

theorem slotBases_congr (h : set'.slots slot = set.slots slot) :
    set'.slotBases slot = set.slotBases slot := by
  unfold InstructionSet.slotBases bases
  rw [h]

/-- A slot is being visited: some of its base items have been processed. -/
structure SlotVisiting (decls : Declarations) (name : Name) (done : List BaseItem)
    (set cur : InstructionSet) : Prop where
  searched : Searched decls.slotBases ((done.map BaseItem.name).filter fun base =>
    (decls.slotDecl base).isSome) set.slotMap cur.slotMap
  baseLists : BaseLists decls cur
  new : name ∉ cur.slotMap
  unchanged : ∀ slot, slot ≠ name → slot ∈ set.slotMap ∨ slot ∉ cur.slotMap →
    cur.slots slot = set.slots slot
  recorded : cur.errors = [] → ∀ slot ∈ cur.slotMap, slot ∈ set.slotMap ∨
    ∀ base ∈ decls.slotBases slot, base ∈ cur.slotBases slot
  current : cur.errors = [] → ∀ item ∈ done, item.name ∈ cur.slotBases name
  errors : set.errors <+: cur.errors
  frame : cur =
    { set with slotMap := cur.slotMap, slots := cur.slots, errors := cur.errors }

section

variable {name : Name} {done : List BaseItem} {item : BaseItem} {set cur mid set' : InstructionSet}

theorem SlotVisiting.start (hnodup : set.slotMap.Nodup)
    (htopological : Topological decls.slotBases set.slotMap) (hbases : BaseLists decls set)
    (hnew : name ∉ set.slotMap) (errors : List String) :
    SlotVisiting decls name [] set ((set.newSlot name).report errors) := by
  have hslots : ∀ slot, slot ≠ name →
      ((set.newSlot name).report errors).slots slot = set.slots slot :=
    fun slot hne => Function.update_of_ne hne ..
  have hself : ((set.newSlot name).report errors).slots name = ⟨name, [], []⟩ :=
    Function.update_self ..
  have hnil : ((set.newSlot name).report errors).slotBases name = [] := by
    unfold InstructionSet.slotBases bases
    rw [hself]
    rfl
  refine ⟨.of_mem nofun hnodup htopological, ⟨fun slot base => ?_, fun slot base hbase => ?_⟩, hnew,
    fun slot hne _ => hslots slot hne, fun _ _ h => .inl h, fun _ => nofun,
    List.prefix_append _ _, rfl⟩
  · by_cases hslot : slot = name
    · subst hslot
      rw [hself, hnil]
    · rw [hslots slot hslot, slotBases_congr (hslots slot hslot)]
      exact hbases.predecessors slot base
  · by_cases hslot : slot = name
    · subst hslot
      rw [hnil] at hbase
      cases hbase
    · rw [slotBases_congr (hslots slot hslot)] at hbase
      exact hbases.declared slot base hbase

theorem SlotVisiting.undefined (h : SlotVisiting decls name done set cur)
    (hdecl : decls.slotDecl item.name = none) (message : String) :
    SlotVisiting decls name (done ++ [item]) set (cur.report [message]) := by
  have herrors : (cur.report [message]).errors ≠ [] :=
    List.append_ne_nil_of_right_ne_nil _ (List.cons_ne_nil _ _)
  refine ⟨?_, ⟨h.baseLists.predecessors, h.baseLists.declared⟩, h.new, h.unchanged,
    fun hnil => absurd hnil herrors, fun hnil => absurd hnil herrors,
    h.errors.trans (List.prefix_append _ _), ?_⟩
  · rw [List.map_append, List.filter_append, List.map_singleton, List.filter_singleton, hdecl]
    show Searched _ (_ ++ []) _ _
    rw [List.append_nil]
    exact h.searched
  · rw [h.frame]
    rfl

/-- A base item of a declared slot: the slot has been visited, and is added or not. -/
theorem SlotVisiting.step (h : SlotVisiting decls name done set cur)
    (hitem : item.name ∈ decls.slotBases name) {baseDecl : SlotDecl}
    (hdecl : decls.slotDecl item.name = some baseDecl)
    (hvisit : SlotsVisited decls [item.name] cur mid) {depth : Nat}
    (hadd : addBaseItem order depth name item baseDecl mid = some set') :
    SlotVisiting decls name (done ++ [item]) set set' := by
  have hroots : ((done ++ [item]).map BaseItem.name).filter (fun base =>
        (decls.slotDecl base).isSome) =
      ((done.map BaseItem.name).filter fun base => (decls.slotDecl base).isSome)
        ++ [item.name] := by
    rw [List.map_append, List.filter_append, List.map_singleton, List.filter_singleton, hdecl]
    rfl
  have hsearched := h.searched.append hvisit.searched
  rw [← hroots] at hsearched
  have hnew : name ∉ mid.slotMap := by
    intro hmem
    obtain ⟨base, hbase, hreaches⟩ := (hvisit.searched.reached name hmem).resolve_left h.new
    obtain rfl := List.mem_singleton.mp hbase
    exact hvisit.searched.topological.not_cycle hmem (.head' hitem hreaches)
  -- The slot itself is not changed by the visit of the base.
  have hname : mid.slots name = cur.slots name := hvisit.unchanged name (.inr hnew)
  have hunchanged : ∀ slot, slot ≠ name → slot ∈ set.slotMap ∨ slot ∉ mid.slotMap →
      mid.slots slot = set.slots slot := by
    intro slot hne hslot
    have hcur : slot ∈ cur.slotMap ∨ slot ∉ mid.slotMap :=
      hslot.imp (fun hold => h.searched.isPrefix.subset hold) id
    have hset : slot ∈ set.slotMap ∨ slot ∉ cur.slotMap :=
      hslot.imp id fun hnew hold => hnew (hvisit.searched.isPrefix.subset hold)
    rw [hvisit.unchanged slot hcur, h.unchanged slot hne hset]
  have hrecorded : mid.errors = [] → ∀ slot ∈ mid.slotMap, slot ∈ set.slotMap ∨
      ∀ base ∈ decls.slotBases slot, base ∈ mid.slotBases slot := by
    intro hnil slot hslot
    by_cases hcur : slot ∈ cur.slotMap
    · refine (h.recorded (errors_eq_nil hvisit.errors hnil) slot hcur).imp id ?_
      rw [slotBases_congr (hvisit.unchanged slot (.inl hcur))]
      exact id
    · exact .inr ((hvisit.recorded hnil slot hslot).resolve_left hcur)
  have herrors := h.errors.trans hvisit.errors
  have hframe : mid =
      { set with slotMap := mid.slotMap, slots := mid.slots, errors := mid.errors } := by
    rw [hvisit.frame, h.frame]
  rcases addBaseItem_eq_some hadd with ⟨errors, hne, rfl⟩ | ⟨arguments, rfl⟩
  · have hne' : (mid.report errors).errors ≠ [] := List.append_ne_nil_of_right_ne_nil _ hne
    refine ⟨hsearched, ⟨hvisit.baseLists.predecessors, hvisit.baseLists.declared⟩, hnew,
      hunchanged, fun hnil => absurd hnil hne', fun hnil => absurd hnil hne',
      herrors.trans (List.prefix_append _ _), ?_⟩
    rw [hframe]
    rfl
  · have hbases : InstructionSet.slotBases
          { mid with slots := withBase mid.slots name item.name arguments } =
        Function.update mid.slotBases name (mid.slotBases name ++ [item.name]) :=
      bases_withBase name item.name arguments
    have hother : ∀ slot, slot ≠ name → InstructionSet.slotBases
          { mid with slots := withBase mid.slots name item.name arguments } slot =
        mid.slotBases slot := by
      intro slot hne
      rw [hbases, Function.update_of_ne hne]
    refine ⟨hsearched, ⟨?_, fun slot base hbase => ?_⟩, hnew, fun slot hne hslot => ?_,
      fun hnil slot hslot => ?_, fun hnil done' hdone => ?_, herrors, ?_⟩
    · exact predecessors_withBase hvisit.baseLists.predecessors name item.name arguments
    · by_cases hslot : slot = name
      · subst hslot
        rw [hbases, Function.update_self] at hbase
        rcases List.mem_append.mp hbase with hbase | hbase
        · exact hvisit.baseLists.declared slot base hbase
        · exact List.mem_singleton.mp hbase ▸ hitem
      · rw [hother slot hslot] at hbase
        exact hvisit.baseLists.declared slot base hbase
    · exact (Function.update_of_ne hne ..).trans (hunchanged slot hne hslot)
    · have hne : slot ≠ name := by
        rintro rfl
        exact hnew hslot
      rw [hother slot hne]
      exact hrecorded hnil slot hslot
    · rw [hbases, Function.update_self, List.mem_append, List.mem_singleton]
      rcases List.mem_append.mp hdone with hdone | hdone
      · rw [slotBases_congr hname]
        exact .inl (h.current (errors_eq_nil hvisit.errors hnil) done' hdone)
      · exact .inr (congrArg BaseItem.name (List.mem_singleton.mp hdone))
    · rw [hframe]

theorem SlotVisiting.finish {decl : SlotDecl} (hdecl : decls.slotDecl name = some decl)
    (hnew : name ∉ set.slotMap) (h : SlotVisiting decls name decl.baseItems set cur)
    (errors : List String) :
    SlotsVisited decls [name] set ((cur.addSlot name).report errors) := by
  have hroots : (decl.baseItems.map BaseItem.name).filter (fun base =>
      (decls.slotDecl base).isSome) = decls.slotBases name := by
    unfold Declarations.slotBases
    rw [hdecl]
  have hsearched := h.searched
  rw [hroots] at hsearched
  refine ⟨hsearched.concat hnew, ⟨h.baseLists.predecessors, h.baseLists.declared⟩,
    fun slot hslot => ?_, fun hnil slot hslot => ?_, h.errors.trans (List.prefix_append _ _), ?_⟩
  · have hne : slot ≠ name := by
      rintro rfl
      exact hslot.elim hnew fun hnot => hnot (List.mem_append_right _ List.mem_cons_self)
    refine h.unchanged slot hne (hslot.imp id fun hnot hold => hnot ?_)
    exact List.mem_append_left _ hold
  · have hcurNil : cur.errors = [] := (List.append_eq_nil_iff.mp hnil).1
    rcases List.mem_append.mp hslot with hslot | hslot
    · exact h.recorded hcurNil slot hslot
    · obtain rfl := List.mem_singleton.mp hslot
      refine .inr fun base hbase => ?_
      obtain ⟨⟨item, hitem, rfl⟩, -⟩ := (mem_slotBases_iff hdecl).mp hbase
      exact h.current hcurNil item hitem
  · rw [h.frame]
    rfl

end

/-- **Visits of slots.** A visit that ends puts a slot into the map after its bases. -/
theorem slotsVisited_visitSlotDeclaration {name : Name} (hnodup : set.slotMap.Nodup)
    (htopological : Topological decls.slotBases set.slotMap) (hbases : BaseLists decls set)
    (hdecl : decls.slotDecl name = some decl) (hnew : name ∉ set.slotMap)
    (h : visitSlotDeclaration decls order depth name decl set = some set') :
    SlotsVisited decls [name] set set' := by
  induction depth generalizing name decl set set' with
  | zero => cases h
  | succ depth ih =>
    rw [visitSlotDeclaration] at h
    obtain ⟨cur, hcur, hlast⟩ := Option.bind_eq_some_iff.mp h
    obtain rfl := Option.some.inj hlast
    refine SlotVisiting.finish hdecl hnew ?_ _
    refine foldlM_done (fun done cur => SlotVisiting decls name done set cur) ?_ hcur
      (.start hnodup htopological hbases hnew _)
    intro done item hitem cur cur' hdone hstep
    unfold visitBaseItem at hstep
    cases hbase : decls.slotDecl item.name with
    | none =>
      rw [hbase] at hstep
      obtain rfl := Option.some.inj hstep
      exact hdone.undefined hbase _
    | some baseDecl =>
      rw [hbase] at hstep
      obtain ⟨mid, hmid, hadd⟩ := Option.bind_eq_some_iff.mp hstep
      refine hdone.step ((mem_slotBases_iff hdecl).mpr ⟨⟨item, hitem, rfl⟩, ?_⟩) hbase ?_ hadd
      · rw [hbase]
        rfl
      · split at hmid
        · rename_i hmem
          obtain rfl := Option.some.inj hmid
          exact .of_mem (List.forall_mem_singleton.mpr hmem) hdone.searched.nodup
            hdone.searched.topological hdone.baseLists
        · rename_i hmem
          exact ih hdone.searched.nodup hdone.searched.topological hdone.baseLists hbase hmem hmid

/-! ### Visits end -/

/-- The base slots of all slots have smaller ranks. -/
structure SlotsRanked (rank : Name → Nat) (set : InstructionSet) : Prop where
  predecessors : ∀ slot base, base ∈ (set.slots slot).predecessorSet ↔ base ∈ set.slotBases slot
  ranked : Ranked set.slotBases rank

section

variable {rank : Name → Nat} {set : InstructionSet} {slot : Name}

theorem SlotsRanked.newSlot (h : SlotsRanked rank set) (slot : Name) :
    SlotsRanked rank (set.newSlot slot) := by
  have hself : (set.newSlot slot).slots slot = ⟨slot, [], []⟩ := Function.update_self ..
  have hnil : (set.newSlot slot).slotBases slot = [] := by
    unfold InstructionSet.slotBases bases
    rw [hself]
    rfl
  have hother : ∀ other, other ≠ slot → (set.newSlot slot).slots other = set.slots other :=
    fun other hne => Function.update_of_ne hne ..
  refine ⟨fun other base => ?_, fun other base hbase => ?_⟩
  · by_cases hne : other = slot
    · subst hne
      rw [hself, hnil]
    · rw [hother other hne, slotBases_congr (hother other hne)]
      exact h.predecessors other base
  · by_cases hne : other = slot
    · subst hne
      rw [hnil] at hbase
      cases hbase
    · rw [slotBases_congr (hother other hne)] at hbase
      exact h.ranked other base hbase

theorem SlotsRanked.withBase (h : SlotsRanked rank set) {base : Name}
    (hlt : rank base < rank slot) (arguments : Option (List TemplateExpression)) :
    SlotsRanked rank { set with slots := withBase set.slots slot base arguments } := by
  refine ⟨predecessors_withBase h.predecessors slot base arguments, fun other pred hpred => ?_⟩
  have hbases : InstructionSet.slotBases
        { set with slots := Isa.withBase set.slots slot base arguments } =
      Function.update set.slotBases slot (set.slotBases slot ++ [base]) :=
    bases_withBase slot base arguments
  rw [hbases] at hpred
  by_cases hother : other = slot
  · subst hother
    rw [Function.update_self] at hpred
    rcases List.mem_append.mp hpred with hpred | hpred
    · exact h.ranked other pred hpred
    · exact List.mem_singleton.mp hpred ▸ hlt
  · rw [Function.update_of_ne hother] at hpred
    exact h.ranked other pred hpred

theorem exists_addBaseItem (horder : ∀ l, (order l).Perm l) (h : SlotsRanked rank set)
    {item : BaseItem} (hlt : rank item.name < rank slot) {depth : Nat}
    (hdepth : rank slot + rank item.name < depth) (decl : SlotDecl) :
    ∃ set', addBaseItem order depth slot item decl set = some set' ∧ SlotsRanked rank set' := by
  have hadd : ∀ arguments, ∃ set', set.addBase order depth slot item.name arguments = some set' := by
    intro arguments
    obtain ⟨status, slots', hresult⟩ :=
      exists_addBase h.predecessors h.ranked horder hdepth arguments
    unfold InstructionSet.addBase
    rw [hresult]
    cases status with
    | error message => exact ⟨_, rfl⟩
    | ok u => exact ⟨_, rfl⟩
  have hends : ∃ set', addBaseItem order depth slot item decl set = some set' := by
    unfold addBaseItem
    split
    · exact ⟨_, rfl⟩
    · exact ⟨_, rfl⟩
    · split
      · exact ⟨_, rfl⟩
      · split
        · exact ⟨_, rfl⟩
        · exact hadd _
    · exact hadd _
  obtain ⟨set', hset'⟩ := hends
  refine ⟨set', hset', ?_⟩
  rcases addBaseItem_eq_some hset' with ⟨errors, -, rfl⟩ | ⟨arguments, rfl⟩
  · exact ⟨h.predecessors, h.ranked⟩
  · exact h.withBase hlt arguments

end

/-- **Visits end.** A visit of a slot ends if its depth is not bounded by the rank of the slot. -/
theorem exists_visitSlotDeclaration (horder : ∀ l, (order l).Perm l) {referred : Name → Prop}
    {rank : Name → Nat} (hrank : RankedOn decls.slotBases referred rank) {name : Name}
    (hdecl : decls.slotDecl name = some decl) (hname : referred name)
    (hdepth : 2 * rank name < depth) (h : SlotsRanked rank set) :
    ∃ set', visitSlotDeclaration decls order depth name decl set = some set' ∧
      SlotsRanked rank set' := by
  induction depth generalizing name decl set with
  | zero => exact absurd hdepth (Nat.not_lt_zero _)
  | succ depth ih =>
    rw [visitSlotDeclaration]
    have hstart : SlotsRanked rank
        ((set.newSlot name).report (templateErrors [] (decl.templateDecl.getD []))) :=
      ⟨(h.newSlot name).predecessors, (h.newSlot name).ranked⟩
    have hstep : ∀ (_ : List BaseItem), ∀ item ∈ decl.baseItems, ∀ cur, SlotsRanked rank cur →
        ∃ cur', visitBaseItem decls order depth (visitSlotDeclaration decls order depth) name cur
          item = some cur' ∧ SlotsRanked rank cur' := by
      intro _ item hitem cur hranked
      unfold visitBaseItem
      cases hbase : decls.slotDecl item.name with
      | none => exact ⟨_, rfl, hranked.predecessors, hranked.ranked⟩
      | some baseDecl =>
        have hmem : item.name ∈ decls.slotBases name := by
          rw [mem_slotBases_iff hdecl, hbase]
          exact ⟨⟨item, hitem, rfl⟩, rfl⟩
        have hlt := hrank.lt name hname item.name hmem
        have hmid : ∃ mid, (if item.name ∈ cur.slotMap then some cur
            else visitSlotDeclaration decls order depth item.name baseDecl cur) = some mid ∧
            SlotsRanked rank mid := by
          split
          · exact ⟨cur, rfl, hranked⟩
          · exact ih hbase (hrank.closed name hname item.name hmem) (by omega) hranked
        obtain ⟨mid, hmid, hranked⟩ := hmid
        have hsum : rank name + rank item.name < depth := by omega
        obtain ⟨cur', hcur', hranked⟩ := exists_addBaseItem horder hranked hlt hsum baseDecl
        exact ⟨cur', by dsimp only; rw [hmid]; exact hcur', hranked⟩
    obtain ⟨cur, hcur, hranked⟩ := foldlM_exists (fun _ cur => SlotsRanked rank cur) hstep hstart
    exact ⟨(cur.addSlot name).report decl.contentErrors, by rw [hcur]; rfl,
      hranked.predecessors, hranked.ranked⟩

end MpactSim.Isa
