import MpactSim.Isa.BundleVisits

namespace MpactSim.Isa

open Decoder (Name)
open Lib

/-!
# Orders of slots and bundles

The references of the bundles are checked from the bundle of the instruction set on, and after
each bundle all slots and bundles are put in order.

* `SameVisits`            — the checks change nothing that has been visited;
* `OrdersInv`             — what holds of the orders at all times;
* `acc_of_checks`         — the checks end only if no bundle contains itself;
* `processingEnds_iff`    — when slots and bundles are processed as they ought to be.
-/

variable {decls : Declarations} {isa : IsaDecl} {order : List Name → List Name}

/-! ### What is not changed -/

/-- Only the orders, the references and the errors change. -/
structure SameVisits (set set' : InstructionSet) : Prop where
  errors : set.errors <+: set'.errors
  frame : set' = { set with
    referenced := set'.referenced, slotOrder := set'.slotOrder, bundleOrder := set'.bundleOrder,
    errors := set'.errors }

section

variable {set mid set' : InstructionSet} {depth : Nat} {key : Option Name}

theorem SameVisits.refl (set : InstructionSet) : SameVisits set set := ⟨List.prefix_rfl, rfl⟩

theorem SameVisits.trans (h : SameVisits set mid) (h' : SameVisits mid set') :
    SameVisits set set' :=
  ⟨h.errors.trans h'.errors, by rw [h'.frame, h.frame]⟩

theorem SameVisits.bundles (h : SameVisits set set') : set'.bundles = set.bundles := by
  rw [h.frame]

theorem SameVisits.bundleMap (h : SameVisits set set') : set'.bundleMap = set.bundleMap := by
  rw [h.frame]

theorem SameVisits.slots (h : SameVisits set set') : set'.slots = set.slots := by
  rw [h.frame]

theorem SameVisits.slotMap (h : SameVisits set set') : set'.slotMap = set.slotMap := by
  rw [h.frame]

theorem SameVisits.subBundles (h : SameVisits set set') : set'.subBundles = set.subBundles := by
  unfold InstructionSet.subBundles
  rw [h.bundles]

theorem SameVisits.slotBases (h : SameVisits set set') : set'.slotBases = set.slotBases := by
  unfold InstructionSet.slotBases
  rw [h.slots]

theorem sameVisits_checkSlotUse (decls : Declarations) (name : Name) (set : InstructionSet)
    (use : SlotSpec) :
    SameVisits set (checkSlotUse decls name set use) := by
  unfold checkSlotUse
  dsimp only
  split
  · exact ⟨List.prefix_append _ _, rfl⟩
  · split
    · exact ⟨List.prefix_append _ _, rfl⟩
    · exact ⟨(List.prefix_append _ _).trans (List.prefix_append _ _), rfl⟩

theorem orders_checkSlotUse (decls : Declarations) (name : Name) (set : InstructionSet)
    (use : SlotSpec) :
    (checkSlotUse decls name set use).slotOrder = set.slotOrder ∧
      (checkSlotUse decls name set use).bundleOrder = set.bundleOrder := by
  unfold checkSlotUse
  dsimp only
  split
  · exact ⟨rfl, rfl⟩
  · split
    · exact ⟨rfl, rfl⟩
    · exact ⟨rfl, rfl⟩

theorem sameVisits_checkSlotUses (decls : Declarations) (name : Name) (uses : List SlotSpec)
    (set : InstructionSet) :
    SameVisits set (uses.foldl (checkSlotUse decls name) set) ∧
      (uses.foldl (checkSlotUse decls name) set).slotOrder = set.slotOrder ∧
      (uses.foldl (checkSlotUse decls name) set).bundleOrder = set.bundleOrder := by
  induction uses generalizing set with
  | nil => exact ⟨.refl set, rfl, rfl⟩
  | cons use rest ih =>
    obtain ⟨hsame, hslots, hbundles⟩ := ih (checkSlotUse decls name set use)
    obtain ⟨hslotsUse, hbundlesUse⟩ := orders_checkSlotUse decls name set use
    exact ⟨(sameVisits_checkSlotUse decls name set use).trans hsame, hslots.trans hslotsUse,
      hbundles.trans hbundlesUse⟩

theorem sameVisits_computeSlotAndBundleOrders
    (h : computeSlotAndBundleOrders order depth set = some set') : SameVisits set set' := by
  obtain ⟨slotOrder, -, h⟩ := Option.bind_eq_some_iff.mp h
  obtain ⟨bundleOrder, -, h⟩ := Option.bind_eq_some_iff.mp h
  obtain rfl := Option.some.inj h
  exact ⟨List.prefix_rfl, rfl⟩

theorem performBundleReferenceChecks_eq_some
    (h : performBundleReferenceChecks decls isa order (depth + 1) key set = some set') :
    ∃ mid, (set.bundles key).bundleNames.foldlM (fun set name =>
        performBundleReferenceChecks decls isa order depth (some name) set) set = some mid ∧
      computeSlotAndBundleOrders order depth ((mid.bundles key).slotUses.foldl
        (checkSlotUse decls (key.getD isa.name)) mid) = some set' :=
  Option.bind_eq_some_iff.mp h

theorem sameVisits_performBundleReferenceChecks
    (h : performBundleReferenceChecks decls isa order depth key set = some set') :
    SameVisits set set' := by
  induction depth generalizing key set set' with
  | zero => cases h
  | succ depth ih =>
    obtain ⟨mid, hmid, hcompute⟩ := performBundleReferenceChecks_eq_some h
    have hbundles : SameVisits set mid :=
      foldlM_invariant (SameVisits set) (fun _ _ _ _ hsame hstep => hsame.trans (ih hstep)) hmid
        (.refl set)
    exact (hbundles.trans (sameVisits_checkSlotUses decls _ _ mid).1).trans
      (sameVisits_computeSlotAndBundleOrders hcompute)

/-! ### The orders -/

/-- The maps have the base slots of their slots and the bundles in their bundles. -/
structure ClosedMaps (set : InstructionSet) : Prop where
  slots : ∀ slot ∈ set.slotMap, ∀ base ∈ set.slotBases slot, base ∈ set.slotMap
  bundles : ∀ name ∈ set.bundleMap, ∀ sub ∈ set.subBundles name, sub ∈ set.bundleMap

/-- What always holds of the orders. -/
structure OrdersInv (set : InstructionSet) : Prop where
  slotsNodup : set.slotOrder.Nodup
  slotsTopological : Topological set.slotBases set.slotOrder
  slots : set.slotOrder ⊆ set.slotMap
  bundlesNodup : set.bundleOrder.Nodup
  bundlesTopological : Topological set.subBundles set.bundleOrder
  bundles : set.bundleOrder ⊆ set.bundleMap

theorem ClosedMaps.congr (h : ClosedMaps set) (hsame : SameVisits set set') : ClosedMaps set' := by
  refine ⟨?_, ?_⟩
  · rw [hsame.slotMap, hsame.slotBases]
    exact h.slots
  · rw [hsame.bundleMap, hsame.subBundles]
    exact h.bundles

theorem OrdersInv.congr (h : OrdersInv set) (hsame : SameVisits set set')
    (hslots : set'.slotOrder = set.slotOrder) (hbundles : set'.bundleOrder = set.bundleOrder) :
    OrdersInv set' := by
  refine ⟨?_, ?_, ?_, ?_, ?_, ?_⟩
  · rw [hslots]
    exact h.slotsNodup
  · rw [hslots, hsame.slotBases]
    exact h.slotsTopological
  · rw [hslots, hsame.slotMap]
    exact h.slots
  · rw [hbundles]
    exact h.bundlesNodup
  · rw [hbundles, hsame.subBundles]
    exact h.bundlesTopological
  · rw [hbundles, hsame.bundleMap]
    exact h.bundles

theorem searched_addAllToOrder {succ : Name → List Name} {names l l' : List Name}
    (hnodup : l.Nodup) (htopological : Topological succ l)
    (h : addAllToOrder succ depth names l = some l') : Searched succ names l l' := by
  refine foldlM_done (fun done cur => Searched succ done l cur) ?_ h
    (.of_mem nofun hnodup htopological)
  intro done name _ cur cur' hdone hstep
  refine hdone.append ?_
  split at hstep
  · rename_i hmem
    obtain rfl := Option.some.inj hstep
    exact .of_mem (List.forall_mem_singleton.mpr hmem) hdone.nodup hdone.topological
  · exact searched_postOrder hdone.nodup hdone.topological hstep

theorem ordersInv_computeSlotAndBundleOrders (horder : ∀ l, (order l).Perm l)
    (hinv : OrdersInv set) (hclosed : ClosedMaps set)
    (h : computeSlotAndBundleOrders order depth set = some set') :
    OrdersInv set' ∧ set.slotMap ⊆ set'.slotOrder ∧ set.bundleMap ⊆ set'.bundleOrder := by
  obtain ⟨slotOrder, hslots, h⟩ := Option.bind_eq_some_iff.mp h
  obtain ⟨bundleOrder, hbundles, h⟩ := Option.bind_eq_some_iff.mp h
  obtain rfl := Option.some.inj h
  have hslots := searched_addAllToOrder hinv.slotsNodup hinv.slotsTopological hslots
  have hbundles := searched_addAllToOrder hinv.bundlesNodup hinv.bundlesTopological hbundles
  refine ⟨⟨hslots.nodup, hslots.topological, ?_, hbundles.nodup, hbundles.topological, ?_⟩,
    fun slot hslot => hslots.mem slot ((horder _).mem_iff.mpr hslot),
    fun name hname => hbundles.mem name ((horder _).mem_iff.mpr hname)⟩
  · exact hslots.forall_mem hclosed.slots hinv.slots fun slot hslot =>
      (horder _).mem_iff.mp hslot
  · exact hbundles.forall_mem hclosed.bundles hinv.bundles fun name hname =>
      (horder _).mem_iff.mp hname

/-- **Orders.** After the checks of a bundle all slots and bundles are in their orders. -/
theorem ordersInv_performBundleReferenceChecks (horder : ∀ l, (order l).Perm l)
    (hinv : OrdersInv set) (hclosed : ClosedMaps set)
    (h : performBundleReferenceChecks decls isa order depth key set = some set') :
    OrdersInv set' ∧ set.slotMap ⊆ set'.slotOrder ∧ set.bundleMap ⊆ set'.bundleOrder := by
  induction depth generalizing key set set' with
  | zero => cases h
  | succ depth ih =>
    obtain ⟨mid, hmid, hcompute⟩ := performBundleReferenceChecks_eq_some h
    obtain ⟨hsame, hinv⟩ : SameVisits set mid ∧ OrdersInv mid :=
      foldlM_invariant (fun cur => SameVisits set cur ∧ OrdersInv cur)
        (fun cur _ _ cur' hcur hstep =>
          ⟨hcur.1.trans (sameVisits_performBundleReferenceChecks hstep),
            (ih hcur.2 (hclosed.congr hcur.1) hstep).1⟩) hmid ⟨.refl set, hinv⟩
    obtain ⟨hsameUses, hslots, hbundles⟩ :=
      sameVisits_checkSlotUses decls (key.getD isa.name) (mid.bundles key).slotUses mid
    have hsame := hsame.trans hsameUses
    rw [← hsame.slotMap, ← hsame.bundleMap]
    exact ordersInv_computeSlotAndBundleOrders horder (hinv.congr hsameUses hslots hbundles)
      (hclosed.congr hsame) hcompute

/-! ### Checks end -/

/-- **Cycles.** Checks end only if no bundle contains itself. -/
theorem acc_of_checks (hclosed : ClosedMaps set)
    (hsub : ∀ name ∈ set.bundleMap, set.subBundles name = decls.subBundles name)
    (hkey : ∀ name ∈ (set.bundles key).bundleNames, name ∈ set.bundleMap)
    (h : performBundleReferenceChecks decls isa order depth key set = some set') :
    ∀ name ∈ (set.bundles key).bundleNames, Acc (fun b a => b ∈ decls.subBundles a) name := by
  induction depth generalizing key set set' with
  | zero => cases h
  | succ depth ih =>
    obtain ⟨mid, hmid, -⟩ := performBundleReferenceChecks_eq_some h
    obtain ⟨-, hacc⟩ : SameVisits set mid ∧ ∀ name ∈ (set.bundles key).bundleNames,
        Acc (fun b a => b ∈ decls.subBundles a) name := by
      refine foldlM_done (fun done cur => SameVisits set cur ∧ ∀ name ∈ done,
        Acc (fun b a => b ∈ decls.subBundles a) name) ?_ hmid ⟨.refl set, nofun⟩
      rintro done name hname cur cur' ⟨hsame, hdone⟩ hstep
      refine ⟨hsame.trans (sameVisits_performBundleReferenceChecks hstep), fun other hother => ?_⟩
      rcases List.mem_append.mp hother with hother | hother
      · exact hdone other hother
      · obtain rfl := List.mem_singleton.mp hother
        have hmem := hkey other hname
        have hsubCur : ∀ name ∈ cur.bundleMap, cur.subBundles name = decls.subBundles name := by
          rw [hsame.bundleMap, hsame.subBundles]
          exact hsub
        have hnames : (cur.bundles (some other)).bundleNames = decls.subBundles other :=
          hsubCur other (hsame.bundleMap ▸ hmem)
        have hkeyCur : ∀ name ∈ (cur.bundles (some other)).bundleNames, name ∈ cur.bundleMap :=
          (hclosed.congr hsame).bundles other (hsame.bundleMap ▸ hmem)
        have hsubs := ih (hclosed.congr hsame) hsubCur hkeyCur hstep
        rw [hnames] at hsubs
        exact Acc.intro other hsubs
    exact hacc

variable {rank : Name → Nat}

theorem exists_addAllToOrder {succ : Name → List Name} {P : Name → Prop}
    (hrank : RankedOn succ P rank) (hdepth : ∀ name, rank name < depth) {names : List Name}
    (hnames : ∀ name ∈ names, P name) (l : List Name) :
    ∃ l', addAllToOrder succ depth names l = some l' := by
  have hstep : ∀ (_ : List Name), ∀ name ∈ names, ∀ l, True → ∃ l',
      (if name ∈ l then some l else postOrder succ depth name l) = some l' ∧ True := by
    intro _ name hname l _
    split
    · exact ⟨l, rfl, trivial⟩
    · obtain ⟨l', hl'⟩ := exists_postOrder hrank (hnames name hname) (hdepth name) l
      exact ⟨l', hl', trivial⟩
  obtain ⟨l', hl', -⟩ := foldlM_exists (fun _ _ => True) hstep (a := l) trivial
  exact ⟨l', hl'⟩

theorem exists_computeSlotAndBundleOrders (horder : ∀ l, (order l).Perm l) {bundleRank : Name → Nat}
    (hrank : RankedOn set.slotBases (· ∈ set.slotMap) rank)
    (hbundleRank : RankedOn set.subBundles (· ∈ set.bundleMap) bundleRank)
    (hdepth : ∀ slot, rank slot < depth) (hbundleDepth : ∀ name, bundleRank name < depth) :
    ∃ set', computeSlotAndBundleOrders order depth set = some set' := by
  obtain ⟨slotOrder, hslots⟩ := exists_addAllToOrder hrank hdepth
    (fun slot hslot => (horder _).mem_iff.mp hslot) set.slotOrder
  obtain ⟨bundleOrder, hbundles⟩ := exists_addAllToOrder hbundleRank hbundleDepth
    (fun name hname => (horder _).mem_iff.mp hname) set.bundleOrder
  unfold computeSlotAndBundleOrders
  rw [hslots]
  exact ⟨{ set with slotOrder := slotOrder, bundleOrder := bundleOrder }, by
    show Option.bind _ _ = _
    rw [Option.bind_some, hbundles]
    rfl⟩

/-- The checks of a bundle end if their depth is not bounded by the ranks. -/
theorem exists_performBundleReferenceChecks (horder : ∀ l, (order l).Perm l)
    {bundleRank : Name → Nat} (hrank : RankedOn set.slotBases (· ∈ set.slotMap) rank)
    (hbundleRank : RankedOn set.subBundles (· ∈ set.bundleMap) bundleRank) (bound : Nat)
    (hbound : ∀ slot, rank slot < bound) (hbundleBound : ∀ name, bundleRank name < bound)
    (hkey : ∀ name ∈ (set.bundles key).bundleNames,
      name ∈ set.bundleMap ∧ bound + bundleRank name + 1 < depth) (hle : bound < depth) :
    ∃ set', performBundleReferenceChecks decls isa order depth key set = some set' := by
  induction depth generalizing key set with
  | zero => exact absurd hle (Nat.not_lt_zero _)
  | succ depth ih =>
    -- What the ranks say is kept by everything that is done.
    have hcongr : ∀ {cur}, SameVisits set cur →
        RankedOn cur.slotBases (· ∈ cur.slotMap) rank ∧
          RankedOn cur.subBundles (· ∈ cur.bundleMap) bundleRank := by
      intro cur hsame
      rw [hsame.slotBases, hsame.slotMap, hsame.subBundles, hsame.bundleMap]
      exact ⟨hrank, hbundleRank⟩
    have hdepth : bound ≤ depth := Nat.le_of_lt_succ hle
    have hstep : ∀ (_ : List Name), ∀ name ∈ (set.bundles key).bundleNames, ∀ cur,
        SameVisits set cur → ∃ cur',
          performBundleReferenceChecks decls isa order depth (some name) cur = some cur' ∧
          SameVisits set cur' := by
      intro _ name hname cur hsame
      obtain ⟨hmem, hlt⟩ := hkey name hname
      obtain ⟨hrankCur, hbundleRankCur⟩ := hcongr hsame
      have hsubs : ∀ sub ∈ (cur.bundles (some name)).bundleNames,
          sub ∈ cur.bundleMap ∧ bound + bundleRank sub + 1 < depth := by
        intro sub hsub
        have hmem : name ∈ cur.bundleMap := hsame.bundleMap ▸ hmem
        have hrankLt := hbundleRankCur.lt name hmem sub hsub
        exact ⟨hbundleRankCur.closed name hmem sub hsub, by omega⟩
      obtain ⟨cur', hcur'⟩ := ih hrankCur hbundleRankCur hsubs (by omega)
      exact ⟨cur', hcur', hsame.trans (sameVisits_performBundleReferenceChecks hcur')⟩
    obtain ⟨mid, hmid, hsame⟩ := foldlM_exists (fun _ cur => SameVisits set cur) hstep
      (.refl set)
    obtain ⟨hsameUses, -, -⟩ :=
      sameVisits_checkSlotUses decls (key.getD isa.name) (mid.bundles key).slotUses mid
    obtain ⟨hrankMid, hbundleRankMid⟩ := hcongr (hsame.trans hsameUses)
    obtain ⟨set', hset'⟩ := exists_computeSlotAndBundleOrders horder hrankMid hbundleRankMid
      (fun slot => (hbound slot).trans_le hdepth)
      (fun name => (hbundleBound name).trans_le hdepth)
    exact ⟨set', by
      rw [performBundleReferenceChecks, hmid]
      exact hset'⟩

end

/-! ### The result -/

theorem mem_keys_of_mem_subBundles {name sub : Name} (h : sub ∈ decls.subBundles name) :
    sub ∈ decls.bundleDeclMap.map Prod.fst := by
  have hparts : ∀ parts, sub ∈ decls.bundlesOf parts → (decls.bundleDecl sub).isSome := by
    intro parts hmem
    induction parts with
    | nil => cases hmem
    | cons part rest ih =>
      cases part with
      | bundleList names =>
        rcases List.mem_append.mp hmem with hmem | hmem
        · exact (List.mem_filter.mp hmem).2
        · exact ih hmem
      | slotList specs => exact ih hmem
      | includeFileList => exact ih hmem
      | semfuncSpec => exact ih hmem
  obtain ⟨parts, hdecl⟩ := Option.isSome_iff_exists.mp (hparts _ h)
  obtain ⟨entry, hentry, -⟩ := Option.map_eq_some_iff.mp hdecl
  have hname : entry.1 = sub := by simpa using List.find?_some hentry
  exact List.mem_map.mpr ⟨entry, List.mem_of_find?_eq_some hentry, hname⟩

theorem slotReferred_of_base {slot base : Name} (h : decls.SlotReferred isa slot)
    (hbase : base ∈ decls.slotBases slot) : decls.SlotReferred isa base := by
  obtain ⟨top, htop, hreaches⟩ := h
  exact ⟨top, htop, hreaches.tail hbase⟩

variable {set : InstructionSet}

theorem Visited.closedMaps (h : Visited decls isa set) : ClosedMaps set := by
  refine ⟨fun slot hslot base hbase => ?_, fun name hname sub hsub => ?_⟩
  · exact h.inv.topological.mem hslot (h.inv.baseLists.declared slot base hbase)
  · rw [h.subBundles name hname] at hsub
    exact h.mem_bundleMap sub (bundleReferred_of_mem (h.inv.bundleReferred name hname) hsub)

theorem Visited.ordersInv (h : Visited decls isa set) : OrdersInv set := by
  refine ⟨?_, ?_, ?_, ?_, ?_, ?_⟩
  · rw [h.inv.slotOrder]
    exact List.nodup_nil
  · rw [h.inv.slotOrder]
    exact topological_nil
  · rw [h.inv.slotOrder]
    exact List.nil_subset _
  · rw [h.inv.bundleOrder]
    exact List.nodup_nil
  · rw [h.inv.bundleOrder]
    exact topological_nil
  · rw [h.inv.bundleOrder]
    exact List.nil_subset _

theorem Visited.top_mem (h : Visited decls isa set) :
    ∀ name ∈ (set.bundles none).bundleNames, name ∈ set.bundleMap := by
  rw [h.top]
  exact fun name hname => h.mem_bundleMap name ⟨name, hname, .refl⟩

theorem acyclic_of_processDeclarations {depth : Nat}
    (h : processDeclarations decls isa order depth = some set) : decls.Acyclic isa := by
  obtain ⟨mid, hvisit, hchecks⟩ := Option.bind_eq_some_iff.mp h
  have hvisited := visited_visitIsaDeclaration hvisit
  refine ⟨fun name hname => ?_, ?_⟩
  · exact hvisited.inv.topological.not_cycle (hvisited.mem_slotMap name hname)
  · rintro name ⟨top, htop, hreaches⟩
    refine not_cycle_of_acc ?_ hreaches
    refine acc_of_checks hvisited.closedMaps hvisited.subBundles hvisited.top_mem hchecks top ?_
    rw [hvisited.top]
    exact htop

theorem ordered_of_processDeclarations (horder : ∀ l, (order l).Perm l) {depth : Nat}
    (h : processDeclarations decls isa order depth = some set) : Ordered decls isa set := by
  obtain ⟨mid, hvisit, hchecks⟩ := Option.bind_eq_some_iff.mp h
  have hvisited := visited_visitIsaDeclaration hvisit
  have hsame := sameVisits_performBundleReferenceChecks hchecks
  obtain ⟨hinv, hslots, hbundles⟩ := ordersInv_performBundleReferenceChecks horder
    hvisited.ordersInv hvisited.closedMaps hchecks
  have hslotOrder : ∀ slot ∈ set.slotOrder, slot ∈ mid.slotMap :=
    fun slot hslot => hsame.slotMap ▸ hinv.slots hslot
  have hbundleOrder : ∀ name ∈ set.bundleOrder, name ∈ mid.bundleMap :=
    fun name hname => hsame.bundleMap ▸ hinv.bundles hname
  refine ⟨hinv.slotsNodup, fun slot => ?_, hinv.slotsTopological, fun hnil slot hslot => ?_,
    hinv.bundlesNodup, fun name => ?_, ?_⟩
  · exact ⟨fun hslot => hvisited.inv.slotReferred slot (hslotOrder slot hslot),
      fun hreferred => hslots (hvisited.mem_slotMap slot hreferred)⟩
  · rw [hsame.slotBases]
    exact hvisited.inv.recorded (errors_eq_nil hsame.errors hnil) slot (hslotOrder slot hslot)
  · exact ⟨fun hname => hvisited.inv.bundleReferred name (hbundleOrder name hname),
      fun hreferred => hbundles (hvisited.mem_bundleMap name hreferred)⟩
  · refine hinv.bundlesTopological.congr fun name hname => ?_
    rw [hsame.subBundles]
    exact (hvisited.subBundles name (hbundleOrder name hname)).symm

theorem exists_processDeclarations (horder : ∀ l, (order l).Perm l) (h : decls.Acyclic isa) :
    ∃ enough, ∀ depth ≥ enough, ∃ set, processDeclarations decls isa order depth = some set := by
  have hslotNodes : ∀ slot, ∀ base ∈ decls.slotBases slot, base ∈ decls.slotDeclMap.map Prod.fst :=
    fun _ _ => mem_keys_of_mem_slotBases
  have hbundleNodes : ∀ name, ∀ sub ∈ decls.subBundles name,
      sub ∈ decls.bundleDeclMap.map Prod.fst := fun _ _ => mem_keys_of_mem_subBundles
  have hrank := rankedOn_reachRank hslotNodes (fun _ h _ => slotReferred_of_base h) h.slots
  have hbundleRank :=
    rankedOn_reachRank hbundleNodes (fun _ h _ => bundleReferred_of_mem h) h.bundles
  obtain ⟨slotBound, hslotBound⟩ : ∃ bound, ∀ slot, reachRank decls.slotBases slot ≤ bound :=
    ⟨_, reachRank_le hslotNodes⟩
  obtain ⟨bundleBound, hbundleBound⟩ : ∃ bound, ∀ name, reachRank decls.subBundles name ≤ bound :=
    ⟨_, reachRank_le hbundleNodes⟩
  refine ⟨2 * slotBound + 2 * bundleBound + 4, fun depth hdepth => ?_⟩
  obtain ⟨mid, hvisit, hranked⟩ : ∃ set, visitIsaDeclaration decls isa order depth = some set ∧
      SlotsRanked (reachRank decls.slotBases) set := by
    refine exists_visitIsaDeclaration horder hrank hbundleRank (2 * slotBound + 1)
      (fun slot => ?_) (fun name => ?_) (by omega)
    · have := hslotBound slot
      omega
    · have := hbundleBound name
      omega
  have hvisited := visited_visitIsaDeclaration hvisit
  have hclosed := hvisited.closedMaps
  have hbundleRankMid : RankedOn mid.subBundles (· ∈ mid.bundleMap)
      (reachRank decls.subBundles) := by
    refine ⟨hclosed.bundles, fun name hname sub hsub => ?_⟩
    rw [hvisited.subBundles name hname] at hsub
    exact hbundleRank.lt name (hvisited.inv.bundleReferred name hname) sub hsub
  obtain ⟨set, hset⟩ : ∃ set, performBundleReferenceChecks decls isa order depth none mid =
      some set := by
    refine exists_performBundleReferenceChecks horder
      ⟨hclosed.slots, fun slot _ => hranked.ranked slot⟩ hbundleRankMid
      (slotBound + bundleBound + 1) (fun slot => ?_) (fun name => ?_)
      (fun name hname => ⟨hvisited.top_mem name hname, ?_⟩) (by omega)
    · have := hslotBound slot
      omega
    · have := hbundleBound name
      omega
    · have := hbundleBound name
      omega
  exact ⟨set, by unfold processDeclarations; rw [hvisit]; exact hset⟩

/-- **Slots and bundles.** They are processed as they ought to be exactly if no slot to which the
    instruction set refers inherits from itself and no bundle contains itself. -/
theorem processingEnds_iff (horder : ∀ l, (order l).Perm l) (decls : Declarations)
    (isa : IsaDecl) : ProcessingEnds decls isa order ↔ decls.Acyclic isa := by
  constructor
  · rintro ⟨⟨enough, hends⟩, -⟩
    obtain ⟨set, hset⟩ := hends enough le_rfl
    exact acyclic_of_processDeclarations hset
  · intro h
    refine ⟨exists_processDeclarations horder h, fun depth set hset => ⟨fun hcycle => ?_,
      fun _ => ordered_of_processDeclarations horder hset⟩⟩
    exact absurd h hcycle

/-- A slot declaration with plain bases. -/
def plainSlot (names : List Name) : SlotDecl :=
  ⟨none, names.map fun name => ⟨name, none⟩, none, [], true⟩

/-- The slot `d` derives from the slot `b`. -/
def derivedSlot : Declarations := ⟨[(['d'], plainSlot [['b']]), (['b'], plainSlot [])], []⟩

/-- An instruction set with the slot `d`. -/
def slotIsa : IsaDecl := ⟨['i'], [], [⟨['d'], []⟩]⟩

theorem processingEnds_derivedSlot : ProcessingEnds derivedSlot slotIsa id := by
  refine (processingEnds_iff List.Perm.refl derivedSlot slotIsa).mpr ⟨?_, ?_⟩
  · have htopological : Topological derivedSlot.slotBases [['b'], ['d']] := by
      refine topological_concat_iff.mpr ⟨topological_concat_iff.mpr ⟨topological_nil, ?_⟩, ?_⟩
      · exact nofun
      · exact List.forall_mem_singleton.mpr List.mem_cons_self
    rintro name ⟨top, htop, hreaches⟩
    refine htopological.not_cycle (htopological.mem_of_reaches ?_ hreaches)
    rcases htop with htop | ⟨bundle, ⟨first, hfirst, -⟩, -⟩
    · obtain rfl := List.mem_singleton.mp htop
      exact List.mem_cons_of_mem _ List.mem_cons_self
    · cases hfirst
  · rintro name ⟨top, htop, -⟩
    cases htop

/-- The slots `d` and `b` derive from each other. -/
def mutualSlots : Declarations := ⟨[(['d'], plainSlot [['b']]), (['b'], plainSlot [['d']])], []⟩

/-- The bundle `m` contains itself. -/
def selfBundle : Declarations := ⟨[], [(['m'], [.bundleList [['m']]])]⟩

/-- An instruction set with the bundle `m`. -/
def bundleIsa : IsaDecl := ⟨['i'], [['m']], []⟩

/-- Neither cycle is reported: whatever the depth is, the calls do not end. -/
theorem cycles_not_reported :
    (∀ depth, processDeclarations mutualSlots slotIsa id depth = none) ∧
      (∀ depth, processDeclarations selfBundle bundleIsa id depth = none) ∧
      ¬ ProcessingEnds mutualSlots slotIsa id ∧ ¬ ProcessingEnds selfBundle bundleIsa id := by
  have hnone : ∀ decls isa, ¬ Declarations.Acyclic decls isa →
      ∀ depth, processDeclarations decls isa id depth = none := by
    intro decls isa hcycle depth
    cases hprocess : processDeclarations decls isa id depth with
    | none => rfl
    | some set => exact absurd (acyclic_of_processDeclarations hprocess) hcycle
  have hslots : ¬ mutualSlots.Acyclic slotIsa := by
    intro h
    refine h.slots ['d'] ⟨['d'], .inl List.mem_cons_self, .refl⟩ ?_
    have hd : Step mutualSlots.slotBases ['d'] ['b'] := List.mem_cons_self
    have hb : Step mutualSlots.slotBases ['b'] ['d'] := List.mem_cons_self
    exact .tail (.single hd) hb
  have hbundles : ¬ selfBundle.Acyclic bundleIsa := by
    intro h
    refine h.bundles ['m'] ⟨['m'], List.mem_cons_self, .refl⟩ ?_
    have hm : Step selfBundle.subBundles ['m'] ['m'] := List.mem_cons_self
    exact .single hm
  have hends : ∀ decls isa, (∀ depth, processDeclarations decls isa id depth = none) →
      ¬ ProcessingEnds decls isa id := by
    rintro decls isa hnone ⟨⟨enough, hends⟩, -⟩
    obtain ⟨set, hset⟩ := hends enough le_rfl
    rw [hnone enough] at hset
    cases hset
  exact ⟨hnone _ _ hslots, hnone _ _ hbundles, hends _ _ (hnone _ _ hslots),
    hends _ _ (hnone _ _ hbundles)⟩

end MpactSim.Isa
