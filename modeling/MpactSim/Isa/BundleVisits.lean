import MpactSim.Isa.SlotVisits

namespace MpactSim.Isa

open Decoder (Name)
open Lib

/-!
# Visits of bundles

A visit puts a bundle into the map before it visits what the bundle contains, so that it ends also
if bundles contain each other.

* `BundlesVisited`        — what a visit does that ends;
* `Visited`               — the instruction set after its declaration has been visited;
* `exists_visitIsaDeclaration` — the visit ends if no slot inherits from itself.
-/

variable {decls : Declarations} {isa : IsaDecl} {order : List Name → List Name}

/-! ### The instruction set during a visit -/

/-- What always holds of the instruction set. -/
structure SetInv (decls : Declarations) (isa : IsaDecl) (set : InstructionSet) : Prop where
  nodup : set.slotMap.Nodup
  topological : Topological decls.slotBases set.slotMap
  baseLists : BaseLists decls set
  recorded : set.errors = [] → ∀ slot ∈ set.slotMap,
    ∀ base ∈ decls.slotBases slot, base ∈ set.slotBases slot
  slotReferred : ∀ slot ∈ set.slotMap, decls.SlotReferred isa slot
  bundleReferred : ∀ name ∈ set.bundleMap, decls.BundleReferred isa name
  slotOrder : set.slotOrder = []
  bundleOrder : set.bundleOrder = []

/-- A bundle contains some bundles and slots, which are in the maps. -/
structure Contents (set : InstructionSet) (key : Option Name) (names slots : List Name) :
    Prop where
  bundleNames : (set.bundles key).bundleNames = names
  bundles : ∀ name ∈ names, name ∈ set.bundleMap
  slots : ∀ slot ∈ slots, slot ∈ set.slotMap

/-- The bundle has been put into the map; that of the instruction set need not be. -/
def Settled (set : InstructionSet) (key : Option Name) : Prop :=
  ∀ name, key = some name → name ∈ set.bundleMap

/-- What visits of some bundles do: they change the bundles that they put into the map. -/
structure BundlesVisited (decls : Declarations) (isa : IsaDecl) (roots : List Name)
    (set set' : InstructionSet) : Prop where
  inv : SetInv decls isa set'
  slotMap : set.slotMap ⊆ set'.slotMap
  bundleMap : set.bundleMap ⊆ set'.bundleMap
  mem : ∀ name ∈ roots, name ∈ set'.bundleMap
  unchanged : ∀ key, Settled set key → set'.bundles key = set.bundles key
  complete : ∀ name ∈ set'.bundleMap, name ∉ set.bundleMap →
    Contents set' (some name) (decls.subBundles name) (decls.slotsIn name)

/-- A bundle is being visited: it contains some bundles and slots so far. -/
structure BundleVisiting (decls : Declarations) (isa : IsaDecl) (key : Option Name)
    (names slots : List Name) (set cur : InstructionSet) : Prop where
  inv : SetInv decls isa cur
  slotMap : set.slotMap ⊆ cur.slotMap
  bundleMap : set.bundleMap ⊆ cur.bundleMap
  settled : Settled cur key
  unchanged : ∀ other, other ≠ key → Settled set other → cur.bundles other = set.bundles other
  complete : ∀ name ∈ cur.bundleMap, name ∉ set.bundleMap → some name ≠ key →
    Contents cur (some name) (decls.subBundles name) (decls.slotsIn name)
  contents : Contents cur key names slots

section

variable {key : Option Name} {names slots : List Name} {set cur mid set' : InstructionSet}

theorem Contents.mono (h : Contents cur key names slots) (hslots : cur.slotMap ⊆ mid.slotMap)
    (hbundles : cur.bundleMap ⊆ mid.bundleMap) (hsame : mid.bundles key = cur.bundles key) :
    Contents mid key names slots :=
  ⟨by rw [hsame, h.bundleNames], fun name hname => hbundles (h.bundles name hname),
    fun slot hslot => hslots (h.slots slot hslot)⟩

theorem SetInv.report (h : SetInv decls isa cur) (errors : List String) :
    SetInv decls isa (cur.report errors) :=
  ⟨h.nodup, h.topological, ⟨h.baseLists.predecessors, h.baseLists.declared⟩,
    fun hnil => h.recorded (List.append_eq_nil_iff.mp hnil).1, h.slotReferred, h.bundleReferred,
    h.slotOrder, h.bundleOrder⟩

theorem BundleVisiting.report (h : BundleVisiting decls isa key names slots set cur)
    (errors : List String) : BundleVisiting decls isa key names slots set (cur.report errors) :=
  ⟨h.inv.report errors, h.slotMap, h.bundleMap, h.settled, h.unchanged,
    fun name hname hnew hne => (h.complete name hname hnew hne).mono (List.Subset.refl _)
      (List.Subset.refl _) rfl,
    h.contents.mono (List.Subset.refl _) (List.Subset.refl _) rfl⟩

theorem BundleVisiting.update (h : BundleVisiting decls isa key names slots set cur)
    (bundle : Bundle) {names' : List Name} (hnames : bundle.bundleNames = names')
    (hmem : ∀ name ∈ names', name ∈ cur.bundleMap) :
    BundleVisiting decls isa key names' slots set
      { cur with bundles := Function.update cur.bundles key bundle } := by
  refine ⟨⟨h.inv.nodup, h.inv.topological, ⟨h.inv.baseLists.predecessors,
    h.inv.baseLists.declared⟩, h.inv.recorded, h.inv.slotReferred, h.inv.bundleReferred,
    h.inv.slotOrder, h.inv.bundleOrder⟩, h.slotMap, h.bundleMap, h.settled,
    fun other hne hother => ?_, fun name hname hnew hne => ?_, ?_, hmem, h.contents.slots⟩
  · exact (Function.update_of_ne hne ..).trans (h.unchanged other hne hother)
  · exact (h.complete name hname hnew hne).mono (List.Subset.refl _) (List.Subset.refl _)
      (Function.update_of_ne hne ..)
  · show (Function.update cur.bundles key bundle key).bundleNames = names'
    rw [Function.update_self, hnames]

theorem BundleVisiting.slotsVisited (h : BundleVisiting decls isa key names slots set cur)
    {roots : List Name} (hvisit : SlotsVisited decls roots cur mid)
    (hreferred : ∀ slot ∈ roots, decls.SlotReferred isa slot) :
    BundleVisiting decls isa key names (slots ++ roots) set mid := by
  have hbundles : mid.bundles = cur.bundles := by rw [hvisit.frame]
  have hmap : mid.bundleMap = cur.bundleMap := by rw [hvisit.frame]
  have hslotOrder : mid.slotOrder = cur.slotOrder := by rw [hvisit.frame]
  have hbundleOrder : mid.bundleOrder = cur.bundleOrder := by rw [hvisit.frame]
  have hsubset := hvisit.searched.isPrefix.subset
  refine ⟨⟨hvisit.searched.nodup, hvisit.searched.topological, hvisit.baseLists,
    fun hnil slot hslot => ?_, fun slot hslot => ?_, ?_, ?_, ?_⟩, ?_, ?_, ?_,
    fun other hne hother => ?_, fun name hname hnew hne => ?_, ?_⟩
  · rcases hvisit.recorded hnil slot hslot with hold | hbases
    · rw [slotBases_congr (hvisit.unchanged slot (.inl hold))]
      exact h.inv.recorded (errors_eq_nil hvisit.errors hnil) slot hold
    · exact hbases
  · rcases hvisit.searched.reached slot hslot with hold | ⟨root, hroot, hreaches⟩
    · exact h.inv.slotReferred slot hold
    · obtain ⟨top, htop, htopReaches⟩ := hreferred root hroot
      exact ⟨top, htop, htopReaches.trans hreaches⟩
  · rw [hmap]
    exact h.inv.bundleReferred
  · rw [hslotOrder, h.inv.slotOrder]
  · rw [hbundleOrder, h.inv.bundleOrder]
  · exact fun slot hslot => hsubset (h.slotMap hslot)
  · rw [hmap]
    exact h.bundleMap
  · unfold Settled
    rw [hmap]
    exact h.settled
  · rw [hbundles]
    exact h.unchanged other hne hother
  · rw [hmap] at hname
    exact (h.complete name hname hnew hne).mono hsubset (hmap ▸ List.Subset.refl _)
      (congrFun hbundles _)
  · obtain ⟨hnames, hmem, hslots⟩ :=
      h.contents.mono hsubset (hmap ▸ List.Subset.refl _) (congrFun hbundles key)
    refine ⟨hnames, hmem, fun slot hslot => ?_⟩
    rcases List.mem_append.mp hslot with hslot | hslot
    · exact hslots slot hslot
    · exact hvisit.searched.mem slot hslot

theorem BundleVisiting.bundlesVisited (h : BundleVisiting decls isa key names slots set cur)
    {roots : List Name} (hvisit : BundlesVisited decls isa roots cur mid) :
    BundleVisiting decls isa key names slots set mid := by
  refine ⟨hvisit.inv, fun slot hslot => hvisit.slotMap (h.slotMap hslot),
    fun name hname => hvisit.bundleMap (h.bundleMap hname),
    fun name hkey => hvisit.bundleMap (h.settled name hkey), fun other hne hother => ?_,
    fun name hname hnew hne => ?_,
    h.contents.mono hvisit.slotMap hvisit.bundleMap (hvisit.unchanged key h.settled)⟩
  · rw [hvisit.unchanged other fun name hkey => h.bundleMap (hother name hkey)]
    exact h.unchanged other hne hother
  · by_cases hcur : name ∈ cur.bundleMap
    · refine (h.complete name hcur hnew hne).mono hvisit.slotMap hvisit.bundleMap ?_
      refine hvisit.unchanged _ fun name' heq => ?_
      obtain rfl := Option.some.inj heq
      exact hcur
    · exact hvisit.complete name hname hcur

end

/-! ### The lists of a bundle -/

section

variable {key : Option Name} {names slots : List Name} {set cur cur' : InstructionSet}

theorem BundleVisiting.visitSlotList (h : BundleVisiting decls isa key names slots set cur)
    {depth : Nat} {specs : List SlotSpec}
    (hreferred : ∀ slot ∈ decls.slotsOfList specs, decls.SlotReferred isa slot)
    (hvisit : visitSlotList decls order depth key specs cur = some cur') :
    BundleVisiting decls isa key names (slots ++ decls.slotsOfList specs) set cur' := by
  refine foldlM_done (fun done cur =>
    BundleVisiting decls isa key names (slots ++ decls.slotsOfList done) set cur) ?_ hvisit ?_
  · intro done spec hspec cur cur' hdone hstep
    have hroots : decls.slotsOfList (done ++ [spec]) = decls.slotsOfList done ++
        (if (decls.slotDecl spec.name).isSome then [spec.name] else []) := by
      unfold Declarations.slotsOfList
      rw [List.map_append, List.filter_append, List.map_singleton, List.filter_singleton]
      cases decls.slotDecl spec.name with
      | none => rfl
      | some decl => rfl
    rw [hroots]
    cases hdecl : decls.slotDecl spec.name with
    | none =>
      rw [hdecl] at hstep
      obtain rfl := Option.some.inj hstep
      simpa using hdone.report _
    | some decl =>
      rw [hdecl] at hstep
      obtain ⟨mid, hmid, hlast⟩ := Option.bind_eq_some_iff.mp hstep
      obtain rfl := Option.some.inj hlast
      have hroot : ∀ slot ∈ [spec.name], decls.SlotReferred isa slot := by
        intro slot hslot
        obtain rfl := List.mem_singleton.mp hslot
        refine hreferred _ (List.mem_filter.mpr ⟨List.mem_map.mpr ⟨spec, hspec, rfl⟩, ?_⟩)
        rw [hdecl]
        rfl
      have hvisited : SlotsVisited decls [spec.name] cur mid := by
        split at hmid
        · rename_i hmem
          obtain rfl := Option.some.inj hmid
          exact .of_mem (List.forall_mem_singleton.mpr hmem) hdone.inv.nodup
            hdone.inv.topological hdone.inv.baseLists
        · rename_i hmem
          exact slotsVisited_visitSlotDeclaration hdone.inv.nodup hdone.inv.topological
            hdone.inv.baseLists hdecl hmem hmid
      have hmidVisiting := hdone.slotsVisited hvisited hroot
      rw [List.append_assoc] at hmidVisiting
      exact hmidVisiting.update _ hmidVisiting.contents.bundleNames
        hmidVisiting.contents.bundles
  · simpa [Declarations.slotsOfList] using h

theorem BundleVisiting.visitBundleList (h : BundleVisiting decls isa key names slots set cur)
    {visit : Name → List BundlePart → InstructionSet → Option InstructionSet}
    {list : List Name}
    (hreferred : ∀ name ∈ decls.bundlesOf [.bundleList list], decls.BundleReferred isa name)
    (hvisits : ∀ name parts set set', SetInv decls isa set →
      decls.bundleDecl name = some parts → name ∉ set.bundleMap →
      decls.BundleReferred isa name → visit name parts set = some set' →
      BundlesVisited decls isa [name] set set')
    (hvisit : visitBundleList decls visit key list cur = some cur') :
    BundleVisiting decls isa key (names ++ decls.bundlesOf [.bundleList list]) slots set cur' := by
  have hlist : ∀ list, decls.bundlesOf [.bundleList list] =
      list.filter fun name => (decls.bundleDecl name).isSome := fun list => List.append_nil _
  rw [hlist] at hreferred ⊢
  refine foldlM_done (fun done cur => BundleVisiting decls isa key
    (names ++ done.filter fun name => (decls.bundleDecl name).isSome) slots set cur) ?_ hvisit ?_
  · intro done name hname cur cur' hdone hstep
    rw [List.filter_append, List.filter_singleton]
    cases hdecl : decls.bundleDecl name with
    | none =>
      rw [hdecl] at hstep
      obtain rfl := Option.some.inj hstep
      simpa using hdone.report _
    | some parts =>
      rw [hdecl] at hstep
      obtain ⟨mid, hmid, hlast⟩ := Option.bind_eq_some_iff.mp hstep
      obtain rfl := Option.some.inj hlast
      have hnameReferred : decls.BundleReferred isa name := by
        refine hreferred name (List.mem_filter.mpr ⟨hname, ?_⟩)
        rw [hdecl]
        rfl
      have hmidVisiting : BundleVisiting decls isa key
            (names ++ done.filter fun name => (decls.bundleDecl name).isSome) slots set mid ∧
          name ∈ mid.bundleMap := by
        split at hmid
        · rename_i hmem
          obtain rfl := Option.some.inj hmid
          exact ⟨hdone, hmem⟩
        · rename_i hmem
          have hvisited := hvisits name parts cur mid hdone.inv hdecl hmem hnameReferred hmid
          exact ⟨hdone.bundlesVisited hvisited, hvisited.mem name List.mem_cons_self⟩
      obtain ⟨hmidVisiting, hmem⟩ := hmidVisiting
      refine hmidVisiting.update _ ?_ fun name' hname' => ?_
      · dsimp only
        rw [hmidVisiting.contents.bundleNames, List.append_assoc]
        rfl
      · rw [← List.append_assoc] at hname'
        rcases List.mem_append.mp hname' with hname' | hname'
        · exact hmidVisiting.contents.bundles name' hname'
        · exact List.mem_singleton.mp hname' ▸ hmem
  · simpa using h

theorem BundleVisiting.visitBundleParts {name : Name} {depth : Nat}
    {visit : Name → List BundlePart → InstructionSet → Option InstructionSet}
    (hvisits : ∀ name parts set set', SetInv decls isa set →
      decls.bundleDecl name = some parts → name ∉ set.bundleMap →
      decls.BundleReferred isa name → visit name parts set = some set' →
      BundlesVisited decls isa [name] set set') {parts : List BundlePart}
    {seen : List PartKind} (h : BundleVisiting decls isa (some name) names slots set cur)
    (hbundles : ∀ name ∈ decls.bundlesOf (Declarations.visitedParts seen parts),
      decls.BundleReferred isa name)
    (hslots : ∀ slot ∈ decls.slotsOf (Declarations.visitedParts seen parts),
      decls.SlotReferred isa slot)
    (hvisit : visitBundleParts decls order depth visit name seen parts cur = some cur') :
    BundleVisiting decls isa (some name)
      (names ++ decls.bundlesOf (Declarations.visitedParts seen parts))
      (slots ++ decls.slotsOf (Declarations.visitedParts seen parts)) set cur' := by
  induction parts generalizing seen names slots cur with
  | nil =>
    obtain rfl := Option.some.inj hvisit
    simpa [Declarations.visitedParts, Declarations.bundlesOf, Declarations.slotsOf] using h
  | cons part rest ih =>
    rw [Isa.visitBundleParts] at hvisit
    rw [Declarations.visitedParts] at hbundles hslots ⊢
    split at hvisit
    · rename_i hseen
      obtain rfl := Option.some.inj hvisit
      rw [if_pos hseen]
      simpa [Declarations.bundlesOf, Declarations.slotsOf] using h.report _
    · rename_i hseen
      rw [if_neg hseen] at hbundles hslots ⊢
      obtain ⟨mid, hmid, hrest⟩ := Option.bind_eq_some_iff.mp hvisit
      cases part with
      | slotList specs =>
        have hlist := h.visitSlotList
          (fun slot hslot => hslots slot (List.mem_append_left _ hslot)) hmid
        have := ih hlist hbundles (fun slot hslot => hslots slot (List.mem_append_right _ hslot))
          hrest
        rwa [List.append_assoc] at this
      | bundleList list =>
        have hone : decls.bundlesOf [.bundleList list] =
            list.filter fun name => (decls.bundleDecl name).isSome := List.append_nil _
        have hreferred : ∀ name ∈ decls.bundlesOf [.bundleList list],
            decls.BundleReferred isa name :=
          fun name hname => hbundles name (List.mem_append_left _ (hone ▸ hname))
        have hlist := h.visitBundleList hreferred hvisits hmid
        rw [hone] at hlist
        have := ih hlist (fun name hname => hbundles name (List.mem_append_right _ hname)) hslots
          hrest
        rwa [List.append_assoc] at this
      | includeFileList =>
        obtain rfl := Option.some.inj hmid
        exact ih h hbundles hslots hrest
      | semfuncSpec =>
        obtain rfl := Option.some.inj hmid
        exact ih h hbundles hslots hrest

end

/-! ### Visits -/

variable {name : Name} {set : InstructionSet}

theorem bundleReferred_of_mem {sub : Name} (h : decls.BundleReferred isa name)
    (hsub : sub ∈ decls.subBundles name) : decls.BundleReferred isa sub := by
  obtain ⟨top, htop, hreaches⟩ := h
  exact ⟨top, htop, hreaches.tail hsub⟩

theorem slotReferred_of_mem {slot : Name} (h : decls.BundleReferred isa name)
    (hslot : slot ∈ decls.slotsIn name) : decls.SlotReferred isa slot :=
  ⟨slot, .inr ⟨name, h, hslot⟩, .refl⟩

theorem BundleVisiting.addBundle (h : SetInv decls isa set)
    (hreferred : decls.BundleReferred isa name) :
    BundleVisiting decls isa (some name) [] [] set (set.addBundle name) := by
  refine ⟨⟨h.nodup, h.topological, ⟨h.baseLists.predecessors, h.baseLists.declared⟩, h.recorded,
    h.slotReferred, fun other hother => ?_, h.slotOrder, h.bundleOrder⟩, List.Subset.refl _,
    List.subset_append_left _ _, fun other hother => ?_,
    fun other hne _ => Function.update_of_ne hne .., fun other hother hnew hne => ?_, ?_, nofun,
    nofun⟩
  · rcases List.mem_append.mp hother with hother | hother
    · exact h.bundleReferred other hother
    · exact List.mem_singleton.mp hother ▸ hreferred
  · obtain rfl := Option.some.inj hother
    exact List.mem_append_right _ List.mem_cons_self
  · rcases List.mem_append.mp hother with hother | hother
    · exact absurd hother hnew
    · exact absurd (congrArg some (List.mem_singleton.mp hother)) hne
  · show (Function.update set.bundles (some name) {} (some name)).bundleNames = []
    rw [Function.update_self]

theorem BundleVisiting.finish {cur : InstructionSet} (hnew : name ∉ set.bundleMap)
    (h : BundleVisiting decls isa (some name) (decls.subBundles name) (decls.slotsIn name) set
      cur) : BundlesVisited decls isa [name] set cur := by
  refine ⟨h.inv, h.slotMap, h.bundleMap, fun other hother => ?_, fun key hkey => ?_,
    fun other hother hother' => ?_⟩
  · exact List.mem_singleton.mp hother ▸ h.settled name rfl
  · refine h.unchanged key ?_ hkey
    rintro rfl
    exact hnew (hkey name rfl)
  · by_cases hname : other = name
    · exact hname ▸ h.contents
    · exact h.complete other hother hother' fun heq => hname (Option.some.inj heq)

/-- **Visits of bundles.** A visit that ends puts a bundle into the map with all that it
    contains. -/
theorem bundlesVisited_visitBundleDeclaration {depth : Nat} {parts : List BundlePart}
    {set' : InstructionSet} (hinv : SetInv decls isa set)
    (hdecl : decls.bundleDecl name = some parts) (hnew : name ∉ set.bundleMap)
    (hreferred : decls.BundleReferred isa name)
    (h : visitBundleDeclaration decls order depth name parts set = some set') :
    BundlesVisited decls isa [name] set set' := by
  induction depth generalizing name parts set set' with
  | zero => cases h
  | succ depth ih =>
    rw [visitBundleDeclaration] at h
    have hsub : decls.subBundles name =
        decls.bundlesOf (Declarations.visitedParts [] parts) := by
      unfold Declarations.subBundles
      rw [hdecl]
      rfl
    have hslots : decls.slotsIn name = decls.slotsOf (Declarations.visitedParts [] parts) := by
      unfold Declarations.slotsIn
      rw [hdecl]
      rfl
    have hvisiting := BundleVisiting.visitBundleParts
      (fun _ _ _ _ hinv hdecl hnew hreferred h => ih hinv hdecl hnew hreferred h)
      (.addBundle hinv hreferred)
      (fun sub hmem => bundleReferred_of_mem hreferred (hsub ▸ hmem))
      (fun slot hmem => slotReferred_of_mem hreferred (hslots ▸ hmem)) h
    rw [List.nil_append, List.nil_append, ← hsub, ← hslots] at hvisiting
    exact hvisiting.finish hnew

/-! ### The instruction set -/

/-- The instruction set after its declaration has been visited. -/
structure Visited (decls : Declarations) (isa : IsaDecl) (set : InstructionSet) : Prop where
  inv : SetInv decls isa set
  mem_slotMap : ∀ slot, decls.SlotReferred isa slot → slot ∈ set.slotMap
  mem_bundleMap : ∀ name, decls.BundleReferred isa name → name ∈ set.bundleMap
  top : (set.bundles none).bundleNames = decls.bundlesOf [.bundleList isa.bundleList]
  subBundles : ∀ name ∈ set.bundleMap, set.subBundles name = decls.subBundles name

theorem visited_visitIsaDeclaration {depth : Nat}
    (h : visitIsaDeclaration decls isa order depth = some set) : Visited decls isa set := by
  obtain ⟨mid, hbundles, hslots⟩ := Option.bind_eq_some_iff.mp h
  have hstart : BundleVisiting decls isa none [] [] {} {} :=
    ⟨⟨List.nodup_nil, topological_nil, ⟨fun _ _ => Iff.rfl, fun _ _ => nofun⟩, fun _ _ => nofun,
      nofun, nofun, rfl, rfl⟩, List.Subset.refl _, List.Subset.refl _, nofun, fun _ _ _ => rfl,
      nofun, ⟨rfl, nofun, nofun⟩⟩
  have hreferred : ∀ name ∈ decls.bundlesOf [.bundleList isa.bundleList],
      decls.BundleReferred isa name := fun name hname => ⟨name, hname, .refl⟩
  have hmid := hstart.visitBundleList hreferred
    (fun _ _ _ _ hinv hdecl hnew hreferred h =>
      bundlesVisited_visitBundleDeclaration hinv hdecl hnew hreferred h) hbundles
  have hset := hmid.visitSlotList (fun slot hslot => ⟨slot, .inl hslot, .refl⟩) hslots
  rw [List.nil_append, List.nil_append] at hset
  have hcomplete : ∀ name ∈ set.bundleMap,
      Contents set (some name) (decls.subBundles name) (decls.slotsIn name) :=
    fun name hname => hset.complete name hname List.not_mem_nil nofun
  have hbundleMap : ∀ name, decls.BundleReferred isa name → name ∈ set.bundleMap := by
    rintro name ⟨top, htop, hreaches⟩
    induction hreaches with
    | refl => exact hset.contents.bundles _ htop
    | tail _ hstep ih => exact (hcomplete _ ih).bundles _ hstep
  refine ⟨hset.inv, ?_, hbundleMap, hset.contents.bundleNames,
    fun name hname => (hcomplete name hname).bundleNames⟩
  rintro slot ⟨top, htop, hreaches⟩
  refine hset.inv.topological.mem_of_reaches ?_ hreaches
  rcases htop with htop | ⟨bundle, hbundle, htop⟩
  · exact hset.contents.slots top htop
  · exact (hcomplete bundle (hbundleMap bundle hbundle)).slots top htop

/-! ### Visits end -/

section

variable {rank : Name → Nat} {key : Option Name} {set : InstructionSet} {depth : Nat}

/-- `VisitSlotList` ends. -/
theorem exists_visitSlotList (horder : ∀ l, (order l).Perm l)
    (hrank : RankedOn decls.slotBases (decls.SlotReferred isa) rank)
    (hdepth : ∀ slot, 2 * rank slot < depth) {specs : List SlotSpec}
    (hreferred : ∀ slot ∈ decls.slotsOfList specs, decls.SlotReferred isa slot)
    (h : SlotsRanked rank set) :
    ∃ set', visitSlotList decls order depth key specs set = some set' ∧
      SlotsRanked rank set' := by
  refine foldlM_exists (fun _ cur => SlotsRanked rank cur) ?_ h
  intro _ spec hspec cur hcur
  cases hdecl : decls.slotDecl spec.name with
  | none => exact ⟨_, rfl, hcur.predecessors, hcur.ranked⟩
  | some decl =>
    have hname : decls.SlotReferred isa spec.name := by
      refine hreferred _ (List.mem_filter.mpr ⟨List.mem_map.mpr ⟨spec, hspec, rfl⟩, ?_⟩)
      rw [hdecl]
      rfl
    have hmid : ∃ mid, (if spec.name ∈ cur.slotMap then some cur
        else visitSlotDeclaration decls order depth spec.name decl cur) = some mid ∧
        SlotsRanked rank mid := by
      split
      · exact ⟨cur, rfl, hcur⟩
      · exact exists_visitSlotDeclaration horder hrank hdecl hname (hdepth spec.name) hcur
    obtain ⟨mid, hmid, hranked⟩ := hmid
    exact ⟨mid.appendSlot key spec, by dsimp only; rw [hmid]; rfl, hranked.predecessors,
      hranked.ranked⟩

theorem exists_visitBundleList
    {visit : Name → List BundlePart → InstructionSet → Option InstructionSet} {names : List Name}
    (hvisit : ∀ name ∈ decls.bundlesOf [.bundleList names], ∀ parts set,
      decls.bundleDecl name = some parts → SlotsRanked rank set →
      ∃ set', visit name parts set = some set' ∧ SlotsRanked rank set')
    (h : SlotsRanked rank set) :
    ∃ set', visitBundleList decls visit key names set = some set' ∧ SlotsRanked rank set' := by
  refine foldlM_exists (fun _ cur => SlotsRanked rank cur) ?_ h
  intro _ name hname cur hcur
  cases hdecl : decls.bundleDecl name with
  | none => exact ⟨_, rfl, hcur.predecessors, hcur.ranked⟩
  | some parts =>
    have hmem : name ∈ decls.bundlesOf [.bundleList names] := by
      refine List.mem_append_left _ (List.mem_filter.mpr ⟨hname, ?_⟩)
      rw [hdecl]
      rfl
    have hmid : ∃ mid, (if name ∈ cur.bundleMap then some cur else visit name parts cur) =
        some mid ∧ SlotsRanked rank mid := by
      split
      · exact ⟨cur, rfl, hcur⟩
      · exact hvisit name hmem parts cur hdecl hcur
    obtain ⟨mid, hmid, hranked⟩ := hmid
    exact ⟨mid.appendBundleName key name, by dsimp only; rw [hmid]; rfl, hranked.predecessors,
      hranked.ranked⟩

theorem exists_visitBundleParts (horder : ∀ l, (order l).Perm l)
    (hrank : RankedOn decls.slotBases (decls.SlotReferred isa) rank)
    (hdepth : ∀ slot, 2 * rank slot < depth) {name : Name}
    {visit : Name → List BundlePart → InstructionSet → Option InstructionSet}
    {parts : List BundlePart} {seen : List PartKind}
    (hvisit : ∀ name ∈ decls.bundlesOf (Declarations.visitedParts seen parts), ∀ parts set,
      decls.bundleDecl name = some parts → SlotsRanked rank set →
      ∃ set', visit name parts set = some set' ∧ SlotsRanked rank set')
    (hslots : ∀ slot ∈ decls.slotsOf (Declarations.visitedParts seen parts),
      decls.SlotReferred isa slot)
    (h : SlotsRanked rank set) :
    ∃ set', visitBundleParts decls order depth visit name seen parts set = some set' ∧
      SlotsRanked rank set' := by
  induction parts generalizing seen set with
  | nil => exact ⟨set, rfl, h⟩
  | cons part rest ih =>
    rw [visitBundleParts]
    rw [Declarations.visitedParts] at hvisit hslots
    split
    · exact ⟨_, rfl, h.predecessors, h.ranked⟩
    · rename_i hseen
      rw [if_neg hseen] at hvisit hslots
      have hpart : (∃ mid, visitBundlePart decls order depth visit name set part = some mid ∧
            SlotsRanked rank mid) ∧
          (∀ sub ∈ decls.bundlesOf (Declarations.visitedParts (part.kind :: seen) rest),
            sub ∈ decls.bundlesOf (part :: Declarations.visitedParts (part.kind :: seen) rest)) ∧
          ∀ slot ∈ decls.slotsOf (Declarations.visitedParts (part.kind :: seen) rest),
            slot ∈ decls.slotsOf (part :: Declarations.visitedParts (part.kind :: seen) rest) := by
        cases part with
        | slotList specs =>
          exact ⟨exists_visitSlotList horder hrank hdepth
            (fun slot hslot => hslots slot (List.mem_append_left _ hslot)) h,
            fun _ => id, fun _ => List.mem_append_right _⟩
        | bundleList names =>
          refine ⟨exists_visitBundleList (fun sub hsub => hvisit sub ?_) h,
            fun _ => List.mem_append_right _, fun _ => id⟩
          exact List.mem_append_left _ (List.append_nil (List.filter _ names) ▸ hsub)
        | includeFileList => exact ⟨⟨set, rfl, h⟩, fun _ => id, fun _ => id⟩
        | semfuncSpec => exact ⟨⟨set, rfl, h⟩, fun _ => id, fun _ => id⟩
      obtain ⟨⟨mid, hmid, hranked⟩, hsubs, hslotsRest⟩ := hpart
      obtain ⟨set', hset', hranked⟩ := ih (fun sub hsub => hvisit sub (hsubs sub hsub))
        (fun slot hslot => hslots slot (hslotsRest slot hslot)) hranked
      exact ⟨set', by rw [hmid]; exact hset', hranked⟩

/-- A visit of a bundle ends if its depth is not bounded by the ranks of the slots and of the
    bundle. -/
theorem exists_visitBundleDeclaration (horder : ∀ l, (order l).Perm l)
    (hrank : RankedOn decls.slotBases (decls.SlotReferred isa) rank) {bundleRank : Name → Nat}
    (hbundleRank : RankedOn decls.subBundles (decls.BundleReferred isa) bundleRank) {bound : Nat}
    (hbound : ∀ slot, 2 * rank slot < bound) {name : Name} {parts : List BundlePart}
    (hdecl : decls.bundleDecl name = some parts) (hname : decls.BundleReferred isa name)
    (hdepth : bound + bundleRank name < depth) (h : SlotsRanked rank set) :
    ∃ set', visitBundleDeclaration decls order depth name parts set = some set' ∧
      SlotsRanked rank set' := by
  induction depth generalizing name parts set with
  | zero => exact absurd hdepth (Nat.not_lt_zero _)
  | succ depth ih =>
    rw [visitBundleDeclaration]
    have hle : bound ≤ depth := by omega
    refine exists_visitBundleParts horder hrank (fun slot => (hbound slot).trans_le hle)
      (fun sub hsub subParts cur hsubDecl hranked => ?_) (fun slot hslot => ?_)
      ⟨h.predecessors, h.ranked⟩
    · have hmem : sub ∈ decls.subBundles name := by
        unfold Declarations.subBundles
        rw [hdecl]
        exact hsub
      have hlt := hbundleRank.lt name hname sub hmem
      exact ih hsubDecl (bundleReferred_of_mem hname hmem) (by omega) hranked
    · refine slotReferred_of_mem hname ?_
      unfold Declarations.slotsIn
      rw [hdecl]
      exact hslot

/-- **Visits end.** The instruction set is visited if the depth is not bounded by the ranks of the
    slots and of the bundles. -/
theorem exists_visitIsaDeclaration (horder : ∀ l, (order l).Perm l)
    (hrank : RankedOn decls.slotBases (decls.SlotReferred isa) rank) {bundleRank : Name → Nat}
    (hbundleRank : RankedOn decls.subBundles (decls.BundleReferred isa) bundleRank) (bound : Nat)
    (hbound : ∀ slot, 2 * rank slot < bound)
    (hdepth : ∀ name, bound + bundleRank name < depth) (hle : bound ≤ depth) :
    ∃ set, visitIsaDeclaration decls isa order depth = some set ∧ SlotsRanked rank set := by
  have hbundles : ∃ mid, visitBundleList decls (visitBundleDeclaration decls order depth) none
      isa.bundleList {} = some mid ∧ SlotsRanked rank mid := by
    refine exists_visitBundleList (fun name hname parts set hdecl hranked => ?_)
      ⟨fun _ _ => Iff.rfl, fun _ _ => nofun⟩
    exact exists_visitBundleDeclaration horder hrank hbundleRank hbound hdecl
      ⟨name, hname, .refl⟩ (hdepth name) hranked
  obtain ⟨mid, hmid, hranked⟩ := hbundles
  have hslots : ∃ set, visitSlotList decls order depth none isa.slotList mid = some set ∧
      SlotsRanked rank set :=
    exists_visitSlotList horder hrank (fun slot => (hbound slot).trans_le hle)
      (fun slot hslot => ⟨slot, .inl hslot, .refl⟩) hranked
  obtain ⟨set, hset, hranked⟩ := hslots
  exact ⟨set, by unfold visitIsaDeclaration; rw [hmid]; exact hset, hranked⟩

end

end MpactSim.Isa
