import MpactSim.Isa.SlotInheritance

namespace MpactSim.Isa

open Decoder (Name)
open Lib

/-!
# The contents of a slot

The loops of `VisitOpcodeList` are followed in two ways.

* `Grows`          — whatever a loop does, it adds only instructions that it could add;
* `Filled`         — what the loop over the base slots does if nothing goes wrong;
* `inherits_iff`   — when the slot has the instructions that it ought to have.
-/

variable {assertions : Bool} {order : Nat → List Override → List Override}
  {bases : List BaseSlot} {factory : OpcodeFactory} {specs : List OpcodeSpec} {slot : Slot}
  {hasList : Bool} {deleted : List Name}

/-! ### What is added -/

/-- From one slot to another only instructions with the names `Q` are added. -/
structure Grows (Q : Name → Prop) (slot slot' : Slot) : Prop where
  isTemplated : slot'.isTemplated = slot.isTemplated
  added : ∀ name, slot'.hasInstruction name → slot.hasInstruction name ∨ Q name

variable {Q : Name → Prop} {inst : Instruction} {visit visit' : Visit} {name : Name}

theorem Grows.refl (slot : Slot) : Grows Q slot slot :=
  ⟨rfl, fun _ h => .inl h⟩

theorem Grows.trans {a b c : Slot} (h : Grows Q a b) (h' : Grows Q b c) : Grows Q a c := by
  refine ⟨h'.isTemplated.trans h.isTemplated, fun name hname => ?_⟩
  rcases h'.added name hname with hname | hname
  · exact h.added name hname
  · exact .inr hname

theorem Grows.mono {Q' : Name → Prop} {a b : Slot} (h : Grows Q a b)
    (himp : ∀ name, Q name → Q' name) : Grows Q' a b :=
  ⟨h.isTemplated, fun name hname => (h.added name hname).imp_right (himp name)⟩

theorem grows_put (h : Q inst.name) : Grows Q slot (slot.put inst) := by
  refine ⟨rfl, fun name hname => ?_⟩
  rcases Slot.hasInstruction_put.mp hname with rfl | hname
  · exact .inr h
  · exact .inl hname

/-- A base slot has an instruction that is not deleted, into which the arguments can be put, and
    the latencies are valid. -/
def Derivable (assertions isTemplated : Bool) (deleted : List Name) (base : BaseSlot)
    (name : Name) : Prop :=
  name ∉ deleted ∧ ∃ inst, base.base.instructionMap.lookup name = some inst ∧ ∃ derived,
    (createDerivedInstruction assertions base.arguments inst).run = some (.ok derived) ∧
      validLatencies isTemplated derived = some true

theorem mem_inherited {base : BaseSlot} {e : Name × Instruction} :
    (e ∈ base.base.instructionMap.entries.filter fun e => e.2.name ∉ deleted) ↔
      base.base.instructionMap.lookup e.1 = some e.2 ∧ e.1 = e.2.name ∧ e.2.name ∉ deleted := by
  rw [List.mem_filter, SortedMap.lookup_eq_some_iff]
  constructor
  · rintro ⟨hmem, hdeleted⟩
    have hname := base.base.named e.1 e.2 (SortedMap.lookup_eq_some_iff.mpr hmem)
    exact ⟨hmem, hname.symm, by simpa using hdeleted⟩
  · rintro ⟨hmem, -, hdeleted⟩
    exact ⟨hmem, by simpa using hdeleted⟩

theorem grows_inheritInstructions {base : BaseSlot}
    (h : inheritInstructions assertions hasList deleted visit base = some visit') :
    Grows (Derivable assertions visit.2.isTemplated deleted base) visit.2 visit'.2 := by
  refine foldlM_invariant
    (fun v => Grows (Derivable assertions visit.2.isTemplated deleted base) visit.2 v.2)
    (fun v e he v' hv hstep => ?_) h ⟨rfl, fun _ h => .inl h⟩
  obtain ⟨hlookup, hkey, hdeleted⟩ := mem_inherited.mp he
  rcases report_eq_some hstep with hrun | hsame
  · obtain ⟨-, derived, hderived, hvalid, hput⟩ := Slot.appendInheritedInstruction_eq_ok_iff.mp hrun
    rw [hput]
    refine hv.trans (grows_put ?_)
    rw [name_of_createDerivedInstruction hderived, ← hkey]
    rw [← hkey] at hdeleted
    rw [hv.isTemplated] at hvalid
    exact ⟨hdeleted, e.2, hlookup, derived, hderived, hvalid⟩
  · rw [hsame]
    exact hv

theorem performOpcodeOverrides_eq_some {l : List Override}
    (h : performOpcodeOverrides l visit = some visit') :
    (∀ o ∈ l, visit.2.hasInstruction o.1) ∧ Grows (fun _ => False) visit.2 visit'.2 := by
  induction l generalizing visit with
  | nil =>
    cases h
    exact ⟨fun _ ho => (nomatch ho), .refl _⟩
  | cons o rest ih =>
    obtain ⟨mid, hmid, h⟩ := Option.bind_eq_some_iff.mp h
    obtain ⟨inst, hinst, rfl⟩ := Option.map_eq_some_iff.mp hmid
    have hname : inst.name = o.1 := visit.2.named o.1 inst hinst
    have hhas : visit.2.hasInstruction o.1 := Slot.hasInstruction_of_lookup hinst
    have hput : Grows (fun _ => False) visit.2
        (visit.2.put (visitOpcodeAttributes o.2 inst).2) := by
      refine ⟨rfl, fun name h => ?_⟩
      rcases Slot.hasInstruction_put.mp h with rfl | h
      · rw [name_visitOpcodeAttributes, hname]
        exact .inl hhas
      · exact .inl h
    obtain ⟨hrest, hgrows⟩ := ih h
    refine ⟨fun o' ho' => ?_, hput.trans hgrows⟩
    rcases List.mem_cons.mp ho' with rfl | ho'
    · exact hhas
    · exact (hput.added _ (hrest o' ho')).resolve_right id

theorem grows_visitBases {overridden : List Override} {n : Nat}
    (h : visitBases assertions order hasList deleted overridden n bases visit = some visit') :
    Grows (fun name => ∃ b ∈ bases, Derivable assertions visit.2.isTemplated deleted b name)
      visit.2 visit'.2 := by
  induction bases generalizing n visit with
  | nil =>
    cases h
    exact .refl _
  | cons base rest ih =>
    obtain ⟨mid, hmid, h⟩ := Option.bind_eq_some_iff.mp h
    obtain ⟨next, hnext, h⟩ := Option.bind_eq_some_iff.mp h
    have hinherit := grows_inheritInstructions hmid
    have hoverride := (performOpcodeOverrides_eq_some hnext).2
    have hrest := ih h
    rw [hoverride.isTemplated, hinherit.isTemplated] at hrest
    refine (hinherit.mono fun name hname => ?_).trans
      ((hoverride.mono fun name hname => hname.elim).trans (hrest.mono fun name hname => ?_))
    · exact ⟨base, List.mem_cons_self, hname⟩
    · obtain ⟨b, hb, hname⟩ := hname
      exact ⟨b, List.mem_cons_of_mem base hb, hname⟩

theorem grows_appendInstructions {insts : List Instruction} (h : insts.foldlM (fun visit inst =>
      report hasList visit (visit.2.appendInstruction inst)) visit = some visit') :
    Grows (fun name => ∃ inst ∈ insts, inst.name = name ∧
      validLatencies visit.2.isTemplated inst = some true) visit.2 visit'.2 := by
  refine foldlM_invariant (fun v => Grows (fun name => ∃ inst ∈ insts, inst.name = name ∧
    validLatencies visit.2.isTemplated inst = some true) visit.2 v.2)
    (fun v inst hinst v' hv hstep => ?_) h (.refl _)
  rcases report_eq_some hstep with hrun | hsame
  · obtain ⟨hvalid, -, hput⟩ := Slot.appendInstruction_eq_ok_iff.mp hrun
    rw [hput]
    rw [hv.isTemplated] at hvalid
    exact hv.trans (grows_put ⟨inst, hinst, rfl, hvalid⟩)
  · rw [hsame]
    exact hv

/-! ### What is found in the slot -/

theorem report_of_ok {result : StatusOr Slot} (h : result.run = some (.ok slot)) :
    report hasList visit result = some (visit.1, slot) := by
  rw [report, h]

theorem exists_foldlM_put {γ : Type} {step : Visit → γ → Option Visit} {l : List γ}
    {made : γ → Instruction} {visit : Visit} (hnames : (l.map fun c => (made c).name).Nodup)
    (hnew : ∀ c ∈ l, visit.2.instructionMap.lookup (made c).name = none)
    (hstep : ∀ c ∈ l, ∀ v : Visit, v.2.isTemplated = visit.2.isTemplated →
      v.2.instructionMap.lookup (made c).name = none → step v c = some (v.1, v.2.put (made c))) :
    ∃ visit', l.foldlM step visit = some visit' ∧
      visit'.2.isTemplated = visit.2.isTemplated ∧
      (∀ c ∈ l, visit'.2.instructionMap.lookup (made c).name = some (made c)) ∧
      ∀ name, (∀ c ∈ l, (made c).name ≠ name) →
        visit'.2.instructionMap.lookup name = visit.2.instructionMap.lookup name := by
  induction l generalizing visit with
  | nil => exact ⟨visit, rfl, rfl, fun _ he => (nomatch he), fun _ _ => rfl⟩
  | cons c rest ih =>
    obtain ⟨hfirst, hnames⟩ := List.nodup_cons.mp hnames
    have hne : ∀ c' ∈ rest, (made c').name ≠ (made c).name :=
      fun c' hc' heq => hfirst (List.mem_map.mpr ⟨c', hc', heq⟩)
    have hnew' : ∀ c' ∈ rest,
        (visit.2.put (made c)).instructionMap.lookup (made c').name = none := by
      intro c' hc'
      rw [Slot.lookup_put, if_neg (hne c' hc')]
      exact hnew c' (List.mem_cons_of_mem c hc')
    obtain ⟨visit', hfold, htemplated, hfound, hother⟩ := @ih (visit.1, visit.2.put (made c))
      hnames hnew' fun c' hc' => hstep c' (List.mem_cons_of_mem c hc')
    refine ⟨visit', ?_, htemplated, fun c' hc' => ?_, fun name hname => ?_⟩
    · rw [List.foldlM_cons, hstep c List.mem_cons_self visit rfl (hnew c List.mem_cons_self)]
      exact hfold
    · rcases List.mem_cons.mp hc' with rfl | hc'
      · rw [hother _ hne, Slot.lookup_put, if_pos rfl]
      · exact hfound c' hc'
    · rw [hother name fun c' hc' => hname c' (List.mem_cons_of_mem c hc'), Slot.lookup_put,
        if_neg (hname c List.mem_cons_self).symm]

theorem exists_inheritInstructions {base : BaseSlot} {visit : Visit}
    (hderived : ∀ name ∉ deleted, ∀ inst, base.base.instructionMap.lookup name = some inst →
      ∃ derived, (createDerivedInstruction assertions base.arguments inst).run = some (.ok derived) ∧
        validLatencies visit.2.isTemplated derived = some true)
    (hnew : ∀ name ∉ deleted, base.base.hasInstruction name →
      visit.2.instructionMap.lookup name = none) :
    ∃ visit', inheritInstructions assertions hasList deleted visit base = some visit' ∧
      visit'.2.isTemplated = visit.2.isTemplated ∧
      (∀ name ∉ deleted, ∀ inst, base.base.instructionMap.lookup name = some inst → ∀ derived,
        (createDerivedInstruction assertions base.arguments inst).run = some (.ok derived) →
        visit'.2.instructionMap.lookup name = some derived) ∧
      ∀ name, ¬ (name ∉ deleted ∧ base.base.hasInstruction name) →
        visit'.2.instructionMap.lookup name = visit.2.instructionMap.lookup name := by
  have hmem := fun e : Name × Instruction => @mem_inherited deleted base e
  have hmade : ∀ e : Name × Instruction, ∃ derived : Instruction,
      (e ∈ base.base.instructionMap.entries.filter fun e => e.2.name ∉ deleted) →
      (createDerivedInstruction assertions base.arguments e.2).run = some (.ok derived) ∧
        validLatencies visit.2.isTemplated derived = some true ∧ derived.name = e.1 := by
    intro e
    by_cases he : e ∈ base.base.instructionMap.entries.filter fun e => e.2.name ∉ deleted
    · obtain ⟨hlookup, hkey, hdeleted⟩ := (hmem e).mp he
      obtain ⟨derived, hrun, hvalid⟩ := hderived e.1 (hkey ▸ hdeleted) e.2 hlookup
      exact ⟨derived, fun _ => ⟨hrun, hvalid, (name_of_createDerivedInstruction hrun).trans hkey.symm⟩⟩
    · exact ⟨e.2, fun h => absurd h he⟩
  choose made hmade using hmade
  have hhas : ∀ e : Name × Instruction, base.base.instructionMap.lookup e.1 = some e.2 →
      base.base.hasInstruction e.1 := by
    exact fun e hlookup => Slot.hasInstruction_of_lookup hlookup
  have hkeys : (base.base.instructionMap.entries.map Prod.fst).Nodup :=
    List.pairwise_map.mpr (base.base.instructionMap.sorted.imp fun h => ne_of_lt h)
  obtain ⟨visit', hfold, htemplated, hfound, hother⟩ := @exists_foldlM_put _
    (fun visit e => report hasList visit
      (visit.2.appendInheritedInstruction assertions base.arguments e.2))
    (base.base.instructionMap.entries.filter fun e => e.2.name ∉ deleted) made
    (visit.1, { visit.2 with
      minInstructionSize := min visit.2.minInstructionSize base.base.minInstructionSize })
    (by
      rw [List.map_congr_left fun e he => (hmade e he).2.2]
      exact hkeys.sublist (List.filter_sublist.map Prod.fst))
    (fun e he => by
      obtain ⟨hlookup, hkey, hdeleted⟩ := (hmem e).mp he
      rw [(hmade e he).2.2]
      exact hnew e.1 (hkey ▸ hdeleted) (hhas e hlookup))
    (fun e he v htemplated hnew => by
      obtain ⟨hrun, hvalid, hname⟩ := hmade e he
      rw [hname, ((hmem e).mp he).2.1] at hnew
      refine report_of_ok (Slot.appendInheritedInstruction_eq_ok_iff.mpr
        ⟨hnew, made e, hrun, ?_, rfl⟩)
      rw [htemplated]
      exact hvalid)
  refine ⟨visit', hfold, htemplated, fun name hname inst hinst derived hrun => ?_,
    fun name hname => ?_⟩
  · have hkey := base.base.named name inst hinst
    have he := (hmem (name, inst)).mpr ⟨hinst, hkey.symm, hkey ▸ hname⟩
    have hlookup := hfound _ he
    obtain ⟨hrun', -, hname'⟩ := hmade _ he
    rw [hrun] at hrun'
    cases hrun'
    rwa [hname'] at hlookup
  · refine hother name fun e he heq => hname ?_
    obtain ⟨hlookup, hkey, hdeleted⟩ := (hmem e).mp he
    rw [(hmade e he).2.2] at heq
    subst heq
    exact ⟨hkey ▸ hdeleted, hhas e hlookup⟩

theorem exists_appendInstructions {insts : List Instruction} {visit : Visit}
    (hnames : (insts.map (·.name)).Nodup)
    (hvalid : ∀ inst ∈ insts, validLatencies visit.2.isTemplated inst = some true)
    (hnew : ∀ inst ∈ insts, visit.2.instructionMap.lookup inst.name = none) :
    ∃ visit', insts.foldlM (fun visit inst =>
        report hasList visit (visit.2.appendInstruction inst)) visit = some visit' ∧
      (∀ inst ∈ insts, visit'.2.instructionMap.lookup inst.name = some inst) ∧
      ∀ name, (∀ inst ∈ insts, inst.name ≠ name) →
        visit'.2.instructionMap.lookup name = visit.2.instructionMap.lookup name := by
  obtain ⟨visit', hfold, -, hfound, hother⟩ := @exists_foldlM_put _
    (fun visit inst => report hasList visit (visit.2.appendInstruction inst)) insts id visit
    hnames hnew fun inst hinst v htemplated hnew => report_of_ok
      (Slot.appendInstruction_eq_ok_iff.mpr ⟨by rw [htemplated]; exact hvalid inst hinst, hnew, rfl⟩)
  exact ⟨visit', hfold, hfound, hother⟩

/-- Overrides of instructions that are there apply to the instructions of their names. -/
theorem exists_performOpcodeOverrides {l : List Override} {visit : Visit}
    (h : ∀ o ∈ l, visit.2.hasInstruction o.1) :
    ∃ visit', performOpcodeOverrides l visit = some visit' ∧
      visit'.2.isTemplated = visit.2.isTemplated ∧
      ∀ name, visit'.2.instructionMap.lookup name =
        (visit.2.instructionMap.lookup name).map
          (overriddenBy (l.filter fun o => o.1 = name)) := by
  induction l generalizing visit with
  | nil =>
    refine ⟨visit, rfl, rfl, fun name => ?_⟩
    show _ = (visit.2.instructionMap.lookup name).map id
    rw [Option.map_id_fun, id]
  | cons o rest ih =>
    obtain ⟨inst, hinst⟩ := Option.isSome_iff_exists.mp (h o List.mem_cons_self)
    have hname : inst.name = o.1 := visit.2.named o.1 inst hinst
    have hname' : (visitOpcodeAttributes o.2 inst).2.name = o.1 := by
      rw [name_visitOpcodeAttributes, hname]
    have hstep : performOpcodeOverride visit o = some
        (visit.1 ++ (visitOpcodeAttributes o.2 inst).1,
          visit.2.put (visitOpcodeAttributes o.2 inst).2) := by
      rw [performOpcodeOverride, hinst]
      rfl
    obtain ⟨visit', hfold, htemplated, hfound⟩ := @ih
      (visit.1 ++ (visitOpcodeAttributes o.2 inst).1, visit.2.put (visitOpcodeAttributes o.2 inst).2)
      fun o' ho' => Slot.hasInstruction_put.mpr (.inr (h o' (List.mem_cons_of_mem o ho')))
    refine ⟨visit', ?_, htemplated, fun name => ?_⟩
    · rw [performOpcodeOverrides, List.foldlM_cons, hstep]
      exact hfold
    · rw [hfound, Slot.lookup_put, hname', List.filter_cons]
      by_cases heq : name = o.1
      · subst heq
        simp [hinst, overriddenBy]
      · simp [heq, Ne.symm heq]

theorem overriddenBy_eq (l : List Override) (inst : Instruction) :
    overriddenBy l inst = (l.map Prod.snd).foldl
      (fun inst attributes => (visitOpcodeAttributes attributes inst).2) inst := by
  rw [overriddenBy, List.foldl_map]

theorem overriddenBy_overriddenBy {l l' : List Override} (hsub : l ⊆ l') (inst : Instruction) :
    overriddenBy l' (overriddenBy l inst) = overriddenBy l' inst := by
  rw [overriddenBy_eq, overriddenBy_eq, overriddenBy_eq]
  exact foldl_visitOpcodeAttributes (List.map_subset Prod.snd hsub) inst

/-- What holds when some of the base slots have been visited: their instructions that are not
    deleted are there, with the overrides in some order. -/
structure Filled (assertions : Bool) (specs : List OpcodeSpec) (slot : Slot)
    (done : List BaseSlot) (slot' : Slot) : Prop where
  isTemplated : slot'.isTemplated = slot.isTemplated
  inherited : ∀ b ∈ done, ∀ name ∉ deletedNames specs, ∀ inst,
    b.base.instructionMap.lookup name = some inst →
    ∃ derived, (createDerivedInstruction assertions b.arguments inst).run = some (.ok derived) ∧
      ∃ l, l.Perm ((overrides specs).filter fun o => o.1 = name) ∧
        slot'.instructionMap.lookup name = some (overriddenBy l derived)
  origin : ∀ name, slot'.hasInstruction name →
    ∃ b ∈ done, b.base.hasInstruction name ∧ name ∉ deletedNames specs

theorem not_hasInstruction_of_countP_le {done rest : List BaseSlot} {base : BaseSlot}
    (hcount : (done ++ base :: rest).countP (·.base.hasInstruction name) ≤ 1)
    (hbase : base.base.hasInstruction name) : ∀ b ∈ done, ¬ b.base.hasInstruction name := by
  intro b hb hname
  have hpos : 0 < done.countP (·.base.hasInstruction name) :=
    List.countP_pos_iff.mpr ⟨b, hb, hname⟩
  rw [List.countP_append, List.countP_cons, if_pos hbase] at hcount
  omega

theorem Filled.step {done rest : List BaseSlot} {base : BaseSlot} {visit : Visit} (n : Nat)
    (horder : ∀ n l, (order n l).Perm l) (hvalid : Valid (done ++ base :: rest) factory specs)
    (hinherit : Inheritable assertions (done ++ base :: rest) factory specs slot)
    (hfilled : Filled assertions specs slot done visit.2) :
    ∃ mid next, inheritInstructions assertions hasList (deletedNames specs) visit base = some mid ∧
      performOpcodeOverrides (order n (overrides specs)) mid = some next ∧
      Filled assertions specs slot (done ++ [base]) next.2 := by
  have hmem : base ∈ done ++ base :: rest := by simp
  have hnew : ∀ name ∉ deletedNames specs, base.base.hasInstruction name →
      visit.2.instructionMap.lookup name = none := by
    intro name hdeleted hname
    rw [← Slot.hasInstruction_eq_false, ← Bool.not_eq_true]
    intro hhas
    obtain ⟨b, hb, hb', -⟩ := hfilled.origin name hhas
    exact not_hasInstruction_of_countP_le (hvalid.inherited name hdeleted) hname b hb hb'
  have hderived := hinherit.derived base hmem
  rw [← hfilled.isTemplated] at hderived
  obtain ⟨mid, hmid, hmid_templated, hmid_found, hmid_other⟩ :=
    @exists_inheritInstructions assertions hasList _ base visit hderived hnew
  -- An instruction of an earlier base slot has stayed as it was.
  have hearlier : ∀ b ∈ done, ∀ name ∉ deletedNames specs, b.base.hasInstruction name →
      mid.2.instructionMap.lookup name = visit.2.instructionMap.lookup name := by
    intro b hb name hdeleted hname
    refine hmid_other name fun ⟨_, hbase⟩ => ?_
    exact not_hasInstruction_of_countP_le (hvalid.inherited name hdeleted) hbase b hb hname
  have hthere : ∀ o ∈ order n (overrides specs), mid.2.hasInstruction o.1 := by
    intro o ho
    obtain ⟨hdeleted, hfirst⟩ := hinherit.overridden o ((horder n _).mem_iff.mp ho)
    cases done with
    | nil =>
      obtain ⟨inst, hinst⟩ := Option.isSome_iff_exists.mp (hfirst base rfl)
      obtain ⟨derived, hrun, -⟩ := hderived o.1 hdeleted inst hinst
      exact Slot.hasInstruction_of_lookup (hmid_found o.1 hdeleted inst hinst derived hrun)
    | cons b done =>
      have hhas := hfirst b rfl
      obtain ⟨inst, hinst⟩ := Option.isSome_iff_exists.mp hhas
      obtain ⟨derived, -, l, -, hlookup⟩ :=
        hfilled.inherited b List.mem_cons_self o.1 hdeleted inst hinst
      rw [← hearlier b List.mem_cons_self o.1 hdeleted hhas] at hlookup
      exact Slot.hasInstruction_of_lookup hlookup
  obtain ⟨next, hnext, hnext_templated, hnext_found⟩ := exists_performOpcodeOverrides hthere
  have hperm : ∀ name, ((order n (overrides specs)).filter fun o => o.1 = name).Perm
      ((overrides specs).filter fun o => o.1 = name) := fun name => (horder n _).filter _
  refine ⟨mid, next, hmid, hnext, ?_, ?_, ?_⟩
  · rw [hnext_templated, hmid_templated, hfilled.isTemplated]
  · intro b hb name hdeleted inst hinst
    rcases List.mem_append.mp hb with hb | hb
    · -- The overrides have been made before, in another order perhaps.
      obtain ⟨derived, hrun, l, hl, hlookup⟩ := hfilled.inherited b hb name hdeleted inst hinst
      refine ⟨derived, hrun, _, hperm name, ?_⟩
      have hhas : b.base.hasInstruction name := Slot.hasInstruction_of_lookup hinst
      rw [hnext_found, hearlier b hb name hdeleted hhas, hlookup, Option.map_some,
        overriddenBy_overriddenBy fun o ho => (hperm name).mem_iff.mpr (hl.mem_iff.mp ho)]
    · obtain rfl := List.mem_singleton.mp hb
      obtain ⟨derived, hrun, -⟩ := hderived name hdeleted inst hinst
      refine ⟨derived, hrun, _, hperm name, ?_⟩
      rw [hnext_found, hmid_found name hdeleted inst hinst derived hrun, Option.map_some]
  · intro name hname
    have hname : mid.2.hasInstruction name := by
      rw [Slot.hasInstruction, hnext_found, Option.isSome_map] at hname
      exact hname
    rcases (grows_inheritInstructions hmid).added name hname with hname | hname
    · obtain ⟨b, hb, h⟩ := hfilled.origin name hname
      exact ⟨b, List.mem_append_left _ hb, h⟩
    · obtain ⟨hdeleted, inst, hinst, -⟩ := hname
      exact ⟨base, List.mem_append_right _ (List.mem_singleton_self base),
        Slot.hasInstruction_of_lookup hinst, hdeleted⟩

theorem exists_visitBases {done rest : List BaseSlot} {visit : Visit} (n : Nat)
    (horder : ∀ n l, (order n l).Perm l) (hvalid : Valid (done ++ rest) factory specs)
    (hinherit : Inheritable assertions (done ++ rest) factory specs slot)
    (hfilled : Filled assertions specs slot done visit.2) :
    ∃ visit', visitBases assertions order hasList (deletedNames specs) (overrides specs) n rest
        visit = some visit' ∧ Filled assertions specs slot (done ++ rest) visit'.2 := by
  induction rest generalizing done visit n with
  | nil => exact ⟨visit, rfl, by rwa [List.append_nil]⟩
  | cons base rest ih =>
    obtain ⟨mid, next, hmid, hnext, hfilled'⟩ :=
      @Filled.step assertions order factory specs slot hasList done rest base visit n horder hvalid
        hinherit hfilled
    have happend : done ++ base :: rest = (done ++ [base]) ++ rest := by simp
    rw [happend] at hvalid hinherit ⊢
    obtain ⟨visit', hrest, hfilled''⟩ := ih (n + 1) hvalid hinherit hfilled'
    refine ⟨visit', ?_, hfilled''⟩
    rw [visitBases, hmid]
    show (performOpcodeOverrides _ mid).bind _ = _
    rw [hnext]
    exact hrest

/-! ### The contents -/

theorem eq_of_countP_le {b b' : BaseSlot} (hcount : bases.countP (·.base.hasInstruction name) ≤ 1)
    (hb : b ∈ bases) (hname : b.base.hasInstruction name) (hb' : b' ∈ bases)
    (hname' : b'.base.hasInstruction name) : b = b' := by
  obtain ⟨before, after, rfl⟩ := List.append_of_mem hb
  have hbefore := not_hasInstruction_of_countP_le hcount hname
  rw [List.countP_append, List.countP_cons, if_pos hname] at hcount
  rcases List.mem_append.mp hb' with hmem | hmem
  · exact absurd hname' (hbefore b' hmem)
  rcases List.mem_cons.mp hmem with rfl | hmem
  · rfl
  · have hpos : 0 < after.countP (·.base.hasInstruction name) :=
      List.countP_pos_iff.mpr ⟨b', hmem, hname'⟩
    omega

/-- Every instruction of a base slot has an opcode that was created before. -/
def Created (bases : List BaseSlot) (factory : OpcodeFactory) : Prop :=
  ∀ b ∈ bases, ∀ name, b.base.hasInstruction name → name ∈ factory.opcodeNames

theorem name_ne_of_created (hcreated : Created bases factory) (hvalid : Valid bases factory specs)
    {value : Int} (hinst : inst ∈ declaredInstructions slot value specs) {b : BaseSlot}
    (hb : b ∈ bases) (hname : b.base.hasInstruction name) : inst.name ≠ name := by
  rintro rfl
  have hdeclared : inst.name ∈ declaredNames specs := by
    rw [← map_name_declaredInstructions slot value]
    exact List.mem_map_of_mem hinst
  exact (List.nodup_append'.mp hvalid.declared).2.2 (hcreated b hb _ hname) hdeclared

theorem visitOpcodeList_eq {opcodes : Option (List OpcodeSpec)}
    (hvalid : Valid bases factory (opcodes.getD [])) :
    ∃ errors start, SameSlot slot start ∧
      visitOpcodeList assertions order bases factory opcodes slot =
        (visitBases assertions order opcodes.isSome (deletedNames (opcodes.getD []))
          (overrides (opcodes.getD [])) 0 bases (errors, start)).bind fun visit =>
        (declaredInstructions slot factory.opcodeValue (opcodes.getD [])).foldlM (fun visit inst =>
          report opcodes.isSome visit (visit.2.appendInstruction inst)) visit := by
  have hcollects := @collects_foldl bases _ { factory := factory, slot := slot }
    hvalid.deleted hvalid.overridden hvalid.declared
  refine ⟨((opcodes.getD []).foldl (processOpcodeSpec bases) { factory := factory, slot := slot }).errors,
    _, hcollects.slot, ?_⟩
  rw [visitOpcodeList]
  rw [hcollects.instructionVec, hcollects.deletedOps, hcollects.overriddenOps]
  rfl

/-- **The contents of a slot.** The visitor ends, and leaves the slot with the instructions that it
    ought to have, exactly if every overridden opcode is inherited from the first base slot and
    not deleted, all inherited instructions can be derived, and latencies are valid. -/
theorem inherits_iff {opcodes : Option (List OpcodeSpec)} (horder : ∀ n l, (order n l).Perm l)
    (hempty : slot.instructionMap = .empty) (hcreated : Created bases factory)
    (hvalid : Valid bases factory (opcodes.getD [])) :
    InheritsExactly assertions order bases factory slot opcodes ↔
      Inheritable assertions bases factory (opcodes.getD []) slot := by
  obtain ⟨errors, start, hstart, heq⟩ := @visitOpcodeList_eq assertions order bases factory slot
    opcodes hvalid
  have hnothing : ∀ name, ¬ start.hasInstruction name := by
    intro name
    rw [Slot.hasInstruction, hstart.instructionMap, hempty]
    simp
  unfold InheritsExactly
  rw [heq]
  constructor
  · rintro ⟨visit, hrun, hcontents⟩
    obtain ⟨mid, hbases, hdeclared⟩ := Option.bind_eq_some_iff.mp hrun
    have hgrows := grows_visitBases hbases
    have hgrows' := grows_appendInstructions hdeclared
    rw [hgrows.isTemplated, hstart.isTemplated] at hgrows'
    rw [hstart.isTemplated] at hgrows
    -- Where an instruction of the slot comes from.
    have horigin : ∀ name, visit.2.hasInstruction name →
        (∃ b ∈ bases, Derivable assertions slot.isTemplated (deletedNames (opcodes.getD [])) b name) ∨
        ∃ inst ∈ declaredInstructions slot factory.opcodeValue (opcodes.getD []), inst.name = name ∧
          validLatencies slot.isTemplated inst = some true := by
      intro name hname
      rcases hgrows'.added name hname with hname | hname
      · exact .inl ((hgrows.added name hname).resolve_left (hnothing name))
      · exact .inr hname
    refine ⟨fun o ho => ?_, fun b hb name hdeleted inst hinst => ?_, fun inst hinst => ?_⟩
    · -- The overrides are made after the first base slot.
      cases bases with
      | nil =>
        have := hvalid.overridden o ho
        cases this
      | cons base rest =>
        obtain ⟨first, hfirst, hbases⟩ := Option.bind_eq_some_iff.mp hbases
        obtain ⟨next, hnext, -⟩ := Option.bind_eq_some_iff.mp hbases
        have hhas := (performOpcodeOverrides_eq_some hnext).1 o ((horder 0 _).mem_iff.mpr ho)
        obtain ⟨hdeleted, inst, hinst, -⟩ :=
          ((grows_inheritInstructions hfirst).added o.1 hhas).resolve_left (hnothing o.1)
        refine ⟨hdeleted, fun b hb => ?_⟩
        cases hb
        exact Slot.hasInstruction_of_lookup hinst
    · have hname : b.base.hasInstruction name := Slot.hasInstruction_of_lookup hinst
      obtain ⟨derived, -, l, -, hlookup⟩ := hcontents.inherited b hb name hdeleted inst hinst
      rcases horigin name (Slot.hasInstruction_of_lookup hlookup) with hfrom | hfrom
      · obtain ⟨b', hb', -, inst', hinst', hderived⟩ := hfrom
        have hname' : b'.base.hasInstruction name := Slot.hasInstruction_of_lookup hinst'
        obtain rfl := eq_of_countP_le (hvalid.inherited name hdeleted) hb hname hb' hname'
        rw [hinst] at hinst'
        cases hinst'
        exact hderived
      · obtain ⟨inst', hinst', heq, -⟩ := hfrom
        exact absurd heq (name_ne_of_created hcreated hvalid hinst' hb hname)
    · have hlookup := hcontents.declared inst hinst
      rcases horigin inst.name (Slot.hasInstruction_of_lookup hlookup) with hfrom | hfrom
      · obtain ⟨b, hb, -, inst', hinst', -⟩ := hfrom
        have hname : b.base.hasInstruction inst.name := Slot.hasInstruction_of_lookup hinst'
        exact absurd rfl (name_ne_of_created hcreated hvalid hinst hb hname)
      · obtain ⟨inst', hinst', heq, hlatencies⟩ := hfrom
        have hnodup := (List.nodup_append'.mp hvalid.declared).2.1
        rw [← map_name_declaredInstructions slot factory.opcodeValue] at hnodup
        rwa [List.inj_on_of_nodup_map hnodup hinst' hinst heq] at hlatencies
  · intro hinherit
    have hfilled : Filled assertions (opcodes.getD []) slot [] start :=
      ⟨hstart.isTemplated, fun _ hb => absurd hb List.not_mem_nil, fun name hname => absurd hname (hnothing name)⟩
    obtain ⟨mid, hbases, hmid⟩ := @exists_visitBases assertions order factory (opcodes.getD []) slot
      opcodes.isSome [] bases (errors, start) 0 horder hvalid hinherit hfilled
    have hnodup := (List.nodup_append'.mp hvalid.declared).2.1
    rw [← map_name_declaredInstructions slot factory.opcodeValue] at hnodup
    obtain ⟨visit, hdeclared, hfound, hother⟩ := @exists_appendInstructions opcodes.isSome
      (declaredInstructions slot factory.opcodeValue (opcodes.getD [])) mid hnodup
      (fun inst hinst => by
        rw [hmid.isTemplated]
        exact hinherit.declared inst hinst)
      (fun inst hinst => by
        rw [← Slot.hasInstruction_eq_false, ← Bool.not_eq_true]
        intro hhas
        obtain ⟨b, hb, hname, -⟩ := hmid.origin _ hhas
        exact name_ne_of_created hcreated hvalid hinst hb hname rfl)
    refine ⟨visit, by rw [hbases]; exact hdeclared, hfound, ?_, fun name hname => ?_⟩
    · intro b hb name hdeleted inst hinst
      have hname : b.base.hasInstruction name := Slot.hasInstruction_of_lookup hinst
      obtain ⟨derived, hrun, l, hl, hlookup⟩ := hmid.inherited b hb name hdeleted inst hinst
      refine ⟨derived, hrun, l, hl, ?_⟩
      rw [hother name fun inst' hinst' => name_ne_of_created hcreated hvalid hinst' hb hname, hlookup]
    · rcases (grows_appendInstructions hdeclared).added name hname with hname | hname
      · exact .inr (hmid.origin name hname)
      · obtain ⟨inst, hinst, heq, -⟩ := hname
        exact .inl ⟨inst, hinst, heq⟩

/-! ### The names of instructions -/

/-! ### Two base slots -/

/-- An instruction without operands. -/
def plainInstruction (name : String) : Instruction :=
  ⟨{ opcode := ⟨⟨[], [], []⟩, name.toList, 1, some 4, []⟩ }, []⟩

/-- A slot without instructions. -/
def emptySlot (name : String) : Slot where
  name := name.toList
  isTemplated := false
  minInstructionSize := 2 ^ 31 - 1
  defaultInstructionSize := 4
  defaultLatency := none
  attributeMap := .empty
  instructionMap := .empty
  named := by simp

/-- A base slot with one instruction. -/
def baseWith (name : String) : BaseSlot := ⟨(emptySlot name).put (plainInstruction name), none⟩

/-- `b = override, semfunc: "f"`. -/
def overrideB : List OpcodeSpec := [.overridden "b".toList [.semfuncSpec ["f".toList]]]

@[simp]
theorem hasInstruction_baseWith (name : String) (name' : Name) :
    (baseWith name).base.hasInstruction name' = decide (name' = name.toList) := by
  rw [Bool.eq_iff_iff, decide_eq_true_iff]
  exact Slot.hasInstruction_put.trans (or_iff_left Bool.false_ne_true)

theorem lookup_baseWith {name : String} {name' : Name}
    (h : (baseWith name).base.instructionMap.lookup name' = some inst) :
    name' = name.toList ∧ inst = plainInstruction name := by
  rw [baseWith, Slot.lookup_put] at h
  split at h
  · cases h
    exact ⟨‹_›, rfl⟩
  · cases h

theorem valid_twoBases :
    Valid [baseWith "a", baseWith "b"] ⟨["a".toList, "b".toList], 3⟩ overrideB := by
  refine ⟨fun _ h => (nomatch h), fun o ho => ?_, fun name _ => ?_, by decide⟩
  · cases List.mem_singleton.mp ho
    decide
  · rw [List.countP_cons, List.countP_cons, List.countP_nil, hasInstruction_baseWith,
      hasInstruction_baseWith]
    by_cases hb : name = "b".toList
    · subst hb
      decide
    · rw [if_neg (by simpa using hb)]
      split <;> omega

/-- The second base slot has the overridden opcode.  The override is made after the first one,
    where the slot does not have the instruction. -/
theorem not_inheritsExactly_twoBases :
    Valid [baseWith "a", baseWith "b"] ⟨["a".toList, "b".toList], 3⟩ overrideB ∧
      ¬ InheritsExactly true (fun _ l => l) [baseWith "a", baseWith "b"]
        ⟨["a".toList, "b".toList], 3⟩ (emptySlot "s") (some overrideB) := by
  have hcrash : visitOpcodeList true (fun _ l => l) [baseWith "a", baseWith "b"]
      ⟨["a".toList, "b".toList], 3⟩ (some overrideB) (emptySlot "s") = none :=
    Option.isNone_iff_eq_none.mp (by decide +kernel)
  refine ⟨valid_twoBases, ?_⟩
  rintro ⟨visit, hrun, -⟩
  rw [hcrash] at hrun
  cases hrun

theorem valid_oneBase : Valid [baseWith "b"] ⟨["b".toList], 2⟩ overrideB := by
  refine ⟨fun _ h => (nomatch h), fun o ho => ?_, fun name _ => ?_, by decide⟩
  · cases List.mem_singleton.mp ho
    decide
  · exact List.countP_le_length

/-- With the base slot that has the overridden opcode alone, the visitor makes the override. -/
theorem inheritsExactly_oneBase :
    InheritsExactly true (fun _ l => l) [baseWith "b"] ⟨["b".toList], 2⟩ (emptySlot "s")
      (some overrideB) := by
  refine (inherits_iff (fun _ _ => .refl _) rfl ?_ valid_oneBase).mpr ⟨?_, ?_, ?_⟩
  · rintro b hb name hname
    obtain rfl := List.mem_singleton.mp hb
    rw [hasInstruction_baseWith, decide_eq_true_iff] at hname
    exact List.mem_singleton.mpr hname
  · rintro o ho
    cases List.mem_singleton.mp ho
    refine ⟨List.not_mem_nil, fun b hb => ?_⟩
    cases hb
    decide
  · rintro b hb name - inst hinst
    obtain rfl := List.mem_singleton.mp hb
    obtain ⟨-, rfl⟩ := lookup_baseWith hinst
    exact ⟨plainInstruction "b", rfl, rfl⟩
  · exact fun inst hinst => (nomatch hinst)

end MpactSim.Isa
