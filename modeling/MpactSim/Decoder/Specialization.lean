import MpactSim.Lib.Run
import MpactSim.Lib.Monad

namespace MpactSim.Decoder

open Lib

/-!
# Specializations of instruction encodings

An instruction group has its own encodings; a group that combines others has copies of
theirs.  When all groups have been visited and checked, the specializations that were seen
on the way are attached to the encodings of their parents' names.

* `visitGroups`            — the groups, by name, that the declarations make;
* `processSpecialization`  — what `ProcessSpecializations` does for one of them;
* `taker`                  — the one encoding that it attaches a specialization to;
* `specializations_reach_iff` — when this is every encoding that it should be.
-/

universe u

variable {κ : Type u}

/-! ### The source -/

/-- `InstructionEncoding`.  Its constraints are one value here, and its map of specializations
    holds places in the group.  `origin` tells which specialization it was made for. -/
structure Encoding (κ : Type u) where
  name : String
  formatName : String
  isDuplicate : Bool
  constraints : κ
  specializations : List (String × Nat)
  origin : Option Nat
  deriving DecidableEq, Repr

/-- The copy constructor, which copies no specializations. -/
def Encoding.copy (e : Encoding κ) : Encoding κ := { e with specializations := [] }

/-- `InstructionGroup`.  `encodings` are all the encodings that it refers to: first the
    `encodingCount` ones of `encoding_vec_`, then the specializations. -/
structure InstructionGroup (κ : Type u) where
  name : String
  formatName : String
  encodings : List (Encoding κ)
  encodingCount : Nat
  encodingNameMap : String → Option Nat

/-- An instruction definition that is no specialization. -/
structure InstructionDef (κ : Type u) where
  name : String
  formatName : String
  isDuplicate : Bool
  constraints : κ
  deriving DecidableEq, Repr

/-- An instruction group definition, with its instructions or the groups it combines. -/
inductive GroupDecl (κ : Type u) where
  | instructions (name formatName : String) (defs : List (InstructionDef κ))
  | combined (name : String) (children : List String)

/-- A specialization: its name, that of its parent, and its constraints. -/
structure SpecializationDef (κ : Type u) where
  name : String
  parent : String
  constraints : κ
  deriving DecidableEq, Repr

namespace InstructionGroup

/-- `insert`, which keeps an entry that is there. -/
def insertName (g : InstructionGroup κ) (name : String) (i : Nat) : String → Option Nat :=
  if (g.encodingNameMap name).isSome then g.encodingNameMap
  else Function.update g.encodingNameMap name (some i)

/-- `AddInstructionEncoding`, apart from its warnings. -/
def addInstructionEncoding (g : InstructionGroup κ) (e : Encoding κ) : InstructionGroup κ :=
  { g with
    encodings := g.encodings ++ [e]
    encodingCount := g.encodingCount + 1
    encodingNameMap := g.insertName e.name g.encodings.length }

/-- `AddSpecialization`, of the group and then of the parent's encoding. -/
def addSpecialization (g : InstructionGroup κ) (parent : Nat) (e : Encoding κ) :
    InstructionGroup κ × Bool :=
  if (g.encodingNameMap e.name).isSome then (g, false)
  else
    let g' := { g with encodingNameMap := g.insertName e.name g.encodings.length }
    if (g.encodings[parent]?).any fun p => p.specializations.any (·.1 = e.name) then (g', false)
    else ({ g' with
      encodings := (g.encodings.modify parent fun p =>
        { p with specializations := p.specializations ++ [(e.name, g.encodings.length)] }) ++ [e] },
      true)

end InstructionGroup

/-- A new group with the given encodings. -/
def newGroup (name formatName : String) (encodings : List (Encoding κ)) : InstructionGroup κ :=
  encodings.foldl InstructionGroup.addInstructionEncoding ⟨name, formatName, [], 0, fun _ => none⟩

/-- The groups that a combined group is made of: they are there, and have one format. -/
def childGroups (groups : List (InstructionGroup κ)) (children : List String) :
    Option (List (InstructionGroup κ)) := do
  let found ← children.mapM fun child => groups.find? (·.name = child)
  if found.all fun g => found.head?.all (·.formatName = g.formatName) then some found else none

/-- `VisitInstructionGroupDef` and `VisitInstructionGroupNameList`; `none` for an error, with
    which the generator stops.  The map of groups is kept in the order of their names. -/
def visitGroup (groups : List (InstructionGroup κ)) :
    GroupDecl κ → Option (List (InstructionGroup κ))
  | .instructions name formatName defs =>
    if groups.any (·.name = name) then none
    else some (groups.orderedInsert (fun g h => g.name ≤ h.name)
      (newGroup name formatName (defs.map fun d =>
        ⟨d.name, d.formatName, d.isDuplicate, d.constraints, [], none⟩)))
  | .combined name children =>
    if groups.any (·.name = name) ∨ ¬ children.Nodup then none
    else do
      let found ← childGroups groups children
      let first ← found.head?
      return groups.orderedInsert (fun g h => g.name ≤ h.name)
        (newGroup name first.formatName
          (found.flatMap fun g => (g.encodings.take g.encodingCount).map Encoding.copy))

/-- The groups that the declarations make, in the order in which they are visited. -/
def visitGroups (decls : List (GroupDecl κ)) : Option (List (InstructionGroup κ)) :=
  decls.foldlM visitGroup []

/-- The encoding that is made for the `k`-th specialization, of the format of its parent.
    `visitConstraints` makes constraints on the fields of a format. -/
def specializedEncoding (visitConstraints : String → κ → κ) (parent : Encoding κ)
    (spec : SpecializationDef κ × Nat) : Encoding κ :=
  ⟨spec.1.name, parent.formatName, false, visitConstraints parent.formatName spec.1.constraints, [],
    some spec.2⟩

/-- The body of the loop of `ProcessSpecializations`, for the `k`-th specialization. -/
def processSpecialization (visitConstraints : String → κ → κ) :
    List (InstructionGroup κ) → SpecializationDef κ × Nat → List (InstructionGroup κ)
  | [], _ => []
  | g :: rest, spec =>
    match (g.encodingNameMap spec.1.parent).bind fun i => (g.encodings[i]?).map (i, ·) with
    | none => g :: processSpecialization visitConstraints rest spec
    | some (i, parent) =>
      match g.addSpecialization i (specializedEncoding visitConstraints parent spec) with
      | (g', true) => g' :: rest  -- the `break`
      | (g', false) => g' :: processSpecialization visitConstraints rest spec

/-! ### The specification -/

/-- The name of a group, and of an encoding at a place of its `encoding_vec_`. -/
def instructionAt (groups : List (InstructionGroup κ)) (p i : Nat) : Option (String × String) :=
  (groups[p]?).bind fun g =>
    if i < g.encodingCount then (g.encodings[i]?).map fun e => (g.name, e.name) else none

/-- The `i`-th encoding of a group has a specialization that was made for `k`. -/
def InstructionGroup.Holds (g : InstructionGroup κ) (k i : Nat) : Prop :=
  ∃ e ∈ g.encodings[i]?, ∃ n j, (n, j) ∈ e.specializations ∧
    ∃ s ∈ g.encodings[j]?, s.origin = some k

variable (visitConstraints : String → κ → κ)

/-- It has it under its name, and with its constraints. -/
def InstructionGroup.Attached (g : InstructionGroup κ) (spec : SpecializationDef κ × Nat)
    (i : Nat) : Prop :=
  ∃ e ∈ g.encodings[i]?, ∃ j, (spec.1.name, j) ∈ e.specializations ∧
    ∃ s ∈ g.encodings[j]?, s.origin = some spec.2 ∧ s.name = spec.1.name ∧
      s.constraints = visitConstraints e.formatName spec.1.constraints

/-- Every encoding with the parent's name, in every group of the decoder, has the
    specialization, and no encoding with another name has it. -/
def Reaches (decoder : List String) (groups : List (InstructionGroup κ))
    (spec : SpecializationDef κ × Nat) : Prop :=
  (∀ p i group, instructionAt groups p i = some (group, spec.1.parent) → group ∈ decoder →
    ∃ g ∈ groups[p]?, g.Attached visitConstraints spec i) ∧
  ∀ g ∈ groups, ∀ i, g.Holds spec.2 i → ∃ e ∈ g.encodings[i]?, e.name = spec.1.parent

/-- The place that takes a specialization: in the first group that has the parent's name and
    does not have the name of the specialization, the encoding that the parent's name is for. -/
def taker : List (InstructionGroup κ) → SpecializationDef κ → Option (Nat × Nat)
  | [], _ => none
  | g :: rest, spec =>
    match g.encodingNameMap spec.parent, g.encodingNameMap spec.name with
    | some i, none => some (0, i)
    | _, _ => (taker rest spec).map fun t => (t.1 + 1, t.2)

/-- The encoding that takes the specialization is the only one with the parent's name in the
    groups of the decoder. -/
def TakenByAll (decoder : List String) (groups : List (InstructionGroup κ))
    (spec : SpecializationDef κ × Nat) : Prop :=
  ∀ p i group, instructionAt groups p i = some (group, spec.1.parent) → group ∈ decoder →
    taker groups spec.1 = some (p, i)

/-! ### One specialization -/

namespace InstructionGroup

/-- The names of a group are those of its encodings, and specializations have their names
    there too. -/
structure WellNamed (g : InstructionGroup κ) : Prop where
  count : g.encodingCount ≤ g.encodings.length
  sound : ∀ n i, g.encodingNameMap n = some i → ∃ e, g.encodings[i]? = some e ∧ e.name = n
  named : ∀ e ∈ g.encodings, ∀ s ∈ e.specializations,
    g.encodingNameMap s.1 ≠ none ∧ s.2 < g.encodings.length

/-- A group with a specialization added to its `i`-th encoding. -/
def attach (g : InstructionGroup κ) (i : Nat) (e : Encoding κ) : InstructionGroup κ :=
  { g with
    encodings := (g.encodings.modify i fun p =>
      { p with specializations := p.specializations ++ [(e.name, g.encodings.length)] }) ++ [e]
    encodingNameMap := Function.update g.encodingNameMap e.name (some g.encodings.length) }

variable {g : InstructionGroup κ}

variable {i j i₀ : Nat} {e p : Encoding κ}

theorem WellNamed.addSpecialization (hg : g.WellNamed) :
    g.addSpecialization i e =
      if g.encodingNameMap e.name = none then (g.attach i e, true) else (g, false) := by
  unfold InstructionGroup.addSpecialization
  cases hname : g.encodingNameMap e.name with
  | some j => simp
  | none =>
    have hany : ((g.encodings[i]?).any fun p => p.specializations.any (·.1 = e.name)) = false := by
      cases hp : g.encodings[i]? with
      | none => rfl
      | some p =>
        rw [Option.any_some, List.any_eq_false]
        intro s hs heq
        have := (hg.named p (List.mem_of_getElem? hp) s hs).1
        rw [of_decide_eq_true heq, hname] at this
        exact this rfl
    simp only [Option.isSome_none, Bool.false_eq_true, if_false, hany, if_true, attach, insertName,
      hname]

theorem attach_encodings_old (hj : j < g.encodings.length) :
    (g.attach i e).encodings[j]? = (g.encodings[j]?).map fun p => if i = j then
      { p with specializations := p.specializations ++ [(e.name, g.encodings.length)] } else p := by
  rw [attach, List.getElem?_append_left (by simpa using hj), List.getElem?_modify]
  split
  · rfl
  · cases g.encodings[j]? <;> rfl

theorem attach_encodings_new : (g.attach i e).encodings[g.encodings.length]? = some e := by
  rw [attach, List.getElem?_append_right (by simp)]
  simp

theorem attach_length : (g.attach i e).encodings.length = g.encodings.length + 1 := by
  simp [attach]

theorem attach_map (n : String) :
    (g.attach i e).encodingNameMap n =
      if n = e.name then some g.encodings.length else g.encodingNameMap n :=
  Function.update_apply ..

/-- An encoding of the larger group is the added one or one of the old ones, to which the
    entry for the added one may have been added. -/
theorem attach_cases {q : Encoding κ} (hq : (g.attach i e).encodings[j]? = some q) :
    (j = g.encodings.length ∧ q = e) ∨ ∃ p, g.encodings[j]? = some p ∧ q = if i = j then
      { p with specializations := p.specializations ++ [(e.name, g.encodings.length)] } else p := by
  rcases Nat.lt_or_ge j g.encodings.length with hlt | hge
  · rw [attach_encodings_old hlt] at hq
    obtain ⟨p, hp, hq⟩ := Option.map_eq_some_iff.mp hq
    exact .inr ⟨p, hp, hq.symm⟩
  · have hlen := (List.getElem?_eq_some_iff.mp hq).1
    rw [attach_length] at hlen
    obtain rfl : j = g.encodings.length := by omega
    rw [attach_encodings_new, Option.some.injEq] at hq
    exact .inl ⟨rfl, hq.symm⟩

theorem attach_of_old (hp : g.encodings[j]? = some p) :
    (g.attach i e).encodings[j]? = some (if i = j then
      { p with specializations := p.specializations ++ [(e.name, g.encodings.length)] } else p) := by
  rw [attach_encodings_old (List.getElem?_eq_some_iff.mp hp).1, hp, Option.map_some]

theorem WellNamed.attach (hg : g.WellNamed) (he : e.specializations = []) :
    (g.attach i e).WellNamed where
  count := by
    rw [attach_length]
    exact Nat.le_succ_of_le hg.count
  sound n j hj := by
    rw [attach_map] at hj
    split at hj
    · rename_i hn
      cases hj
      exact ⟨e, attach_encodings_new, hn.symm⟩
    · obtain ⟨p, hp, rfl⟩ := hg.sound n j hj
      refine ⟨_, attach_of_old hp, ?_⟩
      split <;> rfl
  named q hq s hs := by
    have hold : ∀ s : String × Nat, g.encodingNameMap s.1 ≠ none ∧ s.2 < g.encodings.length →
        (g.attach i e).encodingNameMap s.1 ≠ none ∧ s.2 < (g.attach i e).encodings.length := by
      rintro s ⟨hs, hlt⟩
      refine ⟨?_, by rw [attach_length]; omega⟩
      rw [attach_map]
      split
      · simp
      · exact hs
    obtain ⟨j, hj⟩ := List.mem_iff_getElem?.mp hq
    rcases attach_cases hj with ⟨-, rfl⟩ | ⟨p, hp, rfl⟩
    · rw [he] at hs
      cases hs
    · have hmem := List.mem_of_getElem? hp
      split at hs
      · rcases List.mem_append.mp hs with hs | hs
        · exact hold s (hg.named p hmem s hs)
        · -- The entry that has just been added.
          obtain rfl := List.mem_singleton.mp hs
          exact ⟨by simp [attach_map], by rw [attach_length]; exact Nat.lt_succ_self _⟩
      · exact hold s (hg.named p hmem s hs)

theorem WellNamed.old_entry (hg : g.WellNamed) {s : Encoding κ} {n : String} (hp : p ∈ g.encodings)
    (hn : (n, j) ∈ p.specializations) (hs : (g.attach i e).encodings[j]? = some s) :
    ∃ s', g.encodings[j]? = some s' ∧ s'.origin = s.origin ∧ s'.name = s.name ∧
      s'.constraints = s.constraints := by
  have hlt : j < g.encodings.length := (hg.named p hp _ hn).2
  rcases attach_cases hs with ⟨rfl, -⟩ | ⟨s', hs', rfl⟩
  · exact absurd hlt (lt_irrefl _)
  · refine ⟨s', hs', ?_⟩
    split <;> exact ⟨rfl, rfl, rfl⟩

/-- What is attached for one specialization does not change what others have. -/
theorem WellNamed.holds_attach_of_ne (hg : g.WellNamed) {k k' : Nat} (he : e.specializations = [])
    (hk : e.origin = some k) (hne : k' ≠ k) (i : Nat) :
    (g.attach i₀ e).Holds k' i ↔ g.Holds k' i := by
  constructor
  · rintro ⟨q, hq, n, j, hmem, s, hs, hs'⟩
    rcases attach_cases hq with ⟨-, rfl⟩ | ⟨p, hp, rfl⟩
    · rw [he] at hmem
      cases hmem
    · have hold : (n, j) ∈ p.specializations := by
        split at hmem
        · rcases List.mem_append.mp hmem with hmem | hmem
          · exact hmem
          · -- The new entry is for another specialization.
            cases List.mem_singleton.mp hmem
            rw [Option.mem_def, attach_encodings_new] at hs
            cases hs
            rw [hk] at hs'
            exact absurd (Option.some.inj hs').symm hne
        · exact hmem
      obtain ⟨s₀, hs₀, horigin, -⟩ := hg.old_entry (List.mem_of_getElem? hp) hold hs
      exact ⟨p, hp, n, j, hold, s₀, hs₀, horigin.trans hs'⟩
  · rintro ⟨p, hp, n, j, hmem, s, hs, hs'⟩
    refine ⟨_, attach_of_old hp, n, j, ?_, _, attach_of_old hs, ?_⟩
    · split
      · exact List.mem_append_left _ hmem
      · exact hmem
    · split <;> exact hs'

theorem attached_attach_of_attached {spec : SpecializationDef κ × Nat}
    (h : g.Attached visitConstraints spec i) :
    (g.attach i₀ e).Attached visitConstraints spec i := by
  obtain ⟨p, hp, j, hmem, s, hs, horigin, hname, hconstraints⟩ := h
  refine ⟨_, attach_of_old hp, j, ?_, _, attach_of_old hs, ?_, ?_, ?_⟩
  · split
    · exact List.mem_append_left _ hmem
    · exact hmem
  · split <;> exact horigin
  · split <;> exact hname
  · split <;> split <;> exact hconstraints

theorem WellNamed.holds_attach_self (hg : g.WellNamed) {k : Nat} (he : e.specializations = [])
    (hfresh : ∀ s ∈ g.encodings, s.origin ≠ some k) (h : (g.attach i₀ e).Holds k i) : i = i₀ := by
  obtain ⟨q, hq, n, j, hmem, s, hs, hs'⟩ := h
  rcases attach_cases hq with ⟨-, rfl⟩ | ⟨p, hp, rfl⟩
  · rw [he] at hmem
    cases hmem
  · by_contra hne
    rw [if_neg (Ne.symm hne)] at hmem
    obtain ⟨s₀, hs₀, horigin, -⟩ := hg.old_entry (List.mem_of_getElem? hp) hmem hs
    exact hfresh s₀ (List.mem_of_getElem? hs₀) (horigin.trans hs')

theorem attached_attach (hp : g.encodings[i]? = some p) (spec : SpecializationDef κ × Nat) :
    (g.attach i (specializedEncoding visitConstraints p spec)).Attached visitConstraints spec i := by
  refine ⟨_, attach_of_old hp, g.encodings.length, ?_, _, attach_encodings_new, rfl, rfl, ?_⟩
  · rw [if_pos rfl]
    exact List.mem_append_right _ (List.mem_singleton_self _)
  · rw [if_pos rfl]
    rfl

end InstructionGroup

variable {groups : List (InstructionGroup κ)} {spec : SpecializationDef κ × Nat}

/-- What one specialization changes: the group of the encoding that takes it. -/
def TakenByOne (groups : List (InstructionGroup κ)) (spec : SpecializationDef κ × Nat)
    (groups' : List (InstructionGroup κ)) : Prop :=
  (taker groups spec.1 = none ∧ groups' = groups) ∨
    ∃ p i g e, taker groups spec.1 = some (p, i) ∧ groups[p]? = some g ∧
      g.encodings[i]? = some e ∧ e.name = spec.1.parent ∧
      groups' = groups.set p (g.attach i (specializedEncoding visitConstraints e spec))

theorem processSpecialization_spec (hwell : ∀ g ∈ groups, g.WellNamed) :
    TakenByOne visitConstraints groups spec
      (processSpecialization visitConstraints groups spec) := by
  induction groups with
  | nil => exact .inl ⟨rfl, rfl⟩
  | cons g rest ih =>
    have hg := hwell g List.mem_cons_self
    -- The groups after one that does not take it.
    have hskip : taker (g :: rest) spec.1 = (taker rest spec.1).map (fun t => (t.1 + 1, t.2)) →
        processSpecialization visitConstraints (g :: rest) spec =
          g :: processSpecialization visitConstraints rest spec →
        TakenByOne visitConstraints (g :: rest) spec
          (processSpecialization visitConstraints (g :: rest) spec) := by
      intro htaker hprocess
      rcases ih fun g' hg' => hwell g' (List.mem_cons_of_mem g hg') with
        ⟨hnone, heq⟩ | ⟨p, i, g', e, hsome, hg', he, hname, heq⟩
      · exact .inl ⟨by rw [htaker, hnone]; rfl, by rw [hprocess, heq]⟩
      · refine .inr ⟨p + 1, i, g', e, by rw [htaker, hsome]; rfl, hg', he, hname, ?_⟩
        rw [hprocess, heq, List.set_cons_succ]
    cases hparent : g.encodingNameMap spec.1.parent with
    | none => exact hskip (by simp [taker, hparent]) (by simp [processSpecialization, hparent])
    | some i =>
      obtain ⟨e, he, hname⟩ := hg.sound _ i hparent
      cases hfree : g.encodingNameMap spec.1.name with
      | some j =>
        refine hskip (by simp [taker, hparent, hfree]) ?_
        simp [processSpecialization, hparent, he, hg.addSpecialization, specializedEncoding, hfree]
      | none =>
        refine .inr ⟨0, i, g, e, by simp [taker, hparent, hfree], rfl, he, hname, ?_⟩
        simp [processSpecialization, hparent, he, hg.addSpecialization, specializedEncoding, hfree]

/-! ### All specializations -/

/-- The groups between two specializations. -/
abbrev WellFormed (groups : List (InstructionGroup κ)) : Prop := ∀ g ∈ groups, g.WellNamed

/-- No encoding was made for the `k`-th specialization. -/
def Fresh (groups : List (InstructionGroup κ)) (k : Nat) : Prop :=
  ∀ g ∈ groups, ∀ s ∈ g.encodings, s.origin ≠ some k

variable {visitConstraints} {groups' : List (InstructionGroup κ)}

theorem TakenByOne.wellFormed (h : TakenByOne visitConstraints groups spec groups')
    (hwell : WellFormed groups) : WellFormed groups' := by
  rcases h with ⟨-, rfl⟩ | ⟨p, i, g, e, -, hg, -, -, rfl⟩
  · exact hwell
  · intro g' hg'
    rcases List.mem_or_eq_of_mem_set hg' with hg' | rfl
    · exact hwell g' hg'
    · exact (hwell g (List.mem_of_getElem? hg)).attach rfl

variable {k p i : Nat}

theorem TakenByOne.fresh (h : TakenByOne visitConstraints groups spec groups') (hk : k ≠ spec.2)
    (hfresh : Fresh groups k) : Fresh groups' k := by
  rcases h with ⟨-, rfl⟩ | ⟨p, i, g, e, -, hg, -, -, rfl⟩
  · exact hfresh
  · intro g' hg' s hs
    rcases List.mem_or_eq_of_mem_set hg' with hg' | rfl
    · exact hfresh g' hg' s hs
    · obtain ⟨j, hj⟩ := List.mem_iff_getElem?.mp hs
      rcases InstructionGroup.attach_cases hj with ⟨-, rfl⟩ | ⟨s', hs', rfl⟩
      · intro heq
        exact hk (Option.some.inj heq).symm
      · have := hfresh g (List.mem_of_getElem? hg) s' (List.mem_of_getElem? hs')
        split <;> exact this

theorem TakenByOne.getElem? (h : TakenByOne visitConstraints groups spec groups') (q : Nat) :
    groups'[q]? = groups[q]? ∨ ∃ i g e, taker groups spec.1 = some (q, i) ∧ groups[q]? = some g ∧
      g.encodings[i]? = some e ∧ e.name = spec.1.parent ∧
      groups'[q]? = some (g.attach i (specializedEncoding visitConstraints e spec)) := by
  rcases h with ⟨-, rfl⟩ | ⟨p, i, g, e, htaker, hg, he, hname, rfl⟩
  · exact .inl rfl
  · by_cases hq : p = q
    · subst hq
      refine .inr ⟨i, g, e, htaker, hg, he, hname, ?_⟩
      rw [List.getElem?_set_self (List.getElem?_eq_some_iff.mp hg).1]
    · exact .inl (List.getElem?_set_ne hq)

theorem TakenByOne.instructionAt (h : TakenByOne visitConstraints groups spec groups')
    (hwell : WellFormed groups) : instructionAt groups' = instructionAt groups := by
  funext p i
  unfold Decoder.instructionAt
  rcases h.getElem? p with heq | ⟨i₀, g, e, -, hg, -, -, heq⟩
  · rw [heq]
  · rw [heq, hg, Option.bind_some, Option.bind_some]
    change (if i < g.encodingCount then _ else none) = _
    split
    · rename_i hi
      have hlt : i < g.encodings.length :=
        lt_of_lt_of_le hi (hwell g (List.mem_of_getElem? hg)).count
      rw [InstructionGroup.attach_encodings_old hlt, Option.map_map]
      congr 1
      funext q
      dsimp only [Function.comp]
      split <;> rfl
    · rfl

/-- The name of an encoding stays. -/
def NameAt (groups : List (InstructionGroup κ)) (p i : Nat) (name : String) : Prop :=
  ∃ g ∈ groups[p]?, ∃ e ∈ g.encodings[i]?, e.name = name

theorem TakenByOne.nameAt (h : TakenByOne visitConstraints groups spec groups') {name : String}
    (hname : NameAt groups p i name) : NameAt groups' p i name := by
  obtain ⟨g, hg, e, he, rfl⟩ := hname
  rcases h.getElem? p with heq | ⟨i₀, g', e', -, hg', -, -, heq⟩
  · exact ⟨g, by rw [heq]; exact hg, e, he, rfl⟩
  · rw [Option.mem_def, hg', Option.some.injEq] at hg
    subst hg
    refine ⟨_, heq, _, InstructionGroup.attach_of_old he, ?_⟩
    split <;> rfl

theorem TakenByOne.holds_of_ne (h : TakenByOne visitConstraints groups spec groups')
    (hwell : WellFormed groups) (hk : k ≠ spec.2) (p i : Nat) :
    (∃ g ∈ groups'[p]?, g.Holds k i) ↔ ∃ g ∈ groups[p]?, g.Holds k i := by
  rcases h.getElem? p with heq | ⟨i₀, g, e, -, hg, -, -, heq⟩
  · rw [heq]
  · have : (g.attach i₀ (specializedEncoding visitConstraints e spec)).Holds k i ↔ g.Holds k i :=
      (hwell g (List.mem_of_getElem? hg)).holds_attach_of_ne rfl rfl hk i
    simpa [heq, hg] using this

theorem TakenByOne.attached (h : TakenByOne visitConstraints groups spec groups')
    {spec' : SpecializationDef κ × Nat}
    (hattached : ∃ g ∈ groups[p]?, g.Attached visitConstraints spec' i) :
    ∃ g ∈ groups'[p]?, g.Attached visitConstraints spec' i := by
  obtain ⟨g, hg, hattached⟩ := hattached
  rcases h.getElem? p with heq | ⟨i₀, g', e, -, hg', -, -, heq⟩
  · exact ⟨g, by rw [heq]; exact hg, hattached⟩
  · rw [Option.mem_def, hg', Option.some.injEq] at hg
    subst hg
    exact ⟨_, heq, InstructionGroup.attached_attach_of_attached visitConstraints hattached⟩

theorem TakenByOne.taker_of_holds (h : TakenByOne visitConstraints groups spec groups')
    (hwell : WellFormed groups) (hfresh : Fresh groups spec.2)
    (hholds : ∃ g ∈ groups'[p]?, g.Holds spec.2 i) :
    taker groups spec.1 = some (p, i) ∧ NameAt groups p i spec.1.parent := by
  obtain ⟨g', hg', hholds⟩ := hholds
  rcases h.getElem? p with heq | ⟨i₀, g, e, htaker, hg, he, hname, heq⟩
  · rw [heq] at hg'
    obtain ⟨-, -, -, j, -, s, hs, horigin⟩ := hholds
    exact absurd horigin (hfresh g' (List.mem_of_getElem? hg') s (List.mem_of_getElem? hs))
  · rw [heq, Option.mem_def, Option.some.injEq] at hg'
    subst hg'
    have hmem := List.mem_of_getElem? hg
    obtain rfl := (hwell g hmem).holds_attach_self rfl (hfresh g hmem) hholds
    exact ⟨htaker, g, hg, e, he, hname⟩

theorem TakenByOne.attached_of_taker (h : TakenByOne visitConstraints groups spec groups')
    (htaker : taker groups spec.1 = some (p, i)) :
    ∃ g ∈ groups'[p]?, g.Attached visitConstraints spec i := by
  rcases h with ⟨hnone, -⟩ | ⟨p', i', g, e, hsome, hg, he, -, rfl⟩
  · rw [htaker] at hnone
    cases hnone
  · rw [htaker] at hsome
    cases hsome
    refine ⟨_, ?_, InstructionGroup.attached_attach visitConstraints he spec⟩
    exact List.getElem?_set_self (List.getElem?_eq_some_iff.mp hg).1

theorem run_keeps {specs : List (SpecializationDef κ × Nat)} (hk : ∀ r ∈ specs, k ≠ r.2)
    (hwell : WellFormed groups) {final : List (InstructionGroup κ)}
    (hfinal : run (processSpecialization visitConstraints) groups specs = final) :
    instructionAt final = instructionAt groups ∧
      (∀ p i : Nat, (∃ g ∈ final[p]?, g.Holds k i) ↔ ∃ g ∈ groups[p]?, g.Holds k i) ∧
      (∀ (p i : Nat) (spec' : SpecializationDef κ × Nat),
        (∃ g ∈ groups[p]?, g.Attached visitConstraints spec' i) →
          ∃ g ∈ final[p]?, g.Attached visitConstraints spec' i) ∧
      ∀ p i name, NameAt groups p i name → NameAt final p i name := by
  induction specs generalizing groups with
  | nil =>
    subst hfinal
    exact ⟨rfl, fun _ _ => Iff.rfl, fun _ _ _ h => h, fun _ _ _ h => h⟩
  | cons r rest ih =>
    have hstep : TakenByOne visitConstraints groups r
        (processSpecialization visitConstraints groups r) :=
      processSpecialization_spec visitConstraints hwell
    obtain ⟨hat, hholds, hattached, hname⟩ :=
      ih (fun r' hr' => hk r' (List.mem_cons_of_mem r hr')) (hstep.wellFormed hwell) hfinal
    refine ⟨hat.trans (hstep.instructionAt hwell), fun p i => ?_, fun p i spec' h => ?_,
      fun p i name h => ?_⟩
    · exact (hholds p i).trans (hstep.holds_of_ne hwell (hk r List.mem_cons_self) p i)
    · exact hattached p i spec' (hstep.attached h)
    · exact hname p i name (hstep.nameAt h)

theorem InstructionGroup.Attached.holds {g : InstructionGroup κ}
    (h : g.Attached visitConstraints spec i) : g.Holds spec.2 i := by
  obtain ⟨e, he, j, hj, s, hs, horigin, -⟩ := h
  exact ⟨e, he, _, j, hj, s, hs, horigin⟩

/-- The specializations reach their parents exactly if each is taken by all of them. -/
theorem reaches_iff_along (decoder : List String) {specs : List (SpecializationDef κ × Nat)}
    (hnodup : (specs.map Prod.snd).Nodup) (hwell : WellFormed groups)
    (hfresh : ∀ r ∈ specs, Fresh groups r.2) {final : List (InstructionGroup κ)}
    (hfinal : run (processSpecialization visitConstraints) groups specs = final) :
    (∀ r ∈ specs, Reaches visitConstraints decoder final r) ↔
      Along (processSpecialization visitConstraints) (TakenByAll decoder) groups specs := by
  -- Induction on the specializations: the later ones keep what the first one attaches.
  induction specs generalizing groups with
  | nil => simp [Along]
  | cons r rest ih =>
    rw [List.map_cons, List.nodup_cons] at hnodup
    have hother : ∀ r' ∈ rest, r.2 ≠ r'.2 := fun r' hr' heq =>
      hnodup.1 (heq ▸ List.mem_map_of_mem hr')
    have hstep : TakenByOne visitConstraints groups r
        (processSpecialization visitConstraints groups r) :=
      processSpecialization_spec visitConstraints hwell
    have hwell' := hstep.wellFormed hwell
    obtain ⟨hat, hholds, hattached, hname⟩ := run_keeps hother hwell' hfinal
    have hat' : instructionAt final = instructionAt groups := hat.trans (hstep.instructionAt hwell)
    have htaken : ∀ p i : Nat, (∃ g ∈ final[p]?, g.Holds r.2 i) →
        taker groups r.1 = some (p, i) ∧ NameAt groups p i r.1.parent := fun p i h =>
      hstep.taker_of_holds hwell (hfresh r List.mem_cons_self) ((hholds p i).mp h)
    have hrest := ih hnodup.2 hwell' (fun r' hr' =>
      hstep.fresh (hother r' hr').symm (hfresh r' (List.mem_cons_of_mem r hr'))) hfinal
    rw [List.forall_mem_cons, Along, ← hrest]
    refine and_congr ⟨fun h p i group hgroup hdecoder => ?_, fun h => ⟨?_, ?_⟩⟩ Iff.rfl
    · obtain ⟨g, hg, hg'⟩ := h.1 p i group (hat' ▸ hgroup) hdecoder
      exact (htaken p i ⟨g, hg, hg'.holds⟩).1
    · intro p i group hgroup hdecoder
      rw [hat'] at hgroup
      exact hattached p i r (hstep.attached_of_taker (h p i group hgroup hdecoder))
    · intro g hg i hgi
      obtain ⟨p, hp⟩ := List.mem_iff_getElem?.mp hg
      obtain ⟨-, hparent⟩ := htaken p i ⟨g, hp, hgi⟩
      obtain ⟨g', hg', hresult⟩ := hname p i _ (hstep.nameAt hparent)
      rw [hp, Option.mem_def, Option.some.injEq] at hg'
      subst hg'
      exact hresult

/-! ### Groups that have been visited -/

/-- A group without specializations. -/
structure InstructionGroup.Plain (g : InstructionGroup κ) : Prop where
  wellNamed : g.WellNamed
  count : g.encodingCount = g.encodings.length
  plain : ∀ e ∈ g.encodings, e.specializations = [] ∧ e.origin = none

theorem InstructionGroup.Plain.addInstructionEncoding {g : InstructionGroup κ} (hg : g.Plain)
    {e : Encoding κ} (he : e.specializations = [] ∧ e.origin = none) :
    (g.addInstructionEncoding e).Plain := by
  have hplain : ∀ s ∈ g.encodings ++ [e], s.specializations = [] ∧ s.origin = none := by
    intro s hs
    rcases List.mem_append.mp hs with hs | hs
    · exact hg.plain s hs
    · obtain rfl := List.mem_singleton.mp hs
      exact he
  have hlen : g.encodingCount + 1 = (g.encodings ++ [e]).length := by simp [hg.count]
  refine ⟨⟨hlen.le, fun n i hi => ?_, fun s hs r hr => ?_⟩, hlen, hplain⟩
  · have hold : g.encodingNameMap n = some i →
        ∃ s, (g.encodings ++ [e])[i]? = some s ∧ s.name = n := by
      intro hi
      obtain ⟨s, hs, rfl⟩ := hg.wellNamed.sound n i hi
      exact ⟨s, by rwa [List.getElem?_append_left (List.getElem?_eq_some_iff.mp hs).1], rfl⟩
    change g.insertName e.name g.encodings.length n = some i at hi
    unfold InstructionGroup.insertName at hi
    split at hi
    · exact hold hi
    · rw [Function.update_apply] at hi
      split at hi
      · rename_i hn
        cases hi
        exact ⟨e, List.getElem?_concat_length, hn.symm⟩
      · exact hold hi
  · rw [(hplain s hs).1] at hr
    cases hr

theorem newGroup_plain (name formatName : String) {encodings : List (Encoding κ)}
    (h : ∀ e ∈ encodings, e.specializations = [] ∧ e.origin = none) :
    (newGroup name formatName encodings).Plain := by
  unfold newGroup
  have hempty : (⟨name, formatName, [], 0, fun _ => none⟩ : InstructionGroup κ).Plain :=
    ⟨⟨le_rfl, fun n i hi => by simp at hi, by simp⟩, rfl, by simp⟩
  revert hempty
  generalize (⟨name, formatName, [], 0, fun _ => none⟩ : InstructionGroup κ) = g
  induction encodings generalizing g with
  | nil => exact id
  | cons e rest ih =>
    intro hg
    exact ih (fun s hs => h s (List.mem_cons_of_mem e hs)) _
      (hg.addInstructionEncoding (h e List.mem_cons_self))

theorem visitGroups_plain {decls : List (GroupDecl κ)} (h : visitGroups decls = some groups) :
    ∀ g ∈ groups, g.Plain := by
  refine foldlM_invariant (fun groups : List (InstructionGroup κ) => ∀ g ∈ groups, g.Plain)
    (fun groups decl _ groups' hplain hvisit => ?_) h (by simp)
  intro g hg
  cases decl with
  | instructions name formatName defs =>
    rw [visitGroup] at hvisit
    split at hvisit
    · cases hvisit
    · cases hvisit
      rcases (List.mem_orderedInsert _).mp hg with rfl | hg
      · refine newGroup_plain name formatName fun e he => ?_
        obtain ⟨d, -, rfl⟩ := List.mem_map.mp he
        exact ⟨rfl, rfl⟩
      · exact hplain g hg
  | combined name children =>
    rw [visitGroup] at hvisit
    split at hvisit
    · cases hvisit
    · simp only [Option.bind_eq_bind, Option.bind_eq_some_iff, childGroups] at hvisit
      obtain ⟨found, ⟨found', hfound, hcheck⟩, first, -, hresult⟩ := hvisit
      cases hresult
      split at hcheck
      · cases hcheck
        rcases (List.mem_orderedInsert _).mp hg with rfl | hg
        · refine newGroup_plain name first.formatName fun e he => ?_
          obtain ⟨child, hchild, he⟩ := List.mem_flatMap.mp he
          obtain ⟨s, hs, rfl⟩ := List.mem_map.mp he
          obtain ⟨childName, -, hfind⟩ := exists_of_mapM_eq_some hfound hchild
          have := (hplain child (List.mem_of_find?_eq_some hfind)).plain s (List.mem_of_mem_take hs)
          exact ⟨rfl, this.2⟩
        · exact hplain g hg
      · cases hcheck

/-- **Specializations reach every copy.** For the groups of any declarations and any decoder of
    them, after `ProcessSpecializations` each specialization is attached to all encodings
    with its parent's name in the groups of the decoder, and to no others, exactly if each
    is taken by the only one. -/
theorem specializations_reach_iff {decls : List (GroupDecl κ)}
    (h : visitGroups decls = some groups) (visitConstraints : String → κ → κ)
    (decoder : List String) (specs : List (SpecializationDef κ)) :
    (∀ r ∈ specs.zipIdx, Reaches visitConstraints decoder
        (run (processSpecialization visitConstraints) groups specs.zipIdx) r) ↔
      Along (processSpecialization visitConstraints) (TakenByAll decoder) groups specs.zipIdx := by
  have hplain := visitGroups_plain h
  refine reaches_iff_along decoder ?_ (fun g hg => (hplain g hg).wellNamed)
    (fun r _ g hg s hs => ?_) rfl
  · rw [List.zipIdx_map_snd]
    exact List.nodup_range'
  · rw [((hplain g hg).plain s hs).2]
    simp

/-- An instruction group, and one that combines it. -/
def combinedDecls : List (GroupDecl Unit) :=
  [.instructions "alu" "Inst32" [⟨"add", "Inst32", false, ()⟩], .combined "isa" ["alu"]]

/-- A specialization of its instruction. -/
def nopSpecialization : SpecializationDef Unit := ⟨"nop", "add", ()⟩

/-- With the first group alone as the decoder, the group that takes it is the decoder's. -/
theorem specializations_reach_iff_combined :
    (∀ r ∈ [nopSpecialization].zipIdx, Reaches (fun _ => id) ["alu"]
        (run (processSpecialization fun _ => id) ((visitGroups combinedDecls).getD [])
          [nopSpecialization].zipIdx) r) ↔
      Along (processSpecialization fun _ => id) (TakenByAll ["alu"])
        ((visitGroups combinedDecls).getD []) [nopSpecialization].zipIdx :=
  specializations_reach_iff (show visitGroups combinedDecls = some _ from rfl) (fun _ => id) ["alu"] [nopSpecialization]

/-- The copy of the parent in the combined group, which is the decoder's, stays without the
    specialization: the loop stops at the group that was copied. -/
theorem specialization_misses_combined :
    ∃ groups, visitGroups combinedDecls = some groups ∧
      ¬ Reaches (fun _ => id) ["isa"]
        (run (processSpecialization fun _ => id) groups [nopSpecialization].zipIdx)
        (nopSpecialization, 0) := by
  refine ⟨_, rfl, fun h => ?_⟩
  obtain ⟨g, hg, e, he, j, hj, -⟩ := h.1 1 0 "isa" (by decide) (by decide)
  obtain rfl := Option.some.inj hg
  obtain rfl := Option.some.inj he
  exact List.not_mem_nil hj

end MpactSim.Decoder
