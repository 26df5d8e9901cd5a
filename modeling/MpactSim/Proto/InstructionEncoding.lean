import MpactSim.Lib.Run
import MpactSim.Proto.Messages

namespace MpactSim.Proto

open Lib

/-!
# Constraints of a proto instruction encoding

The constraints of an encoding are added one by one.  The path to a field may lead through
members of oneofs, which have to be the active ones; the encoding records which member each
oneof is bound to.

* `addHasConstraint`, `addPrerequisites`, `addConstraint` — the source;
* `Exact`               — what is promised of one call;
* `Taken`, `Unopposed`  — which members of the path meet a oneof that is bound already;
* `addConstraint_exact_iff` — which calls keep the promise.
-/

variable {Field Oneof : Type} [DecidableEq Oneof]

/-! ### The source -/

/-- `ProtoInstructionEncoding`, without its setters.  The maps are the lists of their entries. -/
structure ProtoInstructionEncoding (Field Oneof : Type) where
  name : String
  oneofFieldMap : List (Option Oneof × Field) := []
  equalConstraints : List (ProtoConstraint Field) := []
  otherConstraints : List (ProtoConstraint Field) := []
  hasConstraints : List (String × ProtoConstraint Field) := []
  deriving DecidableEq

namespace ProtoInstructionEncoding

variable (pool : DescriptorPool Field Oneof)

/-- `AddHasConstraint`; the constraint that it returns is told by its field. -/
def addHasConstraint (enc : ProtoInstructionEncoding Field Oneof) (fieldDescriptor : Field)
    (dependsOn : Option Field) : Option Field × ProtoInstructionEncoding Field Oneof :=
  if dependsOn.any fun d => (enc.hasConstraints.lookup (pool.fullName d)).isNone then (none, enc)
  else
    match enc.hasConstraints.lookup (pool.fullName fieldDescriptor) with
    | some c => (some c.fieldDescriptor, enc)
    | none =>
      let constraint := ⟨none, fieldDescriptor, .kHas, none, dependsOn⟩
      (some fieldDescriptor,
        { enc with
          hasConstraints := enc.hasConstraints ++ [(pool.fullName fieldDescriptor, constraint)] })

/-- The oneof of a field is bound to the field. -/
def bindOneof (enc : ProtoInstructionEncoding Field Oneof) (desc : Field) :
    ProtoInstructionEncoding Field Oneof :=
  { enc with oneofFieldMap := enc.oneofFieldMap ++ [(pool.containingOneof desc, desc)] }

/-- The error for a member of a oneof that is bound to another field. -/
def contradicts (desc bound : Field) : String :=
  "One_of constraint on '" ++ pool.name desc ++ "' contradicts previous constraint on '" ++
    pool.name bound ++ "'"

/-- The loop over the `one_of_fields` of `AddConstraint`, which returns `depends_on`. -/
def addPrerequisites [DecidableEq Field] (fieldDescriptor : Field) :
    List Field → Option Field → ProtoInstructionEncoding Field Oneof →
      Except String (Option Field) × ProtoInstructionEncoding Field Oneof
  | [], dependsOn, enc => (.ok dependsOn, enc)
  | desc :: rest, dependsOn, enc =>
    match enc.oneofFieldMap.lookup (pool.containingOneof desc) with
    | some bound =>
      -- The field that is constrained is looked for, not the one that is added.
      if bound = fieldDescriptor then addPrerequisites fieldDescriptor rest dependsOn enc
      else (.error (contradicts pool desc bound), enc)
    | none =>
      let (dependsOn, enc) := (enc.bindOneof pool desc).addHasConstraint pool desc dependsOn
      addPrerequisites fieldDescriptor rest dependsOn enc

/-- The arguments of `AddConstraint`. -/
structure Request (Field : Type) where
  ctx : FieldConstraintCtx Field
  op : ConstraintType
  fieldDescriptor : Field
  oneOfFields : List Field
  expr : Option ProtoValue

/-- The comparison that is asked for. -/
def Request.comparison (r : Request Field) (dependsOn : Option Field) : ProtoConstraint Field :=
  ⟨some r.ctx, r.fieldDescriptor, r.op, r.expr, dependsOn⟩

/-- The constraint that a member of a oneof is the active one. -/
def Request.prerequisite (r : Request Field) (desc : Field) : ProtoConstraint Field :=
  ⟨some r.ctx, desc, .kHas, none, none⟩

/-- The end of `AddConstraint` for a path through members of oneofs. -/
def addPath (r : Request Field) (first : Field) (rest : List Field) (dependsOn : Option Field)
    (enc : ProtoInstructionEncoding Field Oneof) : ProtoInstructionEncoding Field Oneof :=
  { enc with
    equalConstraints := enc.equalConstraints ++ [r.prerequisite first]
    -- The comparison is added once for each further member.
    otherConstraints := enc.otherConstraints ++
      rest.flatMap fun desc => [r.prerequisite desc, r.comparison dependsOn] }

/-- The end of `AddConstraint` for a path without members of oneofs. -/
def addDirect [DecidableEq Field] (r : Request Field)
    (enc : ProtoInstructionEncoding Field Oneof) :
    Except String Unit × ProtoInstructionEncoding Field Oneof :=
  if r.op = .kEq ∧ isIntType (pool.cppType r.fieldDescriptor).variantType then
    (.ok (), { enc with equalConstraints := enc.equalConstraints ++ [r.comparison none] })
  else if r.op = .kHas ∧ pool.containingOneof r.fieldDescriptor ≠ none then
    match enc.oneofFieldMap.lookup (pool.containingOneof r.fieldDescriptor) with
    | some bound =>
      if bound = r.fieldDescriptor then (.ok (), enc)
      else (.error (contradicts pool r.fieldDescriptor bound), enc)
    | none =>
      (.ok (), { enc.bindOneof pool r.fieldDescriptor with
        equalConstraints := enc.equalConstraints ++ [{ r.comparison none with expr := none }] })
  else (.ok (), { enc with otherConstraints := enc.otherConstraints ++ [r.comparison none] })

/-- `AddConstraint`. -/
def addConstraint [DecidableEq Field] (enc : ProtoInstructionEncoding Field Oneof)
    (r : Request Field) :
    Except String Unit × ProtoInstructionEncoding Field Oneof :=
  match addPrerequisites pool r.fieldDescriptor r.oneOfFields none enc with
  | (.error e, enc) => (.error e, enc)
  | (.ok dependsOn, enc) =>
    match r.oneOfFields with
    | first :: rest => (.ok (), addPath r first rest dependsOn enc)
    | [] => addDirect pool r enc

/-- The encoding after a request, whatever it returns. -/
def step [DecidableEq Field] (enc : ProtoInstructionEncoding Field Oneof) (r : Request Field) :
    ProtoInstructionEncoding Field Oneof := (addConstraint pool enc r).2

/-! ### The specification -/

variable {pool : DescriptorPool Field Oneof}

/-- All constraints of an encoding hold of a message. -/
def Conjunction (enc : ProtoInstructionEncoding Field Oneof) (m : Message pool) : Prop :=
  (∀ c ∈ enc.equalConstraints, c.Holds m) ∧ (∀ c ∈ enc.otherConstraints, c.Holds m) ∧
    ∀ p ∈ enc.hasConstraints, p.2.Holds m

variable (pool) in
/-- Success adds the active members of the path and the comparison to the conjunction, an error
    changes nothing. -/
def Exact [DecidableEq Field] (enc : ProtoInstructionEncoding Field Oneof) (r : Request Field) :
    Prop :=
  (∀ enc', addConstraint pool enc r = (.ok (), enc') → ∀ m : Message pool,
    enc'.Conjunction m ↔
      enc.Conjunction m ∧ (∀ d ∈ r.oneOfFields, m.Has d) ∧ (r.comparison none).Holds m) ∧
  ∀ e enc', addConstraint pool enc r = (.error e, enc') → enc' = enc

variable (pool) in
/-- The field that the oneof of `desc` is bound to when a path reaches `desc` by `before`. -/
def binding (map : List (Option Oneof × Field)) (before : List Field) (desc : Field) :
    Option Field :=
  (map.lookup (pool.containingOneof desc)).or
    (before.find? fun d => pool.containingOneof d = pool.containingOneof desc)

variable (pool) in
/-- No oneof of the path is bound to another field than the constrained one. -/
def Unopposed (map : List (Option Oneof × Field)) (fieldDescriptor : Field) (path : List Field) :
    Prop :=
  ∀ before desc after, path = before ++ desc :: after →
    ∀ b ∈ binding pool map before desc, b = fieldDescriptor

variable (pool) in
/-- A member of the path has its oneof bound to another field than the constrained one, and
    the members before it have theirs bound to that one. -/
def Taken (map : List (Option Oneof × Field)) (fieldDescriptor : Field) (path : List Field) :
    Prop :=
  ∃ before desc after, path = before ++ desc :: after ∧
    (∀ d ∈ before, map.lookup (pool.containingOneof d) = some fieldDescriptor) ∧
    ∃ b, map.lookup (pool.containingOneof desc) = some b ∧ b ≠ fieldDescriptor

/-! ### The map of oneofs along a path -/

section Path

variable {map : List (Option Oneof × Field)} {fieldDescriptor desc : Field} {rest : List Field}

variable {b : Field}

theorem binding_cons_of_some (h : map.lookup (pool.containingOneof desc) = some b)
    (before : List Field) (d : Field) :
    binding pool map (desc :: before) d = binding pool map before d := by
  unfold binding
  by_cases hd : pool.containingOneof desc = pool.containingOneof d
  · rw [← hd, h, Option.some_or, Option.some_or]
  · rw [List.find?_cons_of_neg (by simpa using hd)]

theorem binding_cons_of_none (h : map.lookup (pool.containingOneof desc) = none)
    (before : List Field) (d : Field) :
    binding pool map (desc :: before) d =
      binding pool (map ++ [(pool.containingOneof desc, desc)]) before d := by
  unfold binding
  by_cases hd : pool.containingOneof desc = pool.containingOneof d
  · rw [← hd, List.lookup_append, h, List.find?_cons_of_pos (by simp)]
    simp
  · have hne : (pool.containingOneof d == pool.containingOneof desc) = false := by
      simpa using fun h => hd h.symm
    rw [List.find?_cons_of_neg (by simpa using hd), List.lookup_append, List.lookup_cons, hne,
      List.lookup_nil, Option.or_none]

theorem unopposed_cons_iff :
    Unopposed pool map fieldDescriptor (desc :: rest) ↔
      (∀ b ∈ map.lookup (pool.containingOneof desc), b = fieldDescriptor) ∧
        ∀ before d after, rest = before ++ d :: after →
          ∀ b ∈ binding pool map (desc :: before) d, b = fieldDescriptor := by
  constructor
  · intro h
    refine ⟨fun b hb => h [] desc rest rfl b ?_, fun before d after hrest => ?_⟩
    · rw [Option.mem_def] at hb ⊢
      rw [binding, hb, Option.some_or]
    · exact h (desc :: before) d after (by rw [hrest, List.cons_append])
  · rintro ⟨hfirst, hrest⟩ before d after hpath
    cases before with
    | nil =>
      cases hpath
      intro b hb
      rw [binding, List.find?_nil, Option.or_none] at hb
      exact hfirst b hb
    | cons e before =>
      rw [List.cons_append, List.cons.injEq] at hpath
      obtain ⟨rfl, hpath⟩ := hpath
      exact hrest before d after hpath

theorem unopposed_cons_of_some (h : map.lookup (pool.containingOneof desc) = some b) :
    Unopposed pool map fieldDescriptor (desc :: rest) ↔
      b = fieldDescriptor ∧ Unopposed pool map fieldDescriptor rest := by
  rw [unopposed_cons_iff, h]
  simp only [binding_cons_of_some h, Option.mem_def, Option.some.injEq, forall_eq']
  rfl

theorem unopposed_cons_of_none (h : map.lookup (pool.containingOneof desc) = none) :
    Unopposed pool map fieldDescriptor (desc :: rest) ↔
      Unopposed pool (map ++ [(pool.containingOneof desc, desc)]) fieldDescriptor rest := by
  rw [unopposed_cons_iff, h]
  simp only [binding_cons_of_none h, Option.mem_def, reduceCtorEq, false_implies, implies_true,
    true_and]
  rfl

theorem taken_cons_iff (h : map.lookup (pool.containingOneof desc) = some b) :
    Taken pool map fieldDescriptor (desc :: rest) ↔
      b ≠ fieldDescriptor ∨ (b = fieldDescriptor ∧ Taken pool map fieldDescriptor rest) := by
  constructor
  · rintro ⟨before, d, after, hpath, hbefore, b', hb', hne⟩
    cases before with
    | nil =>
      cases hpath
      rw [h] at hb'
      cases hb'
      exact .inl hne
    | cons e before =>
      rw [List.cons_append, List.cons.injEq] at hpath
      obtain ⟨rfl, rfl⟩ := hpath
      have hb : b = fieldDescriptor := by
        have := hbefore desc List.mem_cons_self
        rw [h] at this
        exact Option.some.inj this
      exact .inr ⟨hb, before, d, after, rfl,
        fun e he => hbefore e (List.mem_cons_of_mem _ he), b', hb', hne⟩
  · rintro (hne | ⟨rfl, before, d, after, rfl, hbefore, hd⟩)
    · exact ⟨[], desc, rest, rfl, by simp, b, h, hne⟩
    · refine ⟨desc :: before, d, after, rfl, fun e he => ?_, hd⟩
      rcases List.mem_cons.mp he with rfl | he
      · exact h
      · exact hbefore e he

theorem not_taken_cons (h : map.lookup (pool.containingOneof desc) = none) :
    ¬ Taken pool map fieldDescriptor (desc :: rest) := by
  rintro ⟨before, d, after, hpath, hbefore, b, hb, -⟩
  cases before with
  | nil =>
    cases hpath
    rw [h] at hb
    cases hb
  | cons e before =>
    rw [List.cons_append, List.cons.injEq] at hpath
    have := hbefore e List.mem_cons_self
    rw [← hpath.1, h] at this
    cases this

end Path

/-! ### The loop over the path -/

/-- The has-constraints are kept under the names of their fields. -/
def Named (pool : DescriptorPool Field Oneof) (enc : ProtoInstructionEncoding Field Oneof) : Prop :=
  ∀ p ∈ enc.hasConstraints, p.1 = pool.fullName p.2.fieldDescriptor ∧ p.2.op = .kHas

/-- The field that a oneof is bound to is there in every message that is described. -/
def Recorded (pool : DescriptorPool Field Oneof) (enc : ProtoInstructionEncoding Field Oneof) :
    Prop :=
  ∀ o f, enc.oneofFieldMap.lookup o = some f → ∀ m : Message pool, enc.Conjunction m → m.Has f

theorem mem_of_lookup {l : List (String × ProtoConstraint Field)} {key : String}
    {c : ProtoConstraint Field} (h : l.lookup key = some c) : (key, c) ∈ l := by
  obtain ⟨before, after, rfl, -⟩ := List.lookup_eq_some_iff.mp h
  simp

variable {enc : ProtoInstructionEncoding Field Oneof}

omit [DecidableEq Oneof] in
/-- What adding a has-constraint does when the one it depends on is there. -/
theorem addHasConstraint_spec (hnamed : Named pool enc) {dependsOn : Option Field}
    (hdep : ∀ d ∈ dependsOn, (enc.hasConstraints.lookup (pool.fullName d)).isSome) (f : Field) :
    ∃ has, enc.addHasConstraint pool f dependsOn = (some f, { enc with hasConstraints := has }) ∧
      Named pool { enc with hasConstraints := has } ∧
      (has.lookup (pool.fullName f)).isSome ∧
      ∀ m : Message pool, (∀ p ∈ has, p.2.Holds m) ↔
        (∀ p ∈ enc.hasConstraints, p.2.Holds m) ∧ m.Has f := by
  have hthere : ¬ (dependsOn.any fun d =>
      (enc.hasConstraints.lookup (pool.fullName d)).isNone) = true := by
    cases dependsOn with
    | none => simp
    | some d =>
      have := hdep d rfl
      rw [Option.any_some, Option.isNone_iff_eq_none]
      exact Option.isSome_iff_ne_none.mp this
  rw [addHasConstraint, if_neg hthere]
  cases hlookup : enc.hasConstraints.lookup (pool.fullName f) with
  | some c =>
    -- The constraint is there already, for the same field.
    obtain ⟨hname, hop⟩ := hnamed _ (mem_of_lookup hlookup)
    have hfield : c.fieldDescriptor = f := pool.fullName_injective hname.symm
    refine ⟨enc.hasConstraints, by rw [← hfield], hnamed, by rw [hlookup]; rfl, fun m => ?_⟩
    refine ⟨fun h => ⟨h, ?_⟩, fun h => h.1⟩
    have := h _ (mem_of_lookup hlookup)
    rwa [ProtoConstraint.holds_has m hop, hfield] at this
  | none =>
    refine ⟨_, rfl, ?_, ?_, fun m => ?_⟩
    · intro p hp
      rcases List.mem_append.mp hp with hp | hp
      · exact hnamed p hp
      · obtain rfl := List.mem_singleton.mp hp
        exact ⟨rfl, rfl⟩
    · rw [List.lookup_append, hlookup, Option.none_or, List.lookup_cons_self]
      rfl
    · rw [List.forall_mem_append, List.forall_mem_singleton, ProtoConstraint.holds_has m rfl]

omit [DecidableEq Oneof] in
@[simp]
theorem addHasConstraint_map (f : Field) (dependsOn : Option Field) :
    (enc.addHasConstraint pool f dependsOn).2.oneofFieldMap = enc.oneofFieldMap := by
  unfold addHasConstraint
  split
  · rfl
  · cases enc.hasConstraints.lookup (pool.fullName f) <;> rfl

variable [DecidableEq Field] {f desc : Field} {rest : List Field} {dependsOn : Option Field}

theorem addPrerequisites_bound
    (h : enc.oneofFieldMap.lookup (pool.containingOneof desc) = some f) :
    addPrerequisites pool f (desc :: rest) dependsOn enc =
      addPrerequisites pool f rest dependsOn enc := by
  simp only [addPrerequisites, h, if_true]

theorem addPrerequisites_contradicts {b : Field}
    (h : enc.oneofFieldMap.lookup (pool.containingOneof desc) = some b) (hb : b ≠ f) :
    addPrerequisites pool f (desc :: rest) dependsOn enc = (.error (contradicts pool desc b), enc) := by
  simp only [addPrerequisites, h, if_neg hb]

theorem addPrerequisites_new
    (h : enc.oneofFieldMap.lookup (pool.containingOneof desc) = none) :
    addPrerequisites pool f (desc :: rest) dependsOn enc =
      addPrerequisites pool f rest
        ((enc.bindOneof pool desc).addHasConstraint pool desc dependsOn).1
        ((enc.bindOneof pool desc).addHasConstraint pool desc dependsOn).2 := by
  simp only [addPrerequisites, h]

theorem addPrerequisites_isOk_iff (path : List Field) (dependsOn : Option Field)
    (enc : ProtoInstructionEncoding Field Oneof) :
    (∃ d, (addPrerequisites pool f path dependsOn enc).1 = .ok d) ↔
      Unopposed pool enc.oneofFieldMap f path := by
  induction path generalizing dependsOn enc with
  | nil =>
    refine iff_of_true ⟨dependsOn, rfl⟩ fun before d after h => ?_
    simp at h
  | cons desc rest ih =>
    cases h : enc.oneofFieldMap.lookup (pool.containingOneof desc) with
    | some b =>
      rw [unopposed_cons_of_some h]
      by_cases hb : b = f
      · subst hb
        rw [addPrerequisites_bound h, ih]
        simp
      · rw [addPrerequisites_contradicts h hb]
        simp [hb]
    | none =>
      rw [addPrerequisites_new h, ih, addHasConstraint_map, unopposed_cons_of_none h]
      rfl

variable (pool f) in
theorem addPrerequisites_map (path : List Field) (dependsOn : Option Field)
    (enc : ProtoInstructionEncoding Field Oneof) :
    enc.oneofFieldMap <+: (addPrerequisites pool f path dependsOn enc).2.oneofFieldMap := by
  induction path generalizing dependsOn enc with
  | nil => exact List.prefix_rfl
  | cons desc rest ih =>
    cases h : enc.oneofFieldMap.lookup (pool.containingOneof desc) with
    | some b =>
      by_cases hb : b = f
      · subst hb
        rw [addPrerequisites_bound h]
        exact ih ..
      · rw [addPrerequisites_contradicts h hb]
    | none =>
      rw [addPrerequisites_new h]
      refine List.IsPrefix.trans ?_ (ih ..)
      rw [addHasConstraint_map]
      exact List.prefix_append ..

/-- An error leaves the encoding as it was if nothing has been bound before it. -/
theorem addPrerequisites_error (path : List Field) (dependsOn : Option Field)
    (enc : ProtoInstructionEncoding Field Oneof)
    (hpath : ¬ Unopposed pool enc.oneofFieldMap f path) :
    (addPrerequisites pool f path dependsOn enc).2 = enc ↔ Taken pool enc.oneofFieldMap f path := by
  induction path with
  | nil => exact absurd (fun before d after h => by simp at h) hpath
  | cons desc rest ih =>
    cases h : enc.oneofFieldMap.lookup (pool.containingOneof desc) with
    | some b =>
      rw [taken_cons_iff h]
      by_cases hb : b = f
      · subst hb
        rw [unopposed_cons_of_some h] at hpath
        rw [addPrerequisites_bound h, ih fun hrest => hpath ⟨rfl, hrest⟩]
        simp
      · rw [addPrerequisites_contradicts h hb]
        simp [hb]
    | none =>
      refine iff_of_false (fun hsame => ?_) (not_taken_cons h)
      rw [addPrerequisites_new h] at hsame
      have hprefix := addPrerequisites_map pool f rest
        ((enc.bindOneof pool desc).addHasConstraint pool desc dependsOn).1
        ((enc.bindOneof pool desc).addHasConstraint pool desc dependsOn).2
      have hlength := hprefix.length_le
      rw [hsame, addHasConstraint_map, bindOneof, List.length_append] at hlength
      simp at hlength

omit [DecidableEq Field] in
/-- Binding a oneof that is not bound, with the has-constraint for it. -/
theorem bindOneof_addHasConstraint (hnamed : Named pool enc) (hrec : Recorded pool enc)
    (hdep : ∀ d ∈ dependsOn, (enc.hasConstraints.lookup (pool.fullName d)).isSome) (desc : Field) :
    ∃ enc', (enc.bindOneof pool desc).addHasConstraint pool desc dependsOn = (some desc, enc') ∧
      Named pool enc' ∧ Recorded pool enc' ∧
      (enc'.hasConstraints.lookup (pool.fullName desc)).isSome ∧
      enc'.equalConstraints = enc.equalConstraints ∧
      enc'.otherConstraints = enc.otherConstraints ∧
      ∀ m : Message pool, enc'.Conjunction m ↔ enc.Conjunction m ∧ m.Has desc := by
  obtain ⟨has, hadd, hnamed', hthere, hhas⟩ :=
    addHasConstraint_spec (show Named pool (enc.bindOneof pool desc) from hnamed) hdep desc
  have hconj : ∀ m : Message pool, ({ enc.bindOneof pool desc with hasConstraints := has } :
      ProtoInstructionEncoding Field Oneof).Conjunction m ↔ enc.Conjunction m ∧ m.Has desc := by
    intro m
    constructor
    · rintro ⟨hequal, hother, hall⟩
      obtain ⟨hold, hdesc⟩ := (hhas m).mp hall
      exact ⟨⟨hequal, hother, hold⟩, hdesc⟩
    · rintro ⟨⟨hequal, hother, hold⟩, hdesc⟩
      exact ⟨hequal, hother, (hhas m).mpr ⟨hold, hdesc⟩⟩
  refine ⟨_, hadd, hnamed', ?_, hthere, rfl, rfl, hconj⟩
  intro o g hlookup m hm
  obtain ⟨hm, hdesc⟩ := (hconj m).mp hm
  change (enc.oneofFieldMap ++ [(pool.containingOneof desc, desc)]).lookup o = some g at hlookup
  rw [List.lookup_append, Option.or_eq_some_iff] at hlookup
  rcases hlookup with hold | ⟨-, hnew⟩
  · exact hrec o g hold m hm
  · rw [List.lookup_cons] at hnew
    split at hnew
    · cases hnew
      exact hdesc
    · cases hnew

/-- What the loop keeps, and between which conjunctions that of the new encoding is. -/
structure Follows (pool : DescriptorPool Field Oneof) (enc : ProtoInstructionEncoding Field Oneof)
    (path : List Field) (enc' : ProtoInstructionEncoding Field Oneof) : Prop where
  named : Named pool enc'
  recorded : Recorded pool enc'
  equal : enc'.equalConstraints = enc.equalConstraints
  other : enc'.otherConstraints = enc.otherConstraints
  before : ∀ m : Message pool, enc'.Conjunction m → enc.Conjunction m
  after : ∀ m : Message pool, enc.Conjunction m → (∀ d ∈ path, m.Has d) → enc'.Conjunction m

theorem addPrerequisites_follows (path : List Field) (dependsOn : Option Field)
    (hnamed : Named pool enc) (hrec : Recorded pool enc)
    (hdep : ∀ d ∈ dependsOn, (enc.hasConstraints.lookup (pool.fullName d)).isSome) :
    Follows pool enc path (addPrerequisites pool f path dependsOn enc).2 := by
  induction path generalizing dependsOn enc with
  | nil => exact ⟨hnamed, hrec, rfl, rfl, fun _ h => h, fun _ h _ => h⟩
  | cons desc rest ih =>
    cases h : enc.oneofFieldMap.lookup (pool.containingOneof desc) with
    | some b =>
      by_cases hb : b = f
      · subst hb
        rw [addPrerequisites_bound h]
        have hrest := ih dependsOn hnamed hrec hdep
        exact ⟨hrest.named, hrest.recorded, hrest.equal, hrest.other, hrest.before,
          fun m hm hpath => hrest.after m hm fun d hd => hpath d (List.mem_cons_of_mem _ hd)⟩
      · rw [addPrerequisites_contradicts h hb]
        exact ⟨hnamed, hrec, rfl, rfl, fun _ h => h, fun _ h _ => h⟩
    | none =>
      obtain ⟨enc', hadd, hnamed', hrec', hthere, hequal, hother, hconj⟩ :=
        bindOneof_addHasConstraint hnamed hrec hdep desc
      rw [addPrerequisites_new h, hadd]
      have hrest := ih (some desc) hnamed' hrec' fun d hd => by
        obtain rfl := Option.mem_some_iff.mp hd
        exact hthere
      exact ⟨hrest.named, hrest.recorded, hrest.equal.trans hequal, hrest.other.trans hother,
        fun m hm => ((hconj m).mp (hrest.before m hm)).1,
        fun m hm hpath => hrest.after m ((hconj m).mpr ⟨hm, hpath desc List.mem_cons_self⟩)
          fun d hd => hpath d (List.mem_cons_of_mem _ hd)⟩

/-! ### One request -/

omit [DecidableEq Oneof] [DecidableEq Field] in
/-- The end of `AddConstraint` adds the members, and the comparison if there are two. -/
theorem conjunction_addPath (r : Request Field) (first : Field) (rest : List Field)
    (dependsOn : Option Field) (enc : ProtoInstructionEncoding Field Oneof) (m : Message pool) :
    (addPath r first rest dependsOn enc).Conjunction m ↔
      enc.Conjunction m ∧ (∀ d ∈ first :: rest, m.Has d) ∧
        (rest ≠ [] → (r.comparison none).Holds m) := by
  have hequal : (∀ c ∈ (addPath r first rest dependsOn enc).equalConstraints, c.Holds m) ↔
      (∀ c ∈ enc.equalConstraints, c.Holds m) ∧ m.Has first := by
    rw [addPath, List.forall_mem_append, List.forall_mem_singleton,
      ProtoConstraint.holds_has m rfl]
    rfl
  have hother : (∀ c ∈ (addPath r first rest dependsOn enc).otherConstraints, c.Holds m) ↔
      (∀ c ∈ enc.otherConstraints, c.Holds m) ∧ (∀ d ∈ rest, m.Has d) ∧
        (rest ≠ [] → (r.comparison none).Holds m) := by
    rw [addPath, List.forall_mem_append, List.forall_mem_flatMap]
    refine and_congr_right fun _ => ?_
    constructor
    · intro h
      refine ⟨fun d hd => ?_, fun hne => ?_⟩
      · exact (ProtoConstraint.holds_has m rfl).mp (h d hd _ List.mem_cons_self)
      · obtain ⟨d, hd⟩ := List.exists_mem_of_ne_nil rest hne
        exact h d hd (r.comparison dependsOn) (List.mem_cons_of_mem _ (List.mem_singleton_self _))
    · rintro ⟨hrest, hcomparison⟩ d hd c hc
      rcases List.mem_pair.mp hc with rfl | rfl
      · exact (ProtoConstraint.holds_has m rfl).mpr (hrest d hd)
      · exact hcomparison (List.ne_nil_of_mem hd)
  unfold Conjunction
  rw [hequal, hother, List.forall_mem_cons]
  tauto

theorem addDirect_exact (hrec : Recorded pool enc) (r : Request Field) :
    (∀ enc', addDirect pool r enc = (.ok (), enc') → ∀ m : Message pool,
      enc'.Conjunction m ↔ enc.Conjunction m ∧ (r.comparison none).Holds m) ∧
    ∀ e enc', addDirect pool r enc = (.error e, enc') → enc' = enc := by
  unfold addDirect
  split
  · -- An equality on an integer.
    refine ⟨fun enc' h m => ?_, fun e enc' h => by cases h⟩
    cases h
    unfold Conjunction
    rw [List.forall_mem_append, List.forall_mem_singleton]
    tauto
  split
  · rename_i hhas
    have hholds : ∀ m : Message pool, (r.comparison none).Holds m ↔ m.Has r.fieldDescriptor :=
      fun m => ProtoConstraint.holds_has m hhas.1
    cases hlookup : enc.oneofFieldMap.lookup (pool.containingOneof r.fieldDescriptor) with
    | some bound =>
      by_cases hb : bound = r.fieldDescriptor
      · -- The constraint is there already.
        subst hb
        refine ⟨fun enc' h m => ?_, fun e enc' h => ?_⟩
        · simp only [if_true] at h
          cases h
          rw [hholds]
          exact ⟨fun hm => ⟨hm, hrec _ _ hlookup m hm⟩, fun hm => hm.1⟩
        · simp at h
      · simp only [if_neg hb]
        refine ⟨fun enc' h => ?_, fun e enc' h => ?_⟩
        · cases h
        · cases h
          rfl
    | none =>
      refine ⟨fun enc' h m => ?_, fun e enc' h => by cases h⟩
      cases h
      rw [hholds]
      unfold Conjunction bindOneof
      rw [List.forall_mem_append, List.forall_mem_singleton, ProtoConstraint.holds_has m hhas.1]
      change (_ ∧ m.Has r.fieldDescriptor) ∧ _ ↔ _
      tauto
  · refine ⟨fun enc' h m => ?_, fun e enc' h => by cases h⟩
    cases h
    unfold Conjunction
    rw [List.forall_mem_append, List.forall_mem_singleton]
    tauto

/-- The requests that keep the promise: either the first oneof of the path that is not bound to
    the constrained field is bound to another one, or none is and the path has not just one
    member, unless the comparison follows from what there is. -/
def Kept (pool : DescriptorPool Field Oneof) (enc : ProtoInstructionEncoding Field Oneof)
    (r : Request Field) : Prop :=
  Taken pool enc.oneofFieldMap r.fieldDescriptor r.oneOfFields ∨
    Unopposed pool enc.oneofFieldMap r.fieldDescriptor r.oneOfFields ∧
      ∀ d, r.oneOfFields = [d] → ∀ m : Message pool, enc.Conjunction m → m.Has d →
        (r.comparison none).Holds m

omit [DecidableEq Field] in
theorem not_taken_of_unopposed {map : List (Option Oneof × Field)} {path : List Field}
    (h : Unopposed pool map f path) : ¬ Taken pool map f path := by
  rintro ⟨before, d, after, hpath, -, b, hb, hne⟩
  refine hne (h before d after hpath b ?_)
  rw [Option.mem_def, binding, hb, Option.some_or]

/-- On an opposed path the loop returns an error, and so does the function. -/
theorem exact_iff_of_opposed {r : Request Field}
    (hpath : ¬ Unopposed pool enc.oneofFieldMap r.fieldDescriptor r.oneOfFields) :
    Exact pool enc r ↔ Taken pool enc.oneofFieldMap r.fieldDescriptor r.oneOfFields := by
  have herror := addPrerequisites_error r.oneOfFields none enc hpath
  have hok : (∃ d, (addPrerequisites pool r.fieldDescriptor r.oneOfFields none enc).1 = .ok d) ↔
      Unopposed pool enc.oneofFieldMap r.fieldDescriptor r.oneOfFields :=
    addPrerequisites_isOk_iff ..
  obtain ⟨e, enc', henc⟩ : ∃ e enc',
      addPrerequisites pool r.fieldDescriptor r.oneOfFields none enc = (.error e, enc') := by
    cases h : (addPrerequisites pool r.fieldDescriptor r.oneOfFields none enc).1 with
    | error e => exact ⟨e, _, Prod.ext h rfl⟩
    | ok d => exact absurd (hok.mp ⟨d, h⟩) hpath
  rw [henc] at herror
  have hadd : addConstraint pool enc r = (.error e, enc') := by
    simp only [addConstraint, henc]
  unfold Exact
  rw [hadd, ← herror]
  constructor
  · rintro ⟨-, hsame⟩
    exact hsame e enc' rfl
  · intro hsame
    refine ⟨fun enc'' h => ?_, fun e' enc'' h => ?_⟩
    · cases h
    · cases h
      exact hsame

/-- On an unopposed path with members the function succeeds; the comparison is lost if there is
    one member. -/
theorem exact_iff_of_members (hnamed : Named pool enc) (hrec : Recorded pool enc)
    {r : Request Field} {first : Field} (hfields : r.oneOfFields = first :: rest)
    (hpath : Unopposed pool enc.oneofFieldMap r.fieldDescriptor r.oneOfFields) :
    Exact pool enc r ↔ ∀ d, r.oneOfFields = [d] → ∀ m : Message pool, enc.Conjunction m →
      m.Has d → (r.comparison none).Holds m := by
  have hfollows := addPrerequisites_follows (f := r.fieldDescriptor) r.oneOfFields none hnamed hrec
    (by simp)
  obtain ⟨dependsOn, hdep⟩ := (addPrerequisites_isOk_iff r.oneOfFields none enc).mpr hpath
  obtain ⟨enc', henc⟩ : ∃ enc', addPrerequisites pool r.fieldDescriptor r.oneOfFields none enc =
      (.ok dependsOn, enc') := ⟨_, Prod.ext hdep rfl⟩
  rw [henc, hfields] at hfollows
  rw [hfields] at henc
  have hadd : addConstraint pool enc r = (.ok (), addPath r first rest dependsOn enc') := by
    simp only [addConstraint, hfields, henc]
  have hconj : ∀ m : Message pool, (addPath r first rest dependsOn enc').Conjunction m ↔
      (enc.Conjunction m ∧ ∀ d ∈ first :: rest, m.Has d) ∧
        (rest ≠ [] → (r.comparison none).Holds m) := by
    intro m
    rw [conjunction_addPath, ← and_assoc]
    refine and_congr_left fun _ => and_congr_left fun hhas => ?_
    exact ⟨hfollows.before m, fun hm => hfollows.after m hm hhas⟩
  constructor
  · rintro ⟨hsuccess, -⟩ d hd m hm hhas
    rw [hfields, List.cons.injEq] at hd
    obtain ⟨rfl, rfl⟩ := hd
    have hhas' : ∀ d ∈ [first], m.Has d := by simpa using hhas
    have hall := (hsuccess _ hadd m).mp ((hconj m).mpr ⟨⟨hm, hhas'⟩, fun h => absurd rfl h⟩)
    exact hall.2.2
  · intro hone
    refine ⟨fun enc'' h m => ?_, fun e enc'' h => ?_⟩
    · rw [hadd] at h
      cases h
      rw [hconj, hfields, ← and_assoc]
      refine and_congr_right fun ⟨hm, hhas⟩ => ⟨fun h => ?_, fun h _ => h⟩
      by_cases hrest : rest = []
      · subst hrest
        exact hone first hfields m hm (hhas first List.mem_cons_self)
      · exact h hrest
    · rw [hadd] at h
      cases h

theorem exact_iff_kept (hnamed : Named pool enc) (hrec : Recorded pool enc) (r : Request Field) :
    Exact pool enc r ↔ Kept pool enc r := by
  unfold Kept
  by_cases hpath : Unopposed pool enc.oneofFieldMap r.fieldDescriptor r.oneOfFields
  · rw [or_iff_right (not_taken_of_unopposed hpath), and_iff_right hpath]
    cases hfields : r.oneOfFields with
    | nil =>
      -- The loop has done nothing.
      have hadd : addConstraint pool enc r = addDirect pool r enc := by
        simp only [addConstraint, hfields, addPrerequisites]
      refine iff_of_true ?_ (by simp)
      unfold Exact
      simp only [hadd, hfields, List.not_mem_nil, false_implies, implies_true, true_and]
      exact addDirect_exact hrec r
    | cons first rest =>
      rw [exact_iff_of_members hnamed hrec hfields hpath, hfields]
  · rw [exact_iff_of_opposed hpath, or_iff_left fun h => hpath h.1]

/-! ### Runs -/

omit [DecidableEq Field] in
theorem recorded_of_conjunction {enc' : ProtoInstructionEncoding Field Oneof}
    (hrec : Recorded pool enc) (hmap : ∀ o g, enc'.oneofFieldMap.lookup o = some g →
      enc.oneofFieldMap.lookup o = some g ∨ ∀ m : Message pool, enc'.Conjunction m → m.Has g)
    (hconj : ∀ m : Message pool, enc'.Conjunction m → enc.Conjunction m) : Recorded pool enc' := by
  intro o g hlookup m hm
  rcases hmap o g hlookup with hold | hnew
  · exact hrec o g hold m (hconj m hm)
  · exact hnew m hm

theorem addDirect_keeps (hnamed : Named pool enc) (hrec : Recorded pool enc) (r : Request Field) :
    Named pool (addDirect pool r enc).2 ∧ Recorded pool (addDirect pool r enc).2 := by
  have hexact := addDirect_exact hrec r
  cases hadd : addDirect pool r enc with
  | mk result enc' =>
  cases result with
  | error e =>
    rw [hexact.2 e enc' hadd]
    exact ⟨hnamed, hrec⟩
  | ok u =>
    have hconj := hexact.1 enc' hadd
    unfold addDirect at hadd
    split at hadd
    · cases hadd
      exact ⟨hnamed, recorded_of_conjunction hrec (fun o g h => .inl h) fun m h => ((hconj m).mp h).1⟩
    split at hadd
    · rename_i hhas
      split at hadd
      · split at hadd
        · cases hadd
          exact ⟨hnamed, hrec⟩
        · cases hadd
      · cases hadd
        refine ⟨hnamed, recorded_of_conjunction hrec (fun o g h => ?_) fun m h => ((hconj m).mp h).1⟩
        -- The new entry binds the oneof to the field that is required.
        rw [bindOneof, List.lookup_append, Option.or_eq_some_iff] at h
        rcases h with hold | ⟨-, hnew⟩
        · exact .inl hold
        · rw [List.lookup_cons] at hnew
          split at hnew
          · cases hnew
            refine .inr fun m hm => ?_
            exact (ProtoConstraint.holds_has m hhas.1).mp ((hconj m).mp hm).2
          · cases hnew
    · cases hadd
      exact ⟨hnamed, recorded_of_conjunction hrec (fun o g h => .inl h) fun m h => ((hconj m).mp h).1⟩

theorem step_keeps (hnamed : Named pool enc) (hrec : Recorded pool enc) (r : Request Field) :
    Named pool (step pool enc r) ∧ Recorded pool (step pool enc r) := by
  have hfollows := addPrerequisites_follows (f := r.fieldDescriptor) r.oneOfFields none hnamed hrec
    (by simp)
  unfold step addConstraint
  cases hloop : addPrerequisites pool r.fieldDescriptor r.oneOfFields none enc with
  | mk result enc' =>
  rw [hloop] at hfollows
  cases result with
  | error e => exact ⟨hfollows.named, hfollows.recorded⟩
  | ok dependsOn =>
    cases hfields : r.oneOfFields with
    | nil => exact addDirect_keeps hfollows.named hfollows.recorded r
    | cons first rest =>
      refine ⟨hfollows.named, recorded_of_conjunction hfollows.recorded (fun o g h => .inl h)
        fun m h => ?_⟩
      exact ((conjunction_addPath r first rest dependsOn enc' m).mp h).1

theorem run_keeps (name : String) (requests : List (Request Field)) :
    Named pool (run (step pool) { name := name } requests) ∧
      Recorded pool (run (step pool) { name := name } requests) := by
  have hall : Along (step pool) (fun _ _ => True) { name := name } requests :=
    along_of_forall fun _ _ => trivial
  refine run_invariant (fun enc => Named pool enc ∧ Recorded pool enc)
    (fun enc r h _ => step_keeps h.1 h.2 r) ⟨?_, ?_⟩ hall
  · intro p hp
    cases hp
  · intro o f h
    cases h

/-- A message type whose oneof `o` has the member `a`, with an integer `x`. -/
def nestedPool : DescriptorPool (Fin 2) Unit where
  name f := if f.val = 0 then "a" else "x"
  fullName f := if f.val = 0 then "M.a" else "A.x"
  index _ := 0
  cppType f := if f.val = 0 then .message else .int32
  closedEnum _ := none
  containingOneof f := if f.val = 0 then some () else none
  oneofName _ := "o"
  field _ := [⟨0, Nat.two_pos⟩]
  defaultValue f := if f.val = 0 then .message else .value (.int32 0)
  fullName_injective := by decide
  index_lt := by decide
  mem_field := by decide
  name_nodup := by decide
  closedEnum_type := by simp
  default_admitted := by
    refine fun f => ⟨?_, by simp⟩
    revert f
    decide

end ProtoInstructionEncoding

end MpactSim.Proto
