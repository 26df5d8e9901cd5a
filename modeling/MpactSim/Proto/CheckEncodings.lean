import MpactSim.Proto.ConstraintOverlap
import MpactSim.Proto.InstructionEncoding

namespace MpactSim.Proto

open Lib

/-!
# The check of a leaf group of proto encodings

A group that no field splits further is searched for ambiguities: every encoding has to have
constraints, these are turned into value sets field by field, and each two encodings are
compared.

* `valueSets`, `ambiguities`, `checkEncodings` — the source;
* `CheckSound`        — what is expected of the check;
* `valueSets_eq`      — the loop over the constraints of an encoding, in closed form;
* `checkSound_iff`    — for which groups the check is sound.
-/

variable {Field Oneof : Type} [DecidableEq Field]

/-! ### The source -/

section Source

variable (pool : DescriptorPool Field Oneof)

/-- The constraints of an encoding, sorted by the full names of their fields. -/
def ProtoInstructionEncoding.sortedConstraints (enc : ProtoInstructionEncoding Field Oneof) :
    List (ProtoConstraint Field) :=
  (enc.equalConstraints ++ enc.otherConstraints).insertionSort fun c d =>
    pool.fullName c.fieldDescriptor ≤ pool.fullName d.fieldDescriptor

/-- The value sets of sorted constraints, after one on the field `previous`. -/
def valueSets : Option Field → List (ProtoConstraint Field) →
    Option (List (Field × ProtoConstraintValueSet))
  | _, [] => some []
  | previous, c :: rest =>
    if previous ≠ some c.fieldDescriptor then do
      let valueSet ← pool.ofConstraint c
      let sets ← valueSets (some c.fieldDescriptor) rest
      return (c.fieldDescriptor, valueSet) :: sets
    else
      -- `value_set` is a new variable for each constraint, and null here.
      none

/-- The errors for two encodings, given by their names and value sets. -/
def ambiguity (groupName : String) (lhs rhs : String × List (Field × ProtoConstraintValueSet)) :
    Option (List String) :=
  (pool.doConstraintsOverlap lhs.2 rhs.2).map fun overlap =>
    if overlap then
      ["Encoding group '" ++ groupName ++ "': encoding ambiguity between '" ++ lhs.1 ++ " and " ++
        rhs.1 ++ "'"]
    else []

/-- The comparison of each two encodings. -/
def ambiguities (groupName : String) :
    List (String × List (Field × ProtoConstraintValueSet)) → Option (List String)
  | [] => some []
  | e :: rest => do
    let found ← rest.mapM (ambiguity pool groupName e)
    let others ← ambiguities groupName rest
    return found.flatten ++ others

/-- The error for an encoding without constraints among others. -/
def decodingAmbiguity (encodings : List (ProtoInstructionEncoding Field Oneof)) (i : Nat) : String :=
  "Decoding ambiguity between '" ++ ((encodings[i]?).map (·.name)).getD "" ++ "' and :" ++
    String.join ((encodings.eraseIdx i).map fun other => " '" ++ other.name ++ "'")

/-- `CheckEncodings`, with the errors that it reports; undefined where a null pointer is used. -/
def checkEncodings (groupName : String) (encodings : List (ProtoInstructionEncoding Field Oneof)) :
    Option (List String) :=
  if encodings.length ≤ 1 then some []
  else
    match encodings.findIdx? fun enc =>
      enc.equalConstraints.isEmpty && enc.otherConstraints.isEmpty with
    | some i => some [decodingAmbiguity encodings i]
    | none => do
      let sets ← encodings.mapM fun enc =>
        (valueSets pool none (enc.sortedConstraints pool)).map (enc.name, ·)
      ambiguities pool groupName sets

end Source

/-! ### The specification -/

variable {pool : DescriptorPool Field Oneof}

namespace ProtoInstructionEncoding

/-- The constraints that decoding tests. -/
def constraints (enc : ProtoInstructionEncoding Field Oneof) : List (ProtoConstraint Field) :=
  enc.equalConstraints ++ enc.otherConstraints

/-- Every field has one constraint at most; comparisons have an expression, and fields that have
    to be there are members of a oneof. -/
def Plain (pool : DescriptorPool Field Oneof) (enc : ProtoInstructionEncoding Field Oneof) : Prop :=
  (enc.constraints.map (·.fieldDescriptor)).Nodup ∧
    ∀ c ∈ enc.constraints, if c.op = .kHas then pool.containingOneof c.fieldDescriptor ≠ none
      else c.expr ≠ none

end ProtoInstructionEncoding

/-- The check is defined, and if it reports no error no message satisfies two encodings. -/
def CheckSound (pool : DescriptorPool Field Oneof) (groupName : String)
    (encodings : List (ProtoInstructionEncoding Field Oneof)) : Prop :=
  ∃ errors, checkEncodings pool groupName encodings = some errors ∧
    (errors = [] → encodings.Pairwise fun a b =>
      ¬ ∃ m : Message pool, (∀ c ∈ a.constraints, c.Holds m) ∧ ∀ c ∈ b.constraints, c.Holds m)

/-- The groups for which the check is sound: one encoding at most, or an encoding without
    constraints; else every encoding has one constraint on a field at most, no comparison of two
    of them uses a null pointer, and two of them are said to overlap or each two have a field or
    a oneof that cannot suit both. -/
def Checkable (pool : DescriptorPool Field Oneof)
    (encodings : List (ProtoInstructionEncoding Field Oneof)) : Prop :=
  encodings.length ≤ 1 ∨ (∃ enc ∈ encodings, enc.constraints = []) ∨
    (∀ enc ∈ encodings, enc.Plain pool) ∧
      (encodings.Pairwise fun a b =>
        Joined pool a.constraints b.constraints ∨ Parted pool a.constraints b.constraints) ∧
      ((¬ encodings.Pairwise fun a b => ¬ Joined pool a.constraints b.constraints) ∨
        encodings.Pairwise fun a b => ¬ Compatible pool (a.constraints ++ b.constraints))

/-! ### The value sets of an encoding -/

omit [DecidableEq Field] in
theorem isSome_ofConstraint (c : ProtoConstraint Field) :
    (pool.ofConstraint c).isSome ↔
      if c.op = .kHas then pool.containingOneof c.fieldDescriptor ≠ none else c.expr ≠ none := by
  unfold DescriptorPool.ofConstraint
  split
  · rw [Option.isSome_map, Option.isSome_iff_ne_none]
  · rw [Option.isSome_map, Option.isSome_iff_ne_none]

omit [DecidableEq Field] in
theorem fieldDescriptor_notMem_iff {c : ProtoConstraint Field} {rest : List (ProtoConstraint Field)}
    (hsorted : (c :: rest).Pairwise fun c d =>
      pool.fullName c.fieldDescriptor ≤ pool.fullName d.fieldDescriptor) :
    c.fieldDescriptor ∉ rest.map (·.fieldDescriptor) ↔
      ∀ d ∈ rest.head?, d.fieldDescriptor ≠ c.fieldDescriptor := by
  cases rest with
  | nil => simp
  | cons d rest =>
    obtain ⟨hhead, hrest⟩ := List.pairwise_cons.mp hsorted
    simp only [List.head?_cons, Option.mem_def, Option.some.injEq, forall_eq']
    constructor
    · intro hno heq
      exact hno (List.mem_map.mpr ⟨d, List.mem_cons_self, heq⟩)
    · intro hne hmem
      obtain ⟨e, he, heq⟩ := List.mem_map.mp hmem
      have hle : pool.fullName d.fieldDescriptor ≤ pool.fullName e.fieldDescriptor := by
        rcases List.mem_cons.mp he with rfl | he
        · exact le_refl _
        · exact (List.pairwise_cons.mp hrest).1 e he
      refine hne (pool.fullName_injective (le_antisymm ?_ (hhead d List.mem_cons_self)))
      rwa [heq] at hle

/-- The loop over sorted constraints is defined if no field comes twice and every constraint has
    a value set, and these are the result. -/
theorem valueSets_eq (cs : List (ProtoConstraint Field)) (previous : Option Field)
    (hsorted : cs.Pairwise fun c d =>
      pool.fullName c.fieldDescriptor ≤ pool.fullName d.fieldDescriptor) :
    ((valueSets pool previous cs).isSome ↔
      (cs.map (·.fieldDescriptor)).Nodup ∧ (∀ c ∈ cs, (pool.ofConstraint c).isSome) ∧
        ∀ c ∈ cs.head?, previous ≠ some c.fieldDescriptor) ∧
    ∀ sets, valueSets pool previous cs = some sets →
      sets = cs.map fun c => (c.fieldDescriptor, (pool.ofConstraint c).getD ⟨[]⟩) := by
  induction cs generalizing previous with
  | nil =>
    refine ⟨by simp [valueSets], fun sets h => ?_⟩
    cases h
    rfl
  | cons c rest ih =>
    obtain ⟨ihsome, ihsets⟩ := ih (some c.fieldDescriptor) (List.pairwise_cons.mp hsorted).2
    have hnodup := fieldDescriptor_notMem_iff hsorted
    have hhead : (∀ d ∈ rest.head?, some c.fieldDescriptor ≠ some d.fieldDescriptor) ↔
        ∀ d ∈ rest.head?, d.fieldDescriptor ≠ c.fieldDescriptor := by
      simp only [ne_eq, Option.some.injEq, eq_comm]
    rw [hhead, ← hnodup] at ihsome
    rw [valueSets]
    by_cases hprevious : previous = some c.fieldDescriptor
    · rw [if_neg (not_not.mpr hprevious)]
      refine ⟨?_, fun sets h => by cases h⟩
      simp [hprevious]
    · rw [if_pos hprevious, List.map_cons, List.nodup_cons, List.forall_mem_cons]
      cases hc : pool.ofConstraint c with
      | none => simp
      | some s =>
        cases hrest : valueSets pool (some c.fieldDescriptor) rest with
        | none =>
          rw [hrest] at ihsome
          refine ⟨?_, fun sets h => by cases h⟩
          simp only [Option.isSome_none, Bool.false_eq_true, false_iff] at ihsome
          simp only [Option.bind_eq_bind, Option.bind_some, Option.bind_none, Option.isSome_none,
            Bool.false_eq_true, false_iff]
          tauto
        | some rests =>
          rw [hrest] at ihsome
          simp only [Option.isSome_some, true_iff] at ihsome
          refine ⟨?_, fun sets h => ?_⟩
          · simp only [Option.bind_eq_bind, Option.bind_some, List.head?_cons, Option.mem_def,
              Option.some.injEq, forall_eq']
            simp only [pure, Option.isSome_some, true_iff]
            tauto
          · cases h
            rw [ihsets rests hrest, List.map_cons, hc]
            rfl

omit [DecidableEq Field] in
theorem constraintOn_eq_some_iff {cs : List (ProtoConstraint Field)}
    (hnodup : (cs.map (·.fieldDescriptor)).Nodup) (name : String) (c : ProtoConstraint Field) :
    pool.constraintOn cs name = some c ↔ c ∈ cs ∧ pool.fullName c.fieldDescriptor = name := by
  unfold DescriptorPool.constraintOn
  constructor
  · intro h
    exact ⟨List.mem_of_find?_eq_some h, by simpa using List.find?_some h⟩
  · rintro ⟨hc, hname⟩
    cases hd : cs.find? fun c => pool.fullName c.fieldDescriptor = name with
    | none =>
      have := List.find?_eq_none.mp hd c hc
      simp [hname] at this
    | some d =>
      have hdname : pool.fullName d.fieldDescriptor = name := by simpa using List.find?_some hd
      have hfield : d.fieldDescriptor = c.fieldDescriptor :=
        pool.fullName_injective (hdname.trans hname.symm)
      rw [List.inj_on_of_nodup_map hnodup (List.mem_of_find?_eq_some hd) hc hfield]

omit [DecidableEq Field] in
theorem constraintOn_perm {cs ds : List (ProtoConstraint Field)} (hperm : cs.Perm ds)
    (hnodup : (cs.map (·.fieldDescriptor)).Nodup) :
    pool.constraintOn cs = pool.constraintOn ds := by
  funext name
  ext c
  have hnodup' : (ds.map (·.fieldDescriptor)).Nodup := (hperm.map _).nodup_iff.mp hnodup
  rw [constraintOn_eq_some_iff hnodup, constraintOn_eq_some_iff hnodup', hperm.mem_iff]

namespace ProtoInstructionEncoding

variable {enc : ProtoInstructionEncoding Field Oneof}

omit [DecidableEq Field] in
variable (pool enc) in
theorem sortedConstraints_perm : (enc.sortedConstraints pool).Perm enc.constraints :=
  List.perm_insertionSort ..

omit [DecidableEq Field] in
variable (pool enc) in
theorem pairwise_sortedConstraints : (enc.sortedConstraints pool).Pairwise fun c d =>
    pool.fullName c.fieldDescriptor ≤ pool.fullName d.fieldDescriptor := by
  have htotal : Std.Total fun c d : ProtoConstraint Field =>
      pool.fullName c.fieldDescriptor ≤ pool.fullName d.fieldDescriptor :=
    ⟨fun c d => le_total _ _⟩
  have htrans : IsTrans (ProtoConstraint Field) fun c d =>
      pool.fullName c.fieldDescriptor ≤ pool.fullName d.fieldDescriptor :=
    ⟨fun _ _ _ => le_trans⟩
  exact List.pairwise_insertionSort _ _

omit [DecidableEq Field] in
/-- The constraints of a plain encoding, as they are compared. -/
def plainList (h : enc.Plain pool) : ConstraintList pool where
  constraints := enc.sortedConstraints pool
  sorted := by
    have hnodup : ((enc.sortedConstraints pool).map (·.fieldDescriptor)).Nodup :=
      ((sortedConstraints_perm pool enc).map _).nodup_iff.mpr h.1
    refine ((pairwise_sortedConstraints pool enc).and (List.pairwise_map.mp hnodup)).imp ?_
    rintro c d ⟨hle, hne⟩
    exact lt_of_le_of_ne hle fun heq => hne (pool.fullName_injective heq)
  described c hc := (isSome_ofConstraint c).mpr
    (h.2 c ((sortedConstraints_perm pool enc).mem_iff.mp hc))

variable (pool enc) in
theorem valueSets_sortedConstraints :
    ((valueSets pool none (enc.sortedConstraints pool)).isSome ↔ enc.Plain pool) ∧
    ∀ h : enc.Plain pool,
      valueSets pool none (enc.sortedConstraints pool) = some (plainList h).sets := by
  obtain ⟨hsome, hsets⟩ := valueSets_eq _ none (pairwise_sortedConstraints pool enc)
  have hperm := sortedConstraints_perm pool enc
  have hiff : (valueSets pool none (enc.sortedConstraints pool)).isSome ↔ enc.Plain pool := by
    rw [hsome, (hperm.map _).nodup_iff]
    simp only [hperm.mem_iff, isSome_ofConstraint, ne_eq, reduceCtorEq, not_false_eq_true,
      implies_true, and_true]
    rfl
  refine ⟨hiff, fun h => ?_⟩
  obtain ⟨sets, hsets'⟩ := Option.isSome_iff_exists.mp (hiff.mpr h)
  rw [hsets', hsets sets hsets']
  rfl

omit [DecidableEq Field] in
theorem overlap_plainList {a b : ProtoInstructionEncoding Field Oneof} (ha : a.Plain pool)
    (hb : b.Plain pool) :
    (pool.doConstraintsOverlap (plainList ha).sets (plainList hb).sets = some true ↔
      Joined pool a.constraints b.constraints) ∧
    (pool.doConstraintsOverlap (plainList ha).sets (plainList hb).sets = some false ↔
      Parted pool a.constraints b.constraints) := by
  have hcases := doConstraintsOverlap_cases (plainList ha) (plainList hb)
  have hon : ∀ {enc : ProtoInstructionEncoding Field Oneof} (h : enc.Plain pool),
      pool.constraintOn (plainList h).constraints = pool.constraintOn enc.constraints :=
    fun h => (constraintOn_perm (sortedConstraints_perm pool _).symm h.1).symm
  unfold Joined Parted at hcases ⊢
  rwa [hon ha, hon hb] at hcases

end ProtoInstructionEncoding

/-! ### The comparison of each two encodings -/

omit [DecidableEq Field] in
theorem isSome_ambiguity (groupName : String)
    (lhs rhs : String × List (Field × ProtoConstraintValueSet)) :
    (ambiguity pool groupName lhs rhs).isSome ↔
      (pool.doConstraintsOverlap lhs.2 rhs.2).isSome := by
  rw [ambiguity, Option.isSome_map]

omit [DecidableEq Field] in
theorem eq_nil_of_ambiguity {groupName : String}
    {lhs rhs : String × List (Field × ProtoConstraintValueSet)} {errors : List String}
    (h : ambiguity pool groupName lhs rhs = some errors) :
    errors = [] ↔ pool.doConstraintsOverlap lhs.2 rhs.2 = some false := by
  obtain ⟨overlap, hoverlap, rfl⟩ := Option.map_eq_some_iff.mp h
  rw [hoverlap]
  cases overlap <;> simp

omit [DecidableEq Field] in
variable (pool) in
/-- The comparisons are defined if each two are, and report nothing if each answer is no. -/
theorem ambiguities_spec (groupName : String)
    (l : List (String × List (Field × ProtoConstraintValueSet))) :
    ((ambiguities pool groupName l).isSome ↔
      l.Pairwise fun a b => (pool.doConstraintsOverlap a.2 b.2).isSome) ∧
    ∀ errors, ambiguities pool groupName l = some errors →
      (errors = [] ↔ l.Pairwise fun a b => pool.doConstraintsOverlap a.2 b.2 = some false) := by
  induction l with
  | nil =>
    refine ⟨by simp [ambiguities], fun errors h => ?_⟩
    cases h
    simp
  | cons e rest ih =>
    obtain ⟨ihsome, ihnil⟩ := ih
    have hmapM : (rest.mapM (ambiguity pool groupName e)).isSome ↔
        ∀ e' ∈ rest, (pool.doConstraintsOverlap e.2 e'.2).isSome := by
      simp only [isSome_mapM_iff, isSome_ambiguity]
    rw [List.pairwise_cons, List.pairwise_cons, ← ihsome, ambiguities, ← hmapM]
    cases hfound : rest.mapM (ambiguity pool groupName e) with
    | none => exact ⟨by simp, fun errors h => by cases h⟩
    | some found =>
      cases hothers : ambiguities pool groupName rest with
      | none => exact ⟨by simp, fun errors h => by cases h⟩
      | some others =>
        refine ⟨by simp, fun errors h => ?_⟩
        cases h
        rw [List.append_eq_nil_iff, ihnil others hothers, List.flatten_eq_nil_iff]
        refine and_congr_left fun _ => ?_
        -- One list of errors for each comparison with `e`.
        rw [hfound] at hmapM
        obtain ⟨found', hfound', hevery, hsource⟩ := exists_mapM_eq_some (l := rest)
          (f := ambiguity pool groupName e)
          (P := fun e' errors => errors = [] ↔ pool.doConstraintsOverlap e.2 e'.2 = some false)
          fun e' he' => by
            have hsome := (isSome_ambiguity groupName e e').mpr (hmapM.mp rfl e' he')
            obtain ⟨errors, herrors⟩ := Option.isSome_iff_exists.mp hsome
            exact ⟨errors, herrors, eq_nil_of_ambiguity herrors⟩
        rw [hfound] at hfound'
        cases hfound'
        constructor
        · intro hnil e' he'
          obtain ⟨errors, herrors, hiff⟩ := hevery e' he'
          exact hiff.mp (hnil errors herrors)
        · intro hno errors herrors
          obtain ⟨e', he', hiff⟩ := hsource errors herrors
          exact hiff.mpr (hno e' he')

/-! ### The check -/

section Check

variable (pool) (groupName : String) {encodings : List (ProtoInstructionEncoding Field Oneof)}

theorem checkEncodings_of_short (h : encodings.length ≤ 1) :
    checkEncodings pool groupName encodings = some [] := by
  rw [checkEncodings, if_pos h]

theorem checkEncodings_of_unconstrained (hlength : ¬ encodings.length ≤ 1)
    (h : ∃ enc ∈ encodings, enc.constraints = []) :
    ∃ i, checkEncodings pool groupName encodings = some [decodingAmbiguity encodings i] := by
  obtain ⟨enc, henc, hnil⟩ := h
  obtain ⟨hequal, hother⟩ := List.append_eq_nil_iff.mp hnil
  rw [checkEncodings, if_neg hlength]
  cases hfind : encodings.findIdx? fun enc =>
      enc.equalConstraints.isEmpty && enc.otherConstraints.isEmpty with
  | some i => exact ⟨i, rfl⟩
  | none =>
    have := List.findIdx?_eq_none_iff.mp hfind enc henc
    simp [hequal, hother] at this

theorem checkEncodings_of_constrained (hlength : ¬ encodings.length ≤ 1)
    (h : ¬ ∃ enc ∈ encodings, enc.constraints = []) :
    checkEncodings pool groupName encodings =
      (encodings.mapM fun enc =>
        (valueSets pool none (enc.sortedConstraints pool)).map (enc.name, ·)).bind
          (ambiguities pool groupName) := by
  rw [checkEncodings, if_neg hlength]
  have hfind : (encodings.findIdx? fun enc =>
      enc.equalConstraints.isEmpty && enc.otherConstraints.isEmpty) = none := by
    rw [List.findIdx?_eq_none_iff]
    intro enc henc
    by_contra hempty
    rw [Bool.not_eq_false, Bool.and_eq_true, List.isEmpty_iff, List.isEmpty_iff] at hempty
    exact h ⟨enc, henc, List.append_eq_nil_iff.mpr hempty⟩
  rw [hfind]
  rfl

end Check

open ProtoInstructionEncoding in
theorem checkSound_of_constrained (groupName : String)
    {encodings : List (ProtoInstructionEncoding Field Oneof)} (hlength : ¬ encodings.length ≤ 1)
    (h : ¬ ∃ enc ∈ encodings, enc.constraints = []) :
    CheckSound pool groupName encodings ↔
      (∀ enc ∈ encodings, enc.Plain pool) ∧
        (encodings.Pairwise fun a b =>
          Joined pool a.constraints b.constraints ∨ Parted pool a.constraints b.constraints) ∧
        ((¬ encodings.Pairwise fun a b => ¬ Joined pool a.constraints b.constraints) ∨
          encodings.Pairwise fun a b => ¬ Compatible pool (a.constraints ++ b.constraints)) := by
  have hcheck := checkEncodings_of_constrained pool groupName hlength h
  unfold CheckSound
  by_cases hplain : ∀ enc ∈ encodings, enc.Plain pool
  · -- The value sets of each encoding are there.
    let sets := fun enc : ProtoInstructionEncoding Field Oneof =>
      (enc.name, (valueSets pool none (enc.sortedConstraints pool)).getD [])
    have hsets : ∀ enc (hp : enc.Plain pool), (sets enc).2 = (plainList hp).sets := by
      intro enc hp
      show (valueSets pool none (enc.sortedConstraints pool)).getD [] = _
      rw [(valueSets_sortedConstraints pool enc).2 hp, Option.getD_some]
    have hall : checkEncodings pool groupName encodings =
        ambiguities pool groupName (encodings.map sets) := by
      rw [hcheck, mapM_eq_some_map (g := sets), Option.bind_some]
      intro enc henc
      obtain ⟨s, hs⟩ := Option.isSome_iff_exists.mp
        ((valueSets_sortedConstraints pool enc).1.mpr (hplain enc henc))
      simp only [sets, hs, Option.map_some, Option.getD_some]
    have hoverlap : ∀ {a b}, a ∈ encodings → b ∈ encodings →
        (pool.doConstraintsOverlap (sets a).2 (sets b).2 = some true ↔
          Joined pool a.constraints b.constraints) ∧
        (pool.doConstraintsOverlap (sets a).2 (sets b).2 = some false ↔
          Parted pool a.constraints b.constraints) := by
      intro a b ha hb
      rw [hsets a (hplain a ha), hsets b (hplain b hb)]
      exact overlap_plainList (hplain a ha) (hplain b hb)
    obtain ⟨hsome, hnil⟩ := ambiguities_spec pool groupName (encodings.map sets)
    rw [List.pairwise_map] at hsome
    have hdefined : (ambiguities pool groupName (encodings.map sets)).isSome ↔
        encodings.Pairwise fun a b =>
          Joined pool a.constraints b.constraints ∨ Parted pool a.constraints b.constraints := by
      rw [hsome]
      refine List.Pairwise.iff_of_mem fun ha hb => ?_
      rw [← (hoverlap ha hb).1, ← (hoverlap ha hb).2]
      rcases pool.doConstraintsOverlap _ _ with - | - | - <;> simp
    have hsatisfied : (encodings.Pairwise fun a b => ¬ ∃ m : Message pool,
          (∀ c ∈ a.constraints, c.Holds m) ∧ ∀ c ∈ b.constraints, c.Holds m) ↔
        encodings.Pairwise fun a b => ¬ Compatible pool (a.constraints ++ b.constraints) := by
      refine List.Pairwise.iff_of_mem fun _ _ => not_congr ?_
      rw [← satisfiable_iff_slots]
      simp only [Satisfiable, List.forall_mem_append]
    rw [hall, and_iff_right hplain, ← hdefined, ← hsatisfied]
    cases herrors : ambiguities pool groupName (encodings.map sets) with
    | none => simp
    | some errors =>
      have hreported : errors = [] ↔
          encodings.Pairwise fun a b => ¬ Joined pool a.constraints b.constraints := by
        rw [hnil errors herrors, List.pairwise_map]
        have hdetermined := hdefined.mp (by rw [herrors]; rfl)
        constructor
        · intro hno
          refine hno.imp_of_mem fun ha hb hfalse hjoined => ?_
          rw [← (hoverlap ha hb).1, hfalse] at hjoined
          cases hjoined
        · intro hno
          refine (hno.and hdetermined).imp_of_mem fun ha hb hboth => ?_
          exact (hoverlap ha hb).2.mpr (hboth.2.resolve_left hboth.1)
      rw [← hreported]
      simp only [Option.some.injEq, exists_eq_left', Option.isSome_some, true_and]
      exact imp_iff_not_or
  · -- Some encoding ends in a null pointer.
    refine iff_of_false ?_ fun hcondition => hplain hcondition.1
    rintro ⟨errors, herrors, -⟩
    rw [hcheck] at herrors
    obtain ⟨l, hl, -⟩ := Option.bind_eq_some_iff.mp herrors
    refine hplain fun enc henc => ?_
    have hsome := isSome_mapM_iff.mp (by rw [hl]; rfl) enc henc
    rw [Option.isSome_map] at hsome
    exact (valueSets_sortedConstraints pool enc).1.mp hsome

end MpactSim.Proto
