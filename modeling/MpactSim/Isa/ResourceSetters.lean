import MpactSim.Isa.OpcodeOperands
import MpactSim.Lib.Sharing

namespace MpactSim.Isa

open Decoder (Name)
open Lib

/-!
# Resource setters

The resources of an instruction are requested by a generated function.  Instructions share a
function if their resource keys are equal.

* `resourceKey`                — the key;
* `generateResourceSetterFcn`  — the calls of the function;
* `sameCalls_iff`              — what two functions have to agree on.

`resource_setters_iff` says when no instruction is given a function that makes other calls than
its own.
-/

/-! ### The source -/

/-- `Resource`. -/
structure Resource where
  pascalName : Name
  isSimple : Bool
  deriving DecidableEq, Repr

/-- `ResourceReference`, as `ProcessResourceReference` makes it: there are both expressions. -/
structure ResourceReference where
  resource : Resource
  isArray : Bool
  beginExpression : TemplateExpression
  endExpression : TemplateExpression

/-- An instruction with the PascalCase name of its opcode and its resource references. -/
structure ResourceInstruction where
  opcodeName : Name
  resourceUse : List ResourceReference
  resourceAcquire : List ResourceReference

/-- The text of an `int`. -/
def intText (v : Int) : Name := (toString v).toList

/-- The value of an expression in a key. -/
def valueText : Value → Name
  | .ok v => intText v
  | .error _ => "(?)".toList

/-- The name of a reference in a key. -/
def ResourceReference.keyName (ref : ResourceReference) : Name :=
  if ref.isArray then "[".toList ++ ref.resource.pascalName ++ "]".toList
  else ref.resource.pascalName

/-- The name of a complex reference in a key. -/
def ResourceReference.complexKeyName (ref : ResourceReference) : Name :=
  "C$".toList ++ ref.keyName ++ valueText ref.beginExpression.getValue
    ++ valueText ref.endExpression.getValue

/-- The references to simple resources. -/
def simpleRefs (refs : List ResourceReference) : List ResourceReference :=
  refs.filter fun ref => ref.resource.isSimple

/-- The references to complex resources. -/
def complexRefs (refs : List ResourceReference) : List ResourceReference :=
  refs.filter fun ref => !ref.resource.isSimple

/-- `CreateResourceKey`: the names are in an ordered set. -/
def createResourceKey (refs : List ResourceReference) : Name :=
  "/".toList.intercalate (keys ((simpleRefs refs).map fun ref => "S$".toList ++ ref.keyName))
    ++ ":".toList
    ++ "/".toList.intercalate (keys ((complexRefs refs).map ResourceReference.complexKeyName))

/-- The key of `GenerateResourceSetter`. -/
def resourceKey (inst : ResourceInstruction) : Name :=
  createResourceKey inst.resourceUse ++ ":".toList ++ createResourceKey inst.resourceAcquire

/-- What a call passes for a complex resource: an enumerator and the values of the expressions.
    For an array no comma is emitted between the enumerator and the first value. -/
inductive ComplexArgs where
  | operand (enumerator : Name) (beginValue endValue : Int)
  | operands (argument : Name) (endValue : Int)
  deriving DecidableEq, Repr

/-- The arguments for a reference to a complex resource; there are none if an expression has no
    value. -/
def ResourceReference.complexArgs (ref : ResourceReference) : Option ComplexArgs :=
  match ref.beginExpression.getValue, ref.endExpression.getValue with
  | .ok beginValue, .ok endValue =>
    if ref.isArray then some (.operands (ref.resource.pascalName ++ intText beginValue) endValue)
    else some (.operand ref.resource.pascalName beginValue endValue)
  | _, _ => none

/-- The latency for a reference to a simple resource, with its name. -/
def ResourceReference.simpleAcquire (ref : ResourceReference) : Option (Int × Name) :=
  match ref.endExpression.getValue with
  | .ok endValue => some (endValue, ref.resource.pascalName)
  | .error _ => none

/-- A call of the encoder, with the enumerator of the opcode: for a vector of simple resources
    with a latency, or for complex resources. -/
inductive ResourceCall where
  | simple (opcodeEnum : Name) (resources : List Name) (latency : Int)
  | complex (opcodeEnum : Name) (args : ComplexArgs)
  deriving DecidableEq, Repr

/-- The calls of a setter, in the order of its parts.  The operands of the last part are appended
    to those that are held, too. -/
structure ResourceSetterFcn where
  holdSimple : List ResourceCall
  holdComplex : List ResourceCall
  acquireSimple : List ResourceCall
  acquireComplex : List ResourceCall
  deriving DecidableEq, Repr

namespace ResourceInstruction

/-- The simple resources that have to be free. -/
def simpleUses (inst : ResourceInstruction) : List Name :=
  (simpleRefs inst.resourceUse).map (·.resource.pascalName)

def complexUses (inst : ResourceInstruction) : List ComplexArgs :=
  (complexRefs inst.resourceUse).filterMap ResourceReference.complexArgs

/-- `latency_map`, in the order of insertion. -/
def simpleAcquires (inst : ResourceInstruction) : List (Int × Name) :=
  (simpleRefs inst.resourceAcquire).filterMap ResourceReference.simpleAcquire

def complexAcquires (inst : ResourceInstruction) : List ComplexArgs :=
  (complexRefs inst.resourceAcquire).filterMap ResourceReference.complexArgs

/-- The names in `latency_map` for a latency. -/
def acquiredFor (inst : ResourceInstruction) (latency : Int) : List Name :=
  (inst.simpleAcquires.filter (·.1 = latency)).map Prod.snd

/-- No expression is without a value, so no `#error` is emitted. -/
def evaluable (inst : ResourceInstruction) : Bool :=
  (complexRefs inst.resourceUse ++ complexRefs inst.resourceAcquire).all (·.complexArgs.isSome) ∧
    (simpleRefs inst.resourceAcquire).all (·.simpleAcquire.isSome)

end ResourceInstruction

/-- `GenerateResourceSetterFcn`; there is no function that compiles if an `#error` is emitted.
    `order` is the order in which the hash set of the latencies is visited. -/
def generateResourceSetterFcn (order : List Int → List Int) (inst : ResourceInstruction) :
    Option ResourceSetterFcn :=
  if inst.evaluable then
    some {
      holdSimple :=
        if inst.simpleUses = [] then [] else [.simple inst.opcodeName inst.simpleUses (-1)]
      holdComplex := inst.complexUses.map (.complex inst.opcodeName)
      acquireSimple := (order (inst.simpleAcquires.map Prod.fst).dedup).map fun latency =>
        .simple inst.opcodeName (inst.acquiredFor latency) latency
      acquireComplex := inst.complexAcquires.map (.complex inst.opcodeName) }
  else none

/-- The setters of the instructions of all slots, in the order in which `GenerateResourceSetter`
    is called: the instructions for which functions are generated, and the function of each
    instruction. -/
def resourceSetters (insts : List ResourceInstruction) : List ResourceInstruction × List Nat :=
  enterAll resourceKey [] insts

/-! ### The specification -/

/-- Two functions make the same calls.  The order of the latencies is that of a hash set. -/
structure SameCalls (f g : ResourceSetterFcn) : Prop where
  holdSimple : f.holdSimple = g.holdSimple
  holdComplex : f.holdComplex = g.holdComplex
  acquireSimple : f.acquireSimple.Perm g.acquireSimple
  acquireComplex : f.acquireComplex = g.acquireComplex

/-- The function that two instructions share makes the calls of the functions that are generated
    for each of them alone. -/
def SettersFit (order order' : List Int → List Int) (insts : List ResourceInstruction) : Prop :=
  ∀ (i j : Nat) a b k m, insts[i]? = some a → insts[j]? = some b →
    (resourceSetters insts).2[i]? = some k → (resourceSetters insts).2[j]? = some k →
    (resourceSetters insts).1[k]? = some m →
    Option.Rel SameCalls (generateResourceSetterFcn order m) (generateResourceSetterFcn order' a) ∧
      Option.Rel SameCalls (generateResourceSetterFcn order m)
        (generateResourceSetterFcn order' b)

/-- The opcode is the same, unless there are no references, and the references agree. -/
structure SameReferences (a b : ResourceInstruction) : Prop where
  opcode : a.opcodeName = b.opcodeName ∨ a.resourceUse = [] ∧ a.resourceAcquire = []
  simpleUses : a.simpleUses = b.simpleUses
  complexUses : a.complexUses = b.complexUses
  acquiredFor : ∀ latency, a.acquiredFor latency = b.acquiredFor latency
  complexAcquires : a.complexAcquires = b.complexAcquires

/-- The references of both instructions agree, or neither has a function that compiles. -/
def ReferencesAgree (a b : ResourceInstruction) : Prop :=
  a.evaluable = b.evaluable ∧ (a.evaluable = true → SameReferences a b)

/-! ### What a function determines -/

section

variable {a b : ResourceInstruction} {order order' : List Int → List Int}

theorem acquiredFor_eq_nil {latency : Int} :
    a.acquiredFor latency = [] ↔ latency ∉ a.simpleAcquires.map Prod.fst := by
  simp only [ResourceInstruction.acquiredFor, List.map_eq_nil_iff, List.filter_eq_nil_iff,
    decide_eq_true_eq, List.mem_map, not_exists, not_and]

theorem mem_acquireSimple (horder : ∀ l, (order l).Perm l) {call : ResourceCall} :
    call ∈ (order (a.simpleAcquires.map Prod.fst).dedup).map (fun latency =>
        ResourceCall.simple a.opcodeName (a.acquiredFor latency) latency) ↔
      ∃ latency, a.acquiredFor latency ≠ [] ∧
        call = .simple a.opcodeName (a.acquiredFor latency) latency := by
  rw [List.mem_map]
  refine exists_congr fun latency => ?_
  rw [(horder _).mem_iff, List.mem_dedup, Ne, acquiredFor_eq_nil, not_not, eq_comm]

theorem nodup_acquireSimple (horder : ∀ l, (order l).Perm l) :
    ((order (a.simpleAcquires.map Prod.fst).dedup).map (fun latency =>
        ResourceCall.simple a.opcodeName (a.acquiredFor latency) latency)).Nodup := by
  refine List.Nodup.map ?_ ((horder _).nodup_iff.mpr (List.nodup_dedup _))
  intro l l' h
  injection h

/-- The calls for simple resources are the same exactly if for every latency the names are, and
    the opcode unless there are none. -/
theorem acquireSimple_perm_iff (horder : ∀ l, (order l).Perm l) (horder' : ∀ l, (order' l).Perm l) :
    ((order (a.simpleAcquires.map Prod.fst).dedup).map fun latency =>
          ResourceCall.simple a.opcodeName (a.acquiredFor latency) latency).Perm
        ((order' (b.simpleAcquires.map Prod.fst).dedup).map fun latency =>
          ResourceCall.simple b.opcodeName (b.acquiredFor latency) latency) ↔
      (∀ latency, a.acquiredFor latency = b.acquiredFor latency) ∧
        (a.simpleAcquires = [] ∨ a.opcodeName = b.opcodeName) := by
  rw [List.perm_ext_iff_of_nodup (nodup_acquireSimple horder) (nodup_acquireSimple horder')]
  constructor
  · intro h
    have hnames : ∀ latency, a.acquiredFor latency ≠ [] →
        a.acquiredFor latency = b.acquiredFor latency ∧ a.opcodeName = b.opcodeName := by
      intro latency hne
      obtain ⟨latency', -, heq⟩ := (mem_acquireSimple horder').mp
        ((h _).mp ((mem_acquireSimple horder).mpr ⟨latency, hne, rfl⟩))
      injection heq with hopcode hacquired hlatency
      exact ⟨hlatency ▸ hacquired, hopcode⟩
    refine ⟨fun latency => ?_, ?_⟩
    · by_cases hne : a.acquiredFor latency = []
      · by_contra hdiff
        rw [hne] at hdiff
        obtain ⟨latency', hne', heq⟩ := (mem_acquireSimple horder).mp
          ((h _).mpr ((mem_acquireSimple horder').mpr ⟨latency, Ne.symm hdiff, rfl⟩))
        injection heq with _ _ hlatency
        exact hne' (hlatency ▸ hne)
      · exact (hnames latency hne).1
    · cases hacquires : a.simpleAcquires with
      | nil => exact .inl rfl
      | cons p rest =>
        refine .inr (hnames p.1 fun hnil => ?_).2
        exact acquiredFor_eq_nil.mp hnil (by simp [hacquires])
  · rintro ⟨hnames, hopcode⟩ call
    rw [mem_acquireSimple horder, mem_acquireSimple horder']
    refine exists_congr fun latency => ?_
    rw [← hnames latency]
    refine and_congr_right fun hne => ?_
    rcases hopcode with hnil | hopcode
    · exact absurd (acquiredFor_eq_nil.mpr (by simp [hnil])) hne
    · rw [hopcode]

theorem map_complex_eq_iff {l l' : List ComplexArgs} {opcode opcode' : Name} :
    l.map (ResourceCall.complex opcode) = l'.map (.complex opcode') ↔
      l = l' ∧ (l = [] ∨ opcode = opcode') := by
  constructor
  · intro h
    cases l with
    | nil => exact ⟨(List.map_eq_nil_iff.mp h.symm).symm, .inl rfl⟩
    | cons args rest =>
      cases l' with
      | nil => cases h
      | cons args' rest' =>
        obtain ⟨hhead, -⟩ := List.cons.inj h
        injection hhead with hopcode
        rw [hopcode] at h
        refine ⟨List.map_injective_iff.mpr (fun x y hxy => ?_) h, .inr hopcode⟩
        injection hxy
  · rintro ⟨rfl, rfl | rfl⟩
    · rfl
    · rfl

theorem holdSimple_eq_iff {l l' : List Name} {opcode opcode' : Name} :
    (if l = [] then [] else [ResourceCall.simple opcode l (-1)])
        = (if l' = [] then [] else [.simple opcode' l' (-1)]) ↔
      l = l' ∧ (l = [] ∨ opcode = opcode') := by
  split
  · rename_i hnil
    split
    · rename_i hnil'
      simp [hnil, hnil']
    · rename_i hne'
      simp [hnil, Ne.symm hne']
  · rename_i hne
    split
    · rename_i hnil'
      simp [hnil', hne]
    · simp [hne, and_comm]

theorem simpleRefs_append_complexRefs_eq_nil {refs : List ResourceReference} :
    simpleRefs refs = [] ∧ complexRefs refs = [] ↔ refs = [] := by
  cases refs with
  | nil => simp [simpleRefs, complexRefs]
  | cons ref rest => cases h : ref.resource.isSimple <;> simp [simpleRefs, complexRefs, h]

theorem filterMap_eq_nil_of_isSome {α β : Type} {f : α → Option β} {l : List α}
    (h : ∀ x ∈ l, (f x).isSome = true) : l.filterMap f = [] ↔ l = [] := by
  rw [List.filterMap_eq_nil_iff]
  constructor
  · intro hnone
    refine List.eq_nil_iff_forall_not_mem.mpr fun x hx => ?_
    have hsome := h x hx
    rw [hnone x hx] at hsome
    cases hsome
  · rintro rfl
    exact nofun

theorem noReferences_iff (h : a.evaluable = true) :
    a.simpleUses = [] ∧ a.complexUses = [] ∧ a.simpleAcquires = [] ∧ a.complexAcquires = [] ↔
      a.resourceUse = [] ∧ a.resourceAcquire = [] := by
  rw [ResourceInstruction.evaluable, decide_eq_true_eq, List.all_eq_true, List.all_eq_true,
    List.forall_mem_append] at h
  obtain ⟨⟨huse, hacquire⟩, hsimple⟩ := h
  rw [ResourceInstruction.simpleUses, List.map_eq_nil_iff, ResourceInstruction.complexUses,
    filterMap_eq_nil_of_isSome huse, ResourceInstruction.simpleAcquires,
    filterMap_eq_nil_of_isSome hsimple, ResourceInstruction.complexAcquires,
    filterMap_eq_nil_of_isSome hacquire, ← and_assoc, simpleRefs_append_complexRefs_eq_nil,
    simpleRefs_append_complexRefs_eq_nil]

/-- **Functions.** Two instructions have the same function exactly if their references agree. -/
theorem sameCalls_iff (horder : ∀ l, (order l).Perm l) (horder' : ∀ l, (order' l).Perm l)
    (a b : ResourceInstruction) :
    Option.Rel SameCalls (generateResourceSetterFcn order a) (generateResourceSetterFcn order' b) ↔
      ReferencesAgree a b := by
  unfold generateResourceSetterFcn ReferencesAgree
  cases ha : a.evaluable with
  | false =>
    cases hb : b.evaluable with
    | false => simp
    | true => simp
  | true =>
    cases hb : b.evaluable with
    | false => simp
    | true =>
      rw [if_pos rfl, if_pos rfl, Option.rel_some_some]
      have hacquire := acquireSimple_perm_iff (a := a) (b := b) horder horder'
      constructor
      · rintro ⟨hsu, hcu, hsa, hca⟩
        obtain ⟨hsu, hosu⟩ := holdSimple_eq_iff.mp hsu
        obtain ⟨hcu, hocu⟩ := map_complex_eq_iff.mp hcu
        obtain ⟨hsa, hosa⟩ := hacquire.mp hsa
        obtain ⟨hca, hoca⟩ := map_complex_eq_iff.mp hca
        refine ⟨rfl, fun _ => ⟨?_, hsu, hcu, hsa, hca⟩⟩
        rw [← noReferences_iff ha]
        by_cases hopcode : a.opcodeName = b.opcodeName
        · exact .inl hopcode
        · exact .inr ⟨hosu.resolve_right hopcode, hocu.resolve_right hopcode,
            hosa.resolve_right hopcode, hoca.resolve_right hopcode⟩
      · rintro ⟨-, h⟩
        obtain ⟨hopcode, hsu, hcu, hsa, hca⟩ := h rfl
        rw [← noReferences_iff ha] at hopcode
        refine ⟨holdSimple_eq_iff.mpr ⟨hsu, ?_⟩, map_complex_eq_iff.mpr ⟨hcu, ?_⟩,
          hacquire.mpr ⟨hsa, ?_⟩, map_complex_eq_iff.mpr ⟨hca, ?_⟩⟩
        · exact hopcode.symm.imp (·.1) id
        · exact hopcode.symm.imp (·.2.1) id
        · exact hopcode.symm.imp (·.2.2.1) id
        · exact hopcode.symm.imp (·.2.2.2) id

end

theorem rel_symm {f g : Option ResourceSetterFcn} (h : Option.Rel SameCalls f g) :
    Option.Rel SameCalls g f := by
  cases h with
  | none => exact .none
  | some h => exact .some ⟨h.1.symm, h.2.symm, h.3.symm, h.4.symm⟩

theorem rel_trans {f g k : Option ResourceSetterFcn} (h : Option.Rel SameCalls f g)
    (h' : Option.Rel SameCalls g k) : Option.Rel SameCalls f k := by
  cases h with
  | none => exact h'
  | some h =>
    cases h' with
    | some h' => exact .some ⟨h.1.trans h'.1, h.2.trans h'.2, h.3.trans h'.3, h.4.trans h'.4⟩

theorem ReferencesAgree.symm {a b : ResourceInstruction} (h : ReferencesAgree a b) :
    ReferencesAgree b a := by
  have hperm : ∀ l : List Int, (id l).Perm l := List.Perm.refl
  rw [← sameCalls_iff hperm hperm] at h ⊢
  exact rel_symm h

theorem ReferencesAgree.trans {a b c : ResourceInstruction} (h : ReferencesAgree a b)
    (h' : ReferencesAgree b c) : ReferencesAgree a c := by
  have hperm : ∀ l : List Int, (id l).Perm l := List.Perm.refl
  rw [← sameCalls_iff hperm hperm] at h h' ⊢
  exact rel_trans h h'

/-- **Resource setters.** Whatever the order of the instructions, every function that is shared
    makes the calls that the instructions' own functions make exactly if the references of all
    instructions with the same key agree. -/
theorem resource_setters_iff {order order' : List Int → List Int}
    (horder : ∀ l, (order l).Perm l) (horder' : ∀ l, (order' l).Perm l)
    (insts : List ResourceInstruction) :
    SettersFit order order' insts ↔
      ∀ a ∈ insts, ∀ b ∈ insts, resourceKey a = resourceKey b → ReferencesAgree a b := by
  simp only [SettersFit, sameCalls_iff horder horder']
  exact @forall_entered_iff _ _ _ resourceKey _ (fun _ _ h => h.symm)
    (fun _ _ _ h h' => h.trans h') insts

/-- An instruction that uses the simple resource `X`. -/
def usesX (opcodeName : String) : ResourceInstruction :=
  ⟨opcodeName.toList, [⟨⟨['X'], true⟩, false, .constant 0, .constant 0⟩], []⟩

/-- The same instruction in two slots. -/
theorem settersFit_same : SettersFit id id [usesX "Add", usesX "Add"] :=
  (resource_setters_iff List.Perm.refl List.Perm.refl _).mpr fun a ha b hb _ => by
    obtain rfl : a = usesX "Add" := by simpa using ha
    obtain rfl : b = usesX "Add" := by simpa using hb
    exact ⟨rfl, fun _ => ⟨.inl rfl, rfl, rfl, fun _ => rfl, rfl⟩⟩

/-- `Sub` is given the function of `Add`, which asks for the resource for the opcode `Add`. -/
theorem resource_setter_of_add :
    (resourceSetters [usesX "Add", usesX "Sub"]).2 = [0, 0] ∧
      generateResourceSetterFcn id (usesX "Add")
        = some ⟨[.simple "Add".toList [['X']] (-1)], [], [], []⟩ ∧
      generateResourceSetterFcn id (usesX "Sub")
        = some ⟨[.simple "Sub".toList [['X']] (-1)], [], [], []⟩ ∧
      ¬ SettersFit id id [usesX "Add", usesX "Sub"] := by
  have hmade : (resourceSetters [usesX "Add", usesX "Sub"]).1 = [usesX "Add"] := rfl
  have hentries : (resourceSetters [usesX "Add", usesX "Sub"]).2 = [0, 0] := by decide +kernel
  have hadd : generateResourceSetterFcn id (usesX "Add")
      = some ⟨[.simple "Add".toList [['X']] (-1)], [], [], []⟩ := by decide +kernel
  have hsub : generateResourceSetterFcn id (usesX "Sub")
      = some ⟨[.simple "Sub".toList [['X']] (-1)], [], [], []⟩ := by decide +kernel
  refine ⟨hentries, hadd, hsub, fun h => ?_⟩
  have hshared := (h 0 1 (usesX "Add") (usesX "Sub") 0 (usesX "Add") rfl rfl (by rw [hentries]; rfl)
    (by rw [hentries]; rfl) (by rw [hmade]; rfl)).2
  rw [hadd, hsub] at hshared
  cases hshared with
  | some hsame => exact absurd hsame.holdSimple (by decide)

end MpactSim.Isa
