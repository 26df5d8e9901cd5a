import MpactSim.Isa.SlotBases
import MpactSim.Lib.PostOrder

namespace MpactSim.Isa

open Decoder (Name)
open Lib

/-!
# Slot and bundle declarations

An instruction set refers to bundles and slots, bundles refer to slots and other bundles, and
slots to base slots.  What is referred to is visited and then ordered for the generated code.

* `visitSlotDeclaration`         — a slot, after its base slots;
* `visitBundleDeclaration`       — a bundle, with what it refers to;
* `performBundleReferenceChecks` — the references, and the orders;
* `processDeclarations`          — all of this.

Every recursive function has a bound for the calls inside one another and has no result beyond it.
-/

/-! ### Declarations -/

/-- A base slot in a declaration, with its template arguments as `VisitExpression` returns them. -/
structure BaseItem where
  name : Name
  templateSpec : Option (List (Option TemplateExpression))

/-- A slot declaration.  Of the constants, defaults and opcodes there are the errors that are
    reported for them, and whether there is a default instruction with a semantic function. -/
structure SlotDecl where
  templateDecl : Option (List Name)
  baseItems : List BaseItem
  sizeSpec : Option Int
  contentErrors : List String
  hasSemanticAction : Bool

/-- A slot in a list, with the instances of its array specification. -/
structure SlotSpec where
  name : Name
  instances : List Int

/-- `bundle_parts`. -/
inductive BundlePart where
  | slotList (specs : List SlotSpec)
  | bundleList (names : List Name)
  | includeFileList
  | semfuncSpec

/-- The kinds of parts, each of which a bundle has at most once. -/
inductive PartKind where
  | slotList | bundleList | includeFileList | semfuncSpec
  deriving DecidableEq, Repr

def BundlePart.kind : BundlePart → PartKind
  | .slotList _ => .slotList
  | .bundleList _ => .bundleList
  | .includeFileList => .includeFileList
  | .semfuncSpec => .semfuncSpec

/-- The error for another part of a kind. -/
def PartKind.error : PartKind → String
  | .slotList => "Multiple slot lists in bundle"
  | .bundleList => "Multiple bundle lists in bundle"
  | .includeFileList => "Multiple include file lists in bundle"
  | .semfuncSpec => "Multiple semfunc specs in bundle"

/-- `slot_decl_map_` and `bundle_decl_map_`: the first declaration of a name counts. -/
structure Declarations where
  slotDeclMap : List (Name × SlotDecl)
  bundleDeclMap : List (Name × List BundlePart)

def Declarations.slotDecl (decls : Declarations) (name : Name) : Option SlotDecl :=
  (decls.slotDeclMap.find? fun entry => entry.1 = name).map Prod.snd

def Declarations.bundleDecl (decls : Declarations) (name : Name) : Option (List BundlePart) :=
  (decls.bundleDeclMap.find? fun entry => entry.1 = name).map Prod.snd

/-- An instruction set declaration. -/
structure IsaDecl where
  name : Name
  bundleList : List Name
  slotList : List SlotSpec

/-! ### The instruction set -/

/-- `Bundle`. -/
structure Bundle where
  bundleNames : List Name := []
  slotUses : List SlotSpec := []

/-- `InstructionSet`, with the errors that have been reported.  Slots and bundles are found by their
    names; the bundle without a name is that of the instruction set.  The maps are hash maps.  A
    slot or bundle is marked when it is put into its order. -/
structure InstructionSet where
  slotMap : List Name := []
  slots : Name → SlotBases Name := fun name => ⟨name, [], []⟩
  bundleMap : List Name := []
  bundles : Option Name → Bundle := fun _ => {}
  referenced : List Name := []
  slotOrder : List Name := []
  bundleOrder : List Name := []
  errors : List String := []

namespace InstructionSet

/-- The error listener. -/
def report (set : InstructionSet) (errors : List String) : InstructionSet :=
  { set with errors := set.errors ++ errors }

/-- A new slot, which is not in the map yet. -/
def newSlot (set : InstructionSet) (name : Name) : InstructionSet :=
  { set with slots := Function.update set.slots name ⟨name, [], []⟩ }

/-- `AddBase`, with the report of its status. -/
def addBase (order : List Name → List Name) (depth : Nat) (slot base : Name)
    (arguments : Option (List TemplateExpression)) (set : InstructionSet) :
    Option InstructionSet :=
  match Isa.addBase order set.slots depth slot base arguments with
  | none => none
  | some (.ok (), slots) => some { set with slots := slots }
  | some (.error message, slots) => some ({ set with slots := slots }.report [message])

/-- `AddSlot`, for a name that is not in the map. -/
def addSlot (set : InstructionSet) (name : Name) : InstructionSet :=
  { set with slotMap := set.slotMap ++ [name] }

/-- `AddBundle`, for a name that is not in the map. -/
def addBundle (set : InstructionSet) (name : Name) : InstructionSet :=
  { set with
    bundleMap := set.bundleMap ++ [name]
    bundles := Function.update set.bundles (some name) {} }

/-- `AppendBundleName`. -/
def appendBundleName (set : InstructionSet) (bundle : Option Name) (name : Name) :
    InstructionSet :=
  { set with
    bundles := Function.update set.bundles bundle
      { set.bundles bundle with bundleNames := (set.bundles bundle).bundleNames ++ [name] } }

/-- `AppendSlot`. -/
def appendSlot (set : InstructionSet) (bundle : Option Name) (spec : SlotSpec) : InstructionSet :=
  { set with
    bundles := Function.update set.bundles bundle
      { set.bundles bundle with slotUses := (set.bundles bundle).slotUses ++ [spec] } }

end InstructionSet

/-! ### Slots -/

/-- The errors of `AddTemplateFormal` for parameters, after those with some names. -/
def templateErrors (names : List Name) : List Name → List String
  | [] => []
  | name :: rest =>
    if name ∈ names then
      ("Duplicate parameter name '" ++ String.ofList name ++ "'") :: templateErrors names rest
    else templateErrors (name :: names) rest

/-- A base that has been visited is added, unless its template arguments do not fit. -/
def addBaseItem (order : List Name → List Name) (depth : Nat) (slot : Name) (item : BaseItem)
    (decl : SlotDecl) (set : InstructionSet) : Option InstructionSet :=
  match item.templateSpec, decl.templateDecl with
  | some _, none =>
    some (set.report ["'" ++ String.ofList item.name ++ "' is not a templated slot"])
  | none, some _ =>
    some (set.report
      ["Missing template arguments for slot '" ++ String.ofList item.name ++ "'"])
  | some expressions, some params =>
    if expressions.length ≠ params.length then
      some (set.report ["Wrong number of arguments: " ++ toString params.length ++
        " were expected, " ++ toString expressions.length ++ " were provided"])
    else
      match expressions.mapM id with
      | none => some (set.report ["Error in template expression"])
      | some arguments => set.addBase order depth slot item.name (some arguments)
  | none, none => set.addBase order depth slot item.name none

/-- The loop body of `VisitSlotDeclaration`; `visit` is the function itself. -/
def visitBaseItem (decls : Declarations) (order : List Name → List Name) (depth : Nat)
    (visit : Name → SlotDecl → InstructionSet → Option InstructionSet) (slot : Name)
    (set : InstructionSet) (item : BaseItem) : Option InstructionSet :=
  match decls.slotDecl item.name with
  | none => some (set.report ["Undefined base slot: " ++ String.ofList item.name])
  | some decl => do
    let set ← (if item.name ∈ set.slotMap then some set else visit item.name decl set)
    addBaseItem order depth slot item decl set

/-- `VisitSlotDeclaration`. -/
def visitSlotDeclaration (decls : Declarations) (order : List Name → List Name) :
    Nat → Name → SlotDecl → InstructionSet → Option InstructionSet
  | 0, _, _, _ => none
  | depth + 1, name, decl, set => do
    let set := (set.newSlot name).report (templateErrors [] (decl.templateDecl.getD []))
    let set ← decl.baseItems.foldlM
      (visitBaseItem decls order depth (visitSlotDeclaration decls order depth) name) set
    return (set.addSlot name).report decl.contentErrors

/-- `VisitSlotList`. -/
def visitSlotList (decls : Declarations) (order : List Name → List Name) (depth : Nat)
    (bundle : Option Name) (specs : List SlotSpec) (set : InstructionSet) :
    Option InstructionSet :=
  specs.foldlM (fun set spec =>
    match decls.slotDecl spec.name with
    | none =>
      some (set.report ["Reference to undefined slot: '" ++ String.ofList spec.name ++ "'"])
    | some decl => do
      let set ← (if spec.name ∈ set.slotMap then some set
        else visitSlotDeclaration decls order depth spec.name decl set)
      return set.appendSlot bundle spec) set

/-! ### Bundles -/

/-- `VisitBundleList`; `visit` is `VisitBundleDeclaration`. -/
def visitBundleList (decls : Declarations)
    (visit : Name → List BundlePart → InstructionSet → Option InstructionSet)
    (bundle : Option Name) (names : List Name) (set : InstructionSet) : Option InstructionSet :=
  names.foldlM (fun set name =>
    match decls.bundleDecl name with
    | none => some (set.report ["Reference to undefined bundle: '" ++ String.ofList name ++ "'"])
    | some parts => do
      let set ← (if name ∈ set.bundleMap then some set else visit name parts set)
      return set.appendBundleName bundle name) set

/-- A part of a bundle. -/
def visitBundlePart (decls : Declarations) (order : List Name → List Name) (depth : Nat)
    (visit : Name → List BundlePart → InstructionSet → Option InstructionSet) (name : Name)
    (set : InstructionSet) : BundlePart → Option InstructionSet
  | .slotList specs => visitSlotList decls order depth (some name) specs set
  | .bundleList names => visitBundleList decls visit (some name) names set
  | .includeFileList => some set
  | .semfuncSpec => some set

/-- The loop of `VisitBundleDeclaration` over the parts, after parts of some kinds. -/
def visitBundleParts (decls : Declarations) (order : List Name → List Name) (depth : Nat)
    (visit : Name → List BundlePart → InstructionSet → Option InstructionSet) (name : Name) :
    List PartKind → List BundlePart → InstructionSet → Option InstructionSet
  | _, [], set => some set
  | seen, part :: rest, set =>
    if part.kind ∈ seen then some (set.report [part.kind.error])
    else do
      let set ← visitBundlePart decls order depth visit name set part
      visitBundleParts decls order depth visit name (part.kind :: seen) rest set

/-- `VisitBundleDeclaration`. -/
def visitBundleDeclaration (decls : Declarations) (order : List Name → List Name) :
    Nat → Name → List BundlePart → InstructionSet → Option InstructionSet
  | 0, _, _, _ => none
  | depth + 1, name, parts, set =>
    visitBundleParts decls order depth (visitBundleDeclaration decls order depth) name [] parts
      (set.addBundle name)

/-- `VisitIsaDeclaration`. -/
def visitIsaDeclaration (decls : Declarations) (isa : IsaDecl) (order : List Name → List Name)
    (depth : Nat) : Option InstructionSet := do
  let set ← visitBundleList decls (visitBundleDeclaration decls order depth) none
    isa.bundleList {}
  visitSlotList decls order depth none isa.slotList set

/-! ### Orders -/

/-- The base slots of the slots, and the bundles in bundles. -/
def InstructionSet.slotBases (set : InstructionSet) : Name → List Name := bases set.slots

def InstructionSet.subBundles (set : InstructionSet) (name : Name) : List Name :=
  (set.bundles (some name)).bundleNames

/-- A loop of `ComputeSlotAndBundleOrders`; `AddToSlotOrder` and `AddToBundleOrder` are searches. -/
def addAllToOrder (succ : Name → List Name) (depth : Nat) (names order : List Name) :
    Option (List Name) :=
  names.foldlM (fun order name =>
    if name ∈ order then some order else postOrder succ depth name order) order

/-- `ComputeSlotAndBundleOrders`. -/
def computeSlotAndBundleOrders (order : List Name → List Name) (depth : Nat)
    (set : InstructionSet) : Option InstructionSet := do
  let slotOrder ← addAllToOrder set.slotBases depth (order set.slotMap) set.slotOrder
  let bundleOrder ← addAllToOrder set.subBundles depth (order set.bundleMap) set.bundleOrder
  return { set with slotOrder := slotOrder, bundleOrder := bundleOrder }

/-- `size_` of a slot. -/
def slotSize (decls : Declarations) (name : Name) : Int :=
  ((decls.slotDecl name).bind SlotDecl.sizeSpec).getD 1

/-- The checks for a use of a slot in a bundle with a name. -/
def checkSlotUse (decls : Declarations) (bundleName : Name) (set : InstructionSet)
    (use : SlotSpec) : InstructionSet :=
  let set := set.report ((use.instances.filter fun i => slotSize decls use.name ≤ i).map fun i =>
    "Index " ++ toString i ++ " out of range for slot " ++ String.ofList use.name ++
      "' referenced in bundle '" ++ String.ofList bundleName ++ "'")
  if use.name ∈ set.referenced then set
  else
    let hasSemanticAction :=
      ((decls.slotDecl use.name).map SlotDecl.hasSemanticAction).getD false
    let set :=
      if hasSemanticAction then set
      else set.report
        ["Slot '" ++ String.ofList use.name ++ "' lacks a default semantic action"]
    { set with referenced := use.name :: set.referenced }

/-- `PerformBundleReferenceChecks`. -/
def performBundleReferenceChecks (decls : Declarations) (isa : IsaDecl)
    (order : List Name → List Name) :
    Nat → Option Name → InstructionSet → Option InstructionSet
  | 0, _, _ => none
  | depth + 1, bundle, set => do
    let set ← (set.bundles bundle).bundleNames.foldlM (fun set name =>
      performBundleReferenceChecks decls isa order depth (some name) set) set
    let set := (set.bundles bundle).slotUses.foldl
      (checkSlotUse decls (bundle.getD isa.name)) set
    computeSlotAndBundleOrders order depth set

/-- The instruction set is visited, and its references are checked. -/
def processDeclarations (decls : Declarations) (isa : IsaDecl) (order : List Name → List Name)
    (depth : Nat) : Option InstructionSet := do
  let set ← visitIsaDeclaration decls isa order depth
  performBundleReferenceChecks decls isa order depth none set

/-! ### The specification -/

namespace Declarations

variable (decls : Declarations)

/-- The declared slots that a slot names as bases. -/
def slotBases (name : Name) : List Name :=
  match decls.slotDecl name with
  | none => []
  | some decl =>
    (decl.baseItems.map BaseItem.name).filter fun base => (decls.slotDecl base).isSome

/-- The parts of a bundle that are visited. -/
def visitedParts (seen : List PartKind) : List BundlePart → List BundlePart
  | [] => []
  | part :: rest => if part.kind ∈ seen then [] else part :: visitedParts (part.kind :: seen) rest

/-- The declared bundles in a list of parts. -/
def bundlesOf : List BundlePart → List Name
  | [] => []
  | .bundleList names :: rest =>
    (names.filter fun name => (decls.bundleDecl name).isSome) ++ bundlesOf rest
  | .slotList _ :: rest | .includeFileList :: rest | .semfuncSpec :: rest => bundlesOf rest

/-- The declared slots in a list of slots. -/
def slotsOfList (specs : List SlotSpec) : List Name :=
  (specs.map SlotSpec.name).filter fun name => (decls.slotDecl name).isSome

/-- The declared slots in a list of parts. -/
def slotsOf : List BundlePart → List Name
  | [] => []
  | .slotList specs :: rest => decls.slotsOfList specs ++ slotsOf rest
  | .bundleList _ :: rest | .includeFileList :: rest | .semfuncSpec :: rest => slotsOf rest

/-- The declared bundles that a bundle contains. -/
def subBundles (name : Name) : List Name :=
  decls.bundlesOf (visitedParts [] ((decls.bundleDecl name).getD []))

/-- The declared slots that a bundle contains. -/
def slotsIn (name : Name) : List Name :=
  decls.slotsOf (visitedParts [] ((decls.bundleDecl name).getD []))

/-- The instruction set refers to a bundle, directly or through bundles. -/
def BundleReferred (isa : IsaDecl) (name : Name) : Prop :=
  ∃ top ∈ decls.bundlesOf [.bundleList isa.bundleList], Reaches decls.subBundles top name

/-- The instruction set refers to a slot, directly or through bundles, or a slot to which it
    refers inherits from it. -/
def SlotReferred (isa : IsaDecl) (name : Name) : Prop :=
  ∃ top, (top ∈ decls.slotsOfList isa.slotList ∨
      ∃ bundle, decls.BundleReferred isa bundle ∧ top ∈ decls.slotsIn bundle) ∧
    Reaches decls.slotBases top name

/-- Nothing to which the instruction set refers inherits from itself or contains itself. -/
structure Acyclic (isa : IsaDecl) : Prop where
  slots : ∀ name, decls.SlotReferred isa name →
    ¬ Relation.TransGen (Step decls.slotBases) name name
  bundles : ∀ name, decls.BundleReferred isa name →
    ¬ Relation.TransGen (Step decls.subBundles) name name

end Declarations

/-- The slots and bundles to which an instruction set refers are each in their order once, after
    their base slots and the bundles in them.  A base that a slot names is one of its base slots,
    if there is no error. -/
structure Ordered (decls : Declarations) (isa : IsaDecl) (set : InstructionSet) : Prop where
  slotsNodup : set.slotOrder.Nodup
  mem_slotOrder : ∀ name, name ∈ set.slotOrder ↔ decls.SlotReferred isa name
  slotsTopological : Topological set.slotBases set.slotOrder
  slotBases : set.errors = [] → ∀ name ∈ set.slotOrder,
    ∀ base ∈ decls.slotBases name, base ∈ set.slotBases name
  bundlesNodup : set.bundleOrder.Nodup
  mem_bundleOrder : ∀ name, name ∈ set.bundleOrder ↔ decls.BundleReferred isa name
  bundlesTopological : Topological decls.subBundles set.bundleOrder

/-- Processing ends; it reports an error if there is a cycle, and has the orders otherwise. -/
def ProcessingEnds (decls : Declarations) (isa : IsaDecl) (order : List Name → List Name) : Prop :=
  (∃ enough, ∀ depth ≥ enough, ∃ set, processDeclarations decls isa order depth = some set) ∧
    ∀ depth set, processDeclarations decls isa order depth = some set →
      (¬ decls.Acyclic isa → set.errors ≠ []) ∧ (decls.Acyclic isa → Ordered decls isa set)

end MpactSim.Isa
