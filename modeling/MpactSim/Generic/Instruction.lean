import MpactSim.Lib.Links
import Mathlib.Data.BitVec

namespace MpactSim.Generic.InstructionTree

/-!
# References of instructions

An instruction has a list of children and is on a list itself.  A link to a child or to the next
instruction is a reference, the one to the parent is not.  An instruction is deleted when its last
reference goes, and gives up the references that it has.

* `Heap`         — the instructions, one map for each member;
* `appendChild`, `append`, `decRef`, `destroy` — the functions of the source;
* `Op`, `System` — the calls of a user, who has references too;
* `Dies`         — what a release deletes.

What the source does with a deleted instruction is undefined, and so are the results here.
-/

/-! ### Instructions -/

/-- An instruction; one is not used again after it has been deleted. -/
abbrev Ref := Nat

/-- The instructions, as far as they refer to each other. -/
structure Heap where
  live : Ref → Bool
  incCount : Ref → BitVec 64
  decCount : Ref → BitVec 64
  child : Ref → Option Ref
  parent : Ref → Option Ref
  next : Ref → Option Ref
  /-- How many have been created. -/
  created : Nat
  /-- Those that have been deleted, in this order. -/
  destroyed : List Ref

namespace Heap

/-- A heap before any instruction is created. -/
def empty : Heap :=
  ⟨fun _ => false, fun _ => 0, fun _ => 0, fun _ => none, fun _ => none, fun _ => none, 0, []⟩

/-- `Instruction::Instruction`, with `ReferenceCount::ReferenceCount` -/
def create (heap : Heap) : Heap :=
  let this := heap.created
  { heap with
    live := Function.update heap.live this true
    incCount := Function.update heap.incCount this 1
    decCount := Function.update heap.decCount this 0
    child := Function.update heap.child this none
    parent := Function.update heap.parent this none
    next := Function.update heap.next this none
    created := this + 1 }

/-- An assignment to `child_`. -/
def setChild (heap : Heap) (this : Ref) (inst : Option Ref) : Option Heap :=
  if heap.live this then some { heap with child := Function.update heap.child this inst } else none

/-- An assignment to `parent_`. -/
def setParent (heap : Heap) (this : Ref) (inst : Option Ref) : Option Heap :=
  if heap.live this then some { heap with parent := Function.update heap.parent this inst }
  else none

/-- An assignment to `next_`. -/
def setNext (heap : Heap) (this : Ref) (inst : Option Ref) : Option Heap :=
  if heap.live this then some { heap with next := Function.update heap.next this inst } else none

/-- `ReferenceCount::IncRef` -/
def incRef (heap : Heap) (this : Ref) : Option Heap :=
  if heap.live this then
    some { heap with incCount := Function.update heap.incCount this (heap.incCount this + 1) }
  else none

/-- `ReferenceCount::ref_count`, before the conversion to an `int` -/
def refCount (heap : Heap) (this : Ref) : Nat := (heap.incCount this - heap.decCount this).toNat

/-- `Instruction::Append`, of an instruction.  The fuel is for the instructions of the list. -/
def append : Nat → Heap → Ref → Ref → Option Heap
  | 0, _, _, _ => none
  | fuel + 1, heap, this, inst =>
    if heap.live this then
      match heap.next this with
      | none => do
        let heap ← heap.incRef inst
        heap.setNext this (some inst)
      | some next => append fuel heap next inst
    else none

/-- `Instruction::AppendChild`, of an instruction -/
def appendChild (heap : Heap) (this inst : Ref) : Option Heap := do
  let heap ← heap.setParent inst (some this)
  if heap.live this then
    match heap.child this with
    | none => do
      let heap ← heap.incRef inst
      heap.setChild this (some inst)
    | some child => heap.append heap.created child inst
  else none

/-- The part of `Instruction::~Instruction` about `parent_` -/
def leaveParent (heap : Heap) (this : Ref) : Option Heap :=
  match heap.parent this with
  | some parent => heap.setChild parent none
  | none => some heap

/-- The part about `next_` -/
def releaseNext (decRef : Heap → Ref → Option Heap) (heap : Heap) (this : Ref) : Option Heap :=
  match heap.next this with
  | some next => do
    let heap ← decRef heap next
    heap.setNext this none
  | none => some heap

/-- The part about `child_` -/
def releaseChild (decRef : Heap → Ref → Option Heap) (heap : Heap) (this : Ref) : Option Heap :=
  match heap.child this with
  | some child => do
    let heap ← heap.setParent child none
    let heap ← decRef heap child
    heap.setChild this none
  | none => some heap

/-- The end of an instruction's life. -/
def free (heap : Heap) (this : Ref) : Heap :=
  { heap with
    live := Function.update heap.live this false
    destroyed := heap.destroyed ++ [this] }

/-- `Instruction::~Instruction`, and the end of the instruction's life -/
def destroy (decRef : Heap → Ref → Option Heap) (heap : Heap) (this : Ref) : Option Heap := do
  let heap ← heap.leaveParent this
  let heap ← heap.releaseNext decRef this
  let heap ← heap.releaseChild decRef this
  some (heap.free this)

/-- `ReferenceCount::DecRef` and `OnRefCountIsZero`.  The fuel is for the instructions that are
    deleted. -/
def decRef : Nat → Heap → Ref → Option Heap
  | 0, _, _ => none
  | fuel + 1, heap, this =>
    if heap.live this then
      -- `ABSL_HARDENING_ASSERT`
      if heap.incCount this - heap.decCount this = 0 then none
      else
        let heap := { heap with
          decCount := Function.update heap.decCount this (heap.decCount this + 1) }
        if heap.incCount this = heap.decCount this then destroy (decRef fuel) heap this
        else some heap
    else none

end Heap

/-! ### Users -/

/-- A call of a user; `Append` and `AppendChild` may get a null pointer. -/
inductive Op where
  | create
  | appendChild (this : Ref) (inst : Option Ref)
  | append (this : Ref) (inst : Option Ref)
  | incRef (this : Ref)
  | decRef (this : Ref)
  deriving DecidableEq

/-- The instructions, and how many references to each one the user has. -/
structure System where
  heap : Heap
  held : Ref → Nat

namespace System

/-- Nothing has been created. -/
def start : System := ⟨.empty, fun _ => 0⟩

/-- A call; the list that an instruction is appended to has at most as many instructions as there
    have been, and so has what a release deletes. -/
def step (s : System) : Op → Option System
  | .create => some ⟨s.heap.create, Function.update s.held s.heap.created 1⟩
  | .appendChild _ none => some s
  | .appendChild this (some inst) => do
    let heap ← s.heap.appendChild this inst
    some { s with heap }
  | .append _ none => some s
  | .append this (some inst) => do
    let heap ← s.heap.append s.heap.created this inst
    some { s with heap }
  | .incRef this => do
    let heap ← s.heap.incRef this
    some ⟨heap, Function.update s.held this (s.held this + 1)⟩
  | .decRef this => do
    let heap ← s.heap.decRef s.heap.created this
    some ⟨heap, Function.update s.held this (s.held this - 1)⟩

/-- A property of states and calls that holds all along a run. -/
def Throughout (P : System → Op → Prop) : System → List Op → Prop
  | _, [] => True
  | s, op :: rest => P s op ∧ ∀ s', s.step op = some s' → Throughout P s' rest

end System

end MpactSim.Generic.InstructionTree
