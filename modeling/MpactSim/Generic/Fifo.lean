import MpactSim.Lib.Queue
import Mathlib.Data.BitVec

namespace MpactSim.Generic

open Lib

/-!
# Fifos

A `FifoBase` is a queue of data buffers with a capacity.  Slots may be reserved for later pushes;
a push takes a reserved slot, if there is one, before it looks whether the fifo is full.

* `FifoBase`, `Outcome`    — the fifo, and what a call of it does;
* `Call`, `System.step`    — calls, and the reference counts of the buffers;
* `fifo_discipline`        — order, capacity, reservations and references over all runs.
-/

universe u v

variable {α : Type u}

/-! ### The source -/

/-- A call of a data buffer. -/
inductive RefOp (α : Type u) where
  | incRef (db : α)
  | decRef (db : α)
  deriving DecidableEq, Repr

/-- `FifoBase`.  Of a program error only matters whether it is set. -/
structure FifoBase (α : Type u) where
  name : String
  capacity : BitVec 32
  reserved : BitVec 32
  fifo : List α
  overflowProgramError : Bool
  underflowProgramError : Bool
  deriving DecidableEq, Repr

namespace FifoBase

/-- What a call does: the fifo after it, its result, the calls of data buffers and the texts with
    which program errors are raised. -/
structure Outcome (α : Type u) (β : Type v) where
  fifo : FifoBase α
  result : β
  refs : List (RefOp α) := []
  raised : List String := []

/-- The constructor; the capacity is an `int`. -/
def create (name : String) (defaultCapacity : ℤ) : FifoBase α :=
  ⟨name, BitVec.ofInt 32 defaultCapacity, 0, [], false, false⟩

/-- `SetOverflowProgramError` and `SetUnderflowProgramError`. -/
def setProgramErrors (f : FifoBase α) (overflow underflow : Bool) : FifoBase α :=
  { f with overflowProgramError := overflow, underflowProgramError := underflow }

/-- `fifo_.size() + reserved_`, a `size_t`. -/
def occupied (f : FifoBase α) : ℕ := f.fifo.length + f.reserved.toNat

/-- `IsFull`. -/
def isFull (f : FifoBase α) : Bool := f.capacity.toNat ≤ f.occupied

/-- `IsEmpty`. -/
def isEmpty (f : FifoBase α) : Bool := f.fifo.isEmpty && f.reserved = 0

/-- `IsOverSubscribed`. -/
def isOverSubscribed (f : FifoBase α) : Bool := f.capacity.toNat < f.occupied

/-- `Reserve`. -/
def reserve (f : FifoBase α) (count : ℤ) : FifoBase α :=
  { f with reserved := f.reserved + BitVec.ofInt 32 count }

/-- `overflow_program_error_->Raise`, if it is set. -/
def raiseOverflow (f : FifoBase α) (message : String) : List String :=
  if f.overflowProgramError then [message] else []

/-- `underflow_program_error_->Raise`, if it is set. -/
def raiseUnderflow (f : FifoBase α) (message : String) : List String :=
  if f.underflowProgramError then [message] else []

/-- The slot that `Push` takes from the reserved ones. -/
def unreserve (f : FifoBase α) : FifoBase α :=
  if 0 < f.reserved then { f with reserved := f.reserved - 1 } else f

/-- `Push`.  The call of `IsFull` is virtual: `full` is that of the class of the fifo. -/
def pushWith (full : FifoBase α → Bool) (f : FifoBase α) (db : α) : Outcome α Bool :=
  let f := f.unreserve
  if full f then
    { fifo := f, result := false, raised := f.raiseOverflow ("Overflow in fifo " ++ f.name) }
  else
    { fifo := { f with fifo := f.fifo ++ [db] }, result := true, refs := [.incRef db] }

/-- `Push` of a `FifoBase`. -/
def push (f : FifoBase α) (db : α) : Outcome α Bool := pushWith isFull f db

/-- `Pop`. -/
def pop (f : FifoBase α) : Outcome α Unit :=
  match f.fifo with
  | [] =>
    { fifo := f, result := (), raised := f.raiseUnderflow ("Underflow in fifo " ++ f.name) }
  | db :: rest => { fifo := { f with fifo := rest }, result := (), refs := [.decRef db] }

/-- `Front`. -/
def front (f : FifoBase α) : Outcome α (Option α) :=
  match f.fifo with
  | [] =>
    { fifo := f, result := none, raised := f.raiseUnderflow ("Underflow in fifo " ++ f.name) }
  | db :: _ => { fifo := f, result := some db }

/-! ### Calls and buffers -/

/-- What is called. -/
inductive Call (α : Type u) where
  | reserve (count : ℤ)
  | push (db : α)
  | pop
  | front
  deriving DecidableEq, Repr

/-- The fifo and the buffers that are called. -/
def call (f : FifoBase α) : Call α → FifoBase α × List (RefOp α)
  | .reserve count => (f.reserve count, [])
  | .push db => ((f.push db).fifo, (f.push db).refs)
  | .pop => (f.pop.fifo, f.pop.refs)
  | .front => (f.front.fifo, f.front.refs)

end FifoBase

variable [DecidableEq α]

/-- `IncRef` and `DecRef` of a buffer, in terms of `ref_count`. -/
def RefOp.count (refCount : α → ℤ) : RefOp α → α → ℤ
  | .incRef db => Function.update refCount db (refCount db + 1)
  | .decRef db => Function.update refCount db (refCount db - 1)

namespace FifoBase

/-- A fifo and the reference counts of the buffers. -/
structure System (α : Type u) where
  fifo : FifoBase α
  refCount : α → ℤ

/-- A call of the fifo. -/
def System.step (s : System α) (c : Call α) : System α :=
  ⟨(s.fifo.call c).1, (s.fifo.call c).2.foldl RefOp.count s.refCount⟩

/-- The buffer that a call lets in: that of a push that returns true. -/
def System.entered (s : System α) : Call α → List α
  | .push db => if (s.fifo.push db).result then [db] else []
  | _ => []

/-- The buffer that a call lets out: that which `Front` returns before a pop. -/
def System.left (s : System α) : Call α → List α
  | .pop => s.fifo.front.result.toList
  | _ => []

/-- The call is no `Reserve` that makes elements and reserved slots exceed the capacity. -/
def System.Fits (s : System α) (c : Call α) : Prop :=
  ∀ count, c = .reserve count → (s.fifo.reserve count).occupied ≤ s.fifo.capacity.toNat

/-- The call is no push that fails while a slot is reserved. -/
def System.PushesReserved (s : System α) (c : Call α) : Prop :=
  ∀ db, c = .push db → 0 < s.fifo.reserved.toNat → (s.fifo.push db).result = true

/-! ### Pushes and pops -/

variable {f : FifoBase α} {full : FifoBase α → Bool} {db : α}

omit [DecidableEq α]

@[simp]
theorem unreserve_fifo (f : FifoBase α) : f.unreserve.fifo = f.fifo := by
  rw [unreserve]
  split
  · rfl
  · rfl

@[simp]
theorem unreserve_capacity (f : FifoBase α) : f.unreserve.capacity = f.capacity := by
  rw [unreserve]
  split
  · rfl
  · rfl

@[simp]
theorem toNat_unreserve (f : FifoBase α) : f.unreserve.reserved.toNat = f.reserved.toNat - 1 := by
  rw [unreserve]
  split
  · show (f.reserved - 1).toNat = f.reserved.toNat - 1
    bv_omega
  · bv_omega

theorem pushWith_of_full (h : full f.unreserve = true) :
    pushWith full f db = ⟨f.unreserve, false, [],
      f.unreserve.raiseOverflow ("Overflow in fifo " ++ f.unreserve.name)⟩ := by
  show (if full f.unreserve = true then _ else _) = _
  rw [if_pos h]

theorem pushWith_of_not_full (h : ¬full f.unreserve = true) :
    pushWith full f db =
      ⟨{ f.unreserve with fifo := f.fifo ++ [db] }, true, [.incRef db], []⟩ := by
  show (if full f.unreserve = true then _ else _) = _
  rw [if_neg h, unreserve_fifo]

theorem pushWith_result_iff : (pushWith full f db).result = true ↔ ¬full f.unreserve = true := by
  by_cases h : full f.unreserve = true
  · simp [pushWith_of_full h, h]
  · simp [pushWith_of_not_full h, h]

theorem isFull_unreserve :
    f.unreserve.isFull = true ↔ f.capacity.toNat ≤ f.fifo.length + (f.reserved.toNat - 1) := by
  simp [isFull, occupied]

@[simp]
theorem call_capacity (f : FifoBase α) (c : Call α) : (f.call c).1.capacity = f.capacity := by
  cases c with
  | reserve count => rfl
  | push db =>
    show (pushWith isFull f db).fifo.capacity = f.capacity
    by_cases h : f.unreserve.isFull = true
    · simp [pushWith_of_full h]
    · simp [pushWith_of_not_full h]
  | pop =>
    show f.pop.fifo.capacity = f.capacity
    rw [pop]
    split
    · rfl
    · rfl
  | front =>
    show f.front.fifo.capacity = f.capacity
    rw [front]
    split
    · rfl
    · rfl

/-! ### One call -/

variable {s : System α} {c : Call α}

/-- **Order.** A call appends what it lets in, and takes what it lets out off the front. -/
theorem fifo_step [DecidableEq α] (s : System α) (c : Call α) :
    s.fifo.fifo ++ s.entered c = s.left c ++ (s.step c).fifo.fifo := by
  cases c with
  | reserve count => exact List.append_nil _
  | push db =>
    show s.fifo.fifo ++ (if (pushWith isFull s.fifo db).result then [db] else []) =
      (pushWith isFull s.fifo db).fifo.fifo
    by_cases h : s.fifo.unreserve.isFull = true
    · simp [pushWith_of_full h]
    · simp [pushWith_of_not_full h]
  | pop =>
    show s.fifo.fifo ++ [] = s.fifo.front.result.toList ++ s.fifo.pop.fifo.fifo
    rw [front, pop]
    cases h : s.fifo.fifo with
    | nil => simp [h]
    | cons db rest => simp
  | front =>
    show s.fifo.fifo ++ [] = [] ++ s.fifo.front.fifo.fifo
    rw [front, List.append_nil]
    split
    · rfl
    · rfl

/-- **Capacity.** No call makes the elements exceed the capacity. -/
theorem length_step [DecidableEq α] (c : Call α)
    (h : s.fifo.fifo.length ≤ s.fifo.capacity.toNat) :
    (s.step c).fifo.fifo.length ≤ (s.step c).fifo.capacity.toNat := by
  have hcapacity : (s.step c).fifo.capacity = s.fifo.capacity := call_capacity s.fifo c
  have hsplit := congrArg List.length (fifo_step s c)
  rw [List.length_append, List.length_append] at hsplit
  rw [hcapacity]
  cases c with
  | push db =>
    show (pushWith isFull s.fifo db).fifo.fifo.length ≤ s.fifo.capacity.toNat
    by_cases hfull : s.fifo.unreserve.isFull = true
    · simpa [pushWith_of_full hfull] using h
    · have hroom := mt isFull_unreserve.mpr hfull
      simp only [pushWith_of_not_full hfull, List.length_append, List.length_singleton]
      omega
  | reserve count => exact h
  | pop =>
    have hentered : (s.entered .pop).length = 0 := rfl
    omega
  | front =>
    have hentered : (s.entered .front).length = 0 := rfl
    omega

/-- **Reservations.** A call that fits keeps elements and reserved slots within the capacity. -/
theorem occupied_step [DecidableEq α] (hfits : s.Fits c)
    (h : s.fifo.occupied ≤ s.fifo.capacity.toNat) :
    (s.step c).fifo.occupied ≤ (s.step c).fifo.capacity.toNat := by
  have hcapacity : (s.step c).fifo.capacity = s.fifo.capacity := call_capacity s.fifo c
  rw [hcapacity]
  cases c with
  | reserve count => exact hfits count rfl
  | push db =>
    show (pushWith isFull s.fifo db).fifo.occupied ≤ s.fifo.capacity.toNat
    unfold occupied at h ⊢
    by_cases hfull : s.fifo.unreserve.isFull = true
    · simp only [pushWith_of_full hfull, unreserve_fifo, toNat_unreserve]
      omega
    · have hroom := mt isFull_unreserve.mpr hfull
      simp only [pushWith_of_not_full hfull, toNat_unreserve, List.length_append,
        List.length_singleton]
      omega
  | pop =>
    show s.fifo.pop.fifo.occupied ≤ s.fifo.capacity.toNat
    unfold occupied at h ⊢
    rw [pop]
    cases hfifo : s.fifo.fifo with
    | nil => simpa [hfifo] using h
    | cons db rest =>
      rw [hfifo, List.length_cons] at h
      show rest.length + s.fifo.reserved.toNat ≤ s.fifo.capacity.toNat
      omega
  | front =>
    show s.fifo.front.fifo.occupied ≤ s.fifo.capacity.toNat
    rw [front]
    split
    · exact h
    · exact h

theorem pushesReserved_of_occupied (h : s.fifo.occupied ≤ s.fifo.capacity.toNat) (c : Call α) :
    s.PushesReserved c := by
  intro db _ hreserved
  apply pushWith_result_iff.mpr
  rw [isFull_unreserve]
  unfold occupied at h
  omega

/-- **References.** A call counts a buffer up for each slot that it fills with it, and down for each
    slot that it empties. -/
theorem refCount_step [DecidableEq α] (s : System α) (c : Call α) (db : α) :
    (s.step c).refCount db - (s.step c).fifo.fifo.count db =
      s.refCount db - s.fifo.fifo.count db := by
  cases c with
  | reserve count => rfl
  | push db' =>
    show (pushWith isFull s.fifo db').refs.foldl RefOp.count s.refCount db -
      (pushWith isFull s.fifo db').fifo.fifo.count db = _
    by_cases hfull : s.fifo.unreserve.isFull = true
    · simp [pushWith_of_full hfull]
    · by_cases hdb : db' = db
      · subst hdb
        simp [pushWith_of_not_full hfull, RefOp.count, List.count_append]
      · simp [pushWith_of_not_full hfull, RefOp.count, List.count_append, hdb,
          Function.update_of_ne (Ne.symm hdb)]
  | pop =>
    show s.fifo.pop.refs.foldl RefOp.count s.refCount db - s.fifo.pop.fifo.fifo.count db = _
    rw [pop]
    cases hfifo : s.fifo.fifo with
    | nil => simp [hfifo]
    | cons db' rest =>
      by_cases hdb : db' = db
      · subst hdb
        simp [RefOp.count]
        ring
      · simp [RefOp.count, hdb, Function.update_of_ne (Ne.symm hdb)]
  | front =>
    show s.fifo.front.refs.foldl RefOp.count s.refCount db -
      s.fifo.front.fifo.fifo.count db = _
    rw [front]
    cases hfifo : s.fifo.fifo with
    | nil => simp [hfifo]
    | cons db' rest => simp [hfifo]

/-! ### Runs -/

/-- **Fifo discipline.** After any calls of a new fifo: what has entered is what has left, in the
    same order, followed by what is held; the elements do not exceed the capacity; if no `Reserve`
    makes elements and reserved slots exceed it, they do not, and every push with a reserved slot
    has succeeded; and each buffer has one reference more for each slot that it is in. -/
theorem fifo_discipline [DecidableEq α] (name : String) (defaultCapacity : ℤ)
    (overflow underflow : Bool) (refCount : α → ℤ) (calls : List (Call α)) :
    let new : System α := ⟨(create name defaultCapacity).setProgramErrors overflow underflow, refCount⟩
    let s := run System.step new calls
    collect System.step System.entered new calls =
        collect System.step System.left new calls ++ s.fifo.fifo ∧
      s.fifo.capacity = BitVec.ofInt 32 defaultCapacity ∧
      s.fifo.fifo.length ≤ s.fifo.capacity.toNat ∧
      (Along System.step System.Fits new calls → s.fifo.occupied ≤ s.fifo.capacity.toNat ∧
        Along System.step System.PushesReserved new calls) ∧
      ∀ db, s.refCount db = refCount db + s.fifo.fifo.count db := by
  intro new s
  have hall : Along System.step (fun _ _ => True) new calls := along_of_forall fun _ _ => trivial
  refine ⟨?_, ?_, ?_, ?_, ?_⟩
  · have horder := collect_conserved fifo_step new calls
    rwa [show new.fifo.fifo = [] from rfl, List.nil_append] at horder
  · apply run_invariant (fun s : System α => s.fifo.capacity = BitVec.ofInt 32 defaultCapacity)
      _ rfl hall
    intro s c hs _
    rw [← hs]
    exact call_capacity s.fifo c
  · apply run_invariant (fun s : System α => s.fifo.fifo.length ≤ s.fifo.capacity.toNat)
      (fun s c hs _ => length_step c hs) (Nat.zero_le _) hall
  · intro hfits
    have hnew : new.fifo.occupied ≤ new.fifo.capacity.toNat := Nat.zero_le _
    constructor
    · exact run_invariant (fun s : System α => s.fifo.occupied ≤ s.fifo.capacity.toNat)
        (fun s c hs hc => occupied_step hc hs) hnew hfits
    · exact along_of_along (fun s : System α => s.fifo.occupied ≤ s.fifo.capacity.toNat)
        (fun s c hs hc => occupied_step hc hs) (fun s c hs _ => pushesReserved_of_occupied hs c)
        hnew hfits
  · intro db
    have hcount : s.refCount db - s.fifo.fifo.count db = refCount db := by
      apply run_invariant (fun s : System α => s.refCount db - s.fifo.fifo.count db = refCount db)
        _ _ hall
      · intro s c hs _
        rw [refCount_step, hs]
      · show refCount db - (([] : List α).count db : ℤ) = refCount db
        simp
    omega

end FifoBase

end MpactSim.Generic
