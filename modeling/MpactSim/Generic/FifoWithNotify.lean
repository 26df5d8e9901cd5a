import MpactSim.Generic.Fifo

namespace MpactSim.Generic

open Lib

/-!
# Fifos that notify

A `FifoWithNotifyBase` calls back when it stops being empty, and when it becomes empty.  Whether it
is, it asks `IsEmpty`, for which reserved slots count: `Notifies` is about elements, and
`notifies_iff` says at which calls the two come to the same.
-/

universe u

variable {α : Type u}

/-! ### The source -/

/-- The callbacks. -/
inductive Notification where
  | notEmpty | empty
  deriving DecidableEq, Repr

/-- `FifoWithNotifyBase`.  Of a callback only matters whether it is set. -/
structure FifoWithNotify (α : Type u) where
  base : FifoBase α
  onNotEmpty : Bool
  onEmpty : Bool
  deriving DecidableEq, Repr

namespace FifoWithNotify

/-- What a call does: that of the base class, and the callbacks that are called after it. -/
structure Outcome (α β : Type*) extends FifoBase.Outcome α β where
  fired : List Notification

/-- `Push`. -/
def push (f : FifoWithNotify α) (db : α) : Outcome α Bool :=
  if !f.base.isEmpty then ⟨f.base.push db, []⟩
  else ⟨f.base.push db, if f.onNotEmpty then [.notEmpty] else []⟩

/-- `Pop`. -/
def pop (f : FifoWithNotify α) : Outcome α Unit :=
  ⟨f.base.pop, if f.base.pop.fifo.isEmpty && f.onEmpty then [.empty] else []⟩

/-- The callbacks of a call. -/
def fired (f : FifoWithNotify α) : FifoBase.Call α → List Notification
  | .push db => (f.push db).fired
  | .pop => f.pop.fired
  | _ => []

/-- The fifo after a call. -/
def step (f : FifoWithNotify α) (c : FifoBase.Call α) : FifoWithNotify α :=
  { f with base := match c with
    | .push db => (f.push db).fifo
    | .pop => f.pop.fifo
    | c => (f.base.call c).1 }

/-! ### The specification -/

/-- The number of elements. -/
def elements (f : FifoWithNotify α) : ℕ := f.base.fifo.length

/-- A call fires exactly the callbacks that are set and whose change of the number of elements, from
    zero to one or from one to zero, it makes. -/
def Notifies (f : FifoWithNotify α) (c : FifoBase.Call α) : Prop :=
  f.fired c =
    (if f.onNotEmpty = true ∧ f.elements = 0 ∧ (f.step c).elements = 1 then [.notEmpty] else []) ++
    (if f.onEmpty = true ∧ f.elements = 1 ∧ (f.step c).elements = 0 then [.empty] else [])

/-- The calls at which `IsEmpty` says what the elements say. -/
def Plain (f : FifoWithNotify α) : FifoBase.Call α → Prop
  | .push _ =>
    -- There is an element, or nothing at all and room for one, or no room for any.
    f.onNotEmpty = true → 0 < f.elements ∨
      (f.base.reserved.toNat = 0 ∧ 0 < f.base.capacity.toNat) ∨
      f.base.capacity.toNat < f.base.reserved.toNat
  | .pop =>
    -- An element stays, or the last one goes and no slot is reserved, or there is none to go and a
    -- slot is reserved.
    f.onEmpty = true → 2 ≤ f.elements ∨ (f.elements = 1 ∧ f.base.reserved.toNat = 0) ∨
      (f.elements = 0 ∧ 0 < f.base.reserved.toNat)
  | _ => True

/-! ### One call -/

variable {f : FifoWithNotify α}

theorem isEmpty_iff (b : FifoBase α) :
    b.isEmpty = true ↔ b.fifo.length = 0 ∧ b.reserved.toNat = 0 := by
  simp [FifoBase.isEmpty, BitVec.toNat_eq]

theorem ite_singleton_eq_iff {p q : Prop} [Decidable p] [Decidable q] (n : Notification) :
    ((if p then [n] else []) = if q then [n] else []) ↔ (p ↔ q) := by
  by_cases hp : p
  · by_cases hq : q
    · simp [hp, hq]
    · simp [hp, hq]
  · by_cases hq : q
    · simp [hp, hq]
    · simp [hp, hq]

/-- A push fires if nothing is there or reserved; it adds an element if there is room. -/
theorem notifies_push_iff (f : FifoWithNotify α) (db : α) :
    f.Notifies (.push db) ↔ f.Plain (.push db) := by
  have hfired : f.fired (.push db) =
      if f.onNotEmpty = true ∧ f.elements = 0 ∧ f.base.reserved.toNat = 0 then [.notEmpty]
      else [] := by
    show (f.push db).fired = _
    rw [push]
    by_cases hempty : f.base.isEmpty = true
    · have h := (isEmpty_iff f.base).mp hempty
      simp [hempty, elements, h]
    · have h := mt (isEmpty_iff f.base).mpr hempty
      rw [if_pos (by simpa using hempty), if_neg (fun hand => h hand.2)]
  have hstep : (f.step (.push db)).elements =
      if f.base.capacity.toNat ≤ f.elements + (f.base.reserved.toNat - 1) then f.elements
      else f.elements + 1 := by
    have hbase : (f.push db).fifo = (FifoBase.pushWith FifoBase.isFull f.base db).fifo := by
      rw [push]
      split
      · rfl
      · rfl
    show (f.push db).fifo.fifo.length = _
    rw [hbase]
    by_cases hfull : f.base.unreserve.isFull = true
    · have hle : f.base.capacity.toNat ≤ f.elements + (f.base.reserved.toNat - 1) :=
        FifoBase.isFull_unreserve.mp hfull
      rw [FifoBase.pushWith_of_full hfull, if_pos hle, FifoBase.unreserve_fifo]
      rfl
    · have hlt : ¬f.base.capacity.toNat ≤ f.elements + (f.base.reserved.toNat - 1) :=
        mt FifoBase.isFull_unreserve.mpr hfull
      rw [FifoBase.pushWith_of_not_full hfull, if_neg hlt]
      exact List.length_append
  unfold Notifies Plain
  rw [hfired, hstep]
  -- No push takes the last element away.
  have hstays : ¬(f.onEmpty = true ∧ f.elements = 1 ∧
      (if f.base.capacity.toNat ≤ f.elements + (f.base.reserved.toNat - 1) then f.elements
        else f.elements + 1) = 0) := by
    rintro ⟨-, hone, hzero⟩
    split at hzero
    · omega
    · omega
  rw [if_neg hstays, List.append_nil, ite_singleton_eq_iff]
  by_cases hset : f.onNotEmpty = true
  · simp only [hset, true_and, true_imp_iff]
    split
    · omega
    · omega
  · simp [hset]

theorem notifies_pop_iff (f : FifoWithNotify α) : f.Notifies .pop ↔ f.Plain .pop := by
  have hpop : f.base.pop.fifo.fifo.length = f.elements - 1 ∧
      f.base.pop.fifo.reserved = f.base.reserved := by
    rw [FifoBase.pop, elements]
    cases h : f.base.fifo with
    | nil => simp [h]
    | cons db rest => simp
  have hfired : f.fired .pop =
      if f.onEmpty = true ∧ f.elements - 1 = 0 ∧ f.base.reserved.toNat = 0 then [.empty]
      else [] := by
    show (if (f.base.pop.fifo.isEmpty && f.onEmpty) = true then [Notification.empty] else []) = _
    apply if_congr _ rfl rfl
    rw [Bool.and_eq_true, isEmpty_iff, hpop.1, hpop.2, and_comm]
  have hstep : (f.step .pop).elements = f.elements - 1 := hpop.1
  unfold Notifies Plain
  rw [hfired, hstep]
  -- No pop adds an element.
  have hnone : ¬(f.onNotEmpty = true ∧ f.elements = 0 ∧ f.elements - 1 = 1) := by omega
  rw [if_neg hnone, List.nil_append, ite_singleton_eq_iff]
  by_cases hset : f.onEmpty = true
  · simp only [hset, true_and, true_imp_iff]
    omega
  · simp [hset]

/-- **Step lemma.** -/
theorem notifies_iff_plain (f : FifoWithNotify α) (c : FifoBase.Call α) :
    f.Notifies c ↔ f.Plain c := by
  cases c with
  | push db => exact notifies_push_iff f db
  | pop => exact notifies_pop_iff f
  | reserve count =>
    apply iff_of_true _ trivial
    have hsame : (f.step (.reserve count)).elements = f.elements := rfl
    unfold Notifies
    rw [hsame, if_neg (by omega), if_neg (by omega)]
    rfl
  | front =>
    apply iff_of_true _ trivial
    have hsame : (f.step .front).elements = f.elements := by
      show f.base.front.fifo.fifo.length = f.base.fifo.length
      rw [FifoBase.front]
      split
      · rfl
      · rfl
    unfold Notifies
    rw [hsame, if_neg (by omega), if_neg (by omega)]
    rfl

/-! ### Runs -/

/-- **Notifications.** Over a run the callbacks are called exactly at the calls that take the number
    of elements from zero to one, and from one to zero, if and only if every call is plain. -/
theorem notifies_iff (f : FifoWithNotify α) (calls : List (FifoBase.Call α)) :
    Along step Notifies f calls ↔ Along step Plain f calls :=
  along_iff_along (fun _ => True) (fun f c _ => notifies_iff_plain f c) (fun _ _ _ _ => trivial)
    trivial

/-- A new fifo with both callbacks. -/
def new (defaultCapacity : ℤ) : FifoWithNotify α :=
  ⟨FifoBase.create "fifo" defaultCapacity, true, true⟩

/-- A pop that finds nothing fires; a push into a reserved slot does not. -/
theorem not_notifies :
    (new 4 : FifoWithNotify ℕ).fired .pop = [.empty] ∧
      ((new 4 : FifoWithNotify ℕ).step (.reserve 1)).fired (.push 7) = [] ∧
      ¬∀ (f : FifoWithNotify ℕ) (calls : List (FifoBase.Call ℕ)), Along step Notifies f calls := by
  refine ⟨rfl, rfl, fun h => ?_⟩
  have hpop : ([.empty] : List Notification) = [] ++ [] := (h (new 4) [.pop]).1
  exact absurd hpop (by decide)

end FifoWithNotify

end MpactSim.Generic
