import MpactSim.Generic.FifoWithNotify
import MpactSim.Generic.TokenFifo

namespace MpactSim.Generic

open Lib

/-!
# What a push reports

`FifoBase::Push` gives a reserved slot up before it looks for room, and two classes override it
around a virtual `IsFull`.  Here are the effects of a push by its result, in every state of the
three classes.

* `TokenFifoBase.push` — the push of a fifo with tokens, on the fifo of the base class;
* `ReportsEffect`      — what a result would say if a push that fails left everything as it was;
* `push_effects`       — what it does say.
-/

universe u

variable {α : Type u}

/-! ### The source -/

namespace TokenFifoBase

/-- `TokenFifoBase::IsFull`. -/
def isFull (store : FifoTokenStore) (f : FifoBase α) : Bool :=
  store.available = 0 || store.available ≤ f.reserved.toNat

/-- `TokenFifoBase::IsOverSubscribed`. -/
def isOverSubscribed (store : FifoTokenStore) (f : FifoBase α) : Bool :=
  store.available < f.reserved.toNat

/-- `TokenFifoBase::Push`.  The result of the base class is dropped. -/
def push (f : FifoBase α) (store : FifoTokenStore) (db : α) :
    FifoBase.Outcome α Bool × FifoTokenStore :=
  if store.available = 0 then
    ({ fifo := f, result := false, raised := f.raiseOverflow ("Overflow in fifo " ++ f.name) },
      store)
  else
    let out := FifoBase.pushWith (isFull store) f db
    match store.acquire with
    | some store' => ({ out with result := true }, store')
    | none =>
      let raised := out.fifo.raiseOverflow ("No token available for " ++ out.fifo.name)
      ({ out with result := false, raised := out.raised ++ raised }, store)

end TokenFifoBase

/-! ### The specification -/

/-- The buffer is appended, and at most one reservation is used. -/
def Appends (before after : FifoBase α) (db : α) : Prop :=
  after.fifo = before.fifo ++ [db] ∧
    (after.reserved = before.reserved ∨ after.reserved.toNat + 1 = before.reserved.toNat)

/-- A push that returns true has appended the buffer and used at most one reservation; one that
    returns false has left elements and reserved slots as they were. -/
def ReportsEffect (before : FifoBase α) (db : α) (out : FifoBase.Outcome α Bool) : Prop :=
  (out.result = true → Appends before out.fifo db) ∧
    (out.result = false → out.fifo.fifo = before.fifo ∧ out.fifo.reserved = before.reserved)

/-! ### The base class -/

namespace FifoBase

variable {f : FifoBase α} {db : α} {full : FifoBase α → Bool}

theorem unreserve_reserved (f : FifoBase α) :
    f.unreserve.reserved = f.reserved ∨ f.unreserve.reserved.toNat + 1 = f.reserved.toNat := by
  rw [toNat_unreserve]
  by_cases h : f.reserved.toNat = 0
  · apply Or.inl
    apply BitVec.eq_of_toNat_eq
    rw [toNat_unreserve, h]
  · exact .inr (Nat.succ_pred_eq_of_ne_zero h)

theorem appends_of_pushWith (h : (pushWith full f db).result = true) :
    Appends f (pushWith full f db).fifo db := by
  rw [pushWith_of_not_full (pushWith_result_iff.mp h)]
  exact ⟨rfl, unreserve_reserved f⟩

theorem pushWith_of_result_false (h : (pushWith full f db).result = false) :
    (pushWith full f db).fifo.fifo = f.fifo ∧
      (pushWith full f db).fifo.reserved.toNat = f.reserved.toNat - 1 := by
  have hfull : full f.unreserve = true := by
    by_contra hroom
    rw [pushWith_result_iff.mpr hroom] at h
    cases h
  rw [pushWith_of_full hfull]
  exact ⟨unreserve_fifo f, toNat_unreserve f⟩

end FifoBase

/-! ### Fifos with tokens -/

namespace TokenFifoBase

variable {f : FifoBase α} {store : FifoTokenStore} {db : α}

theorem push_of_result_false (h : (push f store db).1.result = false) :
    (push f store db).1.fifo = f ∧ (push f store db).2 = store := by
  unfold push at h ⊢
  by_cases hzero : store.available = 0
  · rw [if_pos hzero]
    exact ⟨rfl, rfl⟩
  · rw [if_neg hzero, FifoTokenStore.acquire, if_pos (Nat.pos_of_ne_zero hzero)] at h
    cases h

/-- A push that returns true has taken a token, and has appended the buffer if the reserved slots do
    not exceed the tokens. -/
theorem push_of_result_true (h : (push f store db).1.result = true)
    (hfits : isOverSubscribed store f = false) :
    Appends f (push f store db).1.fifo db ∧
      (push f store db).2.available + 1 = store.available := by
  unfold push at h ⊢
  by_cases hzero : store.available = 0
  · rw [if_pos hzero] at h
    cases h
  · have hpos := Nat.pos_of_ne_zero hzero
    have hle : f.reserved.toNat ≤ store.available := by
      simpa [isOverSubscribed] using hfits
    have hroom : ¬isFull store f.unreserve = true := by
      simp only [isFull, FifoBase.toNat_unreserve, Bool.or_eq_true, decide_eq_true_eq]
      omega
    rw [if_neg hzero, FifoTokenStore.acquire, if_pos hpos]
    refine ⟨FifoBase.appends_of_pushWith (FifoBase.pushWith_result_iff.mpr hroom), ?_⟩
    show store.available - 1 + 1 = store.available
    omega

end TokenFifoBase

/-! ### All three classes -/

/-- **Effects of a push.** In every state: if a push of a fifo, with or without notifications,
    returns true, it has appended the buffer and used at most one reservation, and if it returns
    false, it has left the elements as they were and used a reservation if there was one.  If a push
    of a fifo with tokens returns false, it has changed nothing, and if it returns true in a state
    that is not oversubscribed, it has appended the buffer, used at most one reservation and taken a
    token. -/
theorem push_effects (f : FifoBase α) (onNotEmpty onEmpty : Bool) (store : FifoTokenStore) (db : α) :
    (∀ out ∈ [f.push db, (FifoWithNotify.push ⟨f, onNotEmpty, onEmpty⟩ db).toOutcome],
      (out.result = true → Appends f out.fifo db) ∧
      (out.result = false → out.fifo.fifo = f.fifo ∧
        out.fifo.reserved.toNat = f.reserved.toNat - 1)) ∧
    ((TokenFifoBase.push f store db).1.result = false →
      (TokenFifoBase.push f store db).1.fifo = f ∧ (TokenFifoBase.push f store db).2 = store) ∧
    ((TokenFifoBase.push f store db).1.result = true →
      TokenFifoBase.isOverSubscribed store f = false →
      Appends f (TokenFifoBase.push f store db).1.fifo db ∧
        (TokenFifoBase.push f store db).2.available + 1 = store.available) := by
  refine ⟨?_, TokenFifoBase.push_of_result_false, TokenFifoBase.push_of_result_true⟩
  intro out hout
  have hbase : out = f.push db := by
    have hnotify : (FifoWithNotify.push ⟨f, onNotEmpty, onEmpty⟩ db).toOutcome = f.push db := by
      rw [FifoWithNotify.push]
      split
      · rfl
      · rfl
    simpa [hnotify] using hout
  rw [hbase]
  exact ⟨FifoBase.appends_of_pushWith, FifoBase.pushWith_of_result_false⟩

/-- Two slots of a fifo with room for one are reserved.  A push fails, and one is left. -/
theorem push_not_reportsEffect :
    ¬∀ (calls : List (FifoBase.Call ℕ)) (db : ℕ),
      let s := run FifoBase.System.step ⟨FifoBase.create "fifo" 1, fun _ => 0⟩ calls
      ReportsEffect s.fifo db (s.fifo.push db) := by
  intro h
  obtain ⟨-, hfalse⟩ := h [.reserve 2] 7
  have hreserved : (1#32) = 2#32 := (hfalse rfl).2
  exact absurd hreserved (by decide)

end MpactSim.Generic
