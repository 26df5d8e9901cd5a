import MpactSim.Lib.Run
import Mathlib.Data.BitVec

namespace MpactSim.Generic

open Lib

/-!
# Fifos that share tokens

A `FifoTokenStore` has a token for every element that the fifos which share it may hold
together.  A `TokenFifo` takes a token when an element is pushed and returns it when the
element is popped; slots may be reserved for later pushes.

`Conserved` says that the tokens which are not in the store are the elements in the fifos.
`conserved_iff` says which steps keep it so: a push that the base class refuses still takes
a token, a pop of an empty fifo with reserved slots returns one, and a fifo that is
destroyed keeps its tokens.
-/

universe u

variable {α : Type u}

/-! ### The source -/

/-- `FifoTokenStore`. -/
structure FifoTokenStore where
  capacity : Nat
  available : Nat
  deriving DecidableEq, Repr

/-- A `TokenFifo` of data buffers: `fifo_` and `reserved_`. -/
structure TokenFifo (α : Type u) where
  fifo : List α
  reserved : BitVec 32
  deriving DecidableEq, Repr

/-- The store and the fifos that share it, by number.  A destroyed fifo is `none`. -/
structure FifoSystem (α : Type u) where
  store : FifoTokenStore
  fifos : List (Option (TokenFifo α))
  deriving DecidableEq, Repr

/-- What is called, and on which fifo. -/
inductive FifoCall (α : Type u) where
  | create
  | reserve (i : Nat) (count : Int)
  | push (i : Nat) (db : α)
  | pop (i : Nat)
  | destroy (i : Nat)

/-- `Acquire`; `none` if there is no token. -/
def FifoTokenStore.acquire (store : FifoTokenStore) : Option FifoTokenStore :=
  if store.available > 0 then some { store with available := store.available - 1 } else none

/-- `Release`; `none` if all tokens are there. -/
def FifoTokenStore.release (store : FifoTokenStore) : Option FifoTokenStore :=
  if store.available = store.capacity then none
  else some { store with available := store.available + 1 }

namespace TokenFifo

/-- `TokenFifoBase::IsFull`. -/
def isFull (f : TokenFifo α) (store : FifoTokenStore) : Bool :=
  store.available = 0 || store.available ≤ f.reserved.toNat

/-- `FifoBase::IsEmpty`. -/
def isEmpty (f : TokenFifo α) : Bool := f.fifo.isEmpty && f.reserved = 0

/-- `FifoBase::Reserve`. -/
def reserve (f : TokenFifo α) (count : Int) : TokenFifo α :=
  { f with reserved := f.reserved + BitVec.ofInt 32 count }

/-- The slot that `FifoBase::Push` takes from the reserved ones. -/
def unreserve (f : TokenFifo α) : TokenFifo α :=
  if f.reserved = 0 then f else { f with reserved := f.reserved - 1 }

/-- `FifoBase::Push`; the call of `IsFull` is virtual. -/
def basePush (f : TokenFifo α) (store : FifoTokenStore) (db : α) : TokenFifo α :=
  let f := f.unreserve
  if f.isFull store then f else { f with fifo := f.fifo ++ [db] }

/-- `FifoBase::Pop`. -/
def basePop (f : TokenFifo α) : TokenFifo α := { f with fifo := f.fifo.tail }

/-- `TokenFifoBase::Push`.  The result of the base class is not used. -/
def push (f : TokenFifo α) (store : FifoTokenStore) (db : α) : TokenFifo α × FifoTokenStore :=
  if store.available = 0 then (f, store)
  else (f.basePush store db, store.acquire.getD store)

/-- `TokenFifoBase::Pop`. -/
def pop (f : TokenFifo α) (store : FifoTokenStore) : TokenFifo α × FifoTokenStore :=
  if f.isEmpty then (f, store) else (f.basePop, store.release.getD store)

end TokenFifo

/-- Replace a live fifo and the store. -/
def FifoSystem.update (s : FifoSystem α) (i : Nat)
    (f : TokenFifo α → FifoTokenStore → TokenFifo α × FifoTokenStore) : FifoSystem α :=
  match s.fifos[i]? with
  | some (some fifo) =>
    let (fifo, store) := f fifo s.store
    ⟨store, s.fifos.set i (some fifo)⟩
  | _ => s

/-- A call.  The destructor of `FifoBase` pops the elements with its own `Pop`, which has no
    tokens. -/
def FifoSystem.step (s : FifoSystem α) : FifoCall α → FifoSystem α
  | .create => { s with fifos := s.fifos ++ [some ⟨[], 0⟩] }
  | .reserve i count => s.update i fun f store => (f.reserve count, store)
  | .push i db => s.update i fun f store => f.push store db
  | .pop i => s.update i TokenFifo.pop
  | .destroy i => { s with fifos := s.fifos.set i none }

/-- A token store before any fifo is created. -/
def FifoSystem.init (capacity : Nat) : FifoSystem α := ⟨⟨capacity, capacity⟩, []⟩

/-! ### The specification -/

/-- The elements of a fifo; a destroyed one has none. -/
def held : Option (TokenFifo α) → Nat
  | some f => f.fifo.length
  | none => 0

/-- The elements of all live fifos. -/
def FifoSystem.elements (s : FifoSystem α) : Nat := (s.fifos.map held).sum

/-- The tokens that are not in the store are the elements of the fifos. -/
def Conserved (s : FifoSystem α) : Prop :=
  s.store.available ≤ s.store.capacity ∧
    s.store.capacity - s.store.available = s.elements

/-- The steps that conserve tokens. -/
def Conserves (s : FifoSystem α) : FifoCall α → Prop
  | .create => True
  | .reserve _ _ => True
  | .push i _ =>
    -- There is no token, or there are more tokens than reserved slots.
    ∀ f ∈ s.fifos[i]?.join, s.store.available = 0 ∨
      f.unreserve.reserved.toNat < s.store.available
  | .pop i =>
    -- The fifo has an element or no reserved slot, or no token is missing.
    ∀ f ∈ s.fifos[i]?.join, f.fifo ≠ [] ∨ f.reserved = 0 ∨
      s.store.available = s.store.capacity
  | .destroy i => ∀ f ∈ s.fifos[i]?.join, f.fifo = []

/-! ### Steps -/

variable {i capacity : Nat} {s : FifoSystem α} {f : TokenFifo α} {store : FifoTokenStore}

theorem sum_set_add {l : List Nat} (h : i < l.length) (n : Nat) :
    (l.set i n).sum + l[i] = l.sum + n := by
  induction l generalizing i with
  | nil => exact absurd h (Nat.not_lt_zero _)
  | cons a rest ih =>
    cases i with
    | zero =>
      simp only [List.set_cons_zero, List.sum_cons, List.getElem_cons_zero]
      omega
    | succ i =>
      have hrest := ih (Nat.lt_of_succ_lt_succ h)
      simp only [List.set_cons_succ, List.sum_cons, List.getElem_cons_succ]
      omega

theorem elements_set (h : s.fifos[i]? = some (some f)) (store : FifoTokenStore)
    (f' : Option (TokenFifo α)) :
    (FifoSystem.mk store (s.fifos.set i f')).elements + f.fifo.length = s.elements + held f' := by
  obtain ⟨hi, hget⟩ := List.getElem?_eq_some_iff.mp h
  have hlen : i < (s.fifos.map held).length := by rw [List.length_map]; exact hi
  have hsum := sum_set_add hlen (held f')
  rw [List.getElem_map, hget, ← List.map_set] at hsum
  exact hsum

/-- A call on a live fifo, if the store changes as the number of its elements does. -/
theorem conserved_update_iff (hs : Conserved s)
    {f : TokenFifo α → FifoTokenStore → TokenFifo α × FifoTokenStore} {ok : TokenFifo α → Prop}
    (hf : ∀ fifo, fifo ∈ s.fifos[i]?.join → fifo.fifo.length ≤ s.elements →
      (f fifo s.store).2.capacity = s.store.capacity ∧
      (f fifo s.store).2.available ≤ s.store.capacity ∧
      ((f fifo s.store).2.available + (f fifo s.store).1.fifo.length =
        s.store.available + fifo.fifo.length ↔ ok fifo)) :
    Conserved (s.update i f) ↔ ∀ fifo ∈ s.fifos[i]?.join, ok fifo := by
  obtain ⟨hle, hsum⟩ := hs
  unfold FifoSystem.update
  split
  · rename_i fifo hfifo
    have hjoin : s.fifos[i]?.join = some fifo := by rw [hfifo]; rfl
    have hset := elements_set hfifo (f fifo s.store).2 (some (f fifo s.store).1)
    have hheld : held (some (f fifo s.store).1) = (f fifo s.store).1.fifo.length := rfl
    have hmem : fifo.fifo.length ≤ s.elements := by
      have hnone := elements_set hfifo s.store none
      have hzero : held (none : Option (TokenFifo α)) = 0 := rfl
      omega
    obtain ⟨hcapacity, havailable, hok⟩ := hf fifo (by rw [hjoin]; rfl) hmem
    rw [hjoin]
    have hall : (∀ fifo' ∈ some fifo, ok fifo') ↔ ok fifo := by simp
    rw [hall, ← hok]
    unfold Conserved
    dsimp only
    omega
  · rename_i hnone
    have hjoin : s.fifos[i]?.join = none := by
      cases hget : s.fifos[i]? with
      | none => rfl
      | some fifo =>
        cases fifo with
        | none => rfl
        | some fifo => exact absurd hget (hnone fifo)
    rw [hjoin]
    constructor
    · intro _ fifo hfifo
      simp at hfifo
    · intro _
      exact ⟨hle, hsum⟩

theorem unreserve_fifo (f : TokenFifo α) : f.unreserve.fifo = f.fifo := by
  unfold TokenFifo.unreserve
  split <;> rfl

theorem acquire_available (h : store.available ≠ 0) :
    store.acquire.getD store = { store with available := store.available - 1 } := by
  rw [FifoTokenStore.acquire, if_pos (by omega)]
  rfl

/-- A push takes a token; the element is kept unless the base class finds the fifo full. -/
theorem push_conserves_iff {db : α} (hle : store.available ≤ store.capacity) :
    (f.push store db).2.capacity = store.capacity ∧
    (f.push store db).2.available ≤ store.capacity ∧
    ((f.push store db).2.available + (f.push store db).1.fifo.length =
        store.available + f.fifo.length ↔
      (store.available = 0 ∨ f.unreserve.reserved.toNat < store.available)) := by
  unfold TokenFifo.push
  by_cases hzero : store.available = 0
  · rw [if_pos hzero]
    simp [hzero]
  · rw [if_neg hzero, acquire_available hzero]
    refine ⟨rfl, by simp only; omega, ?_⟩
    have hfull : f.unreserve.isFull store = true ↔
        store.available ≤ f.unreserve.reserved.toNat := by
      simp [TokenFifo.isFull, hzero]
    unfold TokenFifo.basePush
    dsimp only
    by_cases hf : store.available ≤ f.unreserve.reserved.toNat
    · -- The base class refuses the element and the token is gone.
      rw [if_pos (hfull.mpr hf), unreserve_fifo]
      omega
    · rw [if_neg (fun h => hf (hfull.mp h)), List.length_append, unreserve_fifo]
      simp only [List.length_singleton]
      omega

/-- A pop returns a token, also where only reserved slots make the fifo nonempty. -/
theorem pop_conserves_iff (hle : store.available + f.fifo.length ≤ store.capacity) :
    (f.pop store).2.capacity = store.capacity ∧
    (f.pop store).2.available ≤ store.capacity ∧
    ((f.pop store).2.available + (f.pop store).1.fifo.length =
        store.available + f.fifo.length ↔
      (f.fifo ≠ [] ∨ f.reserved = 0 ∨ store.available = store.capacity)) := by
  have hempty : f.isEmpty = true ↔ f.fifo = [] ∧ f.reserved = 0 := by
    simp [TokenFifo.isEmpty]
  unfold TokenFifo.pop
  by_cases he : f.fifo = [] ∧ f.reserved = 0
  · rw [if_pos (hempty.mpr he)]
    simp only [true_and, true_iff]
    exact ⟨by omega, .inr (.inl he.2)⟩
  · rw [if_neg (fun h => he (hempty.mp h))]
    unfold TokenFifo.basePop FifoTokenStore.release
    dsimp only
    by_cases hall : store.available = store.capacity
    · -- No token is out, so the fifo has no element and `Release` fails.
      have hnil : f.fifo = [] := List.length_eq_zero_iff.mp (by omega)
      simp [hall, hnil]
    · rw [if_neg hall]
      refine ⟨rfl, by simp only [Option.getD_some]; omega, ?_⟩
      cases hfifo : f.fifo with
      | nil =>
        have hres : ¬ f.reserved = 0#32 := fun h => he ⟨hfifo, h⟩
        simp [hres, hall]
      | cons db rest =>
        simp
        omega

/-- **Step lemma.** A call conserves tokens exactly when `Conserves` allows it. -/
theorem conserved_step_iff (call : FifoCall α) (hs : Conserved s) :
    Conserved (s.step call) ↔ Conserves s call := by
  have hle := hs.1
  cases call with
  | create =>
    have helems : (s.step .create).elements = s.elements := by
      simp [FifoSystem.step, FifoSystem.elements, held]
    exact ⟨fun _ => trivial, fun _ => ⟨hle, helems ▸ hs.2⟩⟩
  | reserve i count =>
    have hkeep : Conserved (s.step (.reserve i count)) ↔ ∀ fifo ∈ s.fifos[i]?.join, True :=
      conserved_update_iff hs fun fifo _ _ => ⟨rfl, hle, iff_of_true rfl trivial⟩
    exact hkeep.trans ⟨fun _ => trivial, fun _ _ _ => trivial⟩
  | push i db =>
    exact conserved_update_iff hs fun fifo _ _ => push_conserves_iff hle
  | pop i =>
    refine conserved_update_iff hs fun fifo _ hmem => pop_conserves_iff ?_
    have hsum := hs.2
    omega
  | destroy i =>
    show Conserved { s with fifos := s.fifos.set i none } ↔
      ∀ f ∈ s.fifos[i]?.join, f.fifo = []
    cases hget : s.fifos[i]? with
    | none =>
      have hset : s.fifos.set i none = s.fifos :=
        List.set_eq_of_length_le (List.getElem?_eq_none_iff.mp hget)
      rw [hset]
      exact iff_of_true hs (by simp)
    | some fifo =>
      cases fifo with
      | none =>
        have hset : s.fifos.set i none = s.fifos := by
          apply List.ext_getElem?
          intro j
          rw [List.getElem?_set]
          split
          · rename_i hij
            subst hij
            rw [hget, if_pos (List.getElem?_eq_some_iff.mp hget).1]
          · rfl
        rw [hset]
        exact iff_of_true hs (by simp)
      | some fifo =>
        -- Its elements are gone and its tokens are not returned.
        have hset := elements_set hget s.store none
        have hnone : held (none : Option (TokenFifo α)) = 0 := rfl
        have hsum := hs.2
        have hlen : fifo.fifo = [] ↔ fifo.fifo.length = 0 := List.length_eq_zero_iff.symm
        have hall : (∀ f ∈ (some (some fifo)).join, f.fifo = []) ↔ fifo.fifo = [] := by simp
        rw [hall, hlen]
        unfold Conserved
        dsimp only
        omega

/-! ### Runs -/

/-- A store of the given capacity that has at most that many tokens. -/
def Bounded (capacity : Nat) (store : FifoTokenStore) : Prop :=
  store.capacity = capacity ∧ store.available ≤ capacity

theorem acquire_bounded (h : Bounded capacity store) :
    Bounded capacity (store.acquire.getD store) := by
  obtain ⟨hcapacity, hle⟩ := h
  unfold FifoTokenStore.acquire
  split
  · exact ⟨hcapacity, by simp only [Option.getD_some]; omega⟩
  · exact ⟨hcapacity, hle⟩

theorem release_bounded (h : Bounded capacity store) :
    Bounded capacity (store.release.getD store) := by
  obtain ⟨hcapacity, hle⟩ := h
  unfold FifoTokenStore.release
  split
  · exact ⟨hcapacity, hle⟩
  · exact ⟨hcapacity, by simp only [Option.getD_some]; omega⟩

theorem update_bounded (hs : Bounded capacity s.store) (i : Nat)
    {f : TokenFifo α → FifoTokenStore → TokenFifo α × FifoTokenStore}
    (hf : ∀ fifo, Bounded capacity (f fifo s.store).2) : Bounded capacity (s.update i f).store := by
  unfold FifoSystem.update
  split
  · exact hf _
  · exact hs

theorem step_bounded (call : FifoCall α) (hs : Bounded capacity s.store) :
    Bounded capacity (s.step call).store := by
  cases call with
  | create => exact hs
  | reserve i count => exact update_bounded hs i fun _ => hs
  | push i db =>
    refine update_bounded hs i fun fifo => ?_
    unfold TokenFifo.push
    split
    · exact hs
    · exact acquire_bounded hs
  | pop i =>
    refine update_bounded hs i fun fifo => ?_
    unfold TokenFifo.pop
    split
    · exact hs
    · exact release_bounded hs
  | destroy i => exact hs

/-- **Token conservation.** However the calls on the fifos of a store are interleaved, the store
    has at most as many tokens as its capacity; and the tokens that are out are, in every state,
    the elements of the live fifos exactly when every call is one that `Conserves` them. -/
theorem conserved_iff (capacity : Nat) (calls : List (FifoCall α)) :
    (∀ before after, calls = before ++ after →
      Bounded capacity (run FifoSystem.step (.init capacity) before).store) ∧
    ((∀ before after, calls = before ++ after →
        Conserved (run FifoSystem.step (.init capacity) before)) ↔
      Along FifoSystem.step Conserves (.init capacity) calls) := by
  have hinit : Conserved (FifoSystem.init capacity : FifoSystem α) := by
    simp [Conserved, FifoSystem.init, FifoSystem.elements]
  constructor
  · intro before _ _
    exact run_invariant (fun s : FifoSystem α => Bounded capacity s.store)
      (fun s r hs _ => step_bounded r hs) ⟨rfl, le_refl _⟩ (along_of_forall fun _ _ => trivial)
  · exact forall_run_iff_along Conserved (fun s r hs => conserved_step_iff r hs) hinit

/-- With one token, a push while two slots are reserved loses it. -/
theorem push_loses_token :
    let s := run FifoSystem.step (FifoSystem.init 1) [.create, .reserve 0 2, .push 0 'a']
    s.store = ⟨1, 0⟩ ∧ s.elements = 0 ∧ ¬ Conserved s := by
  refine ⟨by decide, by decide, ?_⟩
  rintro ⟨-, hsum⟩
  exact absurd hsum (by decide)

end MpactSim.Generic
