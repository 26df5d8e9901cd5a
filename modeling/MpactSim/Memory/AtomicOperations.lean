import MpactSim.Memory.AtomicMemory

namespace MpactSim.Memory

open Lib

/-!
# The results of atomic operations

A read-modify-write operation of an `AtomicMemory` replaces a number in memory by what the
operation makes of it and of the number in the data buffer, and returns the old one.

* `Operation.IsResult` — what the operations mean for numbers of `n` bits;
* `AtomicExact`        — a call that returns OK does what its operation means, and one that
  returns an error does nothing;
* `atomicExact_iff`    — when that is so;
* `atomicAdd_sums`     — runs of additions add up.

The size of the buffer is looked at first by the operations, and last by a store-conditional.
-/

/-! ### The specification -/

/-- The number of a two's complement of `n` bits. -/
def signedOf (n x : Nat) : Int := if 2 * x < 2 ^ n then x else x - 2 ^ n

/-- Swap and the operations on memory. -/
def Operation.isReadModifyWrite (op : Operation) : Prop :=
  op ≠ .loadLinked ∧ op ≠ .storeConditional

/-- The number of `n` bits that an operation makes of the one in memory and the operand. -/
def Operation.IsResult (n old operand new : Nat) : Operation → Prop
  | .atomicSwap => new = operand
  | .atomicAdd => (new : Int) = (old + operand) % 2 ^ n
  | .atomicSub => (new : Int) = (old - operand) % 2 ^ n
  | .atomicAnd => ∀ i, new.testBit i = (old.testBit i && operand.testBit i)
  | .atomicOr => ∀ i, new.testBit i = (old.testBit i || operand.testBit i)
  | .atomicXor => ∀ i, new.testBit i = (old.testBit i ^^ operand.testBit i)
  | .atomicMax => signedOf n new = max (signedOf n old) (signedOf n operand)
  | .atomicMaxu => new = max old operand
  | .atomicMin => signedOf n new = min (signedOf n old) (signedOf n operand)
  | .atomicMinu => new = min old operand
  | .loadLinked | .storeConditional => False

/-- What an atomic operation should do: the number at the address is replaced, and nothing else,
    and the buffer has the old one; an error leaves everything as it was. -/
structure AtomicExact (s : State) (address : Addr) (op : Operation) (db : Bytes) : Prop where
  buffer : (serve s (.performMemoryOp address op db)).status = .ok → op.isReadModifyWrite →
    (serve s (.performMemoryOp address op db)).db = s.mem.load address db.length
  result : (serve s (.performMemoryOp address op db)).status = .ok → op.isReadModifyWrite →
    op.IsResult (8 * db.length) (ofBytes (s.mem.load address db.length)) (ofBytes db)
      (ofBytes ((step s (.performMemoryOp address op db)).mem.load address db.length))
  frame : (serve s (.performMemoryOp address op db)).status = .ok → op.isReadModifyWrite →
    ∀ a, (∀ i < db.length, a ≠ address + BitVec.ofNat 64 i) →
      (step s (.performMemoryOp address op db)).mem a = s.mem a
  error : (serve s (.performMemoryOp address op db)).status ≠ .ok →
    step s (.performMemoryOp address op db) = s ∧
      (serve s (.performMemoryOp address op db)).db = db

/-! ### Numbers and bytes -/

theorem ofBytes_lt (db : Bytes) : ofBytes db < 2 ^ (8 * db.length) := by
  induction db with
  | nil => decide
  | cons b rest ih =>
    have hb := b.toNat_lt
    rw [ofBytes, List.length_cons, Nat.mul_succ, Nat.pow_add]
    omega

theorem ofBytes_toBytes (size n : Nat) : ofBytes (toBytes size n) = n % 2 ^ (8 * size) := by
  induction size generalizing n with
  | zero => simp [toBytes, ofBytes, Nat.mod_one]
  | succ size ih =>
    have hbyte : (UInt8.ofNat (n % 256)).toNat = n % 256 := by simp
    rw [toBytes, ofBytes, ih, hbyte, Nat.mul_succ, Nat.add_comm (8 * size), Nat.pow_add,
      show 2 ^ 8 = 256 from rfl, Nat.mod_mul]

variable {n : Nat} {op : Operation}

theorem toInt_eq_signedOf (x : BitVec n) : x.toInt = signedOf n x.toNat := by
  rw [BitVec.toInt_eq_toNat_cond, signedOf]
  push_cast
  rfl

theorem isResult_bitVec (a b : BitVec n) :
    Operation.IsResult n a.toNat b.toNat (a + b).toNat .atomicAdd ∧
    Operation.IsResult n a.toNat b.toNat (a - b).toNat .atomicSub ∧
    Operation.IsResult n a.toNat b.toNat (a &&& b).toNat .atomicAnd ∧
    Operation.IsResult n a.toNat b.toNat (a ||| b).toNat .atomicOr ∧
    Operation.IsResult n a.toNat b.toNat (a ^^^ b).toNat .atomicXor := by
  refine ⟨?_, ?_, fun i => ?_, fun i => ?_, fun i => ?_⟩
  · show (((a + b).toNat : Nat) : Int) = _
    rw [BitVec.toNat_add]
    push_cast
    rfl
  · show (((a - b).toNat : Nat) : Int) = _
    have hb : b.toNat ≤ 2 ^ n := b.isLt.le
    rw [BitVec.toNat_sub]
    push_cast [hb]
    rw [show (2 : Int) ^ n - b.toNat + a.toNat = a.toNat - b.toNat + 2 ^ n by ring,
      Int.add_emod_right]
  · rw [BitVec.toNat_and, Nat.testBit_and]
  · rw [BitVec.toNat_or, Nat.testBit_or]
  · rw [BitVec.toNat_xor, Nat.testBit_xor]

theorem isResult_choice (a b : BitVec n) :
    Operation.IsResult n a.toNat b.toNat (if a.slt b then b else a).toNat .atomicMax ∧
    Operation.IsResult n a.toNat b.toNat (if a.ult b then b else a).toNat .atomicMaxu ∧
    Operation.IsResult n a.toNat b.toNat (if b.slt a then b else a).toNat .atomicMin ∧
    Operation.IsResult n a.toNat b.toNat (if b.ult a then b else a).toNat .atomicMinu := by
  simp only [Operation.IsResult, ← toInt_eq_signedOf, BitVec.slt, BitVec.ult, decide_eq_true_eq]
  refine ⟨?_, ?_, ?_, ?_⟩
  all_goals
    split
    · omega
    · omega

theorem isResult_performOp (hop : op.isReadModifyWrite) (hswap : op ≠ .atomicSwap) {lhs rhs : Bytes}
    (hlen : lhs.length = rhs.length) :
    op.IsResult (8 * rhs.length) (ofBytes lhs) (ofBytes rhs)
      (ofBytes (performOp op rhs.length lhs rhs)) := by
  have ha : (BitVec.ofNat (8 * rhs.length) (ofBytes lhs)).toNat = ofBytes lhs := by
    rw [BitVec.toNat_ofNat, Nat.mod_eq_of_lt (hlen ▸ ofBytes_lt lhs)]
  have hb : (BitVec.ofNat (8 * rhs.length) (ofBytes rhs)).toNat = ofBytes rhs := by
    rw [BitVec.toNat_ofNat, Nat.mod_eq_of_lt (ofBytes_lt rhs)]
  obtain ⟨hadd, hsub, hand, hor, hxor⟩ := isResult_bitVec
    (BitVec.ofNat (8 * rhs.length) (ofBytes lhs)) (BitVec.ofNat (8 * rhs.length) (ofBytes rhs))
  obtain ⟨hmax, hmaxu, hmin, hminu⟩ := isResult_choice
    (BitVec.ofNat (8 * rhs.length) (ofBytes lhs)) (BitVec.ofNat (8 * rhs.length) (ofBytes rhs))
  rw [ha, hb] at hadd hsub hand hor hxor hmax hmaxu hmin hminu
  unfold performOp
  rw [ofBytes_toBytes, Nat.mod_eq_of_lt (BitVec.isLt _)]
  cases op with
  | loadLinked => exact absurd rfl hop.1
  | storeConditional => exact absurd rfl hop.2
  | atomicSwap => exact absurd rfl hswap
  | atomicAdd => exact hadd
  | atomicSub => exact hsub
  | atomicAnd => exact hand
  | atomicOr => exact hor
  | atomicXor => exact hxor
  | atomicMax => exact hmax
  | atomicMaxu => exact hmaxu
  | atomicMin => exact hmin
  | atomicMinu => exact hminu

/-! ### The bytes of a store -/

theorem add_ofNat_inj {address : Addr} {size i j : Nat} (hsize : size ≤ 2 ^ 64) (hi : i < size)
    (hj : j < size) (h : address + BitVec.ofNat 64 i = address + BitVec.ofNat 64 j) : i = j := by
  have h := congrArg BitVec.toNat (add_left_cancel h)
  rwa [BitVec.toNat_ofNat, BitVec.toNat_ofNat, Nat.mod_eq_of_lt (by omega),
    Nat.mod_eq_of_lt (by omega)] at h

theorem load_apply_byteWrites (mem : Mem) (address : Addr) {db : Bytes} (h : db.length ≤ 2 ^ 64) :
    (mem.apply (byteWrites address db)).load address db.length = db := by
  have hnodup : ((byteWrites address db).map Prod.fst).Nodup := by
    rw [map_fst_byteWrites]
    refine List.Nodup.map_on (fun i hi j hj heq => ?_) List.nodup_range
    exact add_ofNat_inj h (List.mem_range.mp hi) (List.mem_range.mp hj) heq
  apply List.ext_getElem
  · simp [Mem.load]
  · intro i hi hi'
    simp only [Mem.load, List.getElem_map, List.getElem_range]
    have hmem : (address + BitVec.ofNat 64 i, db[i]) ∈ byteWrites address db := by
      rw [byteWrites, List.mem_mapIdx]
      exact ⟨i, hi', rfl⟩
    exact Mem.apply_of_mem hnodup hmem

theorem length_load (mem : Mem) (address : Addr) (size : Nat) :
    (mem.load address size).length = size := by
  simp [Mem.load]

/-! ### Exactness -/

theorem atomicExact_readModifyWrite (s : State) (address : Addr) (hop : op.isReadModifyWrite)
    (db : Bytes) : AtomicExact s address op db := by
  have hserve : serve s (.performMemoryOp address op db) = readModifyWrite s address op db := by
    show performMemoryOp s address op db = _
    rw [performMemoryOp, if_neg hop.1, if_neg hop.2]
  have hstep : step s (.performMemoryOp address op db) =
      ⟨s.mem.apply (readModifyWrite s address op db).writes,
        (readModifyWrite s address op db).llTagSet⟩ := by
    rw [step, hserve]
  by_cases hsize : isLegalSize db.length
  · have hle : db.length ≤ 2 ^ 64 := by
      simp only [isLegalSize, decide_eq_true_eq] at hsize
      omega
    have hok : (readModifyWrite s address op db).status = .ok := by
      rw [readModifyWrite, if_pos hsize]
    obtain ⟨new, hwrites, hlen, hresult⟩ : ∃ new : Bytes,
        (readModifyWrite s address op db).writes = byteWrites address new ∧
        new.length = db.length ∧ op.IsResult (8 * db.length)
          (ofBytes (s.mem.load address db.length)) (ofBytes db) (ofBytes new) := by
      by_cases hswap : op = .atomicSwap
      · subst hswap
        exact ⟨db, by rw [readModifyWrite, if_pos hsize]; rfl, rfl, rfl⟩
      · refine ⟨performOp op db.length (s.mem.load address db.length) db, ?_,
          length_performOp _ _ _ _, isResult_performOp hop hswap (length_load _ _ _)⟩
        rw [readModifyWrite, if_pos hsize]
        simp only [if_neg hswap]
    refine ⟨fun _ _ => ?_, fun _ _ => ?_, fun _ _ a ha => ?_, fun h => ?_⟩
    · rw [hserve, readModifyWrite, if_pos hsize]
    · rw [hstep, hwrites]
      show op.IsResult _ _ _ (ofBytes ((s.mem.apply (byteWrites address new)).load address db.length))
      rw [← hlen, load_apply_byteWrites _ _ (hlen ▸ hle), hlen]
      exact hresult
    · rw [hstep, hwrites]
      refine Mem.apply_of_notMem fun hmem => ?_
      rw [map_fst_byteWrites, hlen] at hmem
      obtain ⟨i, hi, rfl⟩ := List.mem_map.mp hmem
      exact ha i (List.mem_range.mp hi) rfl
    · rw [hserve] at h
      exact absurd hok h
  · have hout : readModifyWrite s address op db = ⟨s.llTagSet, [], illegalSize db.length, db⟩ := by
      rw [readModifyWrite, if_neg hsize]
    rw [hout] at hserve hstep
    refine ⟨fun h => ?_, fun h => ?_, fun h => ?_, fun _ => ⟨hstep, ?_⟩⟩
    · rw [hserve] at h
      cases h
    · rw [hserve] at h
      cases h
    · rw [hserve] at h
      cases h
    · rw [hserve]

theorem atomicExact_of_error {s : State} {address : Addr} {db : Bytes}
    (hop : ¬ op.isReadModifyWrite) (h : (serve s (.performMemoryOp address op db)).status ≠ .ok →
      step s (.performMemoryOp address op db) = s ∧
        (serve s (.performMemoryOp address op db)).db = db) : AtomicExact s address op db :=
  ⟨fun _ h => absurd h hop, fun _ h => absurd h hop, fun _ h => absurd h hop, h⟩

/-- **Atomic operations.** A call means what its operation means, or does nothing, unless it is a
    store-conditional of an illegal size to a granule that is reserved. -/
theorem atomicExact_iff (s : State) (address : Addr) (op : Operation) (db : Bytes) :
    AtomicExact s address op db ↔
      ¬ (op = .storeConditional ∧ granule address ∈ s.llTagSet ∧
        isLegalSize db.length = false) := by
  by_cases hop : op.isReadModifyWrite
  · exact iff_of_true (atomicExact_readModifyWrite s address hop db) fun h => hop.2 h.1
  by_cases hll : op = .loadLinked
  · subst hll
    refine iff_of_true (atomicExact_of_error hop fun h => ?_) fun h => absurd h.1 (by decide)
    exact absurd rfl h
  obtain rfl : op = .storeConditional := by
    by_contra hsc
    exact hop ⟨hll, hsc⟩
  have hserve : serve s (.performMemoryOp address .storeConditional db) =
      storeConditional s address db := rfl
  by_cases hsize : isLegalSize db.length = true
  · refine iff_of_true (atomicExact_of_error hop fun h => ?_) fun h => ?_
    · rw [hserve, storeConditional, if_pos hsize] at h
      exact absurd rfl h
    · rw [hsize] at h
      exact absurd h.2.2 (by decide)
  · have hstatus : (serve s (.performMemoryOp address .storeConditional db)).status ≠ .ok := by
      rw [hserve, storeConditional, if_neg hsize]
      simp [illegalSize]
    by_cases htag : granule address ∈ s.llTagSet
    · -- The reservation is gone, and the size is looked at after that.
      refine iff_of_false (fun h => ?_) fun h => h ⟨rfl, htag, by simpa using hsize⟩
      have hkept := congrArg State.llTagSet (h.error hstatus).1
      have herased : (step s (.performMemoryOp address .storeConditional db)).llTagSet =
          s.llTagSet.erase (granule address) := by
        rw [step, hserve, storeConditional, if_neg hsize]
        simp [htag]
      rw [herased] at hkept
      have hmem : granule address ∈ s.llTagSet.erase (granule address) := by
        rw [show s.llTagSet.erase (granule address) = s.llTagSet from hkept]
        exact htag
      exact Finset.notMem_erase (granule address) s.llTagSet hmem
    · refine iff_of_true (atomicExact_of_error hop fun _ => ?_) fun h => htag h.2.1
      rw [step, hserve, storeConditional, if_neg hsize]
      simp [htag, Mem.apply]

/-- A store-conditional of three bytes after a load-linked stores them and returns an error. -/
theorem not_atomicExact_threeBytes :
    ¬ AtomicExact (run step zeroState [linkZero]) 0 .storeConditional [7, 7, 7] := by
  intro h
  have herror := h.error (by decide)
  have hmem := congrFun (congrArg State.mem herror.1) 0
  revert hmem
  decide

/-! ### Sums -/

/-- What a call adds to the number at an address. -/
def Request.added (address : Addr) (size : Nat) : Request → Nat
  | .performMemoryOp a .atomicAdd db => if a = address ∧ db.length = size then ofBytes db else 0
  | _ => 0

/-- The call adds to the number at an address, or stores no byte of it. -/
def AddsOnly (address : Addr) (size : Nat) (s : State) (r : Request) : Prop :=
  (∃ db, r = .performMemoryOp address .atomicAdd db ∧ db.length = size) ∨
    ∀ i < size, address + BitVec.ofNat 64 i ∉ (serve s r).writes.map Prod.fst

theorem ofBytes_load_step {s : State} {r : Request} {address : Addr} {size : Nat}
    (hsize : isLegalSize size = true) (h : AddsOnly address size s r) :
    ofBytes ((step s r).mem.load address size) =
      (ofBytes (s.mem.load address size) + r.added address size) % 2 ^ (8 * size) := by
  rcases h with ⟨db, rfl, rfl⟩ | h
  · have hok : (serve s (.performMemoryOp address .atomicAdd db)).status = .ok := by
      show (readModifyWrite s address .atomicAdd db).status = .ok
      rw [readModifyWrite, if_pos hsize]
    have hop : Operation.atomicAdd.isReadModifyWrite := ⟨by decide, by decide⟩
    have hresult := (atomicExact_readModifyWrite s address hop db).result hok hop
    simp only [Operation.IsResult] at hresult
    rw [Request.added, if_pos ⟨rfl, rfl⟩]
    exact_mod_cast hresult
  · have hadded : r.added address size = 0 := by
      unfold Request.added
      split
      · rename_i a db
        refine if_neg ?_
        rintro ⟨rfl, rfl⟩
        refine h 0 (isLegalSize_pos hsize) ?_
        show _ ∈ (readModifyWrite s a .atomicAdd db).writes.map Prod.fst
        rw [readModifyWrite, if_pos hsize]
        dsimp only
        rw [map_fst_byteWrites, if_neg (by decide), length_performOp]
        exact List.mem_map_of_mem (List.mem_range.mpr (isLegalSize_pos hsize))
      · rfl
    have hload : (step s r).mem.load address size = s.mem.load address size :=
      List.map_congr_left fun i hi => Mem.apply_of_notMem (h i (List.mem_range.mp hi))
    have hlt := ofBytes_lt (s.mem.load address size)
    rw [length_load] at hlt
    rw [hload, hadded, Nat.add_zero, Nat.mod_eq_of_lt hlt]

theorem ofBytes_load_run {reqs : List Request} {s : State} {address : Addr} {size : Nat}
    (hsize : isLegalSize size = true) (h : Along step (AddsOnly address size) s reqs) :
    ofBytes ((run step s reqs).mem.load address size) =
      (ofBytes (s.mem.load address size) + (reqs.map (·.added address size)).sum) %
        2 ^ (8 * size) := by
  induction reqs generalizing s with
  | nil =>
    have hlt := ofBytes_lt (s.mem.load address size)
    rw [length_load] at hlt
    exact (Nat.mod_eq_of_lt hlt).symm
  | cons r rest ih =>
    refine (ih h.2).trans ?_
    rw [ofBytes_load_step hsize h.1, List.map_cons, List.sum_cons, Nat.mod_add_mod, Nat.add_assoc]

/-- **No update is lost.** In any run in which the number at an address is changed by atomic
    additions alone, by whatever initiators, each of them returns the sum so far, and in the end the
    number is the sum of all. -/
theorem atomicAdd_sums (s : State) (reqs : List Request) (address : Addr) (size : Nat)
    (hsize : isLegalSize size = true) (h : Along step (AddsOnly address size) s reqs) :
    let sum := fun calls : List Request => (ofBytes (s.mem.load address size) +
      (calls.map (·.added address size)).sum) % 2 ^ (8 * size)
    ofBytes ((run step s reqs).mem.load address size) = sum reqs ∧
      ∀ before after db, reqs = before ++ .performMemoryOp address .atomicAdd db :: after →
        db.length = size →
        ofBytes (serve (run step s before) (.performMemoryOp address .atomicAdd db)).db =
          sum before := by
  refine ⟨ofBytes_load_run hsize h, ?_⟩
  rintro before after db rfl rfl
  refine Eq.trans ?_ (ofBytes_load_run hsize (along_append.mp h).1)
  show ofBytes (readModifyWrite (run step s before) address .atomicAdd db).db = _
  rw [readModifyWrite, if_pos hsize]

/-- Two additions with a store to another address in between. -/
theorem atomicAdd_sums_twice :
    ofBytes ((run step zeroState [addZero, .store 64 [7, 7, 7, 7], addZero]).mem.load 0 4) = 2 := by
  refine ((atomicAdd_sums zeroState [addZero, .store 64 [7, 7, 7, 7], addZero] 0 4
    (by decide) ?_).1).trans (by decide)
  exact ⟨.inl ⟨_, rfl, rfl⟩, .inr (by decide), .inl ⟨_, rfl, rfl⟩, trivial⟩

end MpactSim.Memory
