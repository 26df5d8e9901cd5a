import MpactSim.Cpp.Expr
import MpactSim.Proto.EncodingGroup

namespace MpactSim.Proto

open Cpp

/-!
# The look-up of a proto decoder

A group with a differentiator is decoded by a look-up of the value of a field: in a table of
functions if the listed values are dense, and in a map of functions if they are not.

* `emitComplexDecoder` — the table or the map that is emitted;
* `tableIndex`         — the index that the emitted function computes;
* `lookupSafe_iff`     — the groups for which no index is outside the table and no two listed
  values have one key.

What overflows a signed type of the generator is undefined, and so is what overflows one of
the emitted program.
-/

variable {Field Oneof : Type}

/-! ### The source -/

/-- The `double` that a natural number is converted to, to nearest with ties to even. -/
def roundDouble (n : Nat) : Nat :=
  let dropped := n.log2 + 1 - 53
  let quotient := n / 2 ^ dropped
  let rest := n % 2 ^ dropped
  let up := 2 ^ dropped < 2 * rest ∨ (2 ^ dropped = 2 * rest ∧ quotient % 2 = 1)
  (quotient + if up then 1 else 0) * 2 ^ dropped

/-- `density < 0.75`.  The quotient is rounded to 0.75 from half a unit in the last place below
    it on. -/
def sparse (uniqueValues range : Nat) : Bool :=
  roundDouble uniqueValues * 2 ^ 54 < roundDouble range * (3 * 2 ^ 52 - 1)

/-- A look-up: the map of the functions, by the values that they are named after, or their
    table, in which `none` is the function that finds nothing. -/
inductive Lookup where
  | map (entries : List (Int × Int))
  | table (entries : List (Option Int))
  deriving DecidableEq, Repr

/-- The loop that fills the table; `rest` are the values from `iter` on. -/
def tableEntries (min : Int) : Nat → Nat → List Int → Option (List (Option Int))
  | 0, _, _ => some []
  | n + 1, i, rest => do
    let index := rest.headD (-2 ^ 63) - min
    if IntTy.long.wrap index ≠ index then failure
    if index ≠ i then return none :: (← tableEntries min n (i + 1) rest)
    return rest.head? :: (← tableEntries min n (i + 1) rest.tail)

/-- `EmitComplexDecoder` of a group with a differentiator.  The keys of the map are of type
    `int32_t`, and an `int` counts the entries of the table. -/
def emitComplexDecoder (differentiator : FieldInfo Field Oneof) : Option Lookup :=
  let range := differentiator.maxValue - differentiator.minValue
  if IntTy.long.wrap range ≠ range then none
  else if sparse differentiator.uniqueValues range.toNat then
    some (.map (differentiator.values.map fun value => (IntTy.int.wrap value, value)))
  else
    let numValues := range + 1
    if numValues < 2 ^ 31 then
      (tableEntries differentiator.minValue numValues.toNat 0 differentiator.values).map .table
    else none

/-! ### The emitted index -/

/-- The value of an accessor in an expression; only integers and truth values are subtracted from
    to get an index. -/
def FieldValue.val : FieldValue → Option Val
  | .value v =>
    match v with
    | .double _ | .float _ | .string _ => none
    | v => some (.of v.index.intTy v.rank)
  | _ => none

/-- A difference, which is undefined if it overflows a signed type. -/
def difference (a b : Val) : Option Val :=
  let t := IntTy.common a.ty b.ty
  let d := t.wrap a.val - t.wrap b.val
  if t.signed ∧ t.wrap d ≠ d then none else some (.of t d)

/-- The index that the emitted function computes from the value of the field. -/
def tableIndex (v : FieldValue) (min : Int) : Option Int := do
  let v ← v.val
  (difference v (.of (Literal.dec min).ty min)).map (·.val)

/-- The look-up is emitted; every message indexes the table, or the keys of different values
    are different. -/
def FieldInfo.LookupSafe (pool : DescriptorPool Field Oneof) (d : FieldInfo Field Oneof) : Prop :=
  ∃ lookup, emitComplexDecoder d = some lookup ∧
    match lookup with
    | .map entries => ∀ p ∈ entries, ∀ q ∈ entries, p.2 ≠ q.2 → p.1 ≠ q.1
    | .table entries => ∀ m : Message pool,
        ∃ i, tableIndex (m.get d.ctx.field) d.minValue = some i ∧ 0 ≤ i ∧ i < entries.length

/-- When the look-up of values between `a` and `b` is safe: no two of them are a multiple of
    `2 ^ 32` apart, if they are sparse; and otherwise the field takes only values between
    `a` and `b`, which are the numbers of a closed enumeration or truth values. -/
def InTable (pool : DescriptorPool Field Oneof) (f : Field) (values : List Int) (a b : Int) :
    Prop :=
  b - a < 2 ^ 63 ∧
  if sparse values.length (b - a).toNat then
    ∀ v ∈ values, ∀ w ∈ values, v ≠ w → ¬ (2 ^ 32 : Int) ∣ v - w
  else b - a + 1 < 2 ^ 31 ∧
    match pool.closedEnum f with
    | some numbers => ∀ n ∈ numbers, a ≤ n.toInt ∧ n.toInt ≤ b
    | none => pool.cppType f = .bool ∧ a ≤ 0 ∧ 1 ≤ b

/-! ### The table -/

/-- From a value on, the entries are those of the values up to the last one. -/
theorem exists_tableEntries {min : Int} {n i : Nat} {rest : List Int}
    (hsorted : rest.Pairwise (· < ·)) (hlow : ∀ v ∈ rest, min + i ≤ v)
    (hhigh : ∀ v ∈ rest, v < min + i + n) (hlast : n ≠ 0 → min + i + n - 1 ∈ rest)
    (hn : i + n < 2 ^ 31) :
    ∃ entries, tableEntries min n i rest = some entries ∧ entries.length = n := by
  induction n generalizing i rest with
  | zero => exact ⟨[], rfl, rfl⟩
  | succ n ih =>
    cases rest with
    | nil => exact absurd (hlast (Nat.succ_ne_zero n)) List.not_mem_nil
    | cons value rest =>
      obtain ⟨hhead, hrest⟩ := List.pairwise_cons.mp hsorted
      have hvalue_low := hlow value List.mem_cons_self
      have hvalue_high := hhigh value List.mem_cons_self
      have hlast := hlast (Nat.succ_ne_zero n)
      push_cast at hlow hhigh hlast hvalue_high
      have hwrap : IntTy.long.wrap (value - min) = value - min := by
        refine IntTy.wrap_of_nonneg (by omega) ?_
        show value - min < 2 ^ 64 - 2 ^ 63
        omega
      rw [tableEntries, List.headD_cons, List.tail_cons, List.head?_cons]
      simp only [hwrap, ne_eq, not_true_eq_false, if_false]
      by_cases hindex : value - min = i
      · -- The function of the value is entered.
        have hmem : n ≠ 0 → min + (i + 1 : Nat) + n - 1 ∈ rest := by
          intro hn0
          rcases List.mem_cons.mp hlast with heq | hmem
          · omega
          · push_cast
            convert hmem using 1
            ring
        obtain ⟨entries, hentries, hlength⟩ := ih (i := i + 1) hrest
          (fun v hv => by have := hhead v hv; push_cast; omega)
          (fun v hv => by have := hhigh v (List.mem_cons_of_mem _ hv); push_cast; omega)
          hmem (by omega)
        refine ⟨some value :: entries, ?_, by rw [List.length_cons, hlength]⟩
        simp [hindex, hentries]
      · have hne : ¬ min + i = value := fun h => hindex (by omega)
        obtain ⟨entries, hentries, hlength⟩ := ih (i := i + 1) hsorted
          (fun v hv => by
            push_cast
            rcases List.mem_cons.mp hv with rfl | hv
            · omega
            · have := hhead v hv
              omega)
          (fun v hv => by have := hhigh v hv; push_cast; omega)
          (fun hn0 => by push_cast; convert hlast using 1; ring) (by omega)
        refine ⟨none :: entries, ?_, by rw [List.length_cons, hlength]⟩
        simp [hindex, hentries]

/-! ### The index -/

theorem exists_of_difference {x y z : Val} (h : difference x y = some z) :
    ∃ k, z.val = x.val - y.val + k * 2 ^ (IntTy.common x.ty y.ty).width := by
  unfold difference at h
  dsimp only at h
  split at h
  · cases h
  cases h
  obtain ⟨i, hi⟩ := (IntTy.common x.ty y.ty).exists_wrap_eq x.val
  obtain ⟨j, hj⟩ := (IntTy.common x.ty y.ty).exists_wrap_eq y.val
  obtain ⟨k, hk⟩ := (IntTy.common x.ty y.ty).exists_wrap_eq
    ((IntTy.common x.ty y.ty).wrap x.val - (IntTy.common x.ty y.ty).wrap y.val)
  refine ⟨i - j + k, ?_⟩
  rw [Val.of_val, hk, hi, hj]
  ring

theorem difference_eq_iff {x y : Val} (hsigned : (IntTy.common x.ty y.ty).signed = true)
    (hx : (IntTy.common x.ty y.ty).wrap x.val = x.val)
    (hy : (IntTy.common x.ty y.ty).wrap y.val = y.val) (i : Int) :
    (difference x y).map (·.val) = some i ↔
      (IntTy.common x.ty y.ty).wrap (x.val - y.val) = x.val - y.val ∧ i = x.val - y.val := by
  simp only [difference, hsigned, hx, hy, true_and]
  split
  · simp [*]
  · rename_i h
    have h := not_not.mp h
    simp only [Option.map_some, Val.of_val, h, Option.some.injEq, true_and]
    exact eq_comm

/-- An open field of an integer type has a value whose index is one less than a multiple of
    `2 ^ 32`. -/
theorem index_of_wrap {t : IntTy} (ht : 32 ≤ t.width) {a i : Int} {l : IntTy}
    (hl : l.wrap a = a) (h : (difference (.of t (a - 1)) (.of l a)).map (·.val) = some i) :
    ¬ (0 ≤ i ∧ i < 2 ^ 31) := by
  obtain ⟨z, hz, rfl⟩ := Option.map_eq_some_iff.mp h
  obtain ⟨k, hk⟩ := exists_of_difference hz
  obtain ⟨j, hj⟩ := t.exists_wrap_eq (a - 1)
  have hwidth : 32 ≤ (IntTy.common t l).width := by
    have hpromote : t.promote = t := by rw [IntTy.promote, if_neg (by omega)]
    rw [IntTy.common, hpromote]
    split_ifs <;> omega
  obtain ⟨p, hp⟩ := Nat.exists_eq_add_of_le ht
  obtain ⟨q, hq⟩ := Nat.exists_eq_add_of_le hwidth
  have heq : z.val = -1 + (j * 2 ^ p + k * 2 ^ q) * 2 ^ 32 := by
    rw [hk]
    simp only [Val.of_val, Val.of_ty, hl, hj]
    rw [hp, hq, pow_add, pow_add]
    ring
  rw [heq]
  generalize j * 2 ^ p + k * 2 ^ q = r
  omega

theorem literal_ty_cases (a : Int) (ha : -2 ^ 63 ≤ a ∧ a ≤ 2 ^ 63 - 1) :
    ((Literal.dec a).ty = .int ∨ (Literal.dec a).ty = .long) ∧ (Literal.dec a).ty.wrap a = a := by
  rw [Literal.ty]
  split
  · exact ⟨.inl rfl, IntTy.wrap_eq_self (t := .int) (by show -(2 ^ 31 : Int) ≤ a; omega)
      (by show a < 2 ^ 32 - 2 ^ 31; omega)⟩
  · exact ⟨.inr rfl, IntTy.wrap_eq_self (t := .long) (by show -(2 ^ 63 : Int) ≤ a; omega)
      (by show a < 2 ^ 64 - 2 ^ 63; omega)⟩

/-- The index of an integer of type `int` or `bool` is in a table of fewer than `2 ^ 31` entries
    exactly if the integer is in the range of the table. -/
theorem index_iff {t : IntTy} (ht : t = .int ∨ t = ⟨false, 8, by decide⟩) {v a b : Int}
    (ha : -2 ^ 63 ≤ a ∧ a ≤ 2 ^ 63 - 1) (hv : -2 ^ 31 ≤ v ∧ v < 2 ^ 31) (hwrap : t.wrap v = v)
    (hb : b - a + 1 < 2 ^ 31) :
    (∃ i, (difference (.of t v) (.of (Literal.dec a).ty a)).map (·.val) = some i ∧
      0 ≤ i ∧ i < b - a + 1) ↔ a ≤ v ∧ v ≤ b := by
  obtain ⟨hty, hliteral⟩ := literal_ty_cases a ha
  have hcommon : IntTy.common t (Literal.dec a).ty = (Literal.dec a).ty := by
    rcases ht with rfl | rfl <;> rcases hty with hty | hty <;> rw [hty] <;> rfl
  have hsigned : (Literal.dec a).ty.signed = true := by
    rcases hty with hty | hty <;> rw [hty] <;> rfl
  have hrange : ∀ x : Int, -2 ^ 31 ≤ x → x < 2 ^ 31 → (Literal.dec a).ty.wrap x = x := by
    intro x hlow hhigh
    rcases hty with hty | hty
    · rw [hty]
      exact IntTy.wrap_eq_self (t := .int) hlow (by show x < 2 ^ 32 - 2 ^ 31; omega)
    · rw [hty]
      exact IntTy.wrap_eq_self (t := .long) (by show -(2 ^ 63 : Int) ≤ x; omega)
        (by show x < 2 ^ 64 - 2 ^ 63; omega)
  have hiff := fun i => difference_eq_iff (x := .of t v) (y := .of (Literal.dec a).ty a)
    (by simp only [Val.of_ty, hcommon, hsigned])
    (by simp only [Val.of_ty, Val.of_val, hcommon, hwrap, hrange v hv.1 hv.2])
    (by simp only [Val.of_ty, Val.of_val, hcommon, hliteral]) i
  simp only [Val.of_ty, Val.of_val, hcommon, hwrap, hliteral] at hiff
  constructor
  · rintro ⟨i, hi, hlow, hhigh⟩
    obtain ⟨-, rfl⟩ := (hiff i).mp hi
    omega
  · rintro ⟨hlow, hhigh⟩
    exact ⟨v - a, (hiff _).mpr ⟨hrange _ (by omega) (by omega), rfl⟩, by omega, by omega⟩

variable {pool : DescriptorPool Field Oneof} {f : Field} {a b : Int}

theorem of_add_mul_two_pow (t : IntTy) (v k : Int) :
    Val.of t (v + k * 2 ^ t.width) = Val.of t v := by
  have hwrap : t.wrap (v + k * 2 ^ t.width) = t.wrap v := by
    rw [IntTy.wrap, IntTy.wrap,
      show v + k * 2 ^ t.width + t.bias = v + t.bias + k * 2 ^ t.width by ring,
      Int.add_mul_emod_self_right]
  simp only [Val.of, hwrap]

theorem exists_bmod_eq (v : Int) (n : Nat) : ∃ k, v.bmod n = v + k * n :=
  ⟨-v.bdiv n, by rw [Int.bmod_eq_self_sub_mul_bdiv]; ring⟩

theorem exists_toNat_eq (v : Int) {n : Nat} (hn : 0 < n) :
    ∃ k : Int, ((v % n).toNat : Int) = v + k * n :=
  ⟨-(v / n), by rw [Int.toNat_of_nonneg (Int.emod_nonneg v (by omega)), Int.emod_def]; ring⟩

/-- A field that takes all values of a type of 32 or more bits indexes outside every table. -/
theorem exists_index_outside (ha : -2 ^ 63 ≤ a ∧ a ≤ 2 ^ 63 - 1) (hopen : pool.closedEnum f = none)
    (hbool : pool.cppType f ≠ .bool) :
    ∃ v, pool.Admits f v ∧ ∀ i, tableIndex v a = some i → ¬ (0 ≤ i ∧ i < 2 ^ 31) := by
  have hliteral := (literal_ty_cases a ha).2
  have hadmits : ∀ v, (pool.cppType f).Admits v → pool.Admits f v :=
    fun v hv => ⟨hv, by simp [hopen]⟩
  have hindex : ∀ (t : IntTy) (w : ProtoValue), (FieldValue.value w).val = some (.of t w.rank) →
      32 ≤ t.width → (∃ k, w.rank = a - 1 + k * 2 ^ t.width) → (pool.cppType f).Admits (.value w) →
      ∃ v, pool.Admits f v ∧ ∀ i, tableIndex v a = some i → ¬ (0 ≤ i ∧ i < 2 ^ 31) := by
    rintro t w hw ht ⟨k, hk⟩ hadmitted
    refine ⟨.value w, hadmits _ hadmitted, fun i hi => ?_⟩
    rw [tableIndex, hw, hk, of_add_mul_two_pow] at hi
    exact index_of_wrap ht hliteral hi
  have hdefault : (∀ v, (pool.cppType f).Admits v → v.val = none) →
      ∃ v, pool.Admits f v ∧ ∀ i, tableIndex v a = some i → ¬ (0 ≤ i ∧ i < 2 ^ 31) := by
    intro hnone
    refine ⟨pool.defaultValue f, pool.admits_default f, fun i hi => ?_⟩
    rw [tableIndex, hnone _ (pool.admits_default f).1] at hi
    cases hi
  cases htype : pool.cppType f <;> rw [htype] at hindex hdefault hbool
  case bool => exact absurd rfl hbool
  case int32 | enum =>
    refine hindex .int (.int32 (.ofInt (a - 1))) rfl (by decide) ?_ rfl
    rw [ProtoValue.rank, Int32.toInt_ofInt]
    exact exists_bmod_eq (a - 1) (2 ^ 32)
  case int64 =>
    refine hindex .long (.int64 (.ofInt (a - 1))) rfl (by decide) ?_ rfl
    rw [ProtoValue.rank, Int64.toInt_ofInt]
    exact exists_bmod_eq (a - 1) (2 ^ 64)
  case uint32 =>
    refine hindex .uint (.uint32 (.ofNat ((a - 1) % (2 ^ 32 : Nat)).toNat)) rfl (by decide) ?_ rfl
    rw [ProtoValue.rank, UInt32.toNat_ofNat_of_lt' (by rw [UInt32.size]; omega)]
    exact exists_toNat_eq (a - 1) (by decide)
  case uint64 =>
    refine hindex .ulong (.uint64 (.ofNat ((a - 1) % (2 ^ 64 : Nat)).toNat)) rfl (by decide) ?_ rfl
    rw [ProtoValue.rank, UInt64.toNat_ofNat_of_lt' (by rw [UInt64.size]; omega)]
    exact exists_toNat_eq (a - 1) (by decide)
  all_goals
    refine hdefault fun v hv => ?_
    cases v with
    | value w => cases w <;> first | rfl | cases hv
    | nan => rfl
    | message => rfl

/-- The values of a field that are truth values or the numbers of a closed enumeration index a
    table exactly if they are in its range, and no table has room for the other fields. -/
theorem forall_index_iff (ha : -2 ^ 63 ≤ a ∧ a ≤ 2 ^ 63 - 1) (hb : b - a + 1 < 2 ^ 31) :
    (∀ v, pool.Admits f v → ∃ i, tableIndex v a = some i ∧ 0 ≤ i ∧ i < b - a + 1) ↔
      match pool.closedEnum f with
      | some numbers => ∀ n ∈ numbers, a ≤ n.toInt ∧ n.toInt ≤ b
      | none => pool.cppType f = .bool ∧ a ≤ 0 ∧ 1 ≤ b := by
  cases hclosed : pool.closedEnum f with
  | some numbers =>
    have hiff := fun n : Int32 => index_iff (.inl rfl) ha ⟨n.le_toInt, n.toInt_lt⟩
      (IntTy.wrap_eq_self (t := .int) n.le_toInt n.toInt_lt) hb
    have hadmits : ∀ v, pool.Admits f v ↔ ∃ n ∈ numbers, v = .value (.int32 n) := by
      intro v
      refine ⟨fun h => h.2 numbers hclosed, ?_⟩
      rintro ⟨n, hn, rfl⟩
      refine ⟨?_, fun numbers' hnumbers' => ?_⟩
      · rw [pool.closedEnum_type f numbers hclosed]
        rfl
      · rw [hclosed] at hnumbers'
        cases hnumbers'
        exact ⟨n, hn, rfl⟩
    constructor
    · intro h n hn
      exact (hiff n).mp (h _ ((hadmits _).mpr ⟨n, hn, rfl⟩))
    · intro h v hv
      obtain ⟨n, hn, rfl⟩ := (hadmits v).mp hv
      exact (hiff n).mpr (h n hn)
  | none =>
    dsimp only
    by_cases hbool : pool.cppType f = .bool
    · have hiff := fun v : Bool => index_iff (t := ⟨false, 8, by decide⟩) (v := if v then 1 else 0)
        (.inr rfl) ha (by cases v <;> decide) (by cases v <;> decide) hb
      have hadmits : ∀ v : Bool, pool.Admits f (.value (.bool v)) := by
        refine fun v => ⟨?_, by simp [hclosed]⟩
        rw [hbool]
        rfl
      constructor
      · intro h
        have hfalse := (hiff false).mp (h _ (hadmits false))
        have htrue := (hiff true).mp (h _ (hadmits true))
        exact ⟨hbool, hfalse.1, htrue.2⟩
      · rintro ⟨-, hlow, hhigh⟩ v ⟨hv, -⟩
        rw [hbool] at hv
        cases v with
        | value w =>
          cases w with
          | bool v => exact (hiff v).mpr (by cases v <;> simp <;> omega)
          | _ => cases hv
        | nan => rcases hv with hv | hv <;> cases hv
        | message => cases hv
    · refine iff_of_false (fun h => ?_) fun h => hbool h.1
      obtain ⟨v, hv, houtside⟩ := exists_index_outside ha hclosed hbool
      obtain ⟨i, hi, hlow, hhigh⟩ := h v hv
      exact houtside i hi ⟨hlow, by omega⟩

/-! ### The look-up -/

theorem FieldInfo.Listed.ends {info : FieldInfo Field Oneof} (h : info.Listed)
    (ha : IsLeast {v | v ∈ info.values} a) (hb : IsGreatest {v | v ∈ info.values} b) :
    info.minValue = a ∧ info.maxValue = b := by
  have hne : info.values ≠ [] := List.ne_nil_of_mem ha.1
  constructor
  · have hmem := h.min_mem.resolve_right fun hnone => hne hnone.1
    exact le_antisymm (h.min_le a ha.1) (ha.2 hmem)
  · have hmem := h.max_mem.resolve_right fun hnone => hne hnone.1
    exact le_antisymm (hb.2 hmem) (h.le_max b hb.1)

theorem wrap_int_eq_iff (v w : Int) :
    IntTy.int.wrap v = IntTy.int.wrap w ↔ (2 ^ 32 : Int) ∣ v - w := by
  have hwrap : ∀ x : Int, IntTy.int.wrap x = (x + 2 ^ 31) % 2 ^ 32 - 2 ^ 31 := fun _ => rfl
  rw [hwrap, hwrap]
  omega

variable [DecidableEq Field] [DecidableEq Oneof]

/-- **When the look-up of a group is safe.** For a table that is when the field of the look-up
    takes only values between the least and the greatest listed one, for a map when the listed
    values differ modulo `2 ^ 32`. -/
theorem lookupSafe_iff {encodings : List (ProtoInstructionEncoding Field Oneof)}
    {g : ProtoEncodingGroup Field Oneof} {d : FieldInfo Field Oneof}
    (hg : Built pool encodings g) (hd : g.differentiator = some d)
    (ha : IsLeast {v | v ∈ d.values} a) (hb : IsGreatest {v | v ∈ d.values} b) :
    d.LookupSafe pool ↔ InTable pool d.ctx.field d.values a b := by
  obtain ⟨⟨name, hmem⟩, -⟩ := ProtoEncodingGroup.of_differentiator hd
  have hlisted := hg.listed _ hmem
  dsimp only at hlisted
  obtain ⟨hmin, hmax⟩ := hlisted.ends ha hb
  have harange := hlisted.range a ha.1
  have hab : a ≤ b := hb.2 ha.1
  unfold FieldInfo.LookupSafe InTable
  simp only [emitComplexDecoder, hmin, hmax, hlisted.unique]
  have hwrap : IntTy.long.wrap (b - a) = b - a ↔ b - a < 2 ^ 63 := by
    constructor
    · intro h
      rw [← h]
      exact IntTy.wrap_lt .long (b - a)
    · exact fun h => IntTy.wrap_of_nonneg (by omega) (by show b - a < 2 ^ 64 - 2 ^ 63; omega)
  by_cases hrange : b - a < 2 ^ 63
  swap
  · simp only [hwrap, hrange, ne_eq, not_false_eq_true, if_true, reduceCtorEq, false_and,
      exists_false]
  simp only [hwrap, ne_eq, hrange, not_true_eq_false, if_false, true_and]
  by_cases hsparse : sparse d.values.length (b - a).toNat
  · -- The keys of the map are the values modulo `2 ^ 32`.
    simp only [hsparse, if_true, Option.some.injEq, exists_eq_left', List.forall_mem_map,
      wrap_int_eq_iff]
  simp only [hsparse, Bool.false_eq_true, if_false]
  by_cases hlength : b - a + 1 < 2 ^ 31
  swap
  · simp only [hlength, if_false, reduceCtorEq, false_and, exists_false]
  -- The entries of the table are as many as there are values between the ends.
  obtain ⟨entries, hentries, hlength'⟩ := @exists_tableEntries a (b - a + 1).toNat 0 d.values
    (Lib.pairwise_keys _)
    (fun v hv => by have := ha.2 hv; push_cast; omega)
    (fun v hv => by have := hb.2 hv; push_cast; omega)
    (fun _ => by
      have hlast : a + (0 : Nat) + ((b - a + 1).toNat : Int) - 1 = b := by push_cast; omega
      rw [hlast]
      exact hb.1)
    (by omega)
  simp only [hlength, if_true, hentries, Option.map_some, Option.some.injEq, exists_eq_left',
    true_and, hlength', ← forall_index_iff harange hlength]
  have hcast : ((b - a + 1).toNat : Int) = b - a + 1 := Int.toNat_of_nonneg (by omega)
  rw [hcast]
  constructor
  · intro h v hv
    obtain ⟨m, rfl⟩ := Message.exists_get hv
    exact h m
  · exact fun h m => h _ (m.admits_get _)

/-- A field `x`, either of a closed enumeration with the numbers 0 and 1 or of type `int32`. -/
def flagPool (closed : Bool) : DescriptorPool Unit Empty where
  name _ := "x"
  fullName _ := "M.x"
  index _ := 0
  cppType _ := if closed then .enum else .int32
  closedEnum _ := if closed then some [0, 1] else none
  containingOneof _ := none
  oneofName o := o.elim
  field o := o.elim
  defaultValue _ := .value (.int32 0)
  fullName_injective _ _ _ := rfl
  index_lt := by decide
  mem_field _ o := o.elim
  name_nodup o := o.elim
  closedEnum_type := by cases closed <;> simp
  default_admitted _ := by cases closed <;> exact ⟨rfl, by simp⟩

/-- An encoding with the constraint that `x` is a value. -/
def flagEncoding (value : Int32) : ProtoInstructionEncoding Unit Empty :=
  { name := "i", equalConstraints := [⟨some ⟨"x", ()⟩, (), .kEq, some (.int32 value), none⟩] }

/-- The values that `x` of the group of two encodings is listed with. -/
def flagField (v w : Int32) : FieldInfo Unit Empty :=
  ((⟨some (), none, ⟨"x", ()⟩, [], 2 ^ 63 - 1, -2 ^ 63, 0⟩ : FieldInfo Unit Empty).insert v.toInt
    (0, flagEncoding v)).insert w.toInt (1, flagEncoding w)

/-- A closed enumeration both of whose numbers are listed is looked up in bounds. -/
theorem lookupSafe_flagField : (flagField 0 1).LookupSafe (flagPool true) := by
  obtain ⟨g, hg, hd⟩ : ∃ g, Built (flagPool true) [flagEncoding 0, flagEncoding 1] g ∧
      g.differentiator = some (flagField 0 1) := ⟨_, .top rfl, rfl⟩
  have hvalues : (flagField 0 1).values = [0, 1] := by decide
  refine (lookupSafe_iff (a := 0) (b := 1) hg hd ?_ ?_).mpr ⟨by decide, ?_⟩
  · rw [hvalues]
    exact ⟨by simp, fun v hv => by simp at hv; omega⟩
  · rw [hvalues]
    exact ⟨by simp, fun v hv => by simp at hv; omega⟩
  · rw [if_neg (by decide +kernel)]
    refine ⟨by decide, ?_⟩
    show ∀ n ∈ ([0, 1] : List Int32), 0 ≤ n.toInt ∧ n.toInt ≤ 1
    intro n hn
    rcases List.mem_pair.mp hn with rfl | rfl
    · decide +kernel
    · decide +kernel

/-- For an `int32` field with the values 1 and 2, a message in which the field is 0 indexes
    outside the table. -/
theorem not_lookupSafe_flagField :
    ∃ g, Built (flagPool false) [flagEncoding 1, flagEncoding 2] g ∧
      g.differentiator = some (flagField 1 2) ∧ ¬ (flagField 1 2).LookupSafe (flagPool false) := by
  refine ⟨_, .top rfl, rfl, ?_⟩
  rintro ⟨lookup, hlookup, hsafe⟩
  have htable : emitComplexDecoder (flagField 1 2) = some (.table [some 1, some 2]) := by
    decide +kernel
  obtain rfl := Option.some.inj (htable.symm.trans hlookup)
  obtain ⟨m, hm⟩ := Message.exists_get ((flagPool false).admits_default ())
  obtain ⟨i, hi, hlow, -⟩ := hsafe m
  have hindex : tableIndex (m.get (flagField 1 2).ctx.field) (flagField 1 2).minValue =
      some (-1) := by
    show tableIndex (m.get ()) _ = _
    rw [hm]
    decide
  obtain rfl := Option.some.inj (hindex.symm.trans hi)
  exact absurd hlow (by decide)

end MpactSim.Proto
