import MpactSim.Cpp.BitField

namespace MpactSim.Cpp

/-!
# Evaluation rules for nonnegative expressions

`Expr.Yields env e z n` says that `e` evaluates to the nonnegative integer `z` at a
type whose promotion has at least `n` bits.  The rules below follow the syntax, so the
value of a shift-and-mask expression is read off without looking at a type.
-/

namespace IntTy

theorem promote_width (t : IntTy) : t.promote.width = max t.width 32 := by
  rw [promote]
  split <;> simp [int] <;> omega

theorem promote_promote (t : IntTy) : t.promote.promote = t.promote := by
  have h := t.promote_width
  show (if t.promote.width < 32 then int else t.promote) = t.promote
  rw [if_neg (by omega)]

theorem promote_width_le_common (a b : IntTy) :
    a.promote.width ≤ (common a b).promote.width ∧ b.promote.width ≤ (common a b).promote.width := by
  have key : a.promote.width ≤ (common a b).width ∧ b.promote.width ≤ (common a b).width := by
    rw [common]
    generalize a.promote = p
    generalize b.promote = q
    split_ifs <;> omega
  have h := promote_width (common a b)
  omega

theorem width_le_common (a b : IntTy) : a.width ≤ (common a b).width ∧
    b.width ≤ (common a b).width ∧ 32 ≤ (common a b).width := by
  have ha := a.promote_width
  have hb := b.promote_width
  rw [common]
  generalize a.promote = p at ha
  generalize b.promote = q at hb
  split_ifs <;> omega

end IntTy

variable {a b : Val} {env : Env} {x : String} {e : Expr}

theorem Val.testBit_arith_lor {i : Nat} (h : i < (IntTy.common a.ty b.ty).width) :
    (Val.arith Int.lor a b).val.testBit i = (a.val.testBit i || b.val.testBit i) := by
  rw [Val.arith, Val.of_val, IntTy.testBit_wrap, if_pos h, Int.testBit_lor, IntTy.testBit_wrap,
    if_pos h, IntTy.testBit_wrap, if_pos h]

theorem Val.testBit_arith_land {i : Nat} (h : i < (IntTy.common a.ty b.ty).width) :
    (Val.arith Int.land a b).val.testBit i = (a.val.testBit i && b.val.testBit i) := by
  rw [Val.arith, Val.of_val, IntTy.testBit_wrap, if_pos h, Int.testBit_land, IntTy.testBit_wrap,
    if_pos h, IntTy.testBit_wrap, if_pos h]

theorem Val.eq_of_shift {f : Int → Nat → Int} {c : Val} (h : Val.shift f a b = some c) :
    c = .of a.ty.promote (f a.val b.val.toNat) := by
  rw [Val.shift] at h
  split at h
  · exact (Option.some.inj h).symm
  · cases h

@[simp]
theorem IntTy.upper_int : IntTy.int.upper = 2 ^ 31 := by decide

@[simp]
theorem IntTy.upper_uint : IntTy.uint.upper = 2 ^ 32 := by decide

@[simp]
theorem IntTy.upper_long : IntTy.long.upper = 2 ^ 63 := by decide

@[simp]
theorem IntTy.upper_ulong : IntTy.ulong.upper = 2 ^ 64 := by decide

@[simp]
theorem IntTy.upper_uint128 : IntTy.uint128.upper = 2 ^ 128 := by decide

theorem Literal.hex_val {k : Nat} (h : k < 2 ^ 64) : (Literal.hex k).ty.wrap k = k := by
  refine IntTy.wrap_of_nonneg (by omega) ?_
  simp only [Literal.ty]
  split_ifs <;> simp <;> omega

theorem Literal.hexULL_val {k : Nat} (h : k < 2 ^ 64) : (Literal.hexULL k).ty.wrap k = k := by
  refine IntTy.wrap_of_nonneg (by omega) ?_
  simp only [Literal.ty, IntTy.upper_ulong]
  exact_mod_cast h

theorem Literal.dec_val {k : Int} (h0 : 0 ≤ k) (h : k < 2 ^ 63) :
    (Literal.dec k).ty.wrap k = k := by
  refine IntTy.wrap_of_nonneg h0 ?_
  simp only [Literal.ty]
  split_ifs <;> simp <;> omega

/-! ### Environments -/

@[simp]
theorem Env.set_self (env : Env) (x : String) (v : Val) : env.set x v x = some v := if_pos rfl

@[simp]
theorem Env.set_set (env : Env) (x : String) (v w : Val) : (env.set x v).set x w = env.set x w := by
  funext y
  simp only [Env.set]
  split <;> rfl

theorem Expr.eval_var_set (env : Env) (x : String) (v : Val) :
    (Expr.var x).eval (env.set x v) = some v := env.set_self x v

/-! ### Expressions -/

namespace Expr

/-- `e` evaluates to the nonnegative integer `z`, at a type of at least `n` bits. -/
def Yields (env : Env) (e : Expr) (z : Int) (n : Nat) : Prop :=
  ∃ a, e.eval env = some a ∧ a.val = z ∧ 0 ≤ z ∧ n ≤ a.ty.promote.width

variable {env : Env} {e f : Expr} {x y : Int} {m n : Nat}

variable {a : Val} {k z : Int} {op : BinOp}

theorem yields_var {name : String} (h : env name = some a) (h0 : 0 ≤ a.val)
    (hn : n ≤ a.ty.promote.width) : Yields env (.var name) a.val n :=
  ⟨a, h, rfl, h0, hn⟩

theorem yields_hex (env : Env) {k : Nat} (h : k < 2 ^ 64) : Yields env (.lit (.hex k)) k 32 := by
  refine ⟨_, rfl, Literal.hex_val h, by omega, ?_⟩
  rw [IntTy.promote_width]
  omega

theorem yields_hexULL {k : Nat} (h : k < 2 ^ 64) : Yields env (.lit (.hexULL k)) k 64 :=
  ⟨_, rfl, Literal.hexULL_val h, by omega, le_of_eq rfl⟩

theorem yields_not_hexULL {k : Nat} (h : k < 2 ^ 64) :
    Yields env (.not (.lit (.hexULL k))) (IntTy.ulong.wrap (Int.lnot k)) 64 := by
  refine ⟨Val.compl (.of .ulong k), rfl, ?_, ?_, le_of_eq rfl⟩
  · have hk : IntTy.ulong.wrap k = k := Literal.hexULL_val h
    rw [Val.compl, Val.of_val, Val.of_val, hk]
    rfl
  · have := IntTy.ulong.neg_bias_le_wrap (Int.lnot k)
    simpa [IntTy.bias, IntTy.ulong] using this

private theorem eval_shift {g : Int → Nat → Int} (hop : ∀ a b, op.eval a b = Val.shift g a b)
    (ha : e.eval env = some a) (h0 : 0 ≤ k) (hk : k < a.ty.promote.width) (h63 : k < 2 ^ 63) :
    (bin op e (.lit (.dec k))).eval env = some (.of a.ty.promote (g a.val k.toNat)) := by
  simp only [eval, ha, Option.bind_eq_bind, Option.bind_some, hop]
  refine Val.shift_eq ?_ (by omega)
  rw [Val.of_val, Literal.num, Literal.dec_val h0 h63]
  omega

theorem eval_shl (ha : e.eval env = some a) (h0 : 0 ≤ k) (hk : k < a.ty.promote.width)
    (h63 : k < 2 ^ 63) :
    (bin .shl e (.lit (.dec k))).eval env = some (.of a.ty.promote (a.val * 2 ^ k.toNat)) :=
  eval_shift (g := fun v k => v * 2 ^ k) (fun _ _ => rfl) ha h0 hk h63

theorem eval_shr (ha : e.eval env = some a) (h0 : 0 ≤ k) (hk : k < a.ty.promote.width)
    (h63 : k < 2 ^ 63) :
    (bin .shr e (.lit (.dec k))).eval env = some (.of a.ty.promote (a.val / 2 ^ k.toNat)) :=
  eval_shift (g := fun v k => v / 2 ^ k) (fun _ _ => rfl) ha h0 hk h63

private theorem eval_shift_eq_none {g : Int → Nat → Int}
    (hop : ∀ a b, op.eval a b = Val.shift g a b) (ha : e.eval env = some a)
    (hk : a.ty.promote.width ≤ k) (h63 : k < 2 ^ 63) :
    (bin op e (.lit (.dec k))).eval env = none := by
  simp only [eval, ha, Option.bind_eq_bind, Option.bind_some, hop]
  refine Val.shift_eq_none ?_
  rw [Val.of_val, Literal.num, Literal.dec_val (by omega) h63]
  exact hk

theorem eval_shl_eq_none (ha : e.eval env = some a) (hk : a.ty.promote.width ≤ k) (h63 : k < 2 ^ 63) :
    (bin .shl e (.lit (.dec k))).eval env = none :=
  eval_shift_eq_none (g := fun v k => v * 2 ^ k) (fun _ _ => rfl) ha hk h63

theorem eval_shr_eq_none (ha : e.eval env = some a) (hk : a.ty.promote.width ≤ k) (h63 : k < 2 ^ 63) :
    (bin .shr e (.lit (.dec k))).eval env = none :=
  eval_shift_eq_none (g := fun v k => v / 2 ^ k) (fun _ _ => rfl) ha hk h63

theorem Yields.shr (he : Yields env e x n) (h0 : 0 ≤ k) (hk : k < n) (h63 : k < 2 ^ 63) :
    Yields env (.bin .shr e (.lit (.dec k))) (x / 2 ^ k.toNat) n := by
  obtain ⟨a, ha, rfl, ha0, hn⟩ := he
  have hle : a.val / 2 ^ k.toNat ≤ a.val := Int.ediv_le_self _ ha0
  have hpos : 0 ≤ a.val / 2 ^ k.toNat := Int.ediv_nonneg ha0 (by positivity)
  refine ⟨_, eval_shr ha h0 (by omega) h63, ?_, hpos, ?_⟩
  · have := lt_of_lt_of_le a.val_lt a.ty.upper_le_promote
    exact IntTy.wrap_of_nonneg hpos (by omega)
  · rwa [Val.of_ty, IntTy.promote_promote]

theorem yields_shl (ha : e.eval env = some a) (ha0 : 0 ≤ a.val) (h0 : 0 ≤ k)
    (hk : k < a.ty.promote.width) (h63 : k < 2 ^ 63) (hlt : a.val * 2 ^ k.toNat < a.ty.upper) :
    Yields env (.bin .shl e (.lit (.dec k))) (a.val * 2 ^ k.toNat) a.ty.promote.width := by
  have hpos : 0 ≤ a.val * 2 ^ k.toNat := mul_nonneg ha0 (by positivity)
  refine ⟨_, eval_shl ha h0 hk h63, ?_, hpos, ?_⟩
  · exact IntTy.wrap_of_nonneg hpos (lt_of_lt_of_le hlt a.ty.upper_le_promote)
  · rw [Val.of_ty, IntTy.promote_promote]

theorem Yields.and (he : Yields env e x m) (hf : Yields env f y n) :
    Yields env (.bin .and e f) (Int.land x y) (max m n) := by
  obtain ⟨a, ha, rfl, ha0, hm⟩ := he
  obtain ⟨b, hb, rfl, hb0, hn⟩ := hf
  refine ⟨Val.arith Int.land a b, ?_, Val.arith_land_val ha0 hb0, land_nonneg ha0 hb0, ?_⟩
  · simp [eval, ha, hb, BinOp.eval]
  · have := IntTy.promote_width_le_common a.ty b.ty
    rw [Val.arith_ty]
    omega

theorem Yields.or (he : Yields env e x m) (hf : Yields env f y n) :
    Yields env (.bin .or e f) (Int.lor x y) (max m n) := by
  obtain ⟨a, ha, rfl, ha0, hm⟩ := he
  obtain ⟨b, hb, rfl, hb0, hn⟩ := hf
  refine ⟨Val.arith Int.lor a b, ?_, Val.arith_lor_val ha0 hb0, lor_nonneg ha0 hb0, ?_⟩
  · simp [eval, ha, hb, BinOp.eval]
  · have := IntTy.promote_width_le_common a.ty b.ty
    rw [Val.arith_ty]
    omega

/-! ### Expressions of type `int` -/

/-- `e` evaluates to the `int` `z`, without overflow. -/
def YieldsInt (env : Env) (e : Expr) (z : Int) : Prop :=
  e.eval env = some (.of .int z) ∧ -2 ^ 31 ≤ z ∧ z < 2 ^ 31

theorem wrap_int (h0 : -2 ^ 31 ≤ z) (h : z < 2 ^ 31) : IntTy.int.wrap z = z := by
  refine IntTy.wrap_eq_self ?_ (by rwa [IntTy.upper_int])
  rw [IntTy.bias_signed rfl]
  exact h0

theorem yieldsInt_dec (env : Env) (h0 : -2 ^ 31 < z) (h : z < 2 ^ 31) :
    YieldsInt env (.lit (.dec z)) z := by
  refine ⟨?_, by omega, h⟩
  rw [eval, Literal.num, Literal.ty, if_pos ⟨h0, h⟩]

theorem yieldsInt_var {name : String} (hvar : env name = some (.of .int z)) (h0 : -2 ^ 31 ≤ z)
    (h : z < 2 ^ 31) : YieldsInt env (.var name) z := ⟨hvar, h0, h⟩

/-- An operator on `int`s. -/
private theorem YieldsInt.arith {g : Int → Int → Int}
    (hop : ∀ a b, op.eval a b = some (Val.arith g a b)) (he : YieldsInt env e x)
    (hf : YieldsInt env f y) (h0 : -2 ^ 31 ≤ g x y) (h : g x y < 2 ^ 31) :
    YieldsInt env (.bin op e f) (g x y) := by
  obtain ⟨he, hx0, hx⟩ := he
  obtain ⟨hf, hy0, hy⟩ := hf
  refine ⟨?_, h0, h⟩
  simp only [eval, he, hf, Option.bind_eq_bind, Option.bind_some, hop]
  refine congrArg some (Val.ext_val rfl ?_)
  show IntTy.int.wrap (g (IntTy.int.wrap (IntTy.int.wrap x)) (IntTy.int.wrap (IntTy.int.wrap y))) =
    IntTy.int.wrap (g x y)
  rw [wrap_int hx0 hx, wrap_int hx0 hx, wrap_int hy0 hy, wrap_int hy0 hy]

theorem YieldsInt.add (he : YieldsInt env e x) (hf : YieldsInt env f y) (h0 : -2 ^ 31 ≤ x + y)
    (h : x + y < 2 ^ 31) : YieldsInt env (.bin .add e f) (x + y) :=
  YieldsInt.arith (fun _ _ => rfl) he hf h0 h

theorem YieldsInt.sub (he : YieldsInt env e x) (hf : YieldsInt env f y) (h0 : -2 ^ 31 ≤ x - y)
    (h : x - y < 2 ^ 31) : YieldsInt env (.bin .sub e f) (x - y) :=
  YieldsInt.arith (fun _ _ => rfl) he hf h0 h

theorem YieldsInt.mul (he : YieldsInt env e x) (hf : YieldsInt env f y) (h0 : -2 ^ 31 ≤ x * y)
    (h : x * y < 2 ^ 31) : YieldsInt env (.bin .mul e f) (x * y) :=
  YieldsInt.arith (fun _ _ => rfl) he hf h0 h

theorem YieldsInt.val (he : YieldsInt env e x) : ∃ a, e.eval env = some a ∧ a.val = x :=
  ⟨_, he.1, wrap_int he.2.1 he.2.2⟩

theorem eval_and {b : Val} (he : e.eval env = some a) (hf : f.eval env = some b) :
    (bin .and e f).eval env = some (Val.arith Int.land a b) := by
  simp only [eval, he, hf, Option.bind_eq_bind, Option.bind_some, BinOp.eval]

theorem eval_or {b : Val} (he : e.eval env = some a) (hf : f.eval env = some b) :
    (bin .or e f).eval env = some (Val.arith Int.lor a b) := by
  simp only [eval, he, hf, Option.bind_eq_bind, Option.bind_some, BinOp.eval]

theorem eval_shl_int (ha : e.eval env = some a) {k : Nat} (hf : YieldsInt env f k)
    (hk : k < a.ty.promote.width) :
    (bin .shl e f).eval env = some (.of a.ty.promote (a.val * 2 ^ k)) := by
  obtain ⟨b, hb, hval⟩ := hf.val
  simp only [eval, ha, hb, Option.bind_eq_bind, Option.bind_some]
  exact Val.shift_eq (f := fun v k => v * 2 ^ k) hval hk

theorem eval_shr_int (ha : e.eval env = some a) {k : Nat} (hf : YieldsInt env f k)
    (hk : k < a.ty.promote.width) :
    (bin .shr e f).eval env = some (.of a.ty.promote (a.val / 2 ^ k)) := by
  obtain ⟨b, hb, hval⟩ := hf.val
  simp only [eval, ha, hb, Option.bind_eq_bind, Option.bind_some]
  exact Val.shift_eq (f := fun v k => v / 2 ^ k) hval hk

theorem Yields.shr_int (he : Yields env e x n) {k : Nat} (hf : YieldsInt env f k) (hk : k < n) :
    Yields env (.bin .shr e f) (x / 2 ^ k) n := by
  obtain ⟨a, ha, rfl, ha0, hn⟩ := he
  have hle : a.val / 2 ^ k ≤ a.val := Int.ediv_le_self _ ha0
  have hpos : 0 ≤ a.val / 2 ^ k := Int.ediv_nonneg ha0 (by positivity)
  refine ⟨_, eval_shr_int ha hf (by omega), ?_, hpos, ?_⟩
  · have := lt_of_lt_of_le a.val_lt a.ty.upper_le_promote
    exact IntTy.wrap_of_nonneg hpos (by omega)
  · rwa [Val.of_ty, IntTy.promote_promote]

end Expr

/-! ### Statements -/

theorem exec_decl {t : IntTy} {v : Val} {rest : List Stmt} (h : e.eval env = some v) :
    exec env (.decl t x e :: rest) = exec (env.set x (.of t v.val)) rest := by
  simp [exec, h]

theorem exec_assign {v old : Val} {rest : List Stmt} (h : e.eval env = some v)
    (hold : env x = some old) :
    exec env (.assign x e :: rest) = exec (env.set x (.of old.ty v.val)) rest := by
  simp [exec, h, hold]

/-- The pair of shifts that sign extends an expression of `width` bits in a variable of
    the signed type `r`. -/
theorem exec_signExtend {z : Int} {n width : Nat} {r : IntTy} (he : e.Yields env z n)
    (hr : r.signed = true) (hw : width ≤ r.width) (hn : r.width ≤ n) (h32 : r.width < 32 + width)
    (hz : width = 0 → z.testBit 0 = false) {k : Int} (hk : k = r.width - width) (rest : List Stmt) :
    ∃ v : Val, v.ty = r ∧
      (∀ i, v.val.testBit i = z.testBit (if i < width then i else width - 1)) ∧
      exec env (.decl r x (.bin .shl e (.lit (.dec k)))
        :: .assign x (.bin .shr (.var x) (.lit (.dec k))) :: rest) = exec (env.set x v) rest := by
  obtain ⟨a, ha, rfl, -, hwide⟩ := he
  have hpa := a.ty.promote_width
  have hpr := r.promote_width
  have hkn : k.toNat = r.width - width := by omega
  have hup := Expr.eval_shl ha (k := k) (by omega) (by omega) (by omega)
  -- The variable after the declaration and after the assignment.
  obtain ⟨up, hval⟩ : ∃ up : Val, up = .of r (Val.of a.ty.promote (a.val * 2 ^ k.toNat)).val :=
    ⟨_, rfl⟩
  have hty : up.ty = r := by rw [hval, Val.of_ty]
  have hdown := Expr.eval_shr (Expr.eval_var_set env x up) (k := k)
    (by omega) (by rw [hty]; omega) (by omega)
  refine ⟨.of r (Val.of r.promote (up.val / 2 ^ k.toNat)).val, rfl, fun i => ?_, ?_⟩
  · rw [Val.of_val, Val.of_val, hval, Val.of_val, Val.of_val, hkn]
    exact testBit_signExtend hr hw (by omega) (by omega) hz i
  · rw [exec_decl hup, ← hval, exec_assign hdown (Env.set_self _ _ _), Env.set_set, hty]

end MpactSim.Cpp
