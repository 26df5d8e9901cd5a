import MpactSim.Cpp.Integer

namespace MpactSim.Cpp

/-!
# The emitted fragment of C++

The syntax of the straight-line functions that the generators print, and what they
compute at the types they declare:

* `Expr` — variables, literals as they are printed, and operators;
* `Stmt` — declaration, assignment and `return`;
* `Func` — a signature and a body, called on integers.

Evaluation is partial: a shift by a count outside the width of its promoted left
operand is undefined behaviour and has no value.
-/

/-! ### Operators on values -/

/-- Binary operators of the emitted text. -/
inductive BinOp where
  | and | or | add | sub | mul | shl | shr
  deriving DecidableEq, Repr

namespace Val

/-- An operator that converts both operands to their common type first. -/
def arith (f : Int → Int → Int) (a b : Val) : Val :=
  let t := IntTy.common a.ty b.ty
  of t (f (t.wrap a.val) (t.wrap b.val))

/-- A shift: the type is that of the promoted left operand, and the count must lie
    below its width. -/
def shift (f : Int → Nat → Int) (a b : Val) : Option Val :=
  if 0 ≤ b.val ∧ b.val < a.ty.promote.width then
    some (of a.ty.promote (f a.val b.val.toNat))
  else none

/-- Bitwise complement, after promotion. -/
def compl (a : Val) : Val := of a.ty.promote (Int.lnot a.val)

end Val

/-- The meaning of a binary operator. -/
def BinOp.eval : BinOp → Val → Val → Option Val
  | .and, a, b => some (Val.arith Int.land a b)
  | .or, a, b => some (Val.arith Int.lor a b)
  | .add, a, b => some (Val.arith (· + ·) a b)
  | .sub, a, b => some (Val.arith (· - ·) a b)
  | .mul, a, b => some (Val.arith (· * ·) a b)
  | .shl, a, b => Val.shift (fun v k => v * 2 ^ k) a b
  | .shr, a, b => Val.shift (fun v k => v / 2 ^ k) a b

/-! ### Syntax -/

/-- A literal as the generators print it: decimal, hexadecimal, or hexadecimal with
    the suffix `ULL`. -/
inductive Literal where
  | dec (n : Int)
  | hex (n : Nat)
  | hexULL (n : Nat)
  deriving DecidableEq, Repr

/-- A decimal literal is an `int` if it fits and a `long` otherwise; a hexadecimal
    one takes the first of `int`, `unsigned`, `long` and `unsigned long` that holds it. -/
def Literal.ty : Literal → IntTy
  | .dec n => if -2 ^ 31 < n ∧ n < 2 ^ 31 then .int else .long
  | .hex n => if n < 2 ^ 31 then .int else if n < 2 ^ 32 then .uint
      else if n < 2 ^ 63 then .long else .ulong
  | .hexULL _ => .ulong

/-- The integer a literal denotes. -/
def Literal.num : Literal → Int
  | .dec n => n
  | .hex n => n
  | .hexULL n => n

/-- Expressions.  `low64` is `absl::Uint128Low64`. -/
inductive Expr where
  | var (name : String)
  | lit (l : Literal)
  | not (e : Expr)
  | bin (op : BinOp) (lhs rhs : Expr)
  | low64 (e : Expr)
  deriving DecidableEq, Repr

/-- Statements of a straight-line body. -/
inductive Stmt where
  | decl (ty : IntTy) (name : String) (e : Expr)
  | assign (name : String) (e : Expr)
  | ret (e : Expr)
  deriving DecidableEq, Repr

/-- A function: its return type, its parameters and its body. -/
structure Func where
  returnTy : IntTy
  params : List (IntTy × String)
  body : List Stmt
  deriving DecidableEq, Repr

/-! ### Semantics -/

/-- The variables in scope; the type of a variable is that of its value. -/
abbrev Env := String → Option Val

/-- Bind a variable. -/
def Env.set (env : Env) (x : String) (v : Val) : Env := fun y => if y = x then some v else env y

/-- The value of an expression, `none` when evaluation is undefined. -/
def Expr.eval (env : Env) : Expr → Option Val
  | .var x => env x
  | .lit l => some (.of l.ty l.num)
  | .not e => (e.eval env).map Val.compl
  | .bin op a b => do
    let va ← a.eval env
    let vb ← b.eval env
    op.eval va vb
  | .low64 e => (e.eval env).map fun v => .of .ulong (IntTy.uint128.wrap v.val)

/-- Run a body up to its `return`. -/
def exec (env : Env) : List Stmt → Option Val
  | [] => none
  | .decl t x e :: rest => do
    let v ← e.eval env
    exec (env.set x (.of t v.val)) rest
  | .assign x e :: rest => do
    let v ← e.eval env
    let old ← env x
    exec (env.set x (.of old.ty v.val)) rest
  | .ret e :: _ => e.eval env

/-- Call a function on integers, each converted to the type of its parameter. -/
def Func.call (f : Func) (args : List Int) : Option Val :=
  let env := (f.params.zip args).foldl (fun (env : Env) p => env.set p.1.2 (.of p.1.1 p.2))
    (fun _ => none)
  (exec env f.body).map fun v => .of f.returnTy v.val

/-! ### Nonnegative operands

The emitted accessors compute on unsigned words and masks.  As long as no operand is
negative the conversions of an operator change nothing, whatever the types are. -/

variable {a b : Int}

theorem land_nonneg (ha : 0 ≤ a) (hb : 0 ≤ b) : 0 ≤ Int.land a b := by
  obtain ⟨m, rfl⟩ := Int.eq_ofNat_of_zero_le ha
  obtain ⟨n, rfl⟩ := Int.eq_ofNat_of_zero_le hb
  exact Int.natCast_nonneg (m &&& n)

theorem land_le_left (ha : 0 ≤ a) (hb : 0 ≤ b) : Int.land a b ≤ a := by
  obtain ⟨m, rfl⟩ := Int.eq_ofNat_of_zero_le ha
  obtain ⟨n, rfl⟩ := Int.eq_ofNat_of_zero_le hb
  show ((m &&& n : Nat) : Int) ≤ m
  exact_mod_cast Nat.and_le_left

theorem lor_nonneg (ha : 0 ≤ a) (hb : 0 ≤ b) : 0 ≤ Int.lor a b := by
  obtain ⟨m, rfl⟩ := Int.eq_ofNat_of_zero_le ha
  obtain ⟨n, rfl⟩ := Int.eq_ofNat_of_zero_le hb
  exact Int.natCast_nonneg (m ||| n)

theorem lor_lt_two_pow {n : Nat} (ha : 0 ≤ a) (hb : 0 ≤ b) (han : a < 2 ^ n) (hbn : b < 2 ^ n) :
    Int.lor a b < 2 ^ n := by
  obtain ⟨k, rfl⟩ := Int.eq_ofNat_of_zero_le ha
  obtain ⟨l, rfl⟩ := Int.eq_ofNat_of_zero_le hb
  show ((k ||| l : Nat) : Int) < 2 ^ n
  exact_mod_cast Nat.or_lt_two_pow (by exact_mod_cast han) (by exact_mod_cast hbn)

namespace Val

@[simp]
theorem arith_ty (f : Int → Int → Int) (a b : Val) :
    (arith f a b).ty = IntTy.common a.ty b.ty := rfl

variable {a b : Val}

theorem arith_land_val (ha : 0 ≤ a.val) (hb : 0 ≤ b.val) :
    (arith Int.land a b).val = Int.land a.val b.val := by
  rw [arith, of_val, wrap_common_left b ha, wrap_common_right a hb]
  refine IntTy.wrap_of_nonneg (land_nonneg ha hb) (lt_of_le_of_lt (land_le_left ha hb) ?_)
  exact lt_of_lt_of_le a.val_lt (IntTy.upper_le_common_left _ _)

theorem arith_lor_val (ha : 0 ≤ a.val) (hb : 0 ≤ b.val) :
    (arith Int.lor a b).val = Int.lor a.val b.val := by
  have hal := lt_of_lt_of_le a.val_lt (IntTy.upper_le_common_left a.ty b.ty)
  have hbl := lt_of_lt_of_le b.val_lt (IntTy.upper_le_common_right a.ty b.ty)
  rw [arith, of_val, wrap_common_left b ha, wrap_common_right a hb]
  refine IntTy.wrap_of_nonneg (lor_nonneg ha hb) ?_
  rw [IntTy.upper_eq] at hal hbl ⊢
  exact lor_lt_two_pow ha hb hal hbl

theorem shift_eq {f : Int → Nat → Int} {k : Nat} (hb : b.val = k) (hk : k < a.ty.promote.width) :
    shift f a b = some (of a.ty.promote (f a.val k)) := by
  rw [shift, if_pos (by omega), hb]
  rfl

theorem shift_eq_none {f : Int → Nat → Int} (hb : a.ty.promote.width ≤ b.val) :
    shift f a b = none := by
  rw [shift, if_neg (by omega)]

end Val

end MpactSim.Cpp
