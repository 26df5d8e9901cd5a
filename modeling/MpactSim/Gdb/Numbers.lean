import MpactSim.Gdb.Respond

namespace MpactSim.Gdb

/-!
# GDB remote protocol: numbers in commands

`absl::SimpleHexAtoi` and `absl::SimpleAtoi` read a number of a given integer type.  White space
around it is skipped; it may have a sign and, in hexadecimal, the prefix `0x`; there has to be a
digit, and the value has to be one of the type.

* `simpleHexAtoi64`, `simpleHexAtoiInt`, `simpleAtoiInt` — the types that the server reads;
* `simpleHexAtoi64_absHex` — what `absl::Hex` writes is read back.
-/

/-- `'-'` and `'+'` -/
def minus : UInt8 := 0x2d

def plus : UInt8 := 0x2b

/-- `absl::ascii_isspace` -/
def asciiIsSpace (c : UInt8) : Bool := c = 0x20 ∨ 0x09 ≤ c ∧ c ≤ 0x0d

/-- A text without white space at its ends. -/
def stripSpace (text : Bytes) : Bytes :=
  ((text.dropWhile asciiIsSpace).reverse.dropWhile asciiIsSpace).reverse

/-- The sign of a text and what follows it. -/
def takeSign : Bytes → Bool × Bytes
  | [] => (false, [])
  | c :: rest => if c = minus then (true, rest) else if c = plus then (false, rest) else (false, c :: rest)

/-- A text without the prefix `0x`. -/
def dropHexPrefix : Bytes → Bytes
  | zero :: x :: rest => if zero = 0x30 ∧ (x = 0x78 ∨ x = 0x58) then rest else zero :: x :: rest
  | text => text

/-- The value of a decimal digit. -/
def decimalDigit (c : UInt8) : Option Nat :=
  if 0x30 ≤ c ∧ c ≤ 0x39 then some (c.toNat - 0x30) else none

/-- The sign and the digits of a number in base 16. -/
def hexSignAndDigits (text : Bytes) : Bool × Bytes :=
  ((takeSign (stripSpace text)).1, dropHexPrefix (takeSign (stripSpace text)).2)

/-- `absl::SimpleHexAtoi` for an unsigned type with the given greatest value. -/
def simpleHexAtoiTo (max : Nat) (text : Bytes) : Option Nat :=
  let (negative, digits) := hexSignAndDigits text
  if negative ∨ digits = [] then none else (simpleHexAtoi digits).filter fun n => n ≤ max

/-- `absl::SimpleHexAtoi` for `uint64_t`. -/
def simpleHexAtoi64 : Bytes → Option Nat := simpleHexAtoiTo (2 ^ 64 - 1)

/-- `absl::SimpleHexAtoi` for `uint32_t`. -/
def simpleHexAtoi32 : Bytes → Option Nat := simpleHexAtoiTo (2 ^ 32 - 1)

/-- A magnitude with its sign, if it is a value of `int`. -/
def toInt (negative : Bool) (n : Nat) : Option Int :=
  if negative then if n ≤ 2 ^ 31 then some (-n) else none
  else if n ≤ 2 ^ 31 - 1 then some n else none

/-- `absl::SimpleHexAtoi` for `int`. -/
def simpleHexAtoiInt (text : Bytes) : Option Int :=
  let (negative, digits) := hexSignAndDigits text
  if digits = [] then none else (simpleHexAtoi digits).bind (toInt negative)

/-- `absl::SimpleAtoi` for `int`. -/
def simpleAtoiInt (text : Bytes) : Option Int :=
  let (negative, digits) := takeSign (stripSpace text)
  if digits = [] then none
  else (digits.foldlM (fun n c => (decimalDigit c).map (10 * n + ·)) 0).bind (toInt negative)

/-! ### Digits -/

theorem hexDigit_eq_some {c : UInt8} (h : (hexDigit c).isSome) :
    asciiIsSpace c = false ∧ c ≠ minus ∧ c ≠ plus ∧ c ≠ 0x78 ∧ c ≠ 0x58 := by
  have hall : ∀ n < 256, (hexDigit (.ofNat n)).isSome →
      asciiIsSpace (.ofNat n) = false ∧ UInt8.ofNat n ≠ minus ∧ UInt8.ofNat n ≠ plus ∧
        UInt8.ofNat n ≠ 0x78 ∧ UInt8.ofNat n ≠ 0x58 := by
    decide +kernel
  have hc := hall c.toNat c.toNat_lt
  rw [UInt8.ofNat_toNat] at hc
  exact hc h

variable {text : Bytes}

theorem stripSpace_eq_self (h : ∀ c ∈ text, asciiIsSpace c = false) : stripSpace text = text := by
  have hfront : text.dropWhile asciiIsSpace = text := by
    apply List.dropWhile_eq_self_iff.mpr
    intro hne hspace
    rw [h _ (List.getElem_mem hne)] at hspace
    cases hspace
  have hback : text.reverse.dropWhile asciiIsSpace = text.reverse := by
    apply List.dropWhile_eq_self_iff.mpr
    intro hne hspace
    rw [h _ (List.mem_reverse.mp (List.getElem_mem hne))] at hspace
    cases hspace
  rw [stripSpace, hfront, hback, List.reverse_reverse]

theorem takeSign_eq_self (h : ∀ c ∈ text, c ≠ minus ∧ c ≠ plus) :
    takeSign text = (false, text) := by
  cases text with
  | nil => rfl
  | cons c rest =>
    obtain ⟨hminus, hplus⟩ := h c List.mem_cons_self
    rw [takeSign, if_neg hminus, if_neg hplus]

theorem dropHexPrefix_eq_self (h : ∀ c ∈ text, c ≠ 0x78 ∧ c ≠ 0x58) :
    dropHexPrefix text = text := by
  match text with
  | [] => rfl
  | [_] => rfl
  | zero :: x :: rest =>
    obtain ⟨hlower, hupper⟩ := h x (List.mem_cons_of_mem _ List.mem_cons_self)
    rw [dropHexPrefix, if_neg]
    rintro ⟨-, hx | hx⟩
    · exact hlower hx
    · exact hupper hx

theorem hexSignAndDigits_eq (h : ∀ c ∈ text, (hexDigit c).isSome) :
    hexSignAndDigits text = (false, text) := by
  have hdigit := fun c hc => hexDigit_eq_some (h c hc)
  have hstrip : stripSpace text = text := stripSpace_eq_self fun c hc => (hdigit c hc).1
  have hsign : takeSign text = (false, text) :=
    takeSign_eq_self fun c hc => ⟨(hdigit c hc).2.1, (hdigit c hc).2.2.1⟩
  have hprefix : dropHexPrefix text = text :=
    dropHexPrefix_eq_self fun c hc => (hdigit c hc).2.2.2
  rw [hexSignAndDigits, hstrip, hsign, hprefix]

theorem simpleHexAtoiTo_eq (h : ∀ c ∈ text, (hexDigit c).isSome) (hne : text ≠ []) (max : Nat) :
    simpleHexAtoiTo max text = (simpleHexAtoi text).filter fun n => n ≤ max := by
  rw [simpleHexAtoiTo, hexSignAndDigits_eq h]
  exact if_neg (by simp [hne])

/-! ### Numbers that are written -/

theorem hexDigit_of_mem_absHex {n : Nat} {c : UInt8} (hc : c ∈ absHex n) : (hexDigit c).isSome := by
  unfold absHex at hc
  split at hc
  · rw [List.mem_singleton.mp hc]
    decide
  · obtain ⟨d, hd, rfl⟩ := List.mem_map.mp hc
    rw [hexDigit_hexChar d (Nat.digits_lt_base (by decide) (List.mem_reverse.mp hd))]
    rfl

theorem absHex_ne_nil (n : Nat) : absHex n ≠ [] := by
  unfold absHex
  split
  · exact List.cons_ne_nil _ _
  · next hn => simpa [Nat.digits_eq_nil_iff_eq_zero] using hn

theorem simpleHexAtoi_digits (digits : List Nat) (h : ∀ d ∈ digits, d < 16) (start : Nat) :
    (digits.reverse.map hexChar).foldlM (fun n c => (hexDigit c).map (16 * n + ·)) start =
      some (16 ^ digits.length * start + Nat.ofDigits 16 digits) := by
  induction digits with
  | nil => simp [Nat.ofDigits]
  | cons d rest ih =>
    rw [List.reverse_cons, List.map_append, List.foldlM_append,
      ih fun d' hd' => h d' (List.mem_cons_of_mem _ hd'), Option.bind_eq_bind, Option.bind_some,
      List.map_singleton, List.foldlM_cons, hexDigit_hexChar d (h d List.mem_cons_self)]
    show some (16 * _ + d) = _
    rw [Nat.ofDigits_cons, List.length_cons, Nat.pow_succ]
    congr 1
    ring

theorem simpleHexAtoi_absHex (n : Nat) : simpleHexAtoi (absHex n) = some n := by
  unfold absHex
  split
  · next hn =>
    rw [hn]
    decide
  · have hdigits := simpleHexAtoi_digits (Nat.digits 16 n)
      (fun d hd => Nat.digits_lt_base (by decide) hd) 0
    rw [Nat.ofDigits_digits, Nat.mul_zero, Nat.zero_add] at hdigits
    exact hdigits

theorem simpleHexAtoi64_absHex {n : Nat} (hn : n < 2 ^ 64) :
    simpleHexAtoi64 (absHex n) = some n := by
  rw [simpleHexAtoi64, simpleHexAtoiTo_eq (fun _ => hexDigit_of_mem_absHex) (absHex_ne_nil n),
    simpleHexAtoi_absHex, Option.filter_some, if_pos (decide_eq_true (by omega))]

end MpactSim.Gdb
