import Downhill.Decimal.Binary

/-!
# Decimal digits of a number

A decimal stands for `digits * 10 ^ exponent`. A positive number `num / den` is compared with the
decimals of one exponent, its grid, by bringing both to a common denominator: on the grid of `k` the
number is `scaled num k / step den k` steps from zero. `digitsTo` rounds to a number of digits.
-/

namespace Downhill

structure Decimal where
  digits : Nat
  exponent : Int
  deriving DecidableEq, Repr

namespace Decimal

def scaled (num : Nat) (k : Int) : Nat := num * Nat.pow 10 (-k).toNat

def step (den : Nat) (k : Int) : Nat := den * Nat.pow 10 k.toNat

def digitCount (n : Nat) : Nat := if n = 0 then 0 else (Nat.toDigits 10 n).length

/-- The `t` with `10 ^ t ≤ num / den < 10 ^ (t + 1)`. -/
def magnitude (num den : Nat) : Int :=
  if den ≤ num then (digitCount (num / den) : Int) - 1
  else -(digitCount ((den - 1) / num) : Int)

/-- The nearest natural number to `num / den`; a half goes to the even neighbour. -/
def roundDiv (num den : Nat) : Nat :=
  let q := num / den
  let twice := 2 * (num % den)
  if twice < den then q
  else if den < twice then q + 1
  else if q % 2 = 0 then q else q + 1

/-- A positive number rounded to `n` significant digits. Rounding up may carry into one more. -/
def digitsTo (n : Nat) (num den : Nat) : Decimal :=
  let k := magnitude num den + 1 - n
  let d := roundDiv (scaled num k) (step den k)
  if d < Nat.pow 10 n then ⟨d, k⟩ else ⟨Nat.pow 10 (n - 1), k + 1⟩

end Decimal

end Downhill
