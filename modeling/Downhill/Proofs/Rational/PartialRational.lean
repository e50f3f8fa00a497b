import Mathlib.Algebra.Order.Field.Rat
import Mathlib.Data.Rat.Lemmas
import Downhill.Point

/-!
# Rational numbers as scalars

Exact arithmetic that can be run. A function whose values need not be rational has no result, and
neither has an operator outside of its domain.
-/

namespace Downhill

/-- A rational number, or nothing where a number would be undefined. -/
abbrev PartialRational := Option ℚ

def UnaryOp.rational? : UnaryOp → ℚ → Option ℚ
  | neg, a => some (-a)
  | sqr, a => some (a * a)
  | ramp, a => some (max a 0)
  | unitStep, a => some (if 0 ≤ a then 1 else 0)
  | sqrt, _ | exp, _ | log, _ | sin, _ | cos, _ | tan, _ | asin, _ | acos, _ | atan, _
  | sigmoid, _ | logSigmoid, _ => none

/-- Powers are taken with integer exponents only. -/
def BinaryOp.rational? : BinaryOp → ℚ → ℚ → Option ℚ
  | add, a, b => some (a + b)
  | sub, a, b => some (a - b)
  | mul, a, b => some (a * b)
  | div, a, b => if b = 0 then none else some (a / b)
  | pow, a, b => if b.isInt ∧ (a ≠ 0 ∨ 0 ≤ b) then some (a ^ b.num) else none

namespace PartialRational

def unary (op : UnaryOp) (a : PartialRational) : PartialRational := a.bind op.rational?

def binary (op : BinaryOp) (a b : PartialRational) : PartialRational :=
  a.bind fun u => b.bind fun v => op.rational? u v

/-- Whether two numbers, both of them there, are in a relation. -/
def compare (R : ℚ → ℚ → Bool) : PartialRational → PartialRational → Bool
  | some u, some v => R u v
  | _, _ => false

instance : Scalar PartialRational where
  decimal m k := some (m / 10 ^ k)
  unary := unary
  binary := binary
  power := binary .pow
  eq := compare (· == ·)
  lt := compare (· < ·)
  le := compare (· ≤ ·)
  abs a := a.map abs
  isFinite a := a.isSome

open scoped Scalar

variable {a b : PartialRational} {u v : ℚ}

@[simp] theorem nat_eq (n : ℕ) : (Scalar.nat n : PartialRational) = some (n : ℚ) := by
  simp [Scalar.nat, Scalar.decimal]

theorem eq_of_eq (H : Scalar.eq a b = true) : a = b := by
  cases a <;> cases b <;> simp_all [Scalar.eq, compare]

@[simp] theorem unary_some :
    Scalar.unary op (some u : PartialRational) = op.rational? u := rfl

@[simp] theorem binary_some :
    Scalar.binary op (some u : PartialRational) (some v) = op.rational? u v := rfl

@[simp] theorem some_add : (some u + some v : PartialRational) = some (u + v) := rfl

@[simp] theorem some_sub : (some u - some v : PartialRational) = some (u - v) := rfl

@[simp] theorem some_mul : (some u * some v : PartialRational) = some (u * v) := rfl

theorem rational?_div (hv : v ≠ 0) : BinaryOp.rational? .div u v = some (u / v) := if_neg hv

theorem some_div (hv : v ≠ 0) : (some u / some v : PartialRational) = some (u / v) :=
  rational?_div hv

end PartialRational

end Downhill
