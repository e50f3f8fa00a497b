import Downhill.Operator

/-!
# Scalars

What the library asks of the numbers it computes with: decimal literals, the operators, three
comparisons and a test for finite values. Nothing is assumed of them, so doubles, exact numbers and
numbers that may be undefined all qualify, and a law is stated for the scalars it holds for.
-/

namespace Downhill

class Scalar (α : Type u) where
  /-- `decimal m k` is the literal `m / 10 ^ k`. -/
  decimal (m k : Nat) : α
  unary : UnaryOp → α → α
  binary : BinaryOp → α → α → α
  /-- The power taken on sampled data, where no exponent is known in advance. -/
  power : α → α → α
  eq : α → α → Bool
  lt : α → α → Bool
  le : α → α → Bool
  abs : α → α
  isFinite : α → Bool

inductive ArithmeticError where
  | divisionByZero
  deriving DecidableEq, Repr

namespace Scalar

variable [Scalar α]

def nat (n : Nat) : α := decimal n 0

scoped instance : Add α := ⟨binary .add⟩
scoped instance : Sub α := ⟨binary .sub⟩
scoped instance : Mul α := ⟨binary .mul⟩
scoped instance : Div α := ⟨binary .div⟩
scoped instance : Neg α := ⟨unary .neg⟩

def sqrt (a : α) : α := unary .sqrt a

/-- A quotient outside of expressions, which zero does not divide. -/
def quotient? (a b : α) : Except ArithmeticError α :=
  if eq b (nat 0) then .error .divisionByZero else .ok (a / b)

end Scalar

end Downhill
