import Downhill.Scalar
import Downhill.Scalar.LogOnePlus

/-!
# Doubles as scalars

Arithmetic never fails on doubles: a quotient by zero, an overflow or an argument outside a
function's domain gives an infinity or NaN, and NaN fails every comparison.
-/

namespace Downhill.Double

/-- `ln (e ^ x + e ^ y)` without overflow on the way. -/
def logAddExp (x y : Float) : Float :=
  if x == y then
    x + 0.6931471805599453
  else
    let t := x - y
    if t > 0.0 then x + logOnePlus (Float.exp (-t))
    else if t ≤ 0.0 then y + logOnePlus (Float.exp t)
    else t

def sigmoid (a : Float) : Float := 1.0 / (1.0 + Float.exp (-a))

def logSigmoid (a : Float) : Float := -logAddExp 0.0 (-a)

def ramp (a : Float) : Float :=
  if a.isNaN then a else if a > 0.0 then a else 0.0

def unitStep (a : Float) : Float :=
  if a.isNaN then a else if a ≥ 0.0 then 1.0 else 0.0

/-- The exponents -1, 0, 1/2, 1 and 2 stand for a reciprocal, one, a root, the base and its
square. -/
def pow (a b : Float) : Float :=
  if b == -1.0 then 1.0 / a
  else if b == 0.0 then 1.0
  else if b == 0.5 then Float.sqrt a
  else if b == 1.0 then a
  else if b == 2.0 then a * a
  else Float.pow a b

def unary : UnaryOp → Float → Float
  | .neg, a => -a
  | .sqr, a => a * a
  | .sqrt, a => Float.sqrt a
  | .exp, a => Float.exp a
  | .log, a => Float.log a
  | .sin, a => Float.sin a
  | .cos, a => Float.cos a
  | .tan, a => Float.tan a
  | .asin, a => Float.asin a
  | .acos, a => Float.acos a
  | .atan, a => Float.atan a
  | .sigmoid, a => sigmoid a
  | .logSigmoid, a => logSigmoid a
  | .ramp, a => ramp a
  | .unitStep, a => unitStep a

def binary : BinaryOp → Float → Float → Float
  | .add, a, b => a + b
  | .sub, a, b => a - b
  | .mul, a, b => a * b
  | .div, a, b => a / b
  | .pow, a, b => pow a b

instance : Scalar Float where
  decimal m k := Float.ofScientific m true k
  unary := unary
  binary := binary
  power := Float.pow
  eq a b := a == b
  lt a b := decide (a < b)
  le a b := decide (a ≤ b)
  abs := Float.abs
  isFinite := Float.isFinite

end Downhill.Double
