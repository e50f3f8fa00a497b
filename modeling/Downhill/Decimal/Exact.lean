import Downhill.Decimal.Binary

/-!
# Doubles beside exact numbers

Doubles and exact numbers are compared as what they are, without rounding one to the other. Where
doubles are to be tested against an integer many times over, `leastDoubleFrom` gives a double that
stands for the integer.
-/

namespace Downhill

/-- What a number is exactly. -/
inductive Exact where
  | nan
  | infinite (negative : Bool)
  | fraction (num : Int) (den : Nat)
  deriving Repr

namespace Exact

def ofDouble (v : Float) : Exact :=
  match Decoded.ofDouble v with
  | .nan => nan
  | .infinite negative => infinite negative
  | .finite b => fraction (if b.negative then -(b.numerator : Int) else b.numerator) b.denominator

def equals : Exact → Exact → Bool
  | infinite a, infinite b => a == b
  | fraction a b, fraction c d => a * d == c * b
  | _, _ => false

end Exact

/-- The least double above one that is neither zero nor the greatest. -/
def doubleAfter (v : Float) : Float :=
  .ofBits (if v < 0.0 then v.toBits - 1 else v.toBits + 1)

/-- The least double that is not below an integer. A double is below one of them exactly if it is
below the other. -/
def leastDoubleFrom (n : Int) : Float :=
  let v := Float.ofInt n
  match Decoded.ofDouble v with
  | .nan => v
  | .infinite negative => if negative then doubleAfter v else v
  | .finite b => if b.integer < n then doubleAfter v else v

end Downhill
