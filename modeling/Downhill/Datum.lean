import Downhill.Decimal.Exact

/-!
# Data from outside

Whatever a caller may hand over where a number is expected. A datum is read as a double by
`toDouble?`; whether it counts as a real number (`isReal`), and whether it may stand beside an
expression (`isOperand`), are separate questions with separate answers. Data are compared with each
other as they are, without being rounded first.
-/

namespace Downhill

inductive Datum where
  | integer (n : Int)
  | double (v : Float)
  | truth (b : Bool)
  /-- A truth value as arrays hold it, which counts as no number. -/
  | element (b : Bool)
  | fraction (num : Int) (den : Nat)
  /-- An exact decimal number, `m / 10 ^ k`. -/
  | decimal (m : Int) (k : Nat)
  /-- A text that spells the number `m / 10 ^ k`. -/
  | numeral (m k : Nat)
  /-- Any other text. -/
  | text
  | complex
  /-- A list of one number. -/
  | list
  | dict
  | none
  deriving Inhabited

inductive ConversionError where
  | notANumber
  | unreadable
  /-- An integer or a fraction beyond the range of doubles. -/
  | tooLarge
  deriving DecidableEq, Repr

/-- A nearest double, unless it is infinite. -/
def finite? (v : Float) : Except ConversionError Float :=
  if v.isFinite then .ok v else .error .tooLarge

/-- The double nearest to a quotient, ties to even. It is rounded once, whatever the size of the
numerator and of the denominator. -/
def doubleOfRatio (num : Int) (den : Nat) : Float :=
  if h : 0 < num.natAbs ∧ 0 < den then
    let sign := if num < 0 then .negative else .positive
    .ofModel (.pack (.div .binary64 (.finite sign num.natAbs 0 h.1) (.finite .positive den 0 h.2)))
  else 0.0

namespace Datum

/-- The name of the kind of a datum, as messages give it. -/
def kind : Datum → String
  | integer _ => "int"
  | double _ => "float"
  | truth _ | element _ => "bool"
  | fraction .. => "Fraction"
  | decimal .. => "Decimal"
  | numeral .. | text => "str"
  | complex => "complex"
  | list => "list"
  | dict => "dict"
  | none => "NoneType"

def isReal : Datum → Bool
  | integer _ | double _ | truth _ | fraction .. => true
  | _ => false

/-- Only integers and doubles combine with expressions. -/
def isOperand : Datum → Bool
  | integer _ | double _ => true
  | _ => false

def toDouble? : Datum → Except ConversionError Float
  | integer n => finite? (Float.ofInt n)
  | double v => .ok v
  | truth b | element b => .ok (if b then 1.0 else 0.0)
  | fraction num den => finite? (doubleOfRatio num den)
  | decimal m k =>
    let v := Float.ofScientific m.natAbs true k
    .ok (if m < 0 then -v else v)
  | numeral m k => .ok (Float.ofScientific m true k)
  | text => .error .unreadable
  | complex | list | dict | none => .error .notANumber

/-- A datum as a bound that doubles are held against. No integer is too large for that. -/
def bound? : Datum → Except ConversionError Float
  | integer n => .ok (leastDoubleFrom n)
  | d => d.toDouble?

/-- Finite real numbers are normal; truth values are not counted among the numbers. -/
def isNormal? : Datum → Except ConversionError Bool
  | truth _ => .ok false
  | d => if d.isReal then Float.isFinite <$> d.toDouble? else .ok false

def toExact? : Datum → Option Exact
  | integer n => some (.fraction n 1)
  | double v => some (.ofDouble v)
  | truth b | element b => some (.fraction (if b then 1 else 0) 1)
  | fraction num den => some (.fraction num den)
  | decimal m k => some (.fraction m (Nat.pow 10 k))
  | _ => Option.none

def equals (a b : Datum) : Bool :=
  match a.toExact?, b.toExact? with
  | some u, some v => u.equals v
  | _, _ =>
    match a, b with
    | numeral m k, numeral m' k' => m == m' && k == k'
    | text, text | complex, complex | list, list | dict, dict | none, none => true
    | _, _ => false

/-- What a leading plus makes of a datum. A truth value becomes the integer that it counts as. -/
def positive? : Datum → Option Datum
  | truth b => some (.integer (if b then 1 else 0))
  | d@(integer _) | d@(double _) | d@(fraction ..) | d@(decimal ..) | d@complex => some d
  | element _ | numeral .. | text | list | dict | none => Option.none

/-- What a leading minus makes of a datum. -/
def negative? (d : Datum) : Option Datum :=
  match d.positive? with
  | some (integer n) => some (integer (-n))
  | some (double v) => some (double (-v))
  | some (fraction num den) => some (fraction (-num) den)
  | some (decimal m k) => some (decimal (-m) k)
  | d => d

end Datum

end Downhill
