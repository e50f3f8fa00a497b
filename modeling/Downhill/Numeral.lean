import Downhill.Decimal.Shortest

/-!
# Numerals

How doubles are written. The plain style writes the fewest digits that read back, positionally for
magnitudes from `10 ^ -4` to below `10 ^ 16` and with an exponent elsewhere; the scientific style
always has an exponent and a given number of digits.
-/

namespace Downhill

/-- The decisions a style leaves open. -/
structure NumeralLayout where
  /-- The least power of ten that is written positionally. -/
  positionalFrom : Int
  /-- The least power of ten above it that is not. -/
  positionalBelow : Int
  /-- The least number of digits of an exponent; its sign is always written. -/
  exponentWidth : Nat
  deriving Repr

def plainLayout : NumeralLayout := ⟨-4, 16, 2⟩

inductive NumeralStyle where
  | plain
  | scientific (digits : Nat)
  deriving DecidableEq, Repr

namespace NumeralLayout

def exponentText (l : NumeralLayout) (e : Int) : String :=
  let digits := toString e.natAbs
  (if e < 0 then "e-" else "e+") ++ "".pushn '0' (l.exponentWidth - digits.length) ++ digits

/-- Digits with the point after the first, if others follow, and an exponent. -/
def scientific (l : NumeralLayout) (digits : String) (e : Int) : String :=
  match digits.toList with
  | [] => ""
  | [c] => c.toString ++ l.exponentText e
  | c :: rest => c.toString ++ "." ++ String.ofList rest ++ l.exponentText e

/-- Digits with the point where it belongs; a digit stands on either side of it. -/
def positional (digits : String) (e : Int) : String :=
  if e < 0 then
    "0." ++ "".pushn '0' ((-e).toNat - 1) ++ digits
  else
    let whole := e.toNat + 1
    let chars := digits.toList
    let fraction := String.ofList (chars.drop whole)
    String.ofList (chars.take whole) ++ "".pushn '0' (whole - chars.length) ++ "."
      ++ (if fraction.isEmpty then "0" else fraction)

/-- The text of a positive decimal. -/
def write (l : NumeralLayout) (d : Decimal) : String :=
  let digits := toString d.digits
  let e := d.exponent + digits.length - 1
  if l.positionalFrom ≤ e ∧ e < l.positionalBelow then positional digits e else l.scientific digits e

end NumeralLayout

namespace NumeralStyle

def zero : NumeralStyle → String
  | plain => "0.0"
  | scientific n => plainLayout.scientific ("".pushn '0' n) 0

def positive (b : Binary) : NumeralStyle → String
  | plain => plainLayout.write b.shortest
  | scientific n =>
    let d := Decimal.digitsTo n b.numerator b.denominator
    plainLayout.scientific (toString d.digits) (d.exponent + n - 1)

def write (style : NumeralStyle) (v : Float) : String :=
  match Decoded.ofDouble v with
  | .nan => "nan"
  | .infinite negative => if negative then "-inf" else "inf"
  | .finite b =>
    (if b.negative then "-" else "") ++ (if b.mantissa = 0 then style.zero else style.positive b)

end NumeralStyle

/-- The numeral of a double in the plain style. -/
def numeral (v : Float) : String := NumeralStyle.plain.write v

end Downhill
