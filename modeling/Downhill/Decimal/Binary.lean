/-!
# Doubles as exact numbers

A finite double is a sign and a number `mantissa * 2 ^ exponent`; everything that is said about its
decimal text is said of that number, in natural arithmetic.
-/

namespace Downhill

structure Binary where
  negative : Bool
  mantissa : Nat
  exponent : Int
  /-- The next double towards zero is only half as far away as the next one outwards. -/
  narrowBelow : Bool
  deriving DecidableEq, Repr

/-- What the bits of a double stand for. -/
inductive Decoded where
  | nan
  | infinite (negative : Bool)
  | finite (b : Binary)
  deriving DecidableEq, Repr

def Decoded.ofDouble (v : Float) : Decoded :=
  let bits : Nat := v.toBits.toNat
  let negative := bits >>> 63 == 1
  let biased : Nat := bits >>> 52 % 0x800
  let fraction : Nat := bits % 0x10000000000000
  if biased = 2047 then
    if fraction = 0 then .infinite negative else .nan
  else if biased = 0 then
    .finite { negative, mantissa := fraction, exponent := -1074, narrowBelow := false }
  else
    .finite
      { negative, mantissa := 0x10000000000000 + fraction, exponent := (biased : Int) - 1075,
        narrowBelow := fraction = 0 && 1 < biased }

namespace Binary

/-- The value is `numerator / denominator`, in quarters of the last place: `numerator` is divisible
by four, and the neighbouring doubles are four units away, or two where `narrowBelow` says so. -/
def numerator (b : Binary) : Nat := (4 * b.mantissa) <<< (b.exponent - 2).toNat

def denominator (b : Binary) : Nat := 1 <<< (2 - b.exponent).toNat

/-- The whole part of the value. -/
def whole (b : Binary) : Nat := b.mantissa <<< b.exponent.toNat >>> (-b.exponent).toNat

/-- The whole part with its sign. -/
def integer (b : Binary) : Int := if b.negative then -(b.whole : Int) else b.whole

/-- One unit, a quarter of the last place, as a numerator. -/
def unit (b : Binary) : Nat := 1 <<< (b.exponent - 2).toNat

end Binary

end Downhill
