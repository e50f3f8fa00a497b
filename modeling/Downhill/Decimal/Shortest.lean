import Downhill.Decimal.Basic

/-!
# The fewest digits that read back

The decimals that are read as a given double form an interval around it, ends included if the
mantissa is even. Going from coarse grids to fine ones, the first grid with a point in the interval
gives the fewest digits. If a grid has any, one of the two around the number is among them; of two
the nearer is taken, and the even one if both are equally near.
-/

namespace Downhill.Binary

/-- Whether `d` steps of the grid of `k` read back as the double. -/
def readsAs (b : Binary) (k : Int) (d : Nat) : Bool :=
  let x := d * Decimal.step b.denominator k
  let below := if b.narrowBelow then b.unit else 2 * b.unit
  let low := Decimal.scaled (b.numerator - below) k
  let high := Decimal.scaled (b.numerator + 2 * b.unit) k
  if b.mantissa % 2 = 0 then low ≤ x && x ≤ high else low < x && x < high

/-- The best point of the grid of `k` that reads back. -/
def onGrid? (b : Binary) (k : Int) : Option Nat :=
  let num := Decimal.scaled b.numerator k
  let den := Decimal.step b.denominator k
  let d := num / den
  match b.readsAs k d, b.readsAs k (d + 1) with
  | true, true => some (Decimal.roundDiv num den)
  | true, false => some d
  | false, true => some (d + 1)
  | false, false => none

/-- The first hit on `n` grids from that of `k` down. Seventeen digits always suffice, so the last
grid is never left without one. -/
def firstHit (b : Binary) : Nat → Int → Decimal
  | 0, k => ⟨Decimal.roundDiv (Decimal.scaled b.numerator k) (Decimal.step b.denominator k), k⟩
  | n + 1, k =>
    match b.onGrid? k with
    | some d => ⟨d, k⟩
    | none => firstHit b n (k - 1)

/-- The shortest decimal of a positive double. -/
def shortest (b : Binary) : Decimal :=
  b.firstHit 17 (Decimal.magnitude b.numerator b.denominator + 1)

end Downhill.Binary
