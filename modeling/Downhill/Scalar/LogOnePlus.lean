/-!
# The logarithm of one plus a fraction

`logOnePlus x` is `ln (1 + x)` for doubles `0 ≤ x ≤ 1`, accurate to the last place also where
`1 + x` has lost digits of `x`. Up to about `√2` the number `1 + x` is taken as it is, above that it
is halved, so that in both cases `1 + f` with `√2 / 2 < 1 + f < √2` is left; `ln (1 + f)` is then a
polynomial in `s = f / (2 + f)`.
-/

namespace Downhill.LogOnePlus

/-- The leading digits of `ln 2`; the last bits of this number are zero. -/
def ln2High : Float := 6.93147180369123816490e-01

/-- The rest of `ln 2`. -/
def ln2Low : Float := 1.90821492927058770002e-10

/-- The polynomial, as a function of `z = s * s`, summed in pairs. -/
def polynomial (z : Float) : Float :=
  let z2 := z * z
  let z4 := z2 * z2
  let z6 := z4 * z2
  let r1 := z * 6.666666666666735130e-01
  let r2 := 3.999999999940941908e-01 + z * 2.857142874366239149e-01
  let r3 := 2.222219843214978396e-01 + z * 1.818357216161805012e-01
  let r4 := 1.531383769920937332e-01 + z * 1.479819860511658591e-01
  r1 + z2 * r2 + z4 * r3 + z6 * r4

/-- `ln (1 + f)`. -/
def direct (f : Float) : Float :=
  let half := 0.5 * f * f
  let s := f / (2.0 + f)
  f - (half - s * (half + polynomial (s * s)))

/-- `ln 2 + ln (1 + f) + c`, where `c` makes up for what the sum lost. Within `2 ^ -20` of zero two
terms of the series in `f` suffice. -/
def halved (f c : Float) (small : Bool) : Float :=
  let half := 0.5 * f * f
  if f == 0.0 then
    ln2High + (c + ln2Low)
  else if small then
    ln2High - ((half * (1.0 - 0.66666666666666666 * f) - (ln2Low + c)) - f)
  else
    let s := f / (2.0 + f)
    ln2High - ((half - (s * (half + polynomial (s * s)) + (ln2Low + c))) - f)

end LogOnePlus

open LogOnePlus in
def logOnePlus (x : Float) : Float :=
  if x < 5.551115123125783e-17 then
    x
  else if x < 1.862645149230957e-09 then
    x - x * x * 0.5
  else if x < 0.4142136573791504 then
    direct x
  else
    let u := 1.0 + x
    let lost := if u < 2.0 then x - (u - 1.0) else 1.0 - (u - x)
    halved (u / 2.0 - 1.0) (lost / u) (decide (1.9999971389770508 ≤ u))

end Downhill
