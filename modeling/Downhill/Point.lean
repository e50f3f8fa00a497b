import Downhill.Graph.Error
import Downhill.Scalar

/-!
# Points

Coordinates, directions and gradients. Sums run from left to right and start from zero, except that
a single term is its own sum. Operations on two points fail if their dimensions do not fit, unless
they say otherwise.
-/

namespace Downhill

abbrev Point (α : Type) := Array α

namespace Point

open scoped Scalar

variable {α : Type} [Scalar α]

def sum : List α → α
  | [v] => v
  | vs => vs.foldl (· + ·) (Scalar.nat 0)

/-- The inner product of points of one dimension. -/
def dot (a b : Point α) : α := sum (List.zipWith (· * ·) a.toList b.toList)

def dot? (a b : Point α) : Except ShapeError α :=
  if a.size = b.size then .ok (a.dot b) else .error .misaligned

def norm (a : Point α) : α := Scalar.sqrt (a.dot a)

def flip (a : Point α) : Point α := a.map (- ·)

/-- `a * scaleA + b * scaleB`. -/
def combine? (a b : Point α) (scaleB scaleA : α) : Except ShapeError (Point α) :=
  if a.size = b.size then .ok (a.zipWith (fun u v => u * scaleA + v * scaleB) b)
  else .error (.mismatch [a.size] [b.size])

/-- The point at step `t` from `x` in direction `d`. -/
def along (x d : Point α) (t : α) : Point α := x.zipWith (fun u v => u + t * v) d

/-- The difference, where a single number counts for every coordinate. -/
def minus? (a b : Point α) : Except ShapeError (Point α) :=
  if a.size = b.size then .ok (a.zipWith (· - ·) b)
  else
    match a.toList, b.toList with
    | _, [v] => .ok (a.map (· - v))
    | [u], _ => .ok (b.map (u - ·))
    | _, _ => .error .misaligned

/-- The coefficient `new . (new - old) / (old . old)`; there is none if `old` is zero. -/
def polakRibiere? (new old : Point α) : Except ShapeError (Option α) :=
  let denominator := old.dot old
  if Scalar.eq denominator (Scalar.nat 0) then .ok none
  else do
    let numerator ← new.dot? (← new.minus? old)
    return some (← (Scalar.quotient? numerator denominator).mapError .arithmetic)

/-- What to go on with: a search without a coefficient restarts, which is a coefficient of zero. -/
def orRestart (coefficient : Option α) : α := coefficient.getD (Scalar.nat 0)

/-- The point with `eps` at coordinate `i` and zero elsewhere. -/
def axis (dim i : Nat) (eps : α) : Point α :=
  (Array.replicate dim (Scalar.nat 0)).setIfInBounds i eps

/-- The slope of `f` at `x` in each coordinate, from values at distance `eps` on both sides. -/
def centralDifferences (f : Point α → Except ε α) (x : Point α) (eps : α) :
    Except ε (Point α) := do
  let slopes ← (List.range x.size).mapM fun i => do
    let e := axis x.size i eps
    let above ← f (x.zipWith (· + ·) e)
    let below ← f (x.zipWith (· - ·) e)
    return (above - below) / (Scalar.nat 2 * eps)
  return slopes.toArray

end Point

end Downhill
