import Downhill.Point
import Downhill.Scalar.Double
import Downhill.Tensor.Basic

/-!
# Arithmetic on tensors

What the operations on points mean for data of any shape. An inner product runs over the last axis
on the left and the first, or else the last but one, on the right; it is a number if both sides are
numbers or both are vectors. A difference spreads its operands to one shape.
-/

namespace Downhill.Tensor

open scoped Scalar

variable {α : Type} [Scalar α]

/-- The axis of a right operand that an inner product runs over. -/
def contracted : List Nat → Nat
  | [] => 1
  | [n] => n
  | [n, _] => n
  | _ :: rest => contracted rest

/-- An inner product that is a number. -/
def inner? (a b : Tensor α) : Except ShapeError α :=
  match a.shape, b.shape with
  | [], [] => .ok (Point.dot a.data b.data)
  | [], _ | _, [] => .error .notSingle
  | [m], [n] => if m = n then .ok (Point.dot a.data b.data) else .error .misaligned
  | _, _ => if a.lastLength = contracted b.shape then .error .notSingle else .error .misaligned

def norm? (a : Tensor α) : Except ShapeError α := Scalar.sqrt <$> a.inner? a

def flip (a : Tensor α) : Tensor α := ⟨a.shape, Point.flip a.data⟩

def combine? (a b : Tensor α) (scaleB scaleA : α) : Except ShapeError (Tensor α) :=
  if a.shape = b.shape then
    return ⟨a.shape, ← Point.combine? a.data b.data scaleB scaleA⟩
  else .error (.mismatch a.shape b.shape)

/-- `combine?` with factors that are read once the shapes agree. -/
def combineRead? (a b : Tensor Float) (scaleB scaleA : Datum) : Except ShapeError (Tensor Float) :=
  if a.shape = b.shape then do
    let scaleA ← scaleA.toDouble?.mapError .conversion
    let scaleB ← scaleB.toDouble?.mapError .conversion
    a.combine? b scaleB scaleA
  else .error (.mismatch a.shape b.shape)

/-- The shape that two shapes spread to, all of them given from the last axis on. An axis of length
one, or one that is missing, stands for any length. -/
def spread? : List Nat → List Nat → Option (List Nat)
  | [], t => some t
  | s, [] => some s
  | m :: s, n :: t =>
    if m = n ∨ n = 1 then (spread? s t).map (m :: ·)
    else if m = 1 then (spread? s t).map (n :: ·)
    else none

/-- The place in data of a shape of what is at place `k` after spreading; shapes are given from the
last axis on. -/
def source : (shape spread : List Nat) → (k : Nat) → Nat
  | n :: shape, l :: spread, k =>
    (if n = 1 then 0 else k % l) + n * source shape spread (k / l)
  | _, _, _ => 0

/-- Data spread to a shape that is given from the last axis on. -/
def spread (a : Tensor α) (shape : List Nat) : Array α :=
  ((List.range (shape.foldl (· * ·) 1)).map fun k =>
    a.data.getD (source a.shape.reverse shape k) (Scalar.nat 0)).toArray

def minus? (a b : Tensor α) : Except ShapeError (Tensor α) :=
  match spread? a.shape.reverse b.shape.reverse with
  | none => .error .misaligned
  | some shape => .ok ⟨shape.reverse, (a.spread shape).zipWith (· - ·) (b.spread shape)⟩

def polakRibiere? (new old : Tensor α) : Except ShapeError (Option α) := do
  let denominator ← old.inner? old
  if Scalar.eq denominator (Scalar.nat 0) then
    return none
  let numerator ← new.inner? (← new.minus? old)
  return some (← (Scalar.quotient? numerator denominator).mapError .arithmetic)

/-- The distance of central differences, unless another is asked for. -/
def defaultPerturbation : Float := 1e-6

/-- Central differences of a function of points, at data of any shape. -/
def centralDifferences? (f : Tensor α → Except ExpressionError α) (x : Tensor α) (eps : α) :
    Except ExpressionError (Tensor α) := do
  return ⟨x.shape, ← Point.centralDifferences (fun v => f ⟨x.shape, v⟩) x.data eps⟩

/-- Central differences at data that have yet to be read, after the distance was looked at. Where
there is nothing to vary, neither the function nor the distance matters. -/
def slopesOf? (f : Tensor Float → Except ExpressionError Float) (x : Nested Datum) (eps : Datum) :
    Except ExpressionError (Tensor Float) := do
  let read {β : Type} (r : Except ConversionError β) : Except ExpressionError β :=
    r.mapError .conversion
  if (← read eps.bound?) ≤ 0.0 then throw (.shape .stepNotPositive)
  let x ← (Tensor.read x).mapError .shape
  if x.data.isEmpty then return x
  if x.rank = 0 then throw (.shape .noAxis)
  x.centralDifferences? f (← read eps.toDouble?)

end Downhill.Tensor
