import Downhill.Scalar.Double
import Downhill.Search.Trace
import Downhill.Tensor.Algebra

/-!
# Backtracking line search

From a point along a direction, steps `1`, `beta`, `beta ^ 2` and so on are tried until one falls
enough: the value there must not exceed the value at the start by more than `alpha` times what the
slope promises. The last step of the budget is returned in any case.
-/

namespace Downhill

structure LineSearch (α : Type) where
  alpha : α
  beta : α
  maxTrials : Int
  deriving Repr

structure LineSearchResult (α : Type) where
  candidate : Candidate α
  step : α
  trials : Nat
  /-- Whether the step falls enough. -/
  sufficient : Bool
  deriving Repr

namespace LineSearch

open scoped Scalar

variable {α : Type} [Scalar α]

def ofSettings (s : LineSearchSettings α) : LineSearch α := ⟨s.alpha, s.beta, s.maxTrials⟩

def validate (o : LineSearch α) : Except (SearchError α) Unit :=
  if !Scalar.isFraction o.alpha then .error .alphaOutside
  else if !Scalar.isFraction o.beta then .error .betaOutside
  else if o.maxTrials < 1 then .error .tooFewTrials
  else .ok ()

/-- Armijo's test: a value that is NaN never passes. -/
def sufficientAt (o : LineSearch α) (fx slope step value : α) : Bool :=
  Scalar.le value (fx + o.alpha * step * slope)

/-- The `trials`-th trial at `step`, and at most `left` more. -/
def backtrack (o : LineSearch α) (f : Point α → Except ε α) (x d : Point α) (fx slope : α) :
    (left : Nat) → (step : α) → (trials : Nat) → Except ε (LineSearchResult α)
  | left, step, trials => do
    let point := x.along d step
    let value ← f point
    if o.sufficientAt fx slope step value then
      return ⟨⟨value, point⟩, step, trials, true⟩
    else
      match left with
      | 0 => return ⟨⟨value, point⟩, step, trials, false⟩
      | left + 1 => backtrack o f x d fx slope left (step * o.beta) (trials + 1)

/-- Searches from a point along a direction. -/
def search (o : LineSearch α) (f : Point α → Except ExpressionError α)
    (g : Point α → Except ExpressionError (Point α)) (x d : Point α) :
    Except (SearchError α) (LineSearchResult α) := do
  o.validate
  let fx ← (f x).mapError .expression
  let gx ← (g x).mapError .expression
  let slope ← (gx.dot? d).mapError .shape
  (o.backtrack f x d fx slope (o.maxTrials.toNat - 1) (Scalar.nat 1) 1).mapError .expression

/-- Searches over data of any shape. Only vectors have a slope. -/
def searchTensor (o : LineSearch α) (f : Tensor α → Except ExpressionError α)
    (g : Tensor α → Except ExpressionError (Point α)) (x d : Tensor α) :
    Except (SearchError α) (LineSearchResult α) := do
  o.validate
  let fx ← (f x).mapError .expression
  let gx ← (g x).mapError .expression
  let slope ← ((Tensor.ofVector gx).inner? d).mapError .shape
  let trial (v : Point α) := f (.ofVector v)
  (o.backtrack trial x.data d.data fx slope (o.maxTrials.toNat - 1) (Scalar.nat 1) 1).mapError
    .expression

/-- Searches over data that have yet to be read, after the options were looked at. -/
def searchNested (alpha beta : Datum) (maxTrials : Int)
    (f : Tensor Float → Except ExpressionError Float)
    (g : Tensor Float → Except ExpressionError (Point Float)) (x d : Nested Datum) :
    Except (SearchError Float) (LineSearchResult Float) := do
  let bound (v : Datum) : Except (SearchError Float) Float :=
    v.bound?.mapError fun e => .shape (.conversion e)
  let o : LineSearch Float := ⟨← bound alpha, ← bound beta, maxTrials⟩
  o.validate
  let x ← (Tensor.read x).mapError .shape
  let d ← (Tensor.read d).mapError .shape
  o.searchTensor f g x d

end LineSearch

end Downhill
