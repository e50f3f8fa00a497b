import Downhill.Search.Improvement
import Downhill.Search.Trace

/-!
# Gradient descent over sampled steps

Every iteration tries three fixed steps against the gradient and moves to the best of the finite
values found, or stays where it is if that is no worse. Values therefore never rise.
-/

namespace Downhill.GradientDescent

open scoped Scalar

variable {α : Type} [Scalar α]

/-- Where a run stands between iterations. -/
structure State (α : Type) where
  current : Candidate α
  tracker : ImprovementTracker α

def stepSizes : List α := [Scalar.decimal 1 2, Scalar.decimal 5 2, Scalar.decimal 2 1]

/-- The candidate at a multiple of the gradient. -/
def sample (f : Point α → Except ExpressionError α) (factor : α) (x gradient : Point α) (size : α) :
    Except (SearchError α) (α × Candidate α) := do
  let point ← (x.combine? gradient (-size * factor) (Scalar.nat 1)).mapError .shape
  let value ← (f point).mapError .expression
  return (size, ⟨value, point⟩)

/-- The lowest of some candidates, the first of equal ones. -/
def best (first : Candidate α) (others : List (Candidate α)) : Candidate α :=
  others.foldl (fun b c => if Scalar.lt c.value b.value then c else b) first

def step (settings : DescentSettings α) (f : Point α → Except ExpressionError α)
    (g : Point α → Except ExpressionError (Point α)) (k : Nat) (s : State α) :
    Except (SearchError α) (Iteration α × Verdict (State α) α) := do
  let gradient ← (g s.current.point).mapError .expression
  let all ← stepSizes.mapM (sample f settings.stepFactor s.current.point gradient)
  let samples := all.filter fun (_, c) => Scalar.isFinite c.value
  if samples.isEmpty then
    throw (.noFiniteTrial .gradientDescent k)
  let candidate := best s.current (samples.map (·.2))
  let seen : Iteration α := { current := s.current, samples, candidate? := some candidate }
  let (exhausted, tracker) ←
    (s.tracker.update s.current.value candidate.value).mapError .arithmetic
  if exhausted then
    return (seen, .stop ⟨s.current, .noImprovement, k⟩)
  else
    return (seen, .continue ⟨candidate, tracker⟩)

def search (settings : DescentSettings α) (f : Point α → Except ExpressionError α)
    (g : Point α → Except ExpressionError (Point α)) (start : Candidate α) : Trace α :=
  Trace.follow State.current (step settings f g) settings.maxSteps.toNat 1
    ⟨start, .ofSettings settings⟩

end Downhill.GradientDescent
