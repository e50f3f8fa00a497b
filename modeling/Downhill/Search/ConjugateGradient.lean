import Downhill.Search.Improvement
import Downhill.Search.LineSearch

/-!
# Conjugate gradients

The first direction is the negative gradient. After every line search the next one adds a multiple
of the direction just searched, the Polak-Ribiere coefficient or zero if that is negative or
undefined. A small direction ends the run once enough steps were taken.
-/

namespace Downhill.ConjugateGradient

open scoped Scalar

variable {α : Type} [Scalar α]

/-- Where a run stands between iterations. -/
structure State (α : Type) where
  current : Candidate α
  gradient : Point α
  direction : Point α
  tracker : ImprovementTracker α

/-- The multiple of the old direction in the next one, which is never negative. -/
def weight (coefficient : Option α) : α :=
  let v := Point.orRestart coefficient
  if Scalar.lt v (Scalar.nat 0) then Scalar.nat 0 else v

def step (settings : LineSearchSettings α) (f : Point α → Except ExpressionError α)
    (g : Point α → Except ExpressionError (Point α)) (k : Nat) (s : State α) :
    Except (SearchError α) (Iteration α × Verdict (State α) α) := do
  let found ← (LineSearch.ofSettings settings).search f g s.current.point s.direction
  let candidate := found.candidate
  if !Scalar.isFinite candidate.value then
    throw (.noFinitePoint .conjugateGradient k)
  let gradient ← (g candidate.point).mapError .expression
  let coefficient ← (Point.polakRibiere? gradient s.gradient).mapError .shape
  let direction ←
    (s.direction.combine? gradient (-Scalar.nat 1) (weight coefficient)).mapError .shape
  let seen : Iteration α :=
    { current := s.current, candidate? := some candidate, restarted := coefficient.isNone }
  let (exhausted, tracker) ←
    (s.tracker.update s.current.value candidate.value).mapError .arithmetic
  if exhausted then
    return (seen, .stop ⟨s.current, .noImprovement, k⟩)
  else if Scalar.lt direction.norm settings.normBound && decide (settings.minSteps < k) then
    return (seen, .stop ⟨candidate, .smallDirection, k⟩)
  else
    return (seen, .continue ⟨candidate, gradient, direction, tracker⟩)

def search (settings : LineSearchSettings α) (f : Point α → Except ExpressionError α)
    (g : Point α → Except ExpressionError (Point α)) (start : Candidate α) : Trace α :=
  match g start.point with
  | .error e => ⟨[], .error (.expression e)⟩
  | .ok gradient =>
    Trace.follow State.current (step settings f g) settings.maxSteps.toNat 1
      ⟨start, gradient, gradient.flip, .ofSettings settings.toDescentSettings⟩

end Downhill.ConjugateGradient
