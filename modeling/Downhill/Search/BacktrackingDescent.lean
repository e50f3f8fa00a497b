import Downhill.Search.Improvement
import Downhill.Search.LineSearch

/-!
# Gradient descent with a line search

Every iteration searches along the negative gradient and moves to what the line search returns. A
small gradient ends the run once enough steps were taken.
-/

namespace Downhill.BacktrackingDescent

variable {α : Type} [Scalar α]

/-- Where a run stands between iterations. -/
structure State (α : Type) where
  current : Candidate α
  tracker : ImprovementTracker α

def step (settings : LineSearchSettings α) (f : Point α → Except ExpressionError α)
    (g : Point α → Except ExpressionError (Point α)) (k : Nat) (s : State α) :
    Except (SearchError α) (Iteration α × Verdict (State α) α) := do
  let seen : Iteration α := { current := s.current }
  let gradient ← (g s.current.point).mapError .expression
  if Scalar.lt gradient.norm settings.normBound && decide (settings.minSteps < k) then
    return (seen, .stop ⟨s.current, .smallGradient, k⟩)
  let found ← (LineSearch.ofSettings settings).search f g s.current.point gradient.flip
  let candidate := found.candidate
  if !Scalar.isFinite candidate.value then
    throw (.noFinitePoint .backtrackingDescent k)
  let seen := { seen with candidate? := some candidate }
  let (exhausted, tracker) ←
    (s.tracker.update s.current.value candidate.value).mapError .arithmetic
  if exhausted then
    return (seen, .stop ⟨s.current, .noImprovement, k⟩)
  else
    return (seen, .continue ⟨candidate, tracker⟩)

def search (settings : LineSearchSettings α) (f : Point α → Except ExpressionError α)
    (g : Point α → Except ExpressionError (Point α)) (start : Candidate α) : Trace α :=
  Trace.follow State.current (step settings f g) settings.maxSteps.toNat 1
    ⟨start, .ofSettings settings.toDescentSettings⟩

end Downhill.BacktrackingDescent
