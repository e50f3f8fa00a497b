import Downhill.Scalar.Double
import Downhill.Search.Settings

/-!
# Improvement

A step improves on the one before if the value falls by enough, both absolutely and in proportion to
its size; the second test is dropped where the value was exactly zero. The tracker counts the steps
in a row that do not improve.
-/

namespace Downhill

inductive TrackerError where
  | conversion (e : ConversionError)
  | arithmetic (e : ArithmeticError)
  deriving DecidableEq, Repr

structure ImprovementTracker (α : Type) where
  minAbsolute : α
  minRelative : α
  patience : Int
  streak : Int := 0
  deriving Repr

namespace ImprovementTracker

open scoped Scalar

variable {α : Type} [Scalar α]

def ofSettings (s : DescentSettings α) : ImprovementTracker α :=
  { minAbsolute := s.minAbsolute, minRelative := s.minRelative, patience := s.patience }

def isImprovement (t : ImprovementTracker α) (previous candidate : α) :
    Except ArithmeticError Bool := do
  let improvement := previous - candidate
  if Scalar.lt improvement t.minAbsolute then
    return false
  else if Scalar.eq previous (Scalar.nat 0) then
    return true
  else
    return !Scalar.lt (← Scalar.quotient? improvement (Scalar.abs previous)) t.minRelative

/-- Counts a step, and says whether it was the last straw. -/
def update (t : ImprovementTracker α) (previous candidate : α) :
    Except ArithmeticError (Bool × ImprovementTracker α) := do
  if ← t.isImprovement previous candidate then
    return (false, { t with streak := 0 })
  else
    return (decide (t.patience ≤ t.streak + 1), { t with streak := t.streak + 1 })

/-- What a tracker says of steps whose values have yet to be read: whether each improves, whether it
is the last straw, and the streak after it. -/
def follow (t : ImprovementTracker Float) :
    List (Datum × Datum) → Except TrackerError (List (Bool × Bool × Int))
  | [] => .ok []
  | (previous, candidate) :: rest => do
    let previous ← previous.toDouble?.mapError .conversion
    let candidate ← candidate.toDouble?.mapError .conversion
    let improves ← (t.isImprovement previous candidate).mapError .arithmetic
    let (exhausted, next) ← (t.update previous candidate).mapError .arithmetic
    return (improves, exhausted, next.streak) :: (← next.follow rest)

end ImprovementTracker

end Downhill
