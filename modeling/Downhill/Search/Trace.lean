import Downhill.Point
import Downhill.Search.Settings

/-!
# Traces

A search goes from candidate to candidate until it stops or fails. Its trace keeps what every
iteration saw, so that all that is said about a run, and all that a run reports, can be read off.
`Trace.follow` repeats a step, at most a given number of times.
-/

namespace Downhill

inductive Strategy where
  | gradientDescent
  | backtrackingDescent
  | conjugateGradient
  deriving DecidableEq, Repr

/-- A point and the value of the objective there. -/
structure Candidate (α : Type) where
  value : α
  point : Point α
  deriving Repr

/-- Why a search stopped. -/
inductive Reason where
  | noImprovement
  | smallGradient
  | smallDirection
  | stepLimit
  deriving DecidableEq, Repr

structure Outcome (α : Type) where
  candidate : Candidate α
  reason : Reason
  iterations : Nat
  deriving Repr

inductive SearchError (α : Type) where
  | expression (e : ExpressionError)
  | shape (e : ShapeError)
  | settings (e : SettingsError)
  | arithmetic (e : ArithmeticError)
  /-- A start that is no point of at least one coordinate. -/
  | notAStart
  | alphaOutside
  | betaOutside
  | tooFewTrials
  | startNotFinite (strategy : Strategy) (value : α)
  | noFiniteTrial (strategy : Strategy) (iteration : Nat)
  | noFinitePoint (strategy : Strategy) (iteration : Nat)
  deriving Repr

/-- What one iteration saw. -/
structure Iteration (α : Type) where
  current : Candidate α
  /-- The sampled steps that led to finite values. -/
  samples : List (α × Candidate α) := []
  /-- The candidate that competes with the current one, if it came to that. -/
  candidate? : Option (Candidate α) := none
  /-- The search direction was given up for lack of a coefficient. -/
  restarted : Bool := false
  deriving Repr

/-- Where an iteration leaves a search whose state is a `σ`. -/
inductive Verdict (σ α : Type) where
  | continue (state : σ)
  | stop (outcome : Outcome α)

structure Trace (α : Type) where
  iterations : List (Iteration α)
  ending : Except (SearchError α) (Outcome α)

namespace Trace

/-- Repeats a step up to `left` times, counting from `k`. -/
def follow (current : σ → Candidate α)
    (step : Nat → σ → Except (SearchError α) (Iteration α × Verdict σ α)) :
    (left k : Nat) → σ → Trace α
  | 0, k, s => ⟨[], .ok ⟨current s, .stepLimit, k - 1⟩⟩
  | left + 1, k, s =>
    match step k s with
    | .error e => ⟨[{ current := current s }], .error e⟩
    | .ok (i, .stop o) => ⟨[i], .ok o⟩
    | .ok (i, .continue s) =>
      let rest := follow current step left (k + 1) s
      ⟨i :: rest.iterations, rest.ending⟩

end Trace

namespace SearchError

def iteration? : SearchError α → Option Nat
  | noFiniteTrial _ k | noFinitePoint _ k => some k
  | _ => none

end SearchError

end Downhill
