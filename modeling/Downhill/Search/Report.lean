import Downhill.Journal.Level
import Downhill.Ranking
import Downhill.Search.Method

/-!
# Reports of a run

The lines that a search writes about itself, read off its trace: where it begins, every iteration
with what it sampled, and how it ends. A run that fails says nothing about its failure.
-/

namespace Downhill

structure Record where
  level : Level
  message : String
  deriving Repr

def Reason.status : Reason → Status
  | stepLimit => .maxStepsReached
  | _ => .converged

def Reason.message : Reason → String
  | noImprovement => "Terminating due to no improvement."
  | smallGradient => "Terminating due to small gradient norm."
  | smallDirection => "Terminating due to small direction norm."
  | stepLimit => "Maximum number of steps reached."

/-- How a search ended, as part of its result. -/
def Outcome.ending (o : Outcome α) : Ending := ⟨o.reason.status, o.iterations, o.reason.message⟩

/-- An outcome as a result among others. -/
def Outcome.result (o : Outcome Float) : Result :=
  ⟨o.candidate.value, .ofVector o.candidate.point, some o.ending⟩

/-- A direction that could not be continued is reported. -/
def restartRecords (restarted : Bool) : List Record :=
  if restarted then [⟨.warning, "Polak-Ribiere denominator is zero; restarting direction."⟩] else []

def Point.text (numeral : α → String) (x : Point α) : String :=
  "[" ++ ", ".intercalate (x.toList.map numeral) ++ "]"

namespace SearchError

variable {α : Type}

def message? (numeral : α → String) : SearchError α → Option String
  | expression e => e.message?
  | shape e => e.message?
  | settings e => e.message?
  | arithmetic _ => none
  | notAStart => "Starting point must be a non-empty 1-D sequence."
  | alphaOutside => "alpha must lie in (0, 1)"
  | betaOutside => "beta must lie in (0, 1)"
  | tooFewTrials => "max_steps must be at least 1"
  | startNotFinite s v =>
    s!"{s.label}: objective is not finite at the starting point ({numeral v})."
  | noFiniteTrial s k => s!"{s.label}: no finite trial point at iteration {k}."
  | noFinitePoint s k => s!"{s.label}: line search found no finite point at iteration {k}."

end SearchError

variable {α : Type} (numeral : α → String) (strategy : Strategy)

/-- A line that begins with the label of the strategy. -/
def Strategy.record (level : Level) (message : String) : Record :=
  ⟨level, strategy.label ++ ": " ++ message⟩

def Candidate.beginning (c : Candidate α) : List Record :=
  [strategy.record .info ("Begin at " ++ c.point.text numeral),
    strategy.record .info ("Original objective function = " ++ numeral c.value)]

def Iteration.records (k : Nat) (i : Iteration α) : List Record :=
  let c := i.current
  [strategy.record .debug
      s!"Iteration {k}, OF = {numeral c.value} @ {c.point.text numeral}"]
    ++ i.samples.map (fun (size, c) =>
      strategy.record .debug s!"Value {numeral c.value} at step {numeral size}")
    ++ restartRecords i.restarted

def Outcome.records (o : Outcome α) : List Record :=
  [strategy.record .info o.reason.message,
    strategy.record .info ("Result = " ++ o.candidate.point.text numeral),
    strategy.record .info ("Objective function = " ++ numeral o.candidate.value)]

def Trace.records (start : Candidate α) (t : Trace α) : List Record :=
  start.beginning numeral strategy
    ++ (t.iterations.zipIdx 1).flatMap (fun (i, k) => i.records numeral strategy k)
    ++ (match t.ending with
      | .ok o => o.records numeral strategy
      | .error _ => [])

end Downhill
