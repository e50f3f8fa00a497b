import Downhill.Objective
import Downhill.Search.Report

/-!
# Minimising an objective

An objective is built over as many variables as the starting point has coordinates, compiled
together with its gradient, and searched from there. The value at the start has to be finite.
-/

namespace Downhill

/-- A run as far as it came: where the search began, if it did, and how it went on. -/
structure Run (α : Type) where
  start : Option (Candidate α) := none
  trace : Trace α

namespace Run

variable {α : Type}

def failed (e : SearchError α) : Run α := { trace := ⟨[], .error e⟩ }

/-- All that a run writes. -/
def records (numeral : α → String) (strategy : Strategy) (r : Run α) : List Record :=
  match r.start with
  | some c => r.trace.records numeral strategy c
  | none => []

end Run

variable {α : Type} [Scalar α]

namespace Build

/-- An objective as function and gradient over `dim` fresh variables. -/
def compiled (o : Objective α) (dim : Nat) :
    Build α (CompiledFunction α × CompiledGradient α) := do
  let root ← expression (← objective o dim)
  let f ← function dim (.expression root)
  let g ← compiledGradient dim (.expression root)
  return (f, g)

end Build

/-- A search from a point, if the value there is finite. -/
def Method.start (m : Method α) (f : CompiledFunction α) (g : CompiledGradient α) (x : Point α) :
    Run α :=
  match f.apply x with
  | .error e => .failed (.expression e)
  | .ok value =>
    if Scalar.isFinite value then
      let c : Candidate α := ⟨value, x⟩
      { start := some c, trace := m.search f.apply g.apply c }
    else .failed (.startNotFinite m.strategy value)

/-- A search of an objective from a point. -/
def Method.minimise (m : Method α) (o : Objective α) (x : Point α) : Run α :=
  match ((Build.compiled o x.size).run .empty).1 with
  | .error e => .failed (.expression e)
  | .ok (f, g) => m.start f g x

/-- The method and the point of a run: the parameters have to make valid settings, the start a
point of at least one coordinate. -/
def Strategy.prepare (s : Strategy) (parameters : Option Parameters) (start : Nested Datum) :
    Except (SearchError Float) (Method Float × Point Float) := do
  let m ← (s.configure parameters).mapError .settings
  let x ← (Tensor.read start).mapError .shape
  if x.rank ≠ 1 ∨ x.data.isEmpty then
    throw .notAStart
  return (m, x.data)

def Strategy.minimise (s : Strategy) (parameters : Option Parameters) (o : Objective Float)
    (start : Nested Datum) : Run Float :=
  match s.prepare parameters start with
  | .error e => .failed e
  | .ok (m, x) => m.minimise o x

end Downhill
