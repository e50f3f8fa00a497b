import Downhill.Parameters
import Downhill.Search.BacktrackingDescent
import Downhill.Search.ConjugateGradient
import Downhill.Search.GradientDescent

/-!
# Search methods

A method is a strategy with settings of the kind it needs. Strategies are known by name; names are
read in any case.
-/

namespace Downhill

namespace Strategy

def all : List Strategy := [gradientDescent, backtrackingDescent, conjugateGradient]

def name : Strategy → String
  | gradientDescent => "gradient_descent"
  | backtrackingDescent => "gradient_descent_bt"
  | conjugateGradient => "conjugate_gradient"

/-- The name that reports give to a strategy. -/
def label : Strategy → String
  | gradientDescent => "GradientDescentOptimizer"
  | backtrackingDescent => "GradientDescentOptimizerBT"
  | conjugateGradient => "ConjugateGradientOptimizer"

/-- Why a name is refused. -/
def unsupported (name : String) : String :=
  let quoted (s : String) := "'" ++ s ++ "'"
  "Unsupported optimizer name " ++ quoted name ++ ". Supported names: ["
    ++ ", ".intercalate ((all.map Strategy.name).mergeSort.map quoted) ++ "]"

def ofName? (name : String) : Option Strategy := all.find? (·.name == name.toLower)

end Strategy

inductive Method (α : Type) [Scalar α] where
  | gradientDescent (settings : DescentSettings α)
  | backtrackingDescent (settings : LineSearchSettings α)
  | conjugateGradient (settings : LineSearchSettings α)

namespace Method

variable {α : Type} [Scalar α]

def strategy : Method α → Strategy
  | gradientDescent _ => .gradientDescent
  | backtrackingDescent _ => .backtrackingDescent
  | conjugateGradient _ => .conjugateGradient

def maxSteps : Method α → Int
  | gradientDescent s => s.maxSteps
  | backtrackingDescent s | conjugateGradient s => s.maxSteps

/-- A search from a candidate. -/
def search (m : Method α) (f : Point α → Except ExpressionError α)
    (g : Point α → Except ExpressionError (Point α)) (start : Candidate α) : Trace α :=
  match m with
  | gradientDescent s => GradientDescent.search s f g start
  | backtrackingDescent s => BacktrackingDescent.search s f g start
  | conjugateGradient s => ConjugateGradient.search s f g start

end Method

/-- The method of a strategy, with settings from given parameters. -/
def Strategy.configure (s : Strategy) (parameters : Option Parameters) :
    Except SettingsError (Method Float) :=
  match s with
  | .gradientDescent => .gradientDescent <$> DescentSettings.ofParameters parameters
  | .backtrackingDescent => .backtrackingDescent <$> LineSearchSettings.ofParameters parameters
  | .conjugateGradient => .conjugateGradient <$> LineSearchSettings.ofParameters parameters

end Downhill
