import Downhill.Sample.Rosenbrock

/-!
# Models

A model is made from a class and builds an objective whenever it is asked to. Of the classes here
only the sum of squares takes an argument, the center from which squares are measured, and counts
how often it was asked. A class without an objective is refused by every optimizer; one whose
objective is not an expression over the variables it was given fails when a run compiles it.
-/

namespace Downhill

/-- What a constructor may be given. -/
inductive Argument where
  /-- Parameters, by the place where they are kept. -/
  | parameters (id : Nat)
  /-- A mapping with so many keys. -/
  | mapping (size : Nat)
  | data (n : Nested Datum)

inductive ModelClass where
  | sumOfSquares
  | logarithm
  | rosenbrock
  /-- A class without an objective. -/
  | bare
  /-- A class whose objective is a number. -/
  | constant
  /-- A class whose objective lives in another pool. -/
  | foreign
  /-- A class whose objective is nothing. -/
  | nothing
  deriving DecidableEq, Repr

namespace ModelClass

def all : List ModelClass := [sumOfSquares, logarithm, rosenbrock, bare, constant, foreign, nothing]

def name : ModelClass → String
  | sumOfSquares => "SumOfSquares"
  | logarithm => "LogModel"
  | rosenbrock => "Rosenbrock"
  | bare => "NotAModel"
  | constant => "BadAttr"
  | foreign => "ForeignModel"
  | nothing => "NoneModel"

def ofName? (name : String) : Option ModelClass := all.find? (·.name == name)

/-- Whether a class says how to build an objective. -/
def hasObjective : ModelClass → Bool
  | bare | constant => false
  | _ => true

end ModelClass

structure Model where
  kind : ModelClass
  center : Option Argument := none
  /-- How often the objective was built. -/
  builds : Nat := 0

namespace Model

/-- What a center yields, one by one, as operands. A mapping yields its keys, which are texts, and
so do parameters, of which `sizes` tells the number. -/
def coordinates? (sizes : Nat → Nat) : Argument → Option (List (Operand Float))
  | .parameters id => some (List.replicate (sizes id) (.other Datum.text.kind))
  | .mapping n => some (List.replicate n (.other Datum.text.kind))
  | .data (.list parts) =>
    some (parts.map fun
      | .leaf d => d.operand
      | .list _ => .other Datum.list.kind)
  | .data (.leaf .dict) => some []
  | .data (.leaf .list) => some [.number 1.0]
  | .data (.leaf _) => none

/-- A center as the numbers that it lists, if it is made of numbers. -/
def listing? : Argument → Except ShapeError (Nested Float)
  | .parameters _ | .mapping _ => .error (.conversion .notANumber)
  | .data (.leaf .list) => .ok (.list [.leaf 1.0])
  | .data n => do (← Tensor.read n).listed?

/-- The sum of the squares of the distances from a center, which counts as far as it goes. -/
def squares (center : List (Operand Float)) : Objective Float := fun xs =>
  (xs.toList.zip center).foldlM
    (fun total (x, c) => do
      let square ← Build.unary .sqr (← Build.combine .sub (.expression x) c)
      return .expression (← Build.combine .add total (.expression square)))
    (.number 0.0)

def objective (sizes : Nat → Nat) (m : Model) : Objective Float :=
  match m.kind with
  | .sumOfSquares => fun xs =>
    match m.center with
    | none => squares (List.replicate xs.size (.number 0.0)) xs
    | some c =>
      match coordinates? sizes c with
      | some center => squares center xs
      | none => throw .uncombinable
  | .logarithm => fun xs => (Term.var 0).log.build xs
  | .rosenbrock => Rosenbrock.objective
  | .foreign => fun _ => return .foreign
  | .bare | .constant | .nothing => fun _ => return .other Datum.none.kind

/-- A center that is nothing counts as none. -/
def center? : Argument → Option Argument
  | .data (.leaf .none) => none
  | a => some a

/-- A model from positional and named arguments, if its class takes them. -/
def ofArguments? (kind : ModelClass) (args : List Argument) (named : List (String × Argument)) :
    Option Model :=
  match kind, args, named with
  | _, [], [] => some { kind }
  | .sumOfSquares, [c], [] => some { kind, center := center? c }
  | .sumOfSquares, [], [("center", c)] => some { kind, center := center? c }
  | _, _, _ => none

end Model

end Downhill
