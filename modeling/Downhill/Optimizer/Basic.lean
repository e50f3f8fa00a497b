import Downhill.Optimizer.Model
import Downhill.Search.Minimise

/-!
# Optimizers

An optimizer binds a model to a strategy and, if it is given any, to parameters. It owns a model
that it made itself and borrows one that already existed. Models and parameters may change after an
optimizer was made, and it takes them as they are when it runs; so they are kept in one place, the
workbench, and referred to.
-/

namespace Downhill

inductive OptimizerError where
  | unknownName
  /-- No strategy at all was chosen. -/
  | noStrategy
  | unsupportedStrategy (name : String)
  | parametersTwice
  | notParameters
  | argumentsForInstance
  /-- A class that does not take the arguments it is given. -/
  | badArguments
  | noObjective (kind : ModelClass)
  deriving Repr

def OptimizerError.message? : OptimizerError → Option String
  | unsupportedStrategy name => Strategy.unsupported name
  | parametersTwice => "parameters given both positionally and by keyword."
  | notParameters => "parameters must be an OptimizerParameters instance."
  | argumentsForInstance => "Constructor arguments can only be forwarded to a model class."
  | noObjective kind => s!"{kind.name} does not define objective_function(x)."
  | unknownName | noStrategy | badArguments => none

structure Optimizer where
  strategy : Strategy
  model : Nat
  owns : Bool
  parameters : Option Nat
  deriving Repr

/-- What there is to say about an optimizer. -/
structure Optimizer.Description where
  strategy : Strategy
  owns : Bool
  model : Option ModelClass
  center : Option (Nested Float)
  parameters : Option Parameters

/-- Where the model of an optimizer comes from. -/
inductive ModelSource where
  | made (kind : ModelClass)
  | existing (id : Nat)

/-- Parameters, models and optimizers, and the names they go by. -/
structure Workbench where
  parameters : Array Parameters := #[]
  models : Array Model := #[]
  parameterNames : List (String × Nat) := []
  modelNames : List (String × Nat) := []
  optimizerNames : List (String × Optimizer) := []

namespace Workbench

def parametersNamed (w : Workbench) (name : String) : Except OptimizerError Nat :=
  match w.parameterNames.lookup name with
  | some id => .ok id
  | none => .error .unknownName

def modelNamed (w : Workbench) (name : String) : Except OptimizerError Nat :=
  match w.modelNames.lookup name with
  | some id => .ok id
  | none => .error .unknownName

def optimizerNamed (w : Workbench) (name : String) : Except OptimizerError Optimizer :=
  match w.optimizerNames.lookup name with
  | some o => .ok o
  | none => .error .unknownName

/-- The model of that name, or else that of the optimizer of that name. -/
def modelBehind (w : Workbench) (name : String) : Except OptimizerError Nat :=
  match w.modelNamed name with
  | .ok id => .ok id
  | .error _ => Optimizer.model <$> w.optimizerNamed name

def addParameters (w : Workbench) (name : String) (p : Parameters) : Workbench :=
  { w with
    parameters := w.parameters.push p
    parameterNames := assign name w.parameters.size w.parameterNames }

/-- Stores a value in parameters; all who refer to them see it. -/
def setParameter (w : Workbench) (name key : String) (value : Datum) :
    Except OptimizerError (Except ParameterError (Parameters × Workbench)) := do
  let id ← w.parametersNamed name
  return do
    let p ← ((w.parameters[id]?).getD {}).set key value
    return (p, { w with parameters := w.parameters.setIfInBounds id p })

def addModel (w : Workbench) (name : String) (kind : ModelClass) (args : List Argument) :
    Except OptimizerError Workbench :=
  match Model.ofArguments? kind args [] with
  | none => .error .badArguments
  | some m =>
    .ok { w with
      models := w.models.push m
      modelNames := assign name w.models.size w.modelNames }

def setCenter (w : Workbench) (id : Nat) (center : Argument) : Workbench :=
  { w with models := w.models.modify id fun m => { m with center := Model.center? center } }

def parametersOf (w : Workbench) (o : Optimizer) : Option Parameters :=
  o.parameters.bind (w.parameters[·]?)

def modelOf? (w : Workbench) (o : Optimizer) : Option Model := w.models[o.model]?

/-- The parameters among the arguments of an optimizer, and the arguments left for the model. They
may come first among the positional arguments or under their name, and nothing under their name
counts as none. -/
def splitArguments (args : List Argument) (named : List (String × Argument)) :
    Except OptimizerError (Option Nat × List Argument × List (String × Argument)) :=
  let rest := named.filter (·.1 != "parameters")
  match args, named.lookup "parameters" with
  | .parameters id :: args, none => .ok (some id, args, rest)
  | .parameters id :: args, some (.data (.leaf .none)) => .ok (some id, args, rest)
  | .parameters _ :: _, some _ => .error .parametersTwice
  | args, none => .ok (none, args, rest)
  | args, some (.data (.leaf .none)) => .ok (none, args, rest)
  | args, some (.parameters id) => .ok (some id, args, rest)
  | _, some _ => .error .notParameters

/-- Makes the model of an optimizer or finds it; says which model it is and whether it was made. -/
def provide (w : Workbench) (source : ModelSource) (args : List Argument)
    (named : List (String × Argument)) : Except OptimizerError (Nat × Bool × Workbench) :=
  match source with
  | .made kind =>
    match Model.ofArguments? kind args named with
    | none => .error .badArguments
    | some m => .ok (w.models.size, true, { w with models := w.models.push m })
  | .existing id =>
    if args.isEmpty ∧ named.isEmpty then .ok (id, false, w) else .error .argumentsForInstance

/-- Names under which no model can be given anything: two that are taken where the strategy is
chosen, and one that is taken where the optimizer is made. -/
def reserved : List String := ["name", "model"]

def reservedLater : String := "self"

/-- A new optimizer; if it is refused, nothing has changed. -/
def create (w : Workbench) (strategy : Option String) (source : ModelSource)
    (args : List Argument) (named : List (String × Argument)) :
    Except OptimizerError (Optimizer × Workbench) := do
  if named.any (reserved.contains ·.1) then throw .badArguments
  let some strategy := strategy | throw .noStrategy
  let some method := Strategy.ofName? strategy | throw (.unsupportedStrategy strategy)
  if named.any (·.1 == reservedLater) then throw .badArguments
  let (parameters, args, named) ← splitArguments args named
  let (model, owns, w) ← w.provide source args named
  let some m := w.models[model]? | throw .unknownName
  if !m.kind.hasObjective then throw (.noObjective m.kind)
  return ({ strategy := method, model, owns, parameters }, w)

def addOptimizer (w : Workbench) (name : String) (o : Optimizer) : Workbench :=
  { w with optimizerNames := assign name o w.optimizerNames }

/-- Describes an optimizer, unless its model has a center that is not made of numbers. -/
def describe (w : Workbench) (o : Optimizer) : Except ShapeError Optimizer.Description := do
  let model := w.modelOf? o
  let center ← (model.bind Model.center).mapM Model.listing?
  return {
    strategy := o.strategy, owns := o.owns, model := model.map Model.kind, center
    parameters := w.parametersOf o }

/-- Runs an optimizer. Its model counts a build once settings and start are accepted. -/
def optimize (w : Workbench) (o : Optimizer) (start : Nested Datum) : Run Float × Workbench :=
  match o.strategy.prepare (w.parametersOf o) start, w.modelOf? o with
  | .error e, _ => (.failed e, w)
  | .ok _, none => (.failed .notAStart, w)
  | .ok (method, x), some m =>
    let w := { w with models := w.models.modify o.model fun m => { m with builds := m.builds + 1 } }
    let sizes (id : Nat) : Nat := ((w.parameters[id]?).map Parameters.size).getD 0
    (method.minimise (m.objective sizes) x, w)

end Workbench

end Downhill
