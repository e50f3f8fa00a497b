import Downhill.Association
import Downhill.Decimal.Binary
import Downhill.Scalar.Double
import Downhill.Search.Settings

/-!
# Named parameters

Parameters are numbers under names, in the order in which the names first came up. Settings take
those they know by name, the rest from their defaults, and are then validated; other names are
ignored.
-/

namespace Downhill

inductive ParameterError where
  /-- A name that only a later change may use. -/
  | reservedName
  | notNumeric (name kind : String)
  | conversion (e : ConversionError)
  deriving DecidableEq, Repr

def ParameterError.message? : ParameterError → Option String
  | notNumeric name kind => s!"Parameter '{name}' must be numeric, got {kind}."
  | reservedName | conversion _ => none

structure Parameters where
  entries : List (String × Float) := []
  deriving Repr

/-- The integer part of a double, towards zero. -/
def truncate? (v : Float) : Except ConversionError Int :=
  match Decoded.ofDouble v with
  | .nan => .error .unreadable
  | .infinite _ => .error .tooLarge
  | .finite b => .ok b.integer

namespace Parameters

def size (p : Parameters) : Nat := p.entries.length

def get? (p : Parameters) (name : String) : Option Float := p.entries.lookup name

def contains (p : Parameters) (name : String) : Bool := (p.get? name).isSome

/-- Stores a value, which has to be a real number. -/
def set (p : Parameters) (name : String) (value : Datum) : Except ParameterError Parameters :=
  if value.isReal then
    match value.toDouble? with
    | .ok v => .ok ⟨assign name v p.entries⟩
    | .error e => .error (.conversion e)
  else .error (.notNumeric name value.kind)

/-- The name by which parameters go themselves while they are made. -/
def reserved : String := "self"

/-- Parameters from named values, of which the last of a name counts. -/
def ofList (values : List (String × Datum)) : Except ParameterError Parameters :=
  if values.any (·.1 == reserved) then .error .reservedName
  else (latest values).foldlM (fun p (name, value) => p.set name value) {}

/-- A stored value, or else a default. -/
def getDouble (p : Parameters) (name : String) (default : Float) : Float :=
  (p.get? name).getD default

/-- The integer part of a stored value, or else a default. -/
def getInteger (p : Parameters) (name : String) (default : Int) : Except ConversionError Int :=
  match p.get? name with
  | some v => truncate? v
  | none => .ok default

/-- Equality of parameters as mappings. -/
def same (p q : Parameters) : Bool :=
  p.size == q.size && p.entries.all fun (name, v) => (q.get? name).any (v == ·)

/-- Parameters as text, given how numbers are written. -/
def text (numeral : Float → String) (p : Parameters) : String :=
  "OptimizerParameters("
    ++ ", ".intercalate (p.entries.map fun (name, v) => name ++ "=" ++ numeral v) ++ ")"

end Parameters

/-- Settings with the stored parameters in place of the defaults. -/
def DescentSettings.resolve (p : Parameters) : Except SettingsError (DescentSettings Float) := do
  let d : DescentSettings Float := {}
  let maxSteps ← (p.getInteger "max_steps" d.maxSteps).mapError .conversion
  let patience ←
    (p.getInteger "no_improvement_steps_to_terminate" d.patience).mapError .conversion
  return {
    maxSteps, patience
    stepFactor := p.getDouble "step_factor" d.stepFactor
    minAbsolute := p.getDouble "min_absolute_per_step_improvement" d.minAbsolute
    minRelative := p.getDouble "min_relative_per_step_improvement" d.minRelative }

def LineSearchSettings.resolve (p : Parameters) :
    Except SettingsError (LineSearchSettings Float) := do
  let d : LineSearchSettings Float := {}
  let descent ← DescentSettings.resolve p
  let minSteps ← (p.getInteger "min_steps" d.minSteps).mapError .conversion
  let maxTrials ← (p.getInteger "bt_max_steps" d.maxTrials).mapError .conversion
  return {
    toDescentSettings := descent
    minSteps, maxTrials
    alpha := p.getDouble "bt_alpha" d.alpha
    beta := p.getDouble "bt_beta" d.beta
    normBound := p.getDouble "grad_eps" d.normBound }

/-- Valid settings from parameters, or from none. -/
def DescentSettings.ofParameters (p : Option Parameters) :
    Except SettingsError (DescentSettings Float) := do
  (← DescentSettings.resolve (p.getD {})).validate

def LineSearchSettings.ofParameters (p : Option Parameters) :
    Except SettingsError (LineSearchSettings Float) := do
  (← LineSearchSettings.resolve (p.getD {})).validate

end Downhill
