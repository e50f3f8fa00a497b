import Downhill.Parameters

/-!
# Settings by name

The fields of settings under the names that parameters use, to be shown in the order of their
declaration and to be given one by one.
-/

namespace Downhill

inductive FieldValue where
  | integer (n : Int)
  | number (v : Float)
  deriving Repr

/-- A whole number for a field. -/
def Datum.toInteger? (d : Datum) : Except SettingsError Int :=
  match d with
  | .integer n => .ok n
  | d => (d.toDouble? >>= truncate?).mapError .conversion

/-- How a datum is read as a double. -/
abbrev Reading := Datum → Except ConversionError Float

/-- Settings from defaults and some given fields, all of which have to exist. Their values are held
against the bounds as they are and rounded afterwards. -/
def fromFields (fields : σ → List (String × FieldValue))
    (withField : Reading → σ → String → Datum → Except SettingsError σ)
    (validate : σ → Except SettingsError σ) (defaults : σ) (values : List (String × Datum)) :
    Except SettingsError σ := do
  let known := (fields defaults).map Prod.fst
  if let some (name, _) := values.find? fun (name, _) => !known.contains name then
    throw (.unknownField name)
  let fill (read : Reading) :=
    (latest values).foldlM (fun s (name, value) => withField read s name value) defaults
  discard <| validate (← fill Datum.bound?)
  fill Datum.toDouble?

namespace DescentSettings

def fields (s : DescentSettings Float) : List (String × FieldValue) :=
  [("max_steps", .integer s.maxSteps),
    ("step_factor", .number s.stepFactor),
    ("min_absolute_per_step_improvement", .number s.minAbsolute),
    ("min_relative_per_step_improvement", .number s.minRelative),
    ("no_improvement_steps_to_terminate", .integer s.patience)]

def withField (read : Reading) (s : DescentSettings Float) (name : String) (value : Datum) :
    Except SettingsError (DescentSettings Float) := do
  let number : Except SettingsError Float := (read value).mapError .conversion
  match name with
  | "max_steps" => return { s with maxSteps := ← value.toInteger? }
  | "step_factor" => return { s with stepFactor := ← number }
  | "min_absolute_per_step_improvement" => return { s with minAbsolute := ← number }
  | "min_relative_per_step_improvement" => return { s with minRelative := ← number }
  | "no_improvement_steps_to_terminate" => return { s with patience := ← value.toInteger? }
  | _ => throw (.unknownField name)

def ofFields (values : List (String × Datum)) : Except SettingsError (DescentSettings Float) :=
  fromFields fields withField validate {} values

end DescentSettings

namespace LineSearchSettings

def fields (s : LineSearchSettings Float) : List (String × FieldValue) :=
  s.toDescentSettings.fields
    ++ [("min_steps", .integer s.minSteps),
      ("bt_alpha", .number s.alpha),
      ("bt_beta", .number s.beta),
      ("bt_max_steps", .integer s.maxTrials),
      ("grad_eps", .number s.normBound)]

def withField (read : Reading) (s : LineSearchSettings Float) (name : String) (value : Datum) :
    Except SettingsError (LineSearchSettings Float) := do
  let number : Except SettingsError Float := (read value).mapError .conversion
  match name with
  | "min_steps" => return { s with minSteps := ← value.toInteger? }
  | "bt_alpha" => return { s with alpha := ← number }
  | "bt_beta" => return { s with beta := ← number }
  | "bt_max_steps" => return { s with maxTrials := ← value.toInteger? }
  | "grad_eps" => return { s with normBound := ← number }
  | _ => return { s with toDescentSettings := ← s.toDescentSettings.withField read name value }

def ofFields (values : List (String × Datum)) :
    Except SettingsError (LineSearchSettings Float) :=
  fromFields fields withField validate {} values

end LineSearchSettings

end Downhill
