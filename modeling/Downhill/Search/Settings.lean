import Downhill.Datum
import Downhill.Scalar

/-!
# Settings of a search

The numbers that steer a search, with their defaults and the ranges that `validate` insists on. A
range is tested by the comparison that would be false inside it, except for the two factors of the
line search, which have to be seen to lie between zero and one.
-/

namespace Downhill

inductive SettingsError where
  | negativeSteps
  | stepFactorNotPositive
  | streakTooShort
  | alphaOutside
  | betaOutside
  | tooFewTrials
  | negativeNorm
  /-- A number that does not fit its field. -/
  | conversion (e : ConversionError)
  | unknownField (name : String)
  deriving DecidableEq, Repr

def SettingsError.message? : SettingsError → Option String
  | negativeSteps => "max_steps must be non-negative."
  | stepFactorNotPositive => "step_factor must be positive."
  | streakTooShort => "no_improvement_steps_to_terminate must be at least 1."
  | alphaOutside => "bt_alpha must lie in (0, 1)"
  | betaOutside => "bt_beta must lie in (0, 1)"
  | tooFewTrials => "bt_max_steps must be at least 1."
  | negativeNorm => "grad_eps must be non-negative."
  | conversion _ | unknownField _ => none

/-- What every strategy needs to know. -/
structure DescentSettings (α : Type) [Scalar α] where
  maxSteps : Int := 5000
  stepFactor : α := Scalar.nat 1
  minAbsolute : α := Scalar.decimal 1 25
  minRelative : α := Scalar.decimal 1 25
  /-- The number of steps in a row without improvement that ends a run. -/
  patience : Int := 2
  deriving Repr

/-- What the strategies with a line search need besides. -/
structure LineSearchSettings (α : Type) [Scalar α] extends DescentSettings α where
  /-- Steps to take before a small norm may end a run. -/
  minSteps : Int := 3
  alpha : α := Scalar.decimal 5 1
  beta : α := Scalar.decimal 8 1
  maxTrials : Int := 100
  normBound : α := Scalar.decimal 1 8
  deriving Repr

/-- Whether a number lies strictly between zero and one. -/
def Scalar.isFraction [Scalar α] (v : α) : Bool :=
  Scalar.lt (Scalar.nat 0) v && Scalar.lt v (Scalar.nat 1)

variable {α : Type} [Scalar α]

def DescentSettings.validate (s : DescentSettings α) : Except SettingsError (DescentSettings α) :=
  if s.maxSteps < 0 then .error .negativeSteps
  else if Scalar.le s.stepFactor (Scalar.nat 0) then .error .stepFactorNotPositive
  else if s.patience < 1 then .error .streakTooShort
  else .ok s

def LineSearchSettings.validate (s : LineSearchSettings α) :
    Except SettingsError (LineSearchSettings α) := do
  discard <| s.toDescentSettings.validate
  if !Scalar.isFraction s.alpha then throw .alphaOutside
  if !Scalar.isFraction s.beta then throw .betaOutside
  if s.maxTrials < 1 then throw .tooFewTrials
  if Scalar.lt s.normBound (Scalar.nat 0) then throw .negativeNorm
  return s

end Downhill
