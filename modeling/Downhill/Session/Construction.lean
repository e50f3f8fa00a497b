import Downhill.Session.Basic

/-!
# Instructions that have a value

An instruction that builds something reads its operands from registers and has an expression, a
vector, a function or a datum as its value. Operators follow the first expression among their
operands into its pool.
-/

namespace Downhill

/-- The bound of a slice: counted from the end if negative, and never outside the list. -/
def sliceBound (size : Nat) (i : Int) : Nat :=
  let k := if i < 0 then i + size else i
  min k.toNat size

namespace Work

/-- An operator between two values, in the pool of the first expression among them. -/
def combine (op : BinaryOp) (a b : Value) : Work Value := do
  let k ←
    match a, b with
    | .expression k _, _ => pure k
    | _, .expression k _ => pure k
    | _, _ => throw .uncombinable
  let a ← operandIn k (Datum.operandOf op) a
  let b ← operandIn k (Datum.operandOf op) b
  return .expression k (← inPool k (Build.combine op a b))

/-- What a leading minus makes of a datum. -/
def negate (d : Datum) (origin : Option Register) : Work Value := do
  let some d := d.negative? | throw .uncombinable
  let r ← here
  return .datum d (origin.map fun _ => r)

/-- A function of an expression is an expression; of anything else that is read as a number it is
computed at once. -/
def apply (op : UnaryOp) : Value → Work Value
  | .expression k h => return .expression k (← inPool k (Build.unary op h))
  | .datum d origin =>
    match op, d.toDouble? with
    | .neg, _ => negate d origin
    | _, .ok v => return .datum (.double (Scalar.unary op v)) (some (← here))
    | _, .error e => throw (.conversion e)
  | _ => throw (.conversion .notANumber)

def iterate (f : Value → Work Value) : Nat → Value → Work Value
  | 0, v => return v
  | n + 1, v => do iterate f n (← f v)

def elementOf (v : Value) (i : Int) : Work Value := do
  let (k, hs) ←
    match v with
    | .vector k hs => pure (k, hs)
    | .expressions k hs => pure (k, hs.toArray)
    | _ => throw .uncombinable
  let some j := place? hs.size i | throw .noSuchElement
  return .expression k (hs.getD j 0)

def sliceOf (v : Value) (start stop : Option Int) : Work Value := do
  let (k, hs) ←
    match v with
    | .vector k hs => pure (k, hs)
    | .expressions k hs => pure (k, hs.toArray)
    | _ => throw .uncombinable
  let start := (start.map (sliceBound hs.size)).getD 0
  let stop := (stop.map (sliceBound hs.size)).getD hs.size
  return .expressions k (hs.extract start stop).toList

/-- The value of an instruction that has one. -/
def value? : Instruction → Option (Work Value)
  | .datum d => some do return .datum d (some (← here))
  | .entry d => some (return .datum d none)
  | .variable i => some do elementOf (← register 0) i
  | .element v i => some do elementOf (← register v) i
  | .slice v start stop => some do sliceOf (← register v) start stop
  | .unary op a => some do apply op (← register a)
  | .binary op a b => some do combine op (← register a) (← register b)
  | .positive a => some do
    match ← register a with
    | .datum d origin =>
      let some d := d.positive? | throw .uncombinable
      return .datum d origin
    | v@(.expression ..) => return v
    | _ => throw .uncombinable
  | .chain op a n => some do iterate (apply op) n (← register a)
  | .repeated op a b n => some do
    let b ← register b
    iterate (combine op · b) n (← register a)
  | .expression v a => some do
    let k ← poolOf v
    let a ← operandIn k Datum.operand (← register a)
    return .expression k (← inPool k (Build.expression a))
  | .vector dim => some do
    if dim < 1 then throw .emptyVector
    let k ← newPool
    return .vector k (← inPool k (Build.vars dim))
  | .vectorIn v dim => some do
    let k ← poolOf v
    return .vector k (← inPool k (Build.vars dim))
  | .pool => some (.pool <$> newPool)
  | .differentiate e i => some do
    let (k, h) ← expressionIn e
    return .expression k (← inPool k (Build.differentiateBy h i))
  | .gradient e v => some do
    let (k, h) ← expressionIn e
    let (k', xs) ← vectorIn v
    if k ≠ k' then throw .foreignVariables
    return .expressions k (← inPool k (Build.gradient h xs.size))
  | .function v e => some do
    let (k, xs) ← vectorIn v
    let e ← operandIn k Datum.operand (← register e)
    return .function k (← inPool k (Build.function xs.size e))
  | .compiledGradient v e => some do
    let (k, xs) ← vectorIn v
    let e ← operandIn k Datum.operand (← register e)
    return .gradient k (← inPool k (Build.compiledGradient xs.size e))
  | .poolConstant v d => some do
    let k ← poolOf v
    match d.toDouble? with
    | .ok value => return .expression k (← inPool k (Build.constant value))
    | .error e => throw (.conversion e)
  | .poolVariable v i => some do
    let k ← poolOf v
    return .expression k (← inPool k (Build.var i))
  | .poolUnary v op a => some do
    let k ← poolOf v
    return .expression k (← inPool k (Build.unaryNamed op a))
  | .poolBinary v op a b => some do
    let k ← poolOf v
    return .expression k (← inPool k (Build.binaryNamed op a b))
  | _ => none

end Work

end Downhill
