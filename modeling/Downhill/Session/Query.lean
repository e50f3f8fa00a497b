import Downhill.Session.Basic

/-!
# Answers

How a new value is answered, and the answers of instructions that only ask. Asking changes nothing.
-/

namespace Downhill.Work

/-- How a new value is answered. -/
def present : Value → Work Answer
  | .expression k h => return .expression h (← size k)
  | .vector k hs => return .vector hs.size (← size k)
  | .pool k => return .pool (← size k)
  | .expressions k hs => return .expressions hs (← size k)
  | .datum d _ =>
    if d.isOperand then
      match d.toDouble? with
      | .ok v => return .number v
      | .error _ => return .tooLarge
    else return .other d.kind
  | .function _ f => return .function f
  | .gradient _ g => return .gradient g
  | .nothing => return .other Value.nothing.kind

/-- The text of a value, as itself or as a description that names its kind. -/
def textOf (described : Bool) : Value → Work String
  | .expression k h => do
    let s ← liftExcept (← ask k (·.render numeral h))
    return if described then s!"Expr({s})" else s
  | .vector _ hs => return s!"VariableVector(dim={hs.size})"
  | .nothing => return "None"
  | _ => throw .uncombinable

def nodeAt (k : Nat) (h : Handle) : Work (Node Handle Float) := do
  let some n := (← ask k (·.node? h)) | throw .noSuchNode
  return n

def holdsAt (k : Nat) (h : Handle) (value : Option Datum) : Work Bool := do
  discard <| nodeAt k h
  match ← ask k (·.constant? h), value with
  | some c, some d => return (Datum.double c).equals d
  | c, _ => return c.isSome

def reachableFrom (k : Nat) (roots : List Handle) : Work (List Handle) := do
  roots.forM fun h => discard (nodeAt k h)
  ask k (·.reachable roots)

def tensor (n : Nested Datum) : Work (Tensor Float) :=
  liftExcept ((Tensor.read n).mapError .shape)

/-- The answer of an instruction that only asks. -/
def query : Instruction → Work Answer
  | .text e => do return .text (← textOf false (← register e))
  | .describe e => do return .text (← textOf true (← register e))
  | .node e => do
    let (k, h) ← expressionIn e
    return .node (← nodeAt k h)
  | .poolNode v h => do return .node (← nodeAt (← poolOf v) h)
  | .poolText v h => do
    let k ← poolOf v
    discard <| nodeAt k h
    return .text (← liftExcept (← ask k (·.render numeral h)))
  | .isConstant e => do
    let (k, h) ← expressionIn e
    return .truth (← ask k (·.isConstant h))
  | .poolConstantIs v h value => do return .truth (← holdsAt (← poolOf v) h value)
  | .same a b => do return .truth ((← register a).same (a == b) (← register b))
  | .sameKey a b => do
    let u ← register a
    let v ← register b
    if !(u.isKey && v.isKey) then throw .uncombinable
    return .truth (a == b || u.same false v)
  | .cached e i => do
    let (k, h) ← expressionIn e
    if i < 0 then return .cached none
    return .cached (← ask k (·.derivative? h i.toNat))
  | .cachedCount v => do return .count (← ask (← poolOf v) (·.derivatives.size))
  | .size v => do return .count (← size (← poolOf v))
  | .length v => do
    match ← register v with
    | .vector _ hs => return .count hs.size
    | .expressions _ hs => return .count hs.length
    | .pool k => return .count (← size k)
    | _ => throw .uncombinable
  | .dimension v => do
    match ← register v with
    | .vector _ hs => return .count hs.size
    | .function _ f => return .count f.dim
    | .gradient _ g => return .count g.dim
    | _ => throw .uncombinable
  | .reachable v roots => do
    let k ← poolOf v
    let roots ← roots.mapM fun r => return (← expressionIn r).2
    return .handles (← reachableFrom k roots)
  | .poolReachable v roots => do return .handles (← reachableFrom (← poolOf v) roots)
  | .call f point => do
    match ← register f with
    | .function _ f => return .value (← liftExcept (f.call (← tensor point)))
    | .gradient _ g => return .point (← liftExcept (g.call (← tensor point)))
    | _ => throw .uncombinable
  | .batch f points => do
    match ← register f with
    | .function _ f => return .batch (← liftExcept (f.evaluateBatch (← tensor points)))
    | .gradient _ g => return .batch (← liftExcept (g.evaluateBatch (← tensor points)))
    | _ => throw .uncombinable
  | _ => throw .uncombinable

end Downhill.Work
