import Downhill.Session.Instruction
import Downhill.Session.Value

/-!
# Sessions

A session holds pools and registers. Its work reads registers and may add nodes to pools; a failure
keeps what the pools have gained.

A plain NaN is put into a pool once and is one node from then on. The pool cannot see to that, since
NaN equals nothing, so the session remembers where the NaN of a register went.
-/

namespace Downhill

structure Session where
  pools : Array (Pool Float) := #[]
  registers : Array Value := #[]
  /-- The nodes of plain NaNs, by the register they came to and the pool they are in. -/
  held : List ((Register × Nat) × Handle) := []

/-- Work that reads registers and may change pools. -/
abbrev Work := ExceptT ExpressionError (StateM Session)

namespace Work

def register (r : Register) : Work Value := do
  let some v := (← get).registers[r]? | throw .noSuchElement
  return v

/-- The register that is being filled. -/
def here : Work Register := return (← get).registers.size

def liftExcept : Except ExpressionError β → Work β
  | .ok v => return v
  | .error e => throw e

/-- Builds in one of the pools. -/
def inPool (k : Nat) (b : Build Float β) : Work β := do
  let p ← modifyGet fun s => (s.pools.getD k .empty, { s with pools := s.pools.setIfInBounds k .empty })
  let (result, p) := b.run p
  modify fun s => { s with pools := s.pools.setIfInBounds k p }
  match result with
  | .ok v => return v
  | .error e => throw e

def ask (k : Nat) (f : Pool Float → β) : Work β := return f ((← get).pools.getD k .empty)

def size (k : Nat) : Work Nat := ask k Pool.size

def newPool : Work Nat :=
  modifyGet fun s => (s.pools.size, { s with pools := s.pools.push .empty })

/-- The pool that a register names. -/
def poolOf (r : Register) : Work Nat := do
  let some k := (← register r).pool? | throw .uncombinable
  return k

def expressionIn (r : Register) : Work (Nat × Handle) := do
  let .expression k h ← register r | throw .uncombinable
  return (k, h)

def vectorIn (r : Register) : Work (Nat × Array Handle) := do
  let .vector k hs ← register r | throw .uncombinable
  return (k, hs)

/-- The node of the NaN that came to a register, in one of the pools. -/
def hold (k : Nat) (origin : Register) (value : Float) : Work Handle := do
  match (← get).held.lookup (origin, k) with
  | some h => return h
  | none =>
    let h ← inPool k (Build.constant value)
    modify fun s => { s with held := ((origin, k), h) :: s.held }
    return h

/-- A value as operand in a pool, given what data are there. -/
def operandIn (k : Nat) (read : Datum → Operand Float) (v : Value) : Work (Operand Float) := do
  match v, v.operand k read with
  | .datum _ (some origin), .number value =>
    if value.isNaN then return .expression (← hold k origin value) else return .number value
  | _, operand => return operand

end Work

end Downhill
