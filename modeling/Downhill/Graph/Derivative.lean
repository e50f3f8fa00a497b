import Downhill.Graph.Formula
import Downhill.Graph.Reachable

/-!
# Partial derivatives

The derivative of a node is built in the same pool from those of its operands. Every derivative
taken on the way is remembered, so none is built twice. A node without a rule stops the work; what
was built and remembered before stays.
-/

namespace Downhill.Build

variable {α : Type} [Scalar α]

/-- The derivative of a node by `x[i]`, remembered earlier. -/
def known (h : Handle) (i : Nat) : Build α Handle := do
  let some d := (← get).derivative? h i | throw .derivativeMissing
  return d

/-- Builds the derivative of a node by `x[i]` from those of its operands. -/
def derive (h : Handle) (i : Nat) : Build α Handle := do
  match ← node h with
  | .const _ => constant (Scalar.nat 0)
  | .var j => constant (Scalar.nat (if j = i then 1 else 0))
  | .unary op a =>
    let da ← known a i
    let some rule := op.rule? | throw (.notDifferentiable op)
    modifyGet (rule.build (fun _ => a) (fun _ => da))
  | .binary op a b =>
    let da ← known a i
    let db ← known b i
    let rule := op.rule ((← get).isConstant b)
    modifyGet (rule.build (Side.select a b) (Side.select da db))

/-- Sees to it that the derivative of a node is known, given those of its operands. -/
def extend (i : Nat) (h : Handle) : Build α Unit := do
  if ((← get).derivative? h i).isNone then
    let d ← derive h i
    modify (·.remember h i d)

def differentiate (root : Handle) (i : Nat) : Build α Handle := do
  if ((← get).derivative? root i).isNone then
    (← get).reachable [root] |>.forM (extend i)
  known root i

/-- The derivative by a variable whose index has not been checked. -/
def differentiateBy (root : Handle) (i : Int) : Build α Handle :=
  if i < 0 then throw .negativeIndex else differentiate root i.toNat

/-- The partial derivatives by `x[0]` to `x[dim - 1]`. -/
def gradient (root : Handle) (dim : Nat) : Build α (List Handle) :=
  (List.range dim).mapM (differentiate root)

end Downhill.Build
