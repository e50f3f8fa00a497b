import Downhill.Graph.Reachable

/-!
# Programs

The part of a pool below some roots, as a list of steps that can be run without the pool. A step is
a node whose operands are the positions of steps, which have to be earlier ones for the program to
run. Running computes every step once, so shared nodes cost nothing extra.
-/

namespace Downhill

/-- What a program is run on: one point, or the rows of a batch. -/
inductive Mode where
  | point | batch
  deriving DecidableEq, Repr

structure Program (α : Type u) where
  /-- The number of coordinates of a point. -/
  dim : Nat
  steps : Array (Node Nat α)
  /-- The positions of the roots. -/
  outputs : List Nat
  deriving Repr

/-- The positions of handles in a list. -/
abbrev Positions := Std.TreeMap Handle Nat

def positions (order : List Handle) : Positions := .ofList order.zipIdx

/-- A node as a step: variables have to be coordinates of the point. -/
def Node.step (dim : Nat) (position : ρ → Nat) : Node ρ α → Except ExpressionError (Node Nat α)
  | var i => if i < dim then .ok (var i) else .error (.variableBeyond i dim)
  | n => .ok (n.relocate position)

/-- The program of several roots over points with `dim` coordinates. -/
def Pool.compile (p : Pool α) (roots : List Handle) (dim : Nat) :
    Except ExpressionError (Program α) := do
  let order := p.reachable roots
  let table := positions order
  let steps ← order.mapM fun h =>
    match p.node? h with
    | some n => n.step dim (table.getD · 0)
    | none => .error .noSuchNode
  return { dim, steps := steps.toArray, outputs := roots.map (table.getD · 0) }

namespace Program

variable {α : Type u}

def size (g : Program α) : Nat := g.steps.size

/-- Whether every step comes after its operands. -/
def ordered (g : Program α) : Bool := g.steps.toList.zipIdx.all fun (n, k) => n.args.all (· < k)

def constantAt (g : Program α) (k : Nat) : Bool :=
  match g.steps[k]? with
  | some (.const _) => true
  | _ => false

variable [Scalar α]

/-- The operation of a step whose right operand is at position `b`. In a batch only a constant
exponent is known in advance. -/
def operation (g : Program α) (mode : Mode) (op : BinaryOp) (b : Nat) : α → α → α :=
  match mode, op with
  | .batch, .pow => if g.constantAt b then Scalar.binary .pow else Scalar.power
  | _, op => Scalar.binary op

/-- The value of a step at a point, given the values of the steps before it. -/
def value (g : Program α) (mode : Mode) (x values : Array α) : Node Nat α → α
  | .const v => v
  | .var i => x.getD i (Scalar.nat 0)
  | .unary op a => Scalar.unary op (values.getD a (Scalar.nat 0))
  | .binary op a b =>
    g.operation mode op b (values.getD a (Scalar.nat 0)) (values.getD b (Scalar.nat 0))

def values (g : Program α) (mode : Mode) (x : Array α) : Array α :=
  g.steps.foldl (fun vs n => vs.push (g.value mode x vs n)) #[]

/-- The values of the roots at a point. -/
def run (g : Program α) (mode : Mode) (x : Array α) : List α :=
  let vs := g.values mode x
  g.outputs.map (vs.getD · (Scalar.nat 0))

end Program

end Downhill
