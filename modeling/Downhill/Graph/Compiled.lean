import Downhill.Graph.Batch
import Downhill.Graph.Derivative
import Downhill.Graph.Operand

/-!
# Compiled functions and gradients

A compiled function evaluates an expression, a compiled gradient all its partial derivatives, at a
point or at every row of a batch. Both refuse points of another dimension; nothing else can go wrong
unless a step comes before its operands.
-/

namespace Downhill

structure CompiledFunction (α : Type u) where
  root : Handle
  program : Program α
  deriving Repr

structure CompiledGradient (α : Type u) where
  root : Handle
  partials : List Handle
  program : Program α
  deriving Repr

/-- Whether a program can be run on a point with so many coordinates. -/
def Program.admits (g : Program α) (dim : Nat) : Except ExpressionError Unit :=
  if dim ≠ g.dim then .error (.wrongDimension dim g.dim)
  else if g.ordered then .ok ()
  else .error .operandMissing

namespace Build

variable {α : Type} [Scalar α]

def compile (roots : List Handle) (dim : Nat) : Build α (Program α) := do
  liftExcept ((← get).compile roots dim)
where
  liftExcept {β : Type} : Except ExpressionError β → Build α β
    | .ok b => return b
    | .error e => throw e

def function (dim : Nat) (e : Operand α) : Build α (CompiledFunction α) := do
  let root ← expression e
  return { root, program := ← compile [root] dim }

def compiledGradient (dim : Nat) (e : Operand α) : Build α (CompiledGradient α) := do
  let root ← expression e
  let partials ← gradient root dim
  return { root, partials, program := ← compile partials dim }

end Build

namespace CompiledFunction

variable {α : Type} [Scalar α]

def dim (f : CompiledFunction α) : Nat := f.program.dim

def size (f : CompiledFunction α) : Nat := f.program.size

/-- The value at a point. -/
def apply (f : CompiledFunction α) (x : Array α) : Except ExpressionError α := do
  f.program.admits x.size
  return (f.program.run .point x).headD (Scalar.nat 0)

def call (f : CompiledFunction α) (x : Tensor α) : Except ExpressionError α :=
  if x.rank = 1 then f.apply x.data else .error .functionWantsPoint

/-- The values at the rows of a matrix. -/
def evaluateBatch (f : CompiledFunction α) (x : Tensor α) : Except ExpressionError (Tensor α) := do
  if x.rank ≠ 2 then throw .wantsBatch
  f.program.admits x.lastLength
  return .ofVector ((f.program.runBatch x).headD #[])

end CompiledFunction

namespace CompiledGradient

variable {α : Type} [Scalar α]

def dim (g : CompiledGradient α) : Nat := g.program.dim

def size (g : CompiledGradient α) : Nat := g.program.size

/-- The partial derivatives at a point. -/
def apply (g : CompiledGradient α) (x : Array α) : Except ExpressionError (Array α) := do
  g.program.admits x.size
  return (g.program.run .point x).toArray

def call (g : CompiledGradient α) (x : Tensor α) : Except ExpressionError (Array α) :=
  if x.rank = 1 then g.apply x.data else .error .gradientWantsPoint

/-- The partial derivatives at the rows of a matrix, row by row. -/
def evaluateBatch (g : CompiledGradient α) (x : Tensor α) : Except ExpressionError (Tensor α) := do
  if x.rank ≠ 2 then throw .wantsBatch
  g.program.admits x.lastLength
  return .stack x.rows.length (g.program.runBatch x)

end CompiledGradient

end Downhill
