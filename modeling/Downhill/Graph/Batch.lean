import Downhill.Graph.Program
import Downhill.Tensor.Basic

/-!
# Running on a batch

A program runs on all rows of a batch at once: a step that depends on the point has a number for
every row, and one that does not has one number for all of them. Operators work row by row; a number
that counts for all rows is spread to as many as it meets.
-/

namespace Downhill

/-- What a step comes to at the rows of a batch. -/
inductive Column (α : Type u) where
  /-- One number for all rows. -/
  | same (value : α)
  | each (values : Array α)
  deriving Repr

namespace Column

variable {α : Type u}

def map (f : α → α) : Column α → Column α
  | same v => same (f v)
  | each vs => each (vs.map f)

def zipWith (f : α → α → α) : Column α → Column α → Column α
  | same u, same v => same (f u v)
  | same u, each vs => each (vs.map (f u))
  | each us, same v => each (us.map (f · v))
  | each us, each vs => each (us.zipWith f vs)

/-- The numbers at all of `n` rows. -/
def spread (n : Nat) : Column α → Array α
  | same v => Array.replicate n v
  | each vs => vs

end Column

variable {α : Type u} [Scalar α]

/-- Coordinate `i` of the rows of a matrix. -/
def Tensor.column (x : Tensor α) (i : Nat) : Array α :=
  (x.rows.map (·.getD i (Scalar.nat 0))).toArray

namespace Program

/-- The column of a step, given those of the steps before it. -/
def column (g : Program α) (x : Tensor α) (columns : Array (Column α)) : Node Nat α → Column α
  | .const v => .same v
  | .var i => .each (x.column i)
  | .unary op a => (columns.getD a (.same (Scalar.nat 0))).map (Scalar.unary op)
  | .binary op a b =>
    (columns.getD a (.same (Scalar.nat 0))).zipWith (g.operation .batch op b)
      (columns.getD b (.same (Scalar.nat 0)))

def columns (g : Program α) (x : Tensor α) : Array (Column α) :=
  g.steps.foldl (fun cs n => cs.push (g.column x cs n)) #[]

/-- The numbers of each root at the rows of a matrix. -/
def runBatch (g : Program α) (x : Tensor α) : List (Array α) :=
  let cs := g.columns x
  g.outputs.map fun k => (cs.getD k (.same (Scalar.nat 0))).spread x.rows.length

end Program

/-- A matrix with the given columns. -/
def Tensor.stack (n : Nat) (columns : List (Array α)) : Tensor α :=
  ⟨[n, columns.length],
    ((List.range n).flatMap fun r => columns.map (·.getD r (Scalar.nat 0))).toArray⟩

end Downhill
