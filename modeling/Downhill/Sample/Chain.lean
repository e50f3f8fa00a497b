import Downhill.Graph.Term
import Downhill.Objective

/-!
# A chained objective

Rosenbrock's function of every two neighbouring coordinates, less the logarithm of the sigmoid of
every coordinate: an objective for any number of variables whose partial derivatives involve
neighbours only.
-/

namespace Downhill.Chain

variable {α : Type} [Scalar α]

/-- The term of the pair of coordinates that begins at `i`, added to those before. -/
def link (total : Term α) (i : Nat) : Term α :=
  let x : Term α := .var i
  let y : Term α := .var (i + 1)
  total + (1 - x).sqr + 100 * (y - x.sqr).sqr

def term (dim : Nat) : Term α :=
  (List.range dim).foldl (fun total i => total - (Term.var i).logSigmoid)
    ((List.range (dim - 1)).foldl link 0)

def objective (dim : Nat) : Objective α := fun xs => (term dim).build xs

end Downhill.Chain
