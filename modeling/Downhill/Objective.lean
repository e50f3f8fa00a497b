import Downhill.Graph.Compiled

/-!
# Objectives

An objective builds an expression over whatever variables it is given; the dimension comes from
those who ask.
-/

namespace Downhill

abbrev Objective (α : Type) := Array Handle → Build α (Operand α)

namespace Build

variable {α : Type} [Scalar α]

/-- An objective over `dim` fresh variables. -/
def objective (o : Objective α) (dim : Int) : Build α (Operand α) := do
  o (← vars dim)

end Build

end Downhill
