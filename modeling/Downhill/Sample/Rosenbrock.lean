import Downhill.Graph.Term
import Downhill.Numeral
import Downhill.Objective
import Downhill.Graph.Render
import Downhill.Scalar.Double

/-!
# Rosenbrock's function

The function `(1 - x₀)² + 100 (x₁ - x₀²)²`, with its minimum of zero at `(1, 1)`, and a short text
that shows it beside its partial derivatives and some of its values.
-/

namespace Downhill.Rosenbrock

def term [Scalar α] : Term α :=
  let x : Term α := .var 0
  let y : Term α := .var 1
  (1 - x).sqr + 100 * (y - x.sqr).sqr

def objective [Scalar α] : Objective α := fun xs => term.build xs

def grid : Tensor Float := ⟨[3, 2], #[-1.2, 1.0, 0.0, 0.0, 1.0, 1.0]⟩

def listText (items : List String) : String := "[" ++ ", ".intercalate items ++ "]"

/-- The lines of the text; `title` stands between two rules. -/
def presentation (title : String) : Except ExpressionError (List String) := do
  let work : Build Float (Handle × List Handle × CompiledFunction Float) := do
    let root ← Build.expression (← Build.objective objective 2)
    let partials ← Build.gradient root 2
    return (root, partials, ← Build.function 2 (.expression root))
  let (result, p) := work.run .empty
  let (root, partials, f) ← result
  let values ← f.evaluateBatch grid
  let rule := "".pushn '=' 60
  let rows := grid.rows.map fun row => listText (row.toList.map numeral)
  let results := values.data.toList.map numeral
  let slopes ← partials.mapM (p.render numeral)
  return [rule, title, rule, "f      = " ++ (← p.render numeral root)]
    ++ slopes.zipIdx.map (fun (slope, i) => s!"df/dx{i} = {slope}")
    ++ ["f on " ++ listText rows ++ " = " ++ listText results, ""]

end Downhill.Rosenbrock
