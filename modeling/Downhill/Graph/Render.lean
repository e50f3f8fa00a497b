import Downhill.Graph.Reachable

/-!
# Expressions as text

Infix text, with parentheses around every binary operator and none elsewhere. How a constant is
written is left to the caller. Texts are written in ascending order of handles, each from those of
its operands; a node whose operands come later has no text.
-/

namespace Downhill

/-- The text of a node, given the texts of constants and of the operands. -/
def Node.render (numeral : α → String) (operand : ρ → Option String) : Node ρ α → Option String
  | const v => return numeral v
  | var i => return s!"x[{i}]"
  | unary .neg a => return "-" ++ (← operand a)
  | unary op a => return op.name ++ "(" ++ (← operand a) ++ ")"
  | binary op a b => return "(" ++ (← operand a) ++ " " ++ op.symbol ++ " " ++ (← operand b) ++ ")"

namespace Pool

variable {α : Type u}

/-- The texts of nodes, by handle. -/
abbrev Texts := Std.TreeMap Handle String

/-- Adds the text of a node to those of its operands. -/
def write? (numeral : α → String) (p : Pool α) (texts : Texts) (h : Handle) : Option Texts :=
  match p.node? h with
  | some n => (n.render numeral (texts[·]?)).map (texts.insert h)
  | none => none

/-- The text of a root, by way of the texts of all nodes below it. -/
def render? (numeral : α → String) (p : Pool α) (root : Handle) : Option String :=
  ((p.reachable [root]).foldlM (p.write? numeral) ∅).bind (·[root]?)

/-- The text of a root that has one. -/
def render (numeral : α → String) (p : Pool α) (root : Handle) : Except ExpressionError String :=
  match p.render? numeral root with
  | some s => .ok s
  | none => .error .textMissing

end Pool

end Downhill
