import Downhill.Graph.Pool

/-!
# Operands

An operator stands between two operands of which one at least is an expression of the pool. The
other may be a plain number, which becomes a constant, or something that does not fit. Operands are
checked before anything is stored, so a refused combination leaves no constant behind.
-/

namespace Downhill

/-- What a value is for one pool. -/
inductive Operand (α : Type u) where
  | expression (h : Handle)
  /-- An expression of another pool. -/
  | foreign
  | number (value : α)
  /-- An integer or a fraction that no number of the pool can stand for. -/
  | tooLarge
  | other (kind : String)
  deriving Repr

/-- The nearest double as operand. -/
def Datum.rounded (d : Datum) : Operand Float :=
  match d.toDouble? with
  | .ok v => .number v
  | .error _ => .tooLarge

/-- A number as operand, if it is one that combines with expressions. -/
def Datum.operand (d : Datum) : Operand Float :=
  if d.isOperand then d.rounded else .other d.kind

/-- A datum as operand of an operator. Fractions serve as bases and exponents only. -/
def Datum.operandOf (op : BinaryOp) (d : Datum) : Operand Float :=
  match op, d with
  | .pow, .fraction .. => d.rounded
  | _, _ => d.operand

namespace Build

variable {α : Type} [Scalar α]

/-- The node of an operand beside an expression. -/
def lift : Operand α → Build α Handle
  | .expression h => return h
  | .foreign => throw .mixedPools
  | .number v => constant v
  | .tooLarge => throw (.conversion .tooLarge)
  | .other _ => throw .uncombinable

def combine (op : BinaryOp) (a b : Operand α) : Build α Handle := do
  let ha ← lift a
  let hb ← lift b
  binary op ha hb

/-- The expression a value stands for. -/
def expression : Operand α → Build α Handle
  | .expression h => return h
  | .foreign => throw .foreignExpression
  | .number v => constant v
  | .tooLarge => throw (.conversion .tooLarge)
  | .other kind => throw (.notAnExpression kind)

end Build

namespace Operand

variable {α : Type} [Scalar α]

/-- A function of an operand. That of a number is computed at once and enters no pool. -/
def apply (op : UnaryOp) : Operand α → Build α (Operand α)
  | .number v => return .number (Scalar.unary op v)
  | u => return .expression (← Build.unary op (← Build.lift u))

def combine (op : BinaryOp) : Operand α → Operand α → Build α (Operand α)
  | .number u, .number v => return .number (Scalar.binary op u v)
  | u, v => return .expression (← Build.combine op u v)

end Operand

end Downhill
