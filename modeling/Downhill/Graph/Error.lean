import Downhill.Datum
import Downhill.Scalar

/-!
# What can go wrong with expressions

Causes, from building a node to evaluating a compiled expression. `message?` gives the text of those
that are explained to the user; misuse that any list or number would refuse has no text of its own.
-/

namespace Downhill

inductive ShapeError where
  /-- A nesting whose parts differ in shape. -/
  | ragged
  | tooDeep
  | conversion (e : ConversionError)
  | arithmetic (e : ArithmeticError)
  /-- Vectors whose lengths do not fit each other. -/
  | misaligned
  /-- Two shapes that have to be equal. -/
  | mismatch (a b : List Nat)
  /-- A step size that is zero or negative. -/
  | stepNotPositive
  /-- A single number is wanted, and there is not exactly one. -/
  | notSingle
  /-- An element is addressed in a single number. -/
  | noAxis
  /-- The elements of a single number are to be listed. -/
  | noElements
  deriving DecidableEq, Repr

/-- A shape in parentheses; a single axis keeps its comma. -/
def shapeText : List Nat → String
  | [n] => s!"({n},)"
  | shape => "(" ++ ", ".intercalate (shape.map toString) ++ ")"

def ShapeError.message? : ShapeError → Option String
  | mismatch a b => s!"Shape mismatch: {shapeText a} vs {shapeText b}"
  | stepNotPositive => "eps must be positive"
  | _ => none

inductive ExpressionError where
  | unknownOperator (name : String)
  | notUnary (name : String)
  | notBinary (name : String)
  | noSuchNode
  /-- A list is asked for an element that it does not have. -/
  | noSuchElement
  | negativeIndex
  | emptyVector
  /-- Operands of an operator stem from different pools. -/
  | mixedPools
  | foreignExpression
  | foreignVariables
  | notAnExpression (kind : String)
  /-- An operator has no meaning for its operands. -/
  | uncombinable
  | conversion (e : ConversionError)
  | notDifferentiable (op : UnaryOp)
  /-- The derivative of an operand is needed before it was taken. -/
  | derivativeMissing
  /-- The text of an operand is needed before it was written. -/
  | textMissing
  /-- The value of an operand is needed before it was computed. -/
  | operandMissing
  | variableBeyond (index dim : Nat)
  | functionWantsPoint
  | gradientWantsPoint
  | wantsBatch
  | wrongDimension (actual expected : Nat)
  | shape (e : ShapeError)
  deriving DecidableEq, Repr

def ExpressionError.message? : ExpressionError → Option String
  | notUnary name => s!"Operator '{name}' is not unary."
  | notBinary name => s!"Operator '{name}' is not binary."
  | negativeIndex => "Variable index must be non-negative."
  | emptyVector => "Dimension must be at least 1."
  | mixedPools => "Cannot combine expressions from different pools."
  | foreignExpression => "Expression belongs to a different pool."
  | foreignVariables => "Expression and variables belong to different pools."
  | notAnExpression kind => s!"Expected Expr or real number, got {kind}."
  | notDifferentiable op => s!"No differentiation rule for operator '{op.name}'."
  | variableBeyond index dim => s!"Expression references x[{index}] but dimension is {dim}."
  | functionWantsPoint => "CompiledFunction expects a single point; use evaluate_batch."
  | gradientWantsPoint => "CompiledGradient expects a single point; use evaluate_batch."
  | wantsBatch => "evaluate_batch expects an array of shape (n, dim)."
  | wrongDimension actual expected => s!"Point has dimension {actual}, expected {expected}."
  | shape e => e.message?
  | unknownOperator _ | noSuchNode | noSuchElement | uncombinable | conversion _
  | derivativeMissing | textMissing | operandMissing => none

end Downhill
