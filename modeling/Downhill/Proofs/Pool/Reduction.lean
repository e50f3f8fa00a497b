import Downhill.Graph.Pool

/-!
# Binary operators as decisions

What a pool does for a binary operator is decided by the constants among the operands alone
(`BinaryOp.reduction`); carrying it out takes no more than one step (`Pool.binary_eq`).
-/

namespace Downhill

/-- What a binary operator comes to. -/
inductive Reduction (α : Type) where
  | left
  | right
  /-- The right operand negated. -/
  | negated
  | number (v : α)
  | node

variable {α : Type} [Scalar α]

/-- What is decided by the constants among the operands. -/
def BinaryOp.reduction (op : BinaryOp) : Option α → Option α → Reduction α
  | some u, some v => .number (Scalar.binary op u v)
  | u, v =>
    let zero : α := Scalar.nat 0
    let one : α := Scalar.nat 1
    match op with
    | .add => if Pool.holds u zero then .right else if Pool.holds v zero then .left else .node
    | .sub => if Pool.holds v zero then .left else if Pool.holds u zero then .negated else .node
    | .mul =>
      if Pool.holds u zero || Pool.holds v zero then .number zero
      else if Pool.holds u one then .right
      else if Pool.holds v one then .left
      else .node
    | .div => if Pool.holds v one then .left else if Pool.holds u zero then .number zero else .node
    | .pow => if Pool.holds v one then .left else if Pool.holds v zero then .number one else .node

def Reduction.carryOut (p : Pool α) (op : BinaryOp) (a b : Handle) : Reduction α → Handle × Pool α
  | left => (a, p)
  | right => (b, p)
  | negated => p.unary .neg b
  | number v => p.constant v
  | node => p.intern (.binary op a b)

theorem Pool.binary_eq (p : Pool α) (op : BinaryOp) (a b : Handle) :
    p.binary op a b = (op.reduction (p.constant? a) (p.constant? b)).carryOut p op a b := by
  have hite {c : Prop} [Decidable c] (u v : Reduction α) :
      (if c then u else v).carryOut p op a b =
        if c then u.carryOut p op a b else v.carryOut p op a b := apply_ite ..
  rw [binary]
  generalize p.constant? a = u, p.constant? b = v
  cases u with
  | none => cases op <;> simp only [BinaryOp.reduction, hite] <;> rfl
  | some u =>
    cases v with
    | none => cases op <;> simp only [BinaryOp.reduction, hite] <;> rfl
    | some v => rfl

end Downhill
