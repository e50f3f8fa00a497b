import Downhill.Scalar

/-!
# Nodes

A node refers to its operands by whatever the graph that holds it uses for references. Two nodes are
the same when they say the same of the same operands; constants are compared as numbers, so the two
zeros are one constant and NaN is never the same as anything.
-/

namespace Downhill

/-- A node with constants of type `α` and operands named by `ρ`. -/
inductive Node (ρ : Type v) (α : Type u) where
  | const (value : α)
  | var (index : Nat)
  | unary (op : UnaryOp) (arg : ρ)
  | binary (op : BinaryOp) (left right : ρ)
  deriving Repr

namespace Node

variable {ρ : Type v} {α : Type u}

def args : Node ρ α → List ρ
  | const _ | var _ => []
  | unary _ a => [a]
  | binary _ a b => [a, b]

theorem length_args_le (n : Node ρ α) : n.args.length ≤ 2 := by
  cases n <;> simp [args]

/-- The same node with its operands found elsewhere. -/
def relocate {σ : Type w} (f : ρ → σ) : Node ρ α → Node σ α
  | const v => const v
  | var i => var i
  | unary op a => unary op (f a)
  | binary op a b => binary op (f a) (f b)

@[simp]
theorem args_relocate {σ : Type w} (f : ρ → σ) (n : Node ρ α) :
    (n.relocate f).args = n.args.map f := by
  cases n <;> rfl

def same [BEq ρ] [Scalar α] : Node ρ α → Node ρ α → Bool
  | const v, const w => Scalar.eq v w
  | var i, var j => i == j
  | unary op a, unary op' a' => a == a' && op == op'
  | binary op a b, binary op' a' b' => a == a' && b == b' && op == op'
  | _, _ => false

/-- This is how nodes are compared as keys. -/
instance [BEq ρ] [Scalar α] : BEq (Node ρ α) := ⟨same⟩

end Node

end Downhill
