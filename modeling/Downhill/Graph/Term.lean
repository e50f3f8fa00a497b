import Downhill.Graph.Operand

/-!
# Terms

Expressions as they are written down, before anything is shared or simplified. A term is built from
left to right; what involves numbers only is computed as numbers and does not enter the pool.
-/

namespace Downhill

inductive Term (α : Type) where
  | num (value : α)
  | var (i : Nat)
  | unary (op : UnaryOp) (a : Term α)
  | binary (op : BinaryOp) (a b : Term α)
  deriving Repr

namespace Term

variable {α : Type}

instance [Scalar α] : OfNat (Term α) n := ⟨num (Scalar.nat n)⟩
instance : Add (Term α) := ⟨binary .add⟩
instance : Sub (Term α) := ⟨binary .sub⟩
instance : Mul (Term α) := ⟨binary .mul⟩
instance : Div (Term α) := ⟨binary .div⟩
instance : Neg (Term α) := ⟨unary .neg⟩

def sqr (t : Term α) : Term α := unary .sqr t

def log (t : Term α) : Term α := unary .log t

def logSigmoid (t : Term α) : Term α := unary .logSigmoid t

variable [Scalar α]

/-- The value of a term at a point, operator by operator. -/
def eval (x : Nat → α) : Term α → α
  | num v => v
  | var i => x i
  | unary op a => Scalar.unary op (a.eval x)
  | binary op a b => Scalar.binary op (a.eval x) (b.eval x)

/-- A term over given variables, as an operand of the pool. -/
def build (xs : Array Handle) : Term α → Build α (Operand α)
  | num v => return .number v
  | var i =>
    match xs[i]? with
    | some h => return .expression h
    | none => throw .noSuchElement
  | unary op a => do (← a.build xs).apply op
  | binary op a b => do
    let u ← a.build xs
    let v ← b.build xs
    u.combine op v

end Term

end Downhill
