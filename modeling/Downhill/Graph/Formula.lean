import Downhill.Graph.Pool

/-!
# Differentiation rules

A rule is a formula in the operands of a node and their derivatives, so it can be read in more than
one way: here it is built in a pool. Building goes from left to right, and a literal is made when
it meets the expression beside it.
-/

namespace Downhill

/-- The operands of a binary operator. -/
inductive Side where
  | left | right
  deriving DecidableEq, Repr

/-- What belongs to an operand. -/
def Side.select (left right : β) : Side → β
  | .left => left
  | .right => right

/-- A formula over the operands `ι` of a node. -/
inductive Formula (ι : Type) where
  | arg (i : ι)
  | tangent (i : ι)
  | num (n : Nat)
  | unary (op : UnaryOp) (a : Formula ι)
  | binary (op : BinaryOp) (a b : Formula ι)
  deriving DecidableEq, Repr

namespace Formula

variable {ι : Type}

instance : OfNat (Formula ι) n := ⟨num n⟩
instance : Add (Formula ι) := ⟨binary .add⟩
instance : Sub (Formula ι) := ⟨binary .sub⟩
instance : Mul (Formula ι) := ⟨binary .mul⟩
instance : Div (Formula ι) := ⟨binary .div⟩
instance : Pow (Formula ι) (Formula ι) := ⟨binary .pow⟩
instance : Neg (Formula ι) := ⟨unary .neg⟩

/-- Builds a formula whose operands and derivatives have the given handles. -/
def build [Scalar α] (arg tangent : ι → Handle) : Formula ι → Pool α → Handle × Pool α
  | .arg i, p => (arg i, p)
  | .tangent i, p => (tangent i, p)
  | num n, p => p.constant (Scalar.nat n)
  | unary op a, p =>
    let (h, p) := a.build arg tangent p
    p.unary op h
  | binary op (num n) b, p =>
    let (hb, p) := b.build arg tangent p
    let (ha, p) := p.constant (Scalar.nat n)
    p.binary op ha hb
  | binary op a b, p =>
    let (ha, p) := a.build arg tangent p
    let (hb, p) := b.build arg tangent p
    p.binary op ha hb

end Formula

open Formula in
/-- The rule of a unary operator, if it has one. -/
def UnaryOp.rule? (op : UnaryOp) : Option (Formula Unit) :=
  let a : Formula Unit := arg ()
  let da : Formula Unit := tangent ()
  let f (op : UnaryOp) := Formula.unary op a
  match op with
  | neg => some (-da)
  | sqr => some (2 * a * da)
  | sqrt => some (da / (2 * f sqrt))
  | exp => some (f exp * da)
  | log => some (da / a)
  | sin => some (f cos * da)
  | cos => some (-(f sin * da))
  | tan => some (da / (f cos * f cos))
  | asin => some (da / Formula.unary sqrt (1 - a * a))
  | acos => some (-(da / Formula.unary sqrt (1 - a * a)))
  | atan => some (da / (1 + a * a))
  | sigmoid => some (f sigmoid * (1 - f sigmoid) * da)
  | logSigmoid => some ((1 - f sigmoid) * da)
  | ramp => some (f unitStep * da)
  | unitStep => none

open Formula in
/-- The rule of a binary operator. A power has a simpler one if its exponent is a constant. -/
def BinaryOp.rule (op : BinaryOp) (constantRight : Bool) : Formula Side :=
  let a : Formula Side := arg .left
  let b : Formula Side := arg .right
  let da : Formula Side := tangent .left
  let db : Formula Side := tangent .right
  match op with
  | add => da + db
  | sub => da - db
  | mul => da * b + a * db
  | div => (da * b - a * db) / (b * b)
  | pow =>
    if constantRight then b * a ^ (b - 1) * da
    else a ^ b * (db * Formula.unary .log a + b * da / a)

end Downhill
