/-!
# Elementary operators

The operators an expression may use, each with the name it is known by and, for the binary ones,
the infix symbol it is written with. `Operator.all` fixes their order; `Operator.ofName?_name`
says that a name finds its operator again.
-/

namespace Downhill

inductive UnaryOp where
  | neg | sqr | sqrt | exp | log | sin | cos | tan | asin | acos | atan
  | sigmoid | logSigmoid | ramp | unitStep
  deriving DecidableEq, Repr, Inhabited

inductive BinaryOp where
  | add | sub | mul | div | pow
  deriving DecidableEq, Repr, Inhabited

namespace UnaryOp

def all : List UnaryOp :=
  [neg, sqr, sqrt, exp, log, sin, cos, tan, asin, acos, atan, sigmoid, logSigmoid, ramp, unitStep]

def name : UnaryOp → String
  | neg => "neg"
  | sqr => "sqr"
  | sqrt => "sqrt"
  | exp => "exp"
  | log => "log"
  | sin => "sin"
  | cos => "cos"
  | tan => "tan"
  | asin => "asin"
  | acos => "acos"
  | atan => "atan"
  | sigmoid => "sigmoid"
  | logSigmoid => "log_sigmoid"
  | ramp => "ramp"
  | unitStep => "unit_step"

end UnaryOp

namespace BinaryOp

def all : List BinaryOp := [add, sub, mul, div, pow]

def name : BinaryOp → String
  | add => "add"
  | sub => "sub"
  | mul => "mul"
  | div => "div"
  | pow => "pow"

def symbol : BinaryOp → String
  | add => "+"
  | sub => "-"
  | mul => "*"
  | div => "/"
  | pow => "**"

end BinaryOp

inductive Operator where
  | unary (op : UnaryOp)
  | binary (op : BinaryOp)
  deriving DecidableEq, Repr

namespace Operator

def all : List Operator := UnaryOp.all.map unary ++ BinaryOp.all.map binary

def name : Operator → String
  | unary op => op.name
  | binary op => op.name

def arity : Operator → Nat
  | unary _ => 1
  | binary _ => 2

def symbol? : Operator → Option String
  | unary _ => none
  | binary op => some op.symbol

def ofName? (name : String) : Option Operator := all.find? (·.name == name)

theorem ofName?_name (op : Operator) : ofName? op.name = some op := by
  rcases op with op | op <;> cases op <;> decide

end Operator

end Downhill
