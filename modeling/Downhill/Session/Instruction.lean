import Downhill.Graph.Pool
import Downhill.Tensor.Basic

/-!
# Instructions

A session is driven by instructions, each of which fills the next register. Operands are named by
register; only the instructions on a pool itself name nodes by handle.
-/

namespace Downhill

abbrev Register := Nat

inductive Instruction where
  | datum (d : Datum)
  /-- A number taken from an array, anew whenever it is used. -/
  | entry (d : Datum)
  /-- An element of the vector in register zero. -/
  | variable (i : Int)
  | element (v : Register) (i : Int)
  | slice (v : Register) (start stop : Option Int)
  | unary (op : UnaryOp) (a : Register)
  | binary (op : BinaryOp) (a b : Register)
  | positive (a : Register)
  /-- An operator applied `n` times in a row. -/
  | chain (op : UnaryOp) (a : Register) (n : Nat)
  /-- The same right operand combined `n` times in a row. -/
  | repeated (op : BinaryOp) (a b : Register) (n : Nat)
  | expression (v a : Register)
  | vector (dim : Int)
  | vectorIn (v : Register) (dim : Int)
  | pool
  | differentiate (e : Register) (i : Int)
  | gradient (e v : Register)
  | function (v e : Register)
  | compiledGradient (v e : Register)
  | poolConstant (v : Register) (value : Datum)
  | poolVariable (v : Register) (i : Int)
  | poolUnary (v : Register) (op : String) (a : Handle)
  | poolBinary (v : Register) (op : String) (a b : Handle)
  | text (e : Register)
  | describe (e : Register)
  | node (e : Register)
  | poolNode (v : Register) (h : Handle)
  | poolText (v : Register) (h : Handle)
  | isConstant (e : Register)
  /-- Whether a node is a constant, or the constant of a given value. -/
  | poolConstantIs (v : Register) (h : Handle) (value : Option Datum)
  | same (a b : Register)
  /-- Whether two values are one and the same key. -/
  | sameKey (a b : Register)
  | cached (e : Register) (i : Int)
  | cachedCount (v : Register)
  | size (v : Register)
  | length (v : Register)
  | dimension (v : Register)
  | reachable (v : Register) (roots : List Register)
  | poolReachable (v : Register) (roots : List Handle)
  | call (f : Register) (point : Nested Datum)
  | batch (f : Register) (points : Nested Datum)

end Downhill
