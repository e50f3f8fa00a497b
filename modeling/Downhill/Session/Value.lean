import Downhill.Graph.Compiled
import Downhill.Graph.Render
import Downhill.Scalar.Double
import Downhill.Numeral
import Downhill.Session.Instruction

/-!
# Values of a session

What registers hold. Everything that lives in a pool says in which: two expressions are the same if
they are the same node of the same pool. A datum may know the register that it first came to.
-/

namespace Downhill

inductive Value where
  | expression (pool : Nat) (handle : Handle)
  | vector (pool : Nat) (handles : Array Handle)
  | pool (pool : Nat)
  | expressions (pool : Nat) (handles : List Handle)
  | datum (d : Datum) (origin : Option Register)
  | function (pool : Nat) (f : CompiledFunction Float)
  | gradient (pool : Nat) (g : CompiledGradient Float)
  /-- The register of an instruction that has no value. -/
  | nothing
  deriving Inhabited

namespace Value

/-- The name of the kind of a value, as messages give it. -/
def kind : Value → String
  | expression .. => "Expr"
  | vector .. => "VariableVector"
  | pool _ => "ExpressionPool"
  | expressions .. => "list"
  | datum d _ => d.kind
  | function .. => "CompiledFunction"
  | gradient .. => "CompiledGradient"
  | nothing => "NoneType"

/-- What a value is for a pool, given what data are there. -/
def operand (pool : Nat) (read : Datum → Operand Float) : Value → Operand Float
  | expression k h => if k = pool then .expression h else .foreign
  | datum d _ => read d
  | v => .other v.kind

/-- Whether two values are equal. Vectors, functions and gradients are equal to themselves only. -/
def same (identical : Bool) : Value → Value → Bool
  | expression k h, expression k' h' => k == k' && h == h'
  | expressions k hs, expressions k' hs' => hs == hs' && (hs.isEmpty || k == k')
  | pool k, pool k' => k == k'
  | datum d _, datum d' _ => d.equals d'
  | nothing, nothing | nothing, datum .none _ | datum .none _, nothing => true
  | _, _ => identical

/-- Whether a value can be a key. -/
def isKey : Value → Bool
  | expressions .. | datum .list _ | datum .dict _ => false
  | _ => true

/-- The pool that a value names or lives in. -/
def pool? : Value → Option Nat
  | expression k _ | vector k _ | pool k => some k
  | _ => none

end Value

/-- What an instruction answers. -/
inductive Answer where
  | expression (handle : Handle) (size : Nat)
  | vector (dim size : Nat)
  | pool (size : Nat)
  | expressions (handles : List Handle) (size : Nat)
  | number (v : Float)
  | tooLarge
  | other (kind : String)
  | function (f : CompiledFunction Float)
  | gradient (g : CompiledGradient Float)
  | text (s : String)
  | node (n : Node Handle Float)
  | truth (b : Bool)
  | cached (handle : Option Handle)
  | count (n : Nat)
  | handles (hs : List Handle)
  | value (v : Float)
  | point (x : Array Float)
  | batch (t : Tensor Float)

end Downhill
