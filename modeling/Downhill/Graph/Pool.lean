import Downhill.Association
import Downhill.Graph.Node
import Downhill.Graph.Error
import Downhill.Place
import Std.Data.TreeMap

/-!
# Pools of shared nodes

A pool stores every node once. A construction first simplifies: it computes what it can from
constants, drops neutral operands and cancels double negation. Then it looks the node up in a table
that is kept beside the nodes, and only a node that is not in it is appended and entered there. The
handle of a node is its position, so handles stay valid, operands come before their users, and equal
expressions have one handle. A caller may also name a node by a negative handle, which counts from
the end of the pool whenever it is followed; a node built from such a handle keeps it as it is.

The constructors of `Pool` are total; `Build` adds the checks on what a caller hands in, and keeps
the pool when one of them fails.
-/

namespace Downhill

/-- Names a node of a pool: by its position, or by its distance from the end if negative. -/
abbrev Handle := Int

/-- Partial derivatives already taken: handle and variable index, to the handle of the result. -/
abbrev Derivatives := Std.TreeMap (Handle × Nat) Handle lexOrd.compare

structure Pool (α : Type u) where
  nodes : Array (Node Handle α) := #[]
  /-- The positions of nodes, by which they are found. -/
  table : List (Node Handle α × Nat) := []
  derivatives : Derivatives := ∅

namespace Pool

variable {α : Type u}

def empty : Pool α := {}

def size (p : Pool α) : Nat := p.nodes.size

def node? (p : Pool α) (h : Handle) : Option (Node Handle α) :=
  (place? p.size h).bind (p.nodes[·]?)

@[simp]
theorem node?_ofNat (p : Pool α) (n : Nat) : p.node? (n : Handle) = p.nodes[n]? := by
  simp only [node?, place?_ofNat]
  split
  · rfl
  · simp_all [size]

def constant? (p : Pool α) (h : Handle) : Option α :=
  match p.node? h with
  | some (.const v) => some v
  | _ => none

def isConstant (p : Pool α) (h : Handle) : Bool := (p.constant? h).isSome

def derivative? (p : Pool α) (h : Handle) (i : Nat) : Option Handle := p.derivatives[(h, i)]?

def remember (p : Pool α) (h : Handle) (i : Nat) (d : Handle) : Pool α :=
  { p with derivatives := p.derivatives.insert (h, i) d }

variable [Scalar α]

/-- The position under which a node is in the table. -/
def find? (p : Pool α) (n : Node Handle α) : Option Nat := p.table.lookup n

/-- Appends a node and enters it in the table. -/
def push (p : Pool α) (n : Node Handle α) : Pool α :=
  { p with nodes := p.nodes.push n, table := assign n p.size p.table }

/-- The handle of a node, and the pool that holds it. -/
def intern (p : Pool α) (n : Node Handle α) : Handle × Pool α :=
  match p.find? n with
  | some h => (h, p)
  | none => (p.size, p.push n)

def constant (p : Pool α) (value : α) : Handle × Pool α := p.intern (.const value)

def var (p : Pool α) (index : Nat) : Handle × Pool α := p.intern (.var index)

/-- Whether a constant, if there is one, equals a given number. -/
def holds (c : Option α) (value : α) : Bool := c.any (Scalar.eq · value)

def unary (p : Pool α) (op : UnaryOp) (a : Handle) : Handle × Pool α :=
  match p.node? a, op with
  | some (.const v), op => p.constant (Scalar.unary op v)
  | some (.unary .neg b), .neg => (b, p)
  | _, op => p.intern (.unary op a)

/-- Two constants are computed; otherwise the neutral and absorbing constants of each operator are
looked for, on the left first where either side would do. -/
def binary (p : Pool α) (op : BinaryOp) (a b : Handle) : Handle × Pool α :=
  match p.constant? a, p.constant? b with
  | some u, some v => p.constant (Scalar.binary op u v)
  | u, v =>
    let zero : α := Scalar.nat 0
    let one : α := Scalar.nat 1
    match op with
    | .add =>
      if holds u zero then (b, p)
      else if holds v zero then (a, p)
      else p.intern (.binary .add a b)
    | .sub =>
      if holds v zero then (a, p)
      else if holds u zero then p.unary .neg b
      else p.intern (.binary .sub a b)
    | .mul =>
      if holds u zero || holds v zero then p.constant zero
      else if holds u one then (b, p)
      else if holds v one then (a, p)
      else p.intern (.binary .mul a b)
    | .div =>
      if holds v one then (a, p)
      else if holds u zero then p.constant zero
      else p.intern (.binary .div a b)
    | .pow =>
      if holds v one then (a, p)
      else if holds v zero then p.constant one
      else p.intern (.binary .pow a b)

end Pool

/-- Building in a pool. A failure leaves the pool as the steps before it made it. -/
abbrev Build (α : Type) := ExceptT ExpressionError (StateM (Pool α))

namespace Build

variable {α : Type} [Scalar α]

def node (h : Handle) : Build α (Node Handle α) := do
  let some n := (← get).node? h | throw .noSuchNode
  return n

def constant (value : α) : Build α Handle := modifyGet (·.constant value)

def var (index : Int) : Build α Handle :=
  if index < 0 then throw .negativeIndex else modifyGet (·.var index.toNat)

def unary (op : UnaryOp) (a : Handle) : Build α Handle := do
  discard <| node a
  modifyGet (·.unary op a)

def binary (op : BinaryOp) (a b : Handle) : Build α Handle := do
  discard <| node a
  discard <| node b
  modifyGet (·.binary op a b)

/-- A unary operator given by name. -/
def unaryNamed (name : String) (a : Handle) : Build α Handle :=
  match Operator.ofName? name with
  | none => throw (.unknownOperator name)
  | some (.binary _) => throw (.notUnary name)
  | some (.unary op) => unary op a

/-- A binary operator given by name. -/
def binaryNamed (name : String) (a b : Handle) : Build α Handle :=
  match Operator.ofName? name with
  | none => throw (.unknownOperator name)
  | some (.unary _) => throw (.notBinary name)
  | some (.binary op) => binary op a b

/-- The variables `x[0]` to `x[dim - 1]`. -/
def vars (dim : Int) : Build α (Array Handle) :=
  if dim < 1 then throw .emptyVector
  else (Array.range dim.toNat).mapM fun (i : Nat) => var i

end Build

end Downhill
