import Downhill.Graph.Error

/-!
# Tensors

Rectangular nestings of numbers, stored flat beside their shape. `Nested.shape?` says which nestings
are rectangular; `Tensor.read` turns those into tensors of doubles and `Tensor.nested` turns tensors
back.
-/

namespace Downhill

inductive Nested (β : Type u) where
  | leaf (value : β)
  | list (parts : List (Nested β))

namespace Nested

/-- Parts of one shape form a nesting with one more axis; no parts form an axis of length zero. -/
def join? : List (Option (List Nat)) → Option (List Nat)
  | [] => some [0]
  | none :: _ => none
  | some s :: rest => if rest.all (· == some s) then some ((rest.length + 1) :: s) else none

def shape? : Nested β → Option (List Nat)
  | leaf _ => some []
  | list parts => join? (parts.map shape?)

def leaves : Nested β → List β
  | leaf b => [b]
  | list parts => parts.flatMap leaves

end Nested

structure Tensor (α : Type u) where
  shape : List Nat
  data : Array α
  deriving Repr

namespace Tensor

def ofVector (x : Array α) : Tensor α := ⟨[x.size], x⟩

def rank (t : Tensor α) : Nat := t.shape.length

/-- The length of the last axis. -/
def lastLength (t : Tensor α) : Nat := t.shape.getLastD 1

/-- The rows of a matrix. -/
def rows (t : Tensor α) : List (Array α) :=
  let width := t.lastLength
  (List.range (t.shape.headD 0)).map fun r => t.data.extract (r * width) ((r + 1) * width)

def map (f : α → β) (t : Tensor α) : Tensor β := ⟨t.shape, t.data.map f⟩

/-- The greatest number of axes. -/
def maxRank : Nat := 64

/-- The shape is settled before any number is looked at. -/
def read (n : Nested Datum) : Except ShapeError (Tensor Float) :=
  match n.shape? with
  | none => .error .ragged
  | some shape =>
    if maxRank < shape.length then .error .tooDeep
    else
      match n.leaves.mapM Datum.toDouble? with
      | .ok values => .ok ⟨shape, values.toArray⟩
      | .error e => .error (.conversion e)

def nest : List Nat → List α → Nested α
  | [], v :: _ => .leaf v
  | [], [] => .list []
  | d :: ds, values =>
    let stride := ds.foldl (· * ·) 1
    .list ((List.range d).map fun i => nest ds (values.drop (i * stride)))

def nested (t : Tensor α) : Nested α := nest t.shape t.data.toList

/-- The elements as a list, which a tensor without axes does not have. -/
def listed? (t : Tensor α) : Except ShapeError (Nested α) :=
  if t.rank = 0 then .error .noElements else .ok t.nested

end Tensor

end Downhill
