import Downhill.Place
import Downhill.Tensor.Basic

/-!
# Ranking results

Results are ranked by value alone. A result of a whole run also says how the run ended, and is not
to be compared with one that does not. Sorting inserts one result after the other by binary search,
behind those of equal value, and asks only which of two values is lower; among results with NaN that
settles the order too.
-/

namespace Downhill

inductive Status where
  | converged
  | maxStepsReached
  deriving DecidableEq, Repr

namespace Status

def all : List Status := [converged, maxStepsReached]

def name : Status → String
  | converged => "converged"
  | maxStepsReached => "max_steps_reached"

def ofName? (name : String) : Option Status := all.find? (·.name == name)

end Status

/-- How a run ended. -/
structure Ending where
  status : Status := .maxStepsReached
  iterations : Int := 0
  message : String := ""
  deriving Repr

def Ending.success (e : Ending) : Bool := e.status == .converged

structure Result where
  value : Float
  point : Tensor Float
  ending : Option Ending := none
  deriving Repr

inductive RankingError where
  | noSuchResult
  | incomparable
  | nothingToRank
  deriving DecidableEq, Repr

inductive Relation where
  | eq | lt | le | gt | ge
  deriving DecidableEq, Repr

namespace Result

def read (value : Datum) (point : Nested Datum) (ending : Option Ending) :
    Except ShapeError Result := do
  let value ← value.toDouble?.mapError .conversion
  return { value, point := ← Tensor.read point, ending }

def comparable (a b : Result) : Bool := a.ending.isSome == b.ending.isSome

def lt? (a b : Result) : Except RankingError Bool :=
  if a.comparable b then .ok (decide (a.value < b.value)) else .error .incomparable

/-- Whether a relation holds. A result is equal to itself even where its value is not. -/
def related? (r : Relation) (identical : Bool) (a b : Result) : Except RankingError Bool :=
  let equal := identical || a.value == b.value
  match r with
  | .eq => .ok (a.comparable b && equal)
  | _ =>
    if !a.comparable b then .error .incomparable
    else
      match r with
      | .eq => .ok equal
      | .lt => .ok (!equal && decide (a.value < b.value))
      | .gt => .ok (!equal && decide (b.value < a.value))
      | .le => .ok (equal || decide (a.value ≤ b.value))
      | .ge => .ok (equal || decide (b.value ≤ a.value))

end Result

namespace Ranking

variable {β : Type}

/-- The element at a place counted from either end, together with the place. -/
def at? (xs : Array β) (i : Int) : Except RankingError (Nat × β) :=
  match (place? xs.size i).bind fun k => xs[k]?.map (k, ·) with
  | some found => .ok found
  | none => .error .noSuchResult

/-- The first of the lowest. -/
def min? (lt : β → β → Except RankingError Bool) : List β → Except RankingError β
  | [] => .error .nothingToRank
  | first :: rest => rest.foldlM (fun best x => return if ← lt x best then x else best) first

/-- The place behind all of `sorted` from `low` to `high` that are not above `x`. -/
def insertionPlace (lt : β → β → Except RankingError Bool) (sorted : Array β) (x : β) :
    (fuel low high : Nat) → Except RankingError Nat
  | 0, low, _ => .ok low
  | fuel + 1, low, high =>
    if low < high then
      let middle := (low + high) / 2
      match sorted[middle]? with
      | none => .ok low
      | some y => do
        if ← lt x y then insertionPlace lt sorted x fuel low middle
        else insertionPlace lt sorted x fuel (middle + 1) high
    else .ok low

def insert (lt : β → β → Except RankingError Bool) (sorted : Array β) (x : β) :
    Except RankingError (Array β) := do
  let k ← insertionPlace lt sorted x (sorted.size + 1) 0 sorted.size
  return sorted.extract 0 k ++ #[x] ++ sorted.extract k sorted.size

def sort (lt : β → β → Except RankingError Bool) (xs : List β) : Except RankingError (Array β) :=
  xs.foldlM (insert lt) #[]

end Ranking

end Downhill
