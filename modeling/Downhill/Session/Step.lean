import Downhill.Session.Construction
import Downhill.Session.Query

/-!
# Steps of a session

Every instruction fills one register more: with its value, or with nothing if it only asks or fails.
-/

namespace Downhill

namespace Work

/-- The value of an instruction, if it has one, and its answer. -/
def perform (i : Instruction) : Work (Value × Answer) :=
  match value? i with
  | some work => do
    let v ← work
    return (v, ← present v)
  | none => return (.nothing, ← query i)

end Work

namespace Session

/-- Performs an instruction and fills the next register. -/
def step (s : Session) (i : Instruction) : Except ExpressionError Answer × Session :=
  let (result, s) := (Work.perform i).run s
  match result with
  | .ok (v, answer) => (.ok answer, { s with registers := s.registers.push v })
  | .error e => (.error e, { s with registers := s.registers.push .nothing })

/-- Performs instructions one after the other, also after a failure. -/
def steps (s : Session) : List Instruction → List (Except ExpressionError Answer) × Session
  | [] => ([], s)
  | i :: rest =>
    let (answer, s) := s.step i
    let (answers, s) := s.steps rest
    (answer :: answers, s)

end Session

end Downhill
