import Downhill.Session.Step

/-!
# Scripts

A script is a list of instructions that builds an expression over given variables: register zero
holds the variables, the last register is the result, and the first failure is the failure of the
script.
-/

namespace Downhill

abbrev Script := List Instruction

namespace Session

/-- Performs instructions up to the first failure. -/
def runAll : Script → Work Unit
  | [] => return
  | i :: rest => do
    let (v, _) ← Work.perform i
    modify fun s => { s with registers := s.registers.push v }
    runAll rest

/-- The last value of a script, as an operand in the first pool. -/
def evaluate (script : Script) : Work (Operand Float) := do
  runAll script
  Work.operandIn 0 Datum.operand ((← get).registers.back?.getD .nothing)

end Session

/-- The result of a script over variables of a pool, as an operand of that pool. -/
def Script.build (script : Script) (xs : Array Handle) : Build Float (Operand Float) := do
  let p ← modifyGet fun p => (p, .empty)
  let (result, s) := (Session.evaluate script).run { pools := #[p], registers := #[.vector 0 xs] }
  set (s.pools.getD 0 .empty)
  match result with
  | .ok operand => return operand
  | .error e => throw e

end Downhill
