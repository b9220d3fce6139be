import JobAllocation.Execution
import JobAllocation.InitialAssignment
import JobAllocation.LocalSearch.Climb
import JobAllocation.Pool

/-!
# Allocation by local search

Improves a first assignment by single moves and carries out the result. The search balances loads
only. Arrivals and ready times come in when the assignment is carried out.
-/
namespace JobAllocation

structure HillClimbing where
  initial : InitialAssignment
  /-- The largest number of moves, if there is one. -/
  maxRounds : Option Nat
  deriving DecidableEq

namespace HillClimbing

variable {T : Type} [Quantity T]

/-- The search alone. -/
def search (policy : HillClimbing) (pool : Pool T) :
    Except (AllocationError T) (LocalSearch.Climb T) := do
  pool.check
  let initial ← policy.initial.build pool.jobs pool.units
  LocalSearch.optimize policy.maxRounds initial pool.jobs pool.units

def allocate (policy : HillClimbing) (pool : Pool T) :
    Except (AllocationError T) (Allocation T) := do
  let climb ← policy.search pool
  let completions ← Execution.execute climb.assignment pool.jobs pool.units
  let units := completions.foldl (fun units c => advanceUnit units c.unit c.finish) pool.units
  return {
    schedule := .ofCompletions completions
    pool := { jobs := pool.jobs.map Job.markCompleted, units } }

end HillClimbing
end JobAllocation
