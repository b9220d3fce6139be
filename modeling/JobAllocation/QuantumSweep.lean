import JobAllocation.Metrics
import JobAllocation.RoundRobin

/-!
# What a quantum costs

Runs round robin once per quantum, each time on the same pool, and keeps the figures in which the
runs differ.
-/
namespace JobAllocation

structure QuantumOutcome (T : Type) where
  quantum : Nat
  contextSwitches : Nat
  makespan : T
  avgWaiting : T
  avgTurnaround : T
  deriving DecidableEq

namespace QuantumOutcome

variable {T : Type} [Quantity T]

/-- The outcome of one quantum. -/
def measure (pool : Pool T) (quantum : Nat) : Except (AllocationError T) (QuantumOutcome T) := do
  let run ← RoundRobin.allocate quantum pool
  let metrics ← Metrics.ofSchedule run.schedule run.pool.jobs
  return {
    quantum
    contextSwitches := run.schedule.contextSwitches
    makespan := metrics.makespan
    avgWaiting := metrics.avgWaiting
    avgTurnaround := metrics.avgTurnaround }

/-- The outcome of each quantum, or the first failure. -/
def sweep (quanta : List Nat) (pool : Pool T) :
    Except (AllocationError T) (List (QuantumOutcome T)) :=
  quanta.mapM (measure pool)

end QuantumOutcome
end JobAllocation
