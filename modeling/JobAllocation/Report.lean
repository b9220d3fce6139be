import JobAllocation.Metrics
import JobAllocation.Policy

/-!
# Running and comparing policies

A run works on its own copy of the pool and reports the schedule, its metrics and the units after
it. A run of no jobs has no metrics.
-/
namespace JobAllocation

structure Report (T : Type) where
  policy : Policy
  schedule : Schedule T
  metrics : Option (Metrics T)
  units : List (ExecutionUnit T)
  deriving DecidableEq

namespace Report

variable {T : Type} [Quantity T]

/-- The report of one policy. -/
def ofPolicy (policy : Policy) (pool : Pool T) : Except (AllocationError T) (Report T) := do
  let run ← policy.allocator.allocate pool
  let metrics ←
    if run.schedule.completions.isEmpty then pure none
    else some <$> Metrics.ofSchedule run.schedule run.pool.jobs
  return { policy, schedule := run.schedule, metrics, units := run.pool.units }

/-- The report of each policy on the same pool, or the first failure. -/
def compare (policies : List Policy) (pool : Pool T) :
    Except (AllocationError T) (List (Report T)) :=
  policies.mapM fun policy => ofPolicy policy pool

end Report
end JobAllocation
