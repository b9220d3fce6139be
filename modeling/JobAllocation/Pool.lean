import JobAllocation.Schedule
import JobAllocation.Validation

/-!
# What an allocation works on

A pool is the jobs and units that a run is given, and also what it leaves: the same jobs with their
work done and the same units with later ready times. A run that fails leaves nothing, so its caller
keeps the pool it had.
-/
namespace JobAllocation

structure Pool (T : Type) where
  jobs : List (Job T)
  units : List (ExecutionUnit T)
  deriving DecidableEq

/-- A successful run: its schedule and the pool after it. -/
structure Allocation (T : Type) where
  schedule : Schedule T
  pool : Pool T
  deriving DecidableEq

namespace Pool

variable {T : Type} [Quantity T]

/-- Fails with the first fault of the jobs and units. -/
def check (pool : Pool T) : Except (AllocationError T) Unit := validate pool.jobs pool.units

/-- The jobs with all of their work to do. -/
def freshJobs (pool : Pool T) : List (Job T) := pool.jobs.map Job.reset

end Pool
end JobAllocation
