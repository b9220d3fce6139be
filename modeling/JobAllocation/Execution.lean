import JobAllocation.Estimate
import JobAllocation.Schedule

/-!
# Carrying out an assignment

Each unit runs its jobs one at a time, in the order of the assignment, each as soon as the unit is
free and the job has arrived. Units do not wait for each other.

An assignment is refused if it leaves out a job, binds one twice, or names a job or unit that is not
there. A missing job is noticed before anything runs, the rest entry by entry.
-/
namespace JobAllocation.Execution

variable {T : Type} [Quantity T]

/-- When a unit is free again, the latest entry first. -/
abbrev Clocks (T : Type) := List (UnitId × T)

/-- When a unit is free again. -/
def Clocks.at (clocks : Clocks T) (unit : ExecutionUnit T) : T :=
  (clocks.lookup unit.id).getD unit.ready

/-- Runs the entries that are left, with the jobs that have run and the clocks of the units. -/
def run (jobs : List (Job T)) (units : List (ExecutionUnit T)) (seen : List JobId)
    (clocks : Clocks T) : List (JobId × UnitId) → Except (AllocationError T) (List (Completion T))
  | [] => .ok []
  | (jobId, unitId) :: rest =>
    if jobId ∈ seen then .error (.jobRepeated jobId)
    else
      match findJob? jobs jobId with
      | none => .error (.jobUnknown jobId)
      | some job =>
        match findUnit? units unitId with
        | none => .error (.unitUnknown jobId unitId)
        | some unit => do
          let start := Quantity.larger (clocks.at unit) job.arrival
          let finish := start + (← executionTime job.length unit)
          let completions ← run jobs units (jobId :: seen) ((unitId, finish) :: clocks) rest
          return { job := jobId, unit := unitId, start, finish } :: completions

/-- The completions of an assignment, in its order. -/
def execute (a : Assignment) (jobs : List (Job T)) (units : List (ExecutionUnit T)) :
    Except (AllocationError T) (List (Completion T)) :=
  match jobs.find? fun job => (a.unitOf? job.id).isNone with
  | some job => .error (.jobUnassigned job.id)
  | none => run jobs units [] [] a.entries

end JobAllocation.Execution
