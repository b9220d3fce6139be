import JobAllocation.AllocationError
import JobAllocation.Schedule

/-!
# Metrics of a schedule

Waiting, turnaround and execution time of each completion, their averages, what became of the
deadlines, and how busy the units were. Averages are over completions, so a schedule without any has
no metrics.
-/
namespace JobAllocation

/-- What one completion cost its job. -/
structure JobMetrics (T : Type) where
  job : JobId
  unit : UnitId
  /-- From arrival to start. -/
  waiting : T
  /-- From arrival to finish. -/
  turnaround : T
  /-- The time for which it ran. -/
  execution : T
  late : Bool
  deriving DecidableEq

structure Metrics (T : Type) where
  completed : Nat
  avgWaiting : T
  avgTurnaround : T
  avgExecution : T
  totalExecution : T
  makespan : T
  /-- The late completions, if any job had a deadline. -/
  missedDeadlines : Option Nat
  /-- Their share of the completions with a deadline. -/
  deadlineMissRate : Option T
  totalTardiness : T
  utilizationByUnit : List (UnitId × T)
  avgUtilization : T
  jobs : List (JobMetrics T)
  deriving DecidableEq

namespace Metrics

variable {T : Type} [Quantity T]

/-- A completion with the job that it is of. -/
def identify (jobs : List (Job T)) (c : Completion T) :
    Except (AllocationError T) (Completion T × Job T) :=
  match findJob? jobs c.job with
  | some job => .ok (c, job)
  | none => .error (.completionOfUnknownJob c.job)

/-- What a completion cost its job. -/
def ofCompletion (schedule : Schedule T) (c : Completion T) (job : Job T) : JobMetrics T where
  job := c.job
  unit := c.unit
  waiting := c.start - job.arrival
  turnaround := c.finish - job.arrival
  execution := (schedule.executionTime? c.job).getD c.span
  late := job.isLate c.finish

/-- The mean of a list, zero if it is empty. -/
def mean (xs : List T) : T :=
  if xs.isEmpty then 0 else Quantity.sum xs / Quantity.ofNat xs.length

/-- The metrics of completions whose jobs are known. -/
def summarize (schedule : Schedule T) (runs : List (Completion T × Job T)) : Metrics T :=
  let jobs := runs.map fun (c, job) => ofCompletion schedule c job
  let count := Quantity.ofNat runs.length
  let totalExecution := Quantity.total (jobs.map (·.execution))
  let due := runs.filter (·.2.deadline.isSome)
  let missed := due.countP fun (c, job) => job.isLate c.finish
  { completed := runs.length
    avgWaiting := Quantity.total (jobs.map (·.waiting)) / count
    avgTurnaround := Quantity.total (jobs.map (·.turnaround)) / count
    avgExecution := totalExecution / count
    totalExecution
    makespan := schedule.makespan
    missedDeadlines := if due.isEmpty then none else some missed
    deadlineMissRate :=
      if due.isEmpty then none else some (Quantity.ofNat missed / Quantity.ofNat due.length)
    totalTardiness := Quantity.total (runs.map fun (c, job) => job.tardiness c.finish)
    utilizationByUnit := schedule.utilizations
    avgUtilization := mean (schedule.utilizations.map (·.2))
    jobs }

/-- The metrics of a schedule of the given jobs. -/
def ofSchedule (schedule : Schedule T) (jobs : List (Job T)) :
    Except (AllocationError T) (Metrics T) :=
  if schedule.completions.isEmpty then .error .nothingCompleted
  else do return summarize schedule (← schedule.completions.mapM (identify jobs))

/-- The metrics of completions by themselves. -/
def ofCompletions (completions : List (Completion T)) (jobs : List (Job T)) :
    Except (AllocationError T) (Metrics T) :=
  ofSchedule (.ofCompletions completions) jobs

/-- What the first completion of a job cost it. -/
def ofJob? (metrics : Metrics T) (job : JobId) : Option (JobMetrics T) :=
  metrics.jobs.find? (·.job == job)

end Metrics
end JobAllocation
