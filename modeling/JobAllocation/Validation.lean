import JobAllocation.AllocationError

/-!
# Input validation

`violations` lists every fault of the input: an empty pool, then the faults of each unit, then those
of each job. A number that is used again is a fault of each later use. Comparisons are stated so
that an undefined value fails them.
-/
namespace JobAllocation

variable {T : Type} [Quantity T]

/-- The faults of a unit by itself. -/
def ExecutionUnit.faults (unit : ExecutionUnit T) : List (AllocationError T) :=
  (if Quantity.isFinite unit.speed ∧ 0 < unit.speed then []
    else [.speedNotPositive unit.id unit.speed]) ++
  (if Quantity.isFinite unit.ready ∧ 0 ≤ unit.ready then []
    else [.readyNegative unit.id unit.ready])

/-- The faults of a job by itself. -/
def Job.faults (job : Job T) : List (AllocationError T) :=
  (if job.length = 0 then [.lengthNotPositive job.id] else []) ++
  (if job.length < job.remaining then
    [.remainingExceedsLength job.id job.remaining job.length] else []) ++
  (if Quantity.isFinite job.arrival ∧ 0 ≤ job.arrival then []
    else [.arrivalNegative job.id job.arrival]) ++
  match job.deadline with
  | none => []
  | some deadline =>
    if Quantity.isFinite deadline ∧ 0 < deadline then [] else [.deadlineNotPositive job.id deadline]

/-- The faults of units that follow units with the numbers `seen`. -/
def unitViolations (seen : List UnitId) : List (ExecutionUnit T) → List (AllocationError T)
  | [] => []
  | unit :: rest =>
    (if unit.id ∈ seen then [.duplicateUnit unit.id] else []) ++ unit.faults ++
      unitViolations (unit.id :: seen) rest

/-- The faults of jobs that follow jobs with the numbers `seen`. -/
def jobViolations (seen : List JobId) : List (Job T) → List (AllocationError T)
  | [] => []
  | job :: rest =>
    (if job.id ∈ seen then [.duplicateJob job.id] else []) ++ job.faults ++
      jobViolations (job.id :: seen) rest

/-- Every fault of the input. -/
def violations (jobs : List (Job T)) (units : List (ExecutionUnit T)) : List (AllocationError T) :=
  (if units.isEmpty then [.noUnits] else []) ++ unitViolations [] units ++ jobViolations [] jobs

/-- Fails with the first fault. -/
def validate (jobs : List (Job T)) (units : List (ExecutionUnit T)) :
    Except (AllocationError T) Unit :=
  match violations jobs units with
  | [] => .ok ()
  | fault :: _ => .error fault

end JobAllocation
