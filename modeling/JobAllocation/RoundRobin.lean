import JobAllocation.Offer
import JobAllocation.Pool

/-!
# Round robin

All jobs wait in one queue, in input order. Each turn takes the job at its head, gives it at most
one quantum of instructions on the unit that is free first, and puts it back at the tail if work is
left. The quantum counts instructions, so a fast unit is through with it in less time than a slow
one.

A turn does at least one instruction of a job that has any left, so the work that is left in the
queue, counted with its jobs, goes down with every turn.
-/
namespace JobAllocation.RoundRobin

variable {T : Type}

/-- The queue after a turn that left `remaining` instructions of its head. -/
def requeue (job : Job T) (remaining : Nat) (rest : List (Job T)) : List (Job T) :=
  if 0 < remaining then rest ++ [{ job with remaining }] else rest

/-- The work that is left in the queue, each job counting for one more. -/
def weight (queue : List (Job T)) : Nat := (queue.map fun job => job.remaining + 1).sum

theorem weight_requeue_lt {quantum : Nat} (hq : 0 < quantum) (job : Job T) (rest : List (Job T)) :
    weight (requeue job (job.remaining - min quantum job.remaining) rest) <
      weight (job :: rest) := by
  unfold requeue weight
  split
  · simp only [List.map_append, List.map_cons, List.map_nil, List.sum_append, List.sum_cons,
      List.sum_nil]
    omega
  · simp only [List.map_cons, List.sum_cons]
    omega

variable [Quantity T]

/-- One turn of a job on a unit: its trace entry, the last one of the job if no work is left. -/
def turn (quantum step : Nat) (job : Job T) (unit : ExecutionUnit T) :
    Except (AllocationError T) (Slice T) := do
  let work := min quantum job.remaining
  let start := Quantity.larger unit.ready job.arrival
  let remaining := job.remaining - work
  return {
    step
    job := job.id
    unit := unit.id
    start
    finish := start + (← executionTime work unit)
    work
    remaining
    outcome := if 0 < remaining then .preempted else .completed }

/-- The schedule after one more turn. The completion of a job starts with its first slice. -/
def record (schedule : Schedule T) (slice : Slice T) : Schedule T :=
  let start := (schedule.firstStart? slice.job).getD slice.start
  let schedule := schedule.addSlice slice
  match slice.outcome with
  | .preempted => { schedule with contextSwitches := schedule.contextSwitches + 1 }
  | .completed =>
    schedule.addCompletion {
      job := slice.job
      unit := slice.unit
      start
      finish := slice.finish }

/-- Gives turns until the queue is empty, and returns the schedule with the units after it. -/
def run (quantum : Nat) (hq : 0 < quantum) (queue : List (Job T)) (units : List (ExecutionUnit T))
    (schedule : Schedule T) :
    Except (AllocationError T) (Schedule T × List (ExecutionUnit T)) :=
  match queue with
  | [] => .ok (schedule, units)
  | job :: rest =>
    match firstFree? units with
    | none => .error .noUnits
    | some unit => do
      let slice ← turn quantum (schedule.slices.length + 1) job unit
      run quantum hq (requeue job (job.remaining - min quantum job.remaining) rest)
        (advanceUnit units unit.id slice.finish) (record schedule slice)
termination_by weight queue
decreasing_by exact weight_requeue_lt hq job rest

def allocate (quantum : Nat) (pool : Pool T) : Except (AllocationError T) (Allocation T) :=
  if hq : 0 < quantum then do
    pool.check
    let jobs := pool.freshJobs
    let (schedule, units) ← run quantum hq jobs pool.units .empty
    return { schedule, pool := { jobs := schedule.settle jobs, units } }
  else
    .error .quantumNotPositive

end JobAllocation.RoundRobin
