import JobAllocation.Policy

/-!
# Allocation in place

A call works on the pool that it is given. It resets the jobs and writes each commitment down as it
makes it: its unit is busy from then on, and its job has less left to do. What has been written
before a failure stays written.

List scheduling may be called with rules of any kind, so a call says more than the name of a policy.
-/
namespace JobAllocation

variable {T : Type}

/-- Work on a pool that changes it step by step. A failure leaves the changes made before it. -/
abbrev InPlace (T : Type) := ExceptT (AllocationError T) (StateM (Pool T))

/-- What the work comes to on a given pool, with the pool after it. -/
def InPlace.on {α : Type} (work : InPlace T α) (pool : Pool T) :
    Except (AllocationError T) α × Pool T :=
  work.run pool

variable [Quantity T]

namespace Pool

/-- The pool with all work of its jobs to do. -/
def reset (pool : Pool T) : Pool T := { pool with jobs := pool.freshJobs }

/-- The pool with a unit busy until `finish` and `remaining` instructions left of a job. -/
def commit (pool : Pool T) (unit : UnitId) (finish : T) (job : JobId) (remaining : Nat) :
    Pool T where
  jobs := pool.jobs.map fun j => if j.id = job then { j with remaining } else j
  units := advanceUnit pool.units unit finish

end Pool

namespace ListScheduling

/-- Runs the pending jobs from a clock on, each written to the pool once it is placed. -/
def runInPlace (engine : RuleEngine T) (clock : T) (pending : List (Job T)) :
    InPlace T (List (Completion T)) :=
  let now := decisionTime clock pending
  match _h : pick? engine now pending with
  | none => return []
  | some job => do
    let offer ← earliestOffer job (← get).units now
    modify (·.commit offer.unit.id offer.finish job.id 0)
    let clock := Quantity.larger now (firstReady (← get).units)
    let completions ← runInPlace engine clock (without job pending)
    return offer.completion job :: completions
termination_by pending.length
decreasing_by exact length_without_lt (mem_of_pick? _h).1

def allocateInPlace (engine : RuleEngine T) : InPlace T (Schedule T) := do
  (← get).check
  modify Pool.reset
  let pool ← get
  return .ofCompletions (← runInPlace engine (firstReady pool.units) pool.jobs)

end ListScheduling

namespace BatchHeuristic

/-- Runs the pending jobs, each written to the pool once it is placed. -/
def runInPlace (heuristic : BatchHeuristic) (pending : List (Job T)) :
    InPlace T (List (Completion T)) := do
  let units := (← get).units
  match _h : heuristic.pick? pending units with
  | .error e => throw e
  | .ok none => return []
  | .ok (some (job, offer)) =>
    modify (·.commit offer.unit.id offer.finish job.id 0)
    let completions ← runInPlace heuristic (pending.eraseP (·.id == job.id))
    return offer.completion job :: completions
termination_by pending.length
decreasing_by
  have hm : job ∈ pending := mem_of_pick? _h
  rw [List.length_eraseP_of_mem hm (by simp)]
  have := List.length_pos_of_mem hm
  omega

def allocateInPlace (heuristic : BatchHeuristic) : InPlace T (Schedule T) := do
  (← get).check
  modify Pool.reset
  let jobs := (← get).jobs
  return .ofCompletions (← runInPlace heuristic (jobs.mergeSort (·.id ≤ ·.id)))

end BatchHeuristic

namespace RoundRobin

/-- Gives turns until the queue is empty, each written to the pool once it is granted. -/
def runInPlace (quantum : Nat) (hq : 0 < quantum) (queue : List (Job T)) (schedule : Schedule T) :
    InPlace T (Schedule T) :=
  match queue with
  | [] => return schedule
  | job :: rest => do
    match firstFree? (← get).units with
    | none => throw .noUnits
    | some unit =>
      let slice ← turn quantum (schedule.slices.length + 1) job unit
      modify (·.commit unit.id slice.finish job.id slice.remaining)
      runInPlace quantum hq (requeue job (job.remaining - min quantum job.remaining) rest)
        (record schedule slice)
termination_by weight queue
decreasing_by exact weight_requeue_lt hq job rest

def allocateInPlace (quantum : Nat) : InPlace T (Schedule T) :=
  if hq : 0 < quantum then do
    (← get).check
    modify Pool.reset
    runInPlace quantum hq (← get).jobs .empty
  else
    throw .quantumNotPositive

end RoundRobin

namespace HillClimbing

/-- The search and the execution of its assignment read the pool. It is written to after them. -/
def allocateInPlace (policy : HillClimbing) : InPlace T (Schedule T) := do
  let pool ← get
  let climb ← policy.search pool
  let completions ← Execution.execute climb.assignment pool.jobs pool.units
  modify fun pool => { pool with jobs := pool.jobs.map Job.markCompleted }
  completions.forM fun c =>
    modify fun pool => { pool with units := advanceUnit pool.units c.unit c.finish }
  return .ofCompletions completions

end HillClimbing

/-- A call with all its parameters. -/
inductive Call (T : Type) where
  | list (engine : RuleEngine T)
  | batch (heuristic : BatchHeuristic)
  | roundRobin (quantum : Nat)
  | hillClimbing (policy : HillClimbing)

namespace Call

/-- The allocation that the call makes of a pool, and leaves the pool alone. -/
def allocate (call : Call T) (pool : Pool T) : Except (AllocationError T) (Allocation T) :=
  match call with
  | list engine => ListScheduling.allocateBy engine pool
  | batch heuristic => heuristic.allocate pool
  | roundRobin quantum => RoundRobin.allocate quantum pool
  | hillClimbing policy => policy.allocate pool

/-- The outcome of a call and the pool after it. A call that fails leaves the pool as it was. -/
def apply (call : Call T) (pool : Pool T) : Except (AllocationError T) (Schedule T) × Pool T :=
  match call.allocate pool with
  | .ok run => (.ok run.schedule, run.pool)
  | .error e => (.error e, pool)

/-- The call at work on a pool. -/
def perform (call : Call T) : InPlace T (Schedule T) :=
  match call with
  | list engine => ListScheduling.allocateInPlace engine
  | batch heuristic => heuristic.allocateInPlace
  | roundRobin quantum => RoundRobin.allocateInPlace quantum
  | hillClimbing policy => policy.allocateInPlace

end Call

/-- An allocator as a call. -/
def Allocator.call (allocator : Allocator) : Call T :=
  match allocator with
  | list policy => .list policy.rules.engine
  | batch heuristic => .batch heuristic
  | roundRobin quantum => .roundRobin quantum
  | hillClimbing policy => .hillClimbing policy

end JobAllocation
