import JobAllocation.Dispatch
import JobAllocation.Offer
import JobAllocation.Pool

/-!
# Arrival-gated list scheduling

A clock starts when the first unit is free. Each round takes the jobs that have arrived by then, or
waits for the next arrival if there are none. The rules pick one of them, the unit on which it
completes first runs it, starting no earlier than the clock, and the clock moves on to the time at
which some unit is free again. It never moves back.

With one unit this is the textbook policy: the next pick is made when the previous job finishes,
among the jobs that have arrived by then.
-/
namespace JobAllocation

/-- A list policy made of usual rules: its name and the rules by which it picks. -/
structure ListScheduling where
  name : String
  rules : RuleChain
  deriving DecidableEq

namespace ListScheduling

/-- First come, first served. -/
def fcfs : ListScheduling := ⟨"FCFS", [.fifo]⟩

/-- Shortest job first. -/
def sjf : ListScheduling := ⟨"SJF", [.spt]⟩

/-- Earliest deadline first. -/
def edf : ListScheduling := ⟨"EDF", [.edd]⟩

variable {T : Type}

/-- The jobs that are still to be run once `job` is. -/
def without (job : Job T) (pending : List (Job T)) : List (Job T) :=
  pending.eraseP (·.id == job.id)

theorem length_without_lt {job : Job T} {pending : List (Job T)} (h : job ∈ pending) :
    (without job pending).length < pending.length := by
  unfold without
  rw [List.length_eraseP_of_mem h (by simp)]
  have := List.length_pos_of_mem h
  omega

variable [Quantity T]

/-- When the first unit is free. -/
def firstReady (units : List (ExecutionUnit T)) : T :=
  Quantity.smallest (units.map (·.ready))

/-- The jobs that have arrived by a time. -/
def arrived (now : T) (pending : List (Job T)) : List (Job T) :=
  pending.filter fun job => job.arrival ≤ now

/-- When the next pick is made: at once if a job has arrived, otherwise at the next arrival. -/
def decisionTime (clock : T) (pending : List (Job T)) : T :=
  if (arrived clock pending).isEmpty then
    Quantity.larger clock (Quantity.smallest (pending.map (·.arrival)))
  else
    clock

/-- The job that the rules pick among those that have arrived. -/
def pick? (engine : RuleEngine T) (now : T) (pending : List (Job T)) : Option (Job T) :=
  (engine.rankingAt now).select? (arrived now pending)

theorem mem_of_pick? {engine : RuleEngine T} {now : T} {pending : List (Job T)} {job : Job T}
    (h : pick? engine now pending = some job) : job ∈ pending ∧ job.arrival ≤ now := by
  have hm := Selection.mem_of_best? h
  simpa [arrived] using hm

/-- Runs the pending jobs from a clock on, and returns their completions in order of commitment with
the units after them. -/
def run (engine : RuleEngine T) (clock : T) (pending : List (Job T))
    (units : List (ExecutionUnit T)) :
    Except (AllocationError T) (List (Completion T) × List (ExecutionUnit T)) :=
  let now := decisionTime clock pending
  match _h : pick? engine now pending with
  | none => .ok ([], units)
  | some job => do
    let offer ← earliestOffer job units now
    let units := advanceUnit units offer.unit.id offer.finish
    let clock := Quantity.larger now (firstReady units)
    let (completions, units) ← run engine clock (without job pending) units
    return (offer.completion job :: completions, units)
termination_by pending.length
decreasing_by exact length_without_lt (mem_of_pick? _h).1

/-- Allocates by any rules. -/
def allocateBy (engine : RuleEngine T) (pool : Pool T) :
    Except (AllocationError T) (Allocation T) := do
  pool.check
  let jobs := pool.freshJobs
  let (completions, units) ← run engine (firstReady pool.units) jobs pool.units
  let schedule := .ofCompletions completions
  return { schedule, pool := { jobs := schedule.settle jobs, units } }

def allocate (policy : ListScheduling) (pool : Pool T) :
    Except (AllocationError T) (Allocation T) :=
  allocateBy policy.rules.engine pool

end ListScheduling
end JobAllocation
