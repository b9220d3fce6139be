import JobAllocation.Assignment

/-!
# Schedules

A schedule has one completion per job. A preemptive one also has the slices in which its jobs ran,
in the order in which they were granted.

The time that a job or a unit was busy is measured on the slices if there are any, and on the
completions otherwise.
-/
namespace JobAllocation

/-- A job that ran to its end. -/
structure Completion (T : Type) where
  job : JobId
  unit : UnitId
  start : T
  finish : T
  deriving DecidableEq

/-- Whether a slice ended with its job preempted or done. -/
inductive SliceOutcome where
  | preempted
  | completed
  deriving DecidableEq

/-- One turn of a job on a unit. -/
structure Slice (T : Type) where
  /-- The place in the trace, from 1. -/
  step : Nat
  job : JobId
  unit : UnitId
  start : T
  finish : T
  /-- The instructions done in this turn. -/
  work : Nat
  /-- The instructions left after it. -/
  remaining : Nat
  outcome : SliceOutcome
  deriving DecidableEq

structure Schedule (T : Type) where
  completions : List (Completion T)
  slices : List (Slice T)
  contextSwitches : Nat
  deriving DecidableEq

variable {T : Type} [Quantity T]

def Completion.span (c : Completion T) : T := c.finish - c.start

def Slice.duration (s : Slice T) : T := s.finish - s.start

namespace Schedule

def empty : Schedule T := ⟨[], [], 0⟩

/-- A schedule without preemption. -/
def ofCompletions (completions : List (Completion T)) : Schedule T := ⟨completions, [], 0⟩

def addCompletion (s : Schedule T) (c : Completion T) : Schedule T :=
  { s with completions := s.completions ++ [c] }

def addSlice (s : Schedule T) (slice : Slice T) : Schedule T :=
  { s with slices := s.slices ++ [slice] }

def isPreemptive (s : Schedule T) : Bool := !s.slices.isEmpty

/-- The latest finish, zero if nothing ran. -/
def makespan (s : Schedule T) : T := Quantity.largest (s.completions.map (·.finish))

def completionOf? (s : Schedule T) (job : JobId) : Option (Completion T) :=
  s.completions.find? (·.job == job)

def slicesOf (s : Schedule T) (job : JobId) : List (Slice T) :=
  s.slices.filter (·.job == job)

/-- The time for which a job ran. -/
def executionTime? (s : Schedule T) (job : JobId) : Option T :=
  if s.isPreemptive then
    match s.slicesOf job with
    | [] => none
    | slices => some (Quantity.sum (slices.map (·.duration)))
  else
    (s.completionOf? job).map (·.span)

/-- The stretches of time for which some unit was busy, with that unit. -/
def occupied (s : Schedule T) : List (UnitId × T) :=
  if s.isPreemptive then s.slices.map fun slice => (slice.unit, slice.duration)
  else s.completions.map fun c => (c.unit, c.span)

/-- The units that ran anything, in ascending order. -/
def unitsUsed (s : Schedule T) : List UnitId :=
  (s.occupied.map (·.1)).eraseDups.mergeSort (· ≤ ·)

/-- The time for which a unit was busy. -/
def busyTime (s : Schedule T) (unit : UnitId) : T :=
  Quantity.total ((s.occupied.filter (·.1 == unit)).map (·.2))

/-- The busy time of each unit that ran anything, in ascending order of units. -/
def busyTimes (s : Schedule T) : List (UnitId × T) :=
  s.unitsUsed.map fun unit => (unit, s.busyTime unit)

/-- The share of a time span for which a unit was busy. There is none of an empty span. -/
def utilization? (s : Schedule T) (unit : UnitId) (horizon : T) : Option T :=
  if horizon ≤ 0 then none else some (s.busyTime unit / horizon)

/-- The share of the makespan for which each used unit was busy, in ascending order of units. -/
def utilizations (s : Schedule T) : List (UnitId × T) :=
  if s.makespan ≤ 0 then []
  else s.busyTimes.map fun (unit, busy) => (unit, busy / s.makespan)

/-- The assignment that the completions carry out. -/
def assignment (s : Schedule T) : Assignment :=
  .ofPairs (s.completions.map fun c => (c.job, c.unit))

/-- The start of the first slice of a job. -/
def firstStart? (s : Schedule T) (job : JobId) : Option T :=
  (s.slices.find? (·.job == job)).map (·.start)

/-- The jobs with those that the schedule completes marked so. -/
def settle (s : Schedule T) (jobs : List (Job T)) : List (Job T) :=
  jobs.map fun job => if s.completions.any (·.job == job.id) then job.markCompleted else job

end Schedule
end JobAllocation
