import JobAllocation.Assignment
import JobAllocation.Estimate

/-!
# The load-balancing problem

Arrivals and ready times play no part here: the load of a unit is the sum of the durations of its
jobs, and the makespan of a placement is its largest load. Jobs and units are taken in ascending
order of their numbers, and a placement gives each job, in that order, the position of a unit. Loads
are summed in the order of jobs, so equal placements have equal loads to the last digit.
-/
namespace JobAllocation.LocalSearch

/-- Jobs and units in ascending order of their numbers. -/
structure Problem (T : Type) where
  jobs : List (Job T)
  units : List (ExecutionUnit T)

namespace Problem

variable {T : Type}

/-- The position of a unit. -/
abbrev Position (p : Problem T) := Fin p.units.length

/-- The position of the unit of each job, in the order of jobs. -/
abbrev Placement (p : Problem T) := List p.Position

/-- The number of the unit at a position. -/
def unitId (p : Problem T) (u : p.Position) : UnitId := (p.units.get u).id

/-- The position of the unit with a given number, the last one if several have it. -/
def position? (p : Problem T) (id : UnitId) : Option p.Position :=
  (List.finRange p.units.length).findRev? fun u => p.unitId u == id

/-- Fails at the first entry that binds an unknown job or one that an earlier entry binds. -/
def checkEntries (p : Problem T) : List JobId → List (JobId × UnitId) →
    Except (AllocationError T) Unit
  | _, [] => .ok ()
  | seen, (job, _) :: rest =>
    if ¬ p.jobs.any (·.id == job) then .error (.jobUnknown job)
    else if job ∈ seen then .error (.jobRepeated job)
    else p.checkEntries (job :: seen) rest

/-- The position of the unit to which a job is bound. -/
def locate (p : Problem T) (a : Assignment) (job : Job T) :
    Except (AllocationError T) p.Position :=
  match a.unitOf? job.id with
  | none => .error (.jobUnassigned job.id)
  | some unit =>
    match p.position? unit with
    | none => .error (.unitUnknown job.id unit)
    | some u => .ok u

/-- The placement that an assignment describes. It has to bind each job once, to a known unit. -/
def placementOf (p : Problem T) (a : Assignment) : Except (AllocationError T) p.Placement := do
  p.checkEntries [] a.entries
  p.jobs.mapM (p.locate a)

/-- An assignment rebound to a placement. Its entries keep their order. -/
def rebind (p : Problem T) (a : Assignment) (x : p.Placement) : Assignment :=
  (p.jobs.zip x).foldl (fun a (job, u) => a.assign job.id (p.unitId u)) a

variable [Quantity T]

/-- The problem of some jobs and units. It fails if some job has no duration on some unit. -/
def ofInput (jobs : List (Job T)) (units : List (ExecutionUnit T)) :
    Except (AllocationError T) (Problem T) := do
  let jobs := jobs.mergeSort (·.id ≤ ·.id)
  let units := units.mergeSort (·.id ≤ ·.id)
  jobs.forM fun job => units.forM fun unit => discard (executionTime job.length unit)
  return { jobs, units }

/-- How long a job takes on the unit at a position. -/
def duration (p : Problem T) (job : Job T) (u : p.Position) : T :=
  Quantity.ofNat job.length / (p.units.get u).speed

/-- The jobs placed on the unit at a position. -/
def jobsOn (p : Problem T) (x : p.Placement) (u : p.Position) : List (Job T) :=
  ((p.jobs.zip x).filter (·.2 == u)).map (·.1)

/-- The load of the unit at a position. -/
def load (p : Problem T) (x : p.Placement) (u : p.Position) : T :=
  Quantity.total ((p.jobsOn x u).map (p.duration · u))

/-- The load of every unit. -/
def loads (p : Problem T) (x : p.Placement) : List T :=
  (List.finRange p.units.length).map (p.load x)

/-- The largest load. -/
def makespan (p : Problem T) (x : p.Placement) : T := Quantity.largest (p.loads x)

end Problem

/-- The makespan of an assignment. -/
def makespan {T : Type} [Quantity T] (a : Assignment) (jobs : List (Job T))
    (units : List (ExecutionUnit T)) : Except (AllocationError T) T := do
  let p ← Problem.ofInput jobs units
  return p.makespan (← p.placementOf a)

end JobAllocation.LocalSearch
