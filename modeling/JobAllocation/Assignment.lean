import JobAllocation.Job
import JobAllocation.ExecutionUnit

/-!
# Assignments

An assignment binds jobs to units. The order of its entries is the order of execution: on any one
unit, jobs run in the order in which they are listed. An assignment read from outside may bind a job
twice. One built by `assign` does not.
-/
namespace JobAllocation

structure Assignment where
  entries : List (JobId × UnitId)
  deriving DecidableEq

namespace Assignment

def empty : Assignment := ⟨[]⟩

/-- Rebinds the first entry of a job in its place, or adds one at the end. -/
def rebind (job : JobId) (unit : UnitId) : List (JobId × UnitId) → List (JobId × UnitId)
  | [] => [(job, unit)]
  | entry :: rest => if entry.1 = job then (job, unit) :: rest else entry :: rebind job unit rest

/-- Binds a job to a unit. A job that is already bound keeps its place. -/
def assign (a : Assignment) (job : JobId) (unit : UnitId) : Assignment :=
  ⟨rebind job unit a.entries⟩

/-- Binds each pair in turn. -/
def ofPairs (pairs : List (JobId × UnitId)) : Assignment :=
  pairs.foldl (fun a pair => a.assign pair.1 pair.2) empty

/-- The unit to which a job is bound. -/
def unitOf? (a : Assignment) (job : JobId) : Option UnitId := a.entries.lookup job

def size (a : Assignment) : Nat := a.entries.length

def isEmpty (a : Assignment) : Bool := a.entries.isEmpty

/-- The bound jobs, in order of execution. -/
def jobs (a : Assignment) : List JobId := a.entries.map (·.1)

end Assignment
end JobAllocation
