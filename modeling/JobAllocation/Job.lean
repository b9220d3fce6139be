import JobAllocation.Quantity

/-!
# Jobs

A job is an amount of work, counted in instructions. Policies that do not preempt run it in one
piece. Round robin runs it slice by slice and counts what is left.
-/
namespace JobAllocation

/-- The number by which a job is known. -/
abbrev JobId := Nat

structure Job (T : Type) where
  id : JobId
  name : String
  /-- All of its work, in instructions. -/
  length : Nat
  /-- The earliest time at which it may start. -/
  arrival : T
  deadline : Option T
  /-- The work that is left, in instructions. -/
  remaining : Nat
  deriving DecidableEq

namespace Job

variable {T : Type}

def isComplete (job : Job T) : Bool := job.remaining == 0

def markCompleted (job : Job T) : Job T := { job with remaining := 0 }

/-- The job with all of its work to do. -/
def reset (job : Job T) : Job T := { job with remaining := job.length }

variable [Quantity T]

/-- Whether the job has a deadline and finishes after it. -/
def isLate (job : Job T) (finish : T) : Bool :=
  match job.deadline with
  | some deadline => deadline < finish
  | none => false

/-- How far after its deadline the job finishes. -/
def tardiness (job : Job T) (finish : T) : T :=
  match job.deadline with
  | some deadline => if deadline < finish then finish - deadline else 0
  | none => 0

/-- The deadline, a job without one being due last. -/
def due (job : Job T) : T := job.deadline.getD Quantity.infinity

end Job

/-- The job with a given number, the last one if several have it. -/
def findJob? {T : Type} (jobs : List (Job T)) (id : JobId) : Option (Job T) :=
  jobs.findRev? (·.id == id)

end JobAllocation
